import RustHadoop.Meta.Atomicity
import RustHadoop.Meta.Jobs

/-!
# What becomes of a renamed file

The source of a cross-shard rename is deleted only when the file has been created under its destination, so its
blocks are always there.  The rename reports success once the participant has committed.  By then the file is there
under its destination.  Whether it is gone from its source is another matter: the handler does not look at what
becomes of the deletion that it proposes.
-/

namespace RustHadoop

open Process Shards Jobs

open Process (Proc Rules Run)

namespace CrossShardRename

variable (x : CrossShardRename)

/-- A command of another operation: it leaves the two paths and the record of the transaction alone. -/
structure Aside (c : MasterCommand) : Prop where
  source : ∀ s : MasterState, (s.applyCommand c).files.lookup x.source = s.files.lookup x.source
  dest : ∀ s : MasterState, (s.applyCommand c).files.lookup x.dest = s.files.lookup x.dest
  record : ∀ s : MasterState,
    (s.applyCommand c).transactionRecords.lookup x.txId = s.transactionRecords.lookup x.txId
  paths : ∀ r, c = .createTransactionRecord r → ∀ op ∈ r.operations, op.opType.path ≠ x.source ∧
    op.opType.path ≠ x.dest

/-- The rename amidst other operations, with the background tasks on all shards. -/
def amidst : Service String MasterState MasterCommand TxRequest TxResponse Surroundings where
  apply _ s c := s.applyCommand c
  serve := serve
  route := x.route
  surroundings _ e := x.Placed e
  starts n p := (n = x.a ∧ p = rename x.a x.txId x.source x.dest) ∨ p = runTransactionCleanup n ∨
    p = runTransactionRecovery n
  others _ c := x.Aside c

def job : Job := ⟨x.source, x.dest, x.a, x.b, x.ne⟩

variable (file : Option FileMetadata)

/-- The only job; `file` is what was there under its source at the beginning. -/
def jobs : Jobs where
  job t := if t = x.txId then some x.job else none
  strangers := True
  kept := {x.source, x.dest}
  had _ blocks := file.map (·.blocks) = some blocks

def Deleted (l : Ledger) : Prop := ∃ shard, (x.a, .applyTransactionOperation x.txId ⟨shard, .delete x.source⟩) ∈ l

def Reported (_ : String) (l : Ledger) (a : TxResponse) : Prop :=
  ∀ r, a = .renamed r → r.success = true → x.job.Arrived x.txId l ∧ ∃ blocks, (x.jobs file).had x.txId blocks

private theorem Reported.mono {x : CrossShardRename} {file : Option FileMetadata} {n : String} {l l' : Ledger}
    {a : TxResponse} (hl : l ≤ l') (h : x.Reported file n l a) : x.Reported file n l' a :=
  fun r hr hs => ⟨(h r hr hs).1.mono hl, (h r hr hs).2⟩

def reporting : Rules x.amidst Ledger :=
  ((x.jobs file).rules x.amidst fun _ _ => False).ending (x.Reported file) Reported.mono

def SourceIs (l : Ledger) (s : MasterState) : Prop :=
  (x.Deleted l ∧ s.files.lookup x.source = none) ∨ (¬ x.Deleted l ∧ s.files.lookup x.source = file)

/-- How the ledger tells of the two paths, where `file` and `there` were at the beginning. -/
structure Tells (file there : Option FileMetadata) (l : Ledger) (y : World) : Prop where
  commands : l = y.commands
  records : ∀ n t r, (y.state n).transactionRecords.lookup t = some r → (x.jobs file).Recorded n t l r
  source : x.SourceIs file l (y.state x.a)
  dest : x.job.Arrived x.txId l → (y.state x.b).files.lookup x.dest ≠ none
  blocks : ∀ f, (y.state x.b).files.lookup x.dest = some f → there = some f ∨ (x.jobs file).had x.txId f.blocks
  deleted : x.Deleted l → x.job.Arrived x.txId l

variable {x} {file there : Option FileMetadata} {l : Ledger} {y : World} {n : String} {c : MasterCommand}

theorem jobs_self : (x.jobs file).job x.txId = some x.job := if_pos rfl

theorem jobs_of_ne {t : String} (h : t ≠ x.txId) : (x.jobs file).job t = none := if_neg h

private theorem Deleted.of_insert (h : x.Deleted (insert (n, c) l)) :
    x.Deleted l ∨ (n = x.a ∧ ∃ shard, c = .applyTransactionOperation x.txId ⟨shard, .delete x.source⟩) := by
  obtain ⟨shard, h | h⟩ := h
  · obtain ⟨rfl, rfl⟩ := Prod.mk.inj h
    exact .inr ⟨rfl, shard, rfl⟩
  · exact .inl ⟨shard, h⟩

private theorem Deleted.mono {l' : Ledger} (hl : l ⊆ l') (h : x.Deleted l) : x.Deleted l' := by
  obtain ⟨shard, h⟩ := h
  exact ⟨shard, hl h⟩

private theorem source_cases (hc : (x.jobs file).Allows (fun _ _ => False) x.a l c) (s : MasterState) :
    ((s.applyCommand c).files.lookup x.source = none ∧
        ∃ shard, c = .applyTransactionOperation x.txId ⟨shard, .delete x.source⟩) ∨
      ((s.applyCommand c).files.lookup x.source = s.files.lookup x.source ∧
        ¬ ∃ shard, c = .applyTransactionOperation x.txId ⟨shard, .delete x.source⟩) := by
  cases c with
  | applyTransactionOperation t op =>
    by_cases ht : t = x.txId
    · subst ht
      simp only [Allows, MayCarryOut, jobs_self] at hc
      rcases hc with ⟨-, hop, -⟩ | ⟨hb, -⟩
      · obtain ⟨shard, opType⟩ := op
        obtain rfl : opType = .delete x.source := hop
        exact .inl ⟨AList.lookup_erase _ _, shard, rfl⟩
      · exact absurd hb x.ne
    · simp only [Allows, MayCarryOut, jobs_of_ne ht] at hc
      exact .inr ⟨lookup_applyTransactionOperation s fun h => hc.2 (.inl h), by simp [ht]⟩
  | createTransactionRecord | updateTransactionState | deleteTransactionRecord | setParticipantAcked
  | incrementInquiryCount => exact .inr ⟨rfl, by simp⟩
  | _ => exact hc.elim

private theorem dest_cases (hc : (x.jobs file).Allows (fun _ _ => False) x.b l c) (s : MasterState) :
    (∃ f, (s.applyCommand c).files.lookup x.dest = some f ∧
        (s.files.lookup x.dest = some f ∨ (x.jobs file).had x.txId f.blocks)) ∨
      ((s.applyCommand c).files.lookup x.dest = s.files.lookup x.dest ∧
        ∀ shard m, c ≠ .applyTransactionOperation x.txId ⟨shard, .create x.dest m⟩) := by
  cases c with
  | applyTransactionOperation t op =>
    by_cases ht : t = x.txId
    · subst ht
      simp only [Allows, MayCarryOut, jobs_self] at hc
      rcases hc with ⟨ha, -⟩ | ⟨-, m, hop, hm⟩
      · exact absurd ha.symm x.ne
      · obtain ⟨f, hf, hor⟩ := lookup_create s x.dest m
        refine .inl ⟨f, ?_, hor.imp_right ?_⟩
        · rw [← hf, MasterState.applyCommand, hop]
          rfl
        · rintro rfl
          exact hm
    · simp only [Allows, MayCarryOut, jobs_of_ne ht] at hc
      exact .inr ⟨lookup_applyTransactionOperation s fun h => hc.2 (.inr h), by simp [ht]⟩
  | createTransactionRecord | updateTransactionState | deleteTransactionRecord | setParticipantAcked
  | incrementInquiryCount => exact .inr ⟨rfl, by simp⟩
  | _ => exact hc.elim

theorem Tells.known (h : x.Tells file there l y) (n : String) : (x.reporting file).known n l (y.state n) := by
  refine ⟨fun t r hr => h.records n t r hr, fun t j hj hn f hf => ?_⟩
  by_cases ht : t = x.txId
  · subst ht
    rw [jobs_self, Option.some.injEq] at hj
    subst hj hn
    rcases h.source with ⟨-, hnn⟩ | ⟨-, hs⟩
    · exact absurd (hf.symm.trans hnn) (by simp)
    · exact congrArg (Option.map (·.blocks)) (hs.symm.trans hf)
  · rw [jobs_of_ne ht] at hj
    cases hj

private theorem Tells.quiet {z : World} (hs : y.Same z) (h : x.Tells file there l y) : x.Tells file there l z where
  commands := h.commands.trans hs.commands.symm
  records := by rw [hs.state]; exact h.records
  source := by rw [hs.state]; exact h.source
  dest := by rw [hs.state]; exact h.dest
  blocks := by rw [hs.state]; exact h.blocks
  deleted := h.deleted

private theorem Recorded.aside
    (hs : ∀ t r, (y.state n).transactionRecords.lookup t = some r → (x.jobs file).Recorded n t l r)
    (hc : x.Aside c) {t : String} {r : TransactionRecord}
    (hr : ((y.state n).applyCommand c).transactionRecords.lookup t = some r) : (x.jobs file).Recorded n t l r := by
  by_cases ht : t = x.txId
  · subst ht
    rw [hc.record] at hr
    exact hs _ r hr
  · rcases MasterState.record_cases hr with ⟨hn, -⟩ | ⟨r', hr', htr, -⟩
    · simp only [Recorded, jobs_of_ne ht]
      rintro - op hop (h | h)
      · exact (hc.paths r hn op hop).1 h
      · exact (hc.paths r hn op hop).2 h
    · refine (hs t r' hr').terms htr fun _ => .inr fun j hj => ?_
      rw [jobs_of_ne ht] at hj
      cases hj

private theorem Tells.other (h : x.Tells file there l y) (hc : x.Aside c) :
    x.Tells file there l (y.enter n ((y.state n).applyCommand c)) := by
  have hl : ∀ m path, (∀ s : MasterState, (s.applyCommand c).files.lookup path = s.files.lookup path) →
      ((y.enter n ((y.state n).applyCommand c)).state m).files.lookup path = (y.state m).files.lookup path := by
    intro m path hp
    by_cases hm : m = n
    · subst hm
      simp only [World.enter, Function.update_self, hp]
    · simp only [World.enter, Function.update_of_ne hm]
  refine ⟨h.commands, fun m t r hr => ?_, ?_, ?_, ?_, h.deleted⟩
  · by_cases hm : m = n
    · subst hm
      simp only [World.enter, Function.update_self] at hr
      exact Recorded.aside (h.records m) hc hr
    · simp only [World.enter, Function.update_of_ne hm] at hr
      exact h.records m t r hr
  · rw [SourceIs, hl x.a x.source hc.source]
    exact h.source
  · rw [hl x.b x.dest hc.dest]
    exact h.dest
  · rw [hl x.b x.dest hc.dest]
    exact h.blocks

section Apply

variable {i : Nat} {p : Proposal String MasterCommand}

section

variable (h : x.Tells file there l y) (hc : (x.jobs file).Allows (fun _ _ => False) p.node l p.command)
include h hc

private theorem Tells.source_applyAt :
    x.SourceIs file (insert (p.node, p.command) l) ((y.applyAt x.amidst i p).state x.a) := by
  -- a command that does not delete the source leaves it as it is
  have ho : ¬ (p.node = x.a ∧ ∃ shard, p.command = .applyTransactionOperation x.txId ⟨shard, .delete x.source⟩) →
      ((y.applyAt x.amidst i p).state x.a).files.lookup x.source = (y.state x.a).files.lookup x.source →
      x.SourceIs file (insert (p.node, p.command) l) ((y.applyAt x.amidst i p).state x.a) := by
    intro hno hsm
    rw [SourceIs, hsm]
    exact h.source.imp (.imp_left (.mono (Set.subset_insert _ _)))
      (.imp_left fun hn hdel => hn (hdel.of_insert.resolve_right hno))
  by_cases ha : p.node = x.a
  · have hs : (y.applyAt x.amidst i p).state x.a = (y.state x.a).applyCommand p.command := by
      rw [← ha]
      exact World.state_applyAt_self
    rcases source_cases (ha ▸ hc) (y.state x.a) with ⟨hg, shard, he⟩ | ⟨hsm, hno⟩
    · refine .inl ⟨⟨shard, .inl ?_⟩, by rw [hs, hg]⟩
      rw [ha, he]
    · exact ho (fun h => hno h.2) (by rw [hs, hsm])
  · exact ho (fun h => ha h.1) (by rw [World.state_applyAt_of_ne (Ne.symm ha)])

private theorem Tells.dest_applyAt : (x.job.Arrived x.txId (insert (p.node, p.command) l) →
        ((y.applyAt x.amidst i p).state x.b).files.lookup x.dest ≠ none) ∧
      ∀ f, ((y.applyAt x.amidst i p).state x.b).files.lookup x.dest = some f →
        there = some f ∨ (x.jobs file).had x.txId f.blocks := by
  by_cases hb : p.node = x.b
  · have hs : (y.applyAt x.amidst i p).state x.b = (y.state x.b).applyCommand p.command := by
      rw [← hb]
      exact World.state_applyAt_self
    rw [hs]
    rcases dest_cases (hb ▸ hc) (y.state x.b) with ⟨f, hf, hor⟩ | ⟨hsm, hno⟩
    · rw [hf]
      refine ⟨fun _ => Option.some_ne_none f, fun g hg => ?_⟩
      obtain rfl := Option.some.inj hg
      exact hor.elim (h.blocks f) .inr
    · rw [hsm]
      refine ⟨fun ha => h.dest (ha.of_insert.resolve_right ?_), h.blocks⟩
      rintro ⟨-, shard, m, he⟩
      exact hno shard m he
  · rw [World.state_applyAt_of_ne (Ne.symm hb)]
    exact ⟨fun ha => h.dest (ha.of_insert.resolve_right fun h => hb h.1), h.blocks⟩

private theorem Tells.deleted_applyAt
    (hdel : x.Deleted (insert (p.node, p.command) l)) : x.job.Arrived x.txId (insert (p.node, p.command) l) := by
  refine Job.Arrived.mono (Set.subset_insert _ _) ?_
  rcases hdel.of_insert with hdel | ⟨ha, shard, he⟩
  · exact h.deleted hdel
  · rw [ha, he] at hc
    simp only [Allows, MayCarryOut, jobs_self] at hc
    rcases hc with ⟨-, -, harr⟩ | ⟨hb, -⟩
    · exact harr
    · exact absurd hb x.ne

end

private theorem Tells.apply (h : x.Tells file there l y) (hi : y.proposals[i]? = some p) (hp : p.applied = false)
    (hc : (x.jobs file).Allows (fun _ _ => False) p.node l p.command) :
    x.Tells file there (insert (p.node, p.command) l) (y.applyAt x.amidst i p) where
  commands := by rw [World.commands_applyAt hi hp, h.commands]
  records n t r hr := by
    by_cases hn : n = p.node
    · subst hn
      rw [World.state_applyAt_self] at hr
      exact Recorded.apply (h.records p.node) hc r hr
    · rw [World.state_applyAt_of_ne hn] at hr
      exact (h.records n t r hr).mono (Set.subset_insert _ _)
  source := h.source_applyAt hc
  dest := (h.dest_applyAt hc).1
  blocks := (h.dest_applyAt hc).2
  deleted := h.deleted_applyAt hc

end Apply

private theorem reporting_sound : (x.reporting file).Sound .any (x.Tells file there) where
  state h n := h.known n
  quiet hs h := h.quiet hs
  look {l y n e} h he _ := by
    have hpl : (x.jobs file).Placed x.amidst e := by
      refine ⟨fun t j hj => ?_, fun t j hj => ?_, he.peers⟩
      all_goals
        by_cases ht : t = x.txId
        · subst ht
          rw [jobs_self, Option.some.injEq] at hj
          subst hj
          first | exact he.source | exact he.dest
        · rw [jobs_of_ne ht] at hj
          cases hj
    exact ⟨l, le_rfl, h, hpl⟩
  other h hc := ⟨_, le_rfl, h.other hc⟩
  apply h hi hp hc _ := ⟨_, Set.subset_insert _ _, h.apply hi hp hc, Set.mem_insert _ _⟩

private theorem reporting_of_obeys {α : Type} {p : Handler α} {Q : Ledger → α → Prop}
    (h : p.Obeys ((x.jobs file).rules x.amidst fun _ _ => False) n l Q) : p.Obeys (x.reporting file) n l Q :=
  h.ending (x.Reported file) Reported.mono

private theorem starts_obeys {p : Handler (Option TxResponse)} (hp : x.amidst.starts n p) :
    p.Obeys (x.reporting file) n l fun l a => ∀ y, a = some y → (x.reporting file).result n l y := by
  have ht : ∀ {q : Handler (Option TxResponse)},
      q.Obeys ((x.jobs file).rules x.amidst fun _ _ => False) n l (fun _ a => a = none) →
      q.Obeys (x.reporting file) n l fun l a => ∀ y, a = some y → (x.reporting file).result n l y := by
    refine fun hq => (reporting_of_obeys hq).imp fun v a _ ha y hy => ?_
    rw [ha] at hy
    cases hy
  rcases hp with ⟨rfl, rfl⟩ | rfl | rfl
  · refine (reporting_of_obeys (rename_obeys (j := x.job) jobs_self)).imp fun v a _ ha y hy r hr => ?_
    exact ha r (hy.trans (congrArg some hr))
  · exact ht (runTransactionCleanup_obeys trivial)
  · exact ht (runTransactionRecovery_obeys trivial)

variable {state : String → MasterState}

private theorem tells_of_run (hfr : ∀ n, x.txId ∉ (state n).transactionRecords)
    (hpt : ∀ n t r, (state n).transactionRecords.lookup t = some r → ∀ op ∈ r.operations,
      op.opType.path ≠ x.source ∧ op.opType.path ≠ x.dest) (hy : Run x.amidst .any (.init state) y) :
    ∃ l, x.Tells ((state x.a).files.lookup x.source) ((state x.b).files.lookup x.dest) l y ∧
      y.Obeys (x.reporting ((state x.a).files.lookup x.source)) l := by
  have hi : x.Tells ((state x.a).files.lookup x.source) ((state x.b).files.lookup x.dest) ∅ (.init state) := by
    refine ⟨?_, fun n t r hr => ?_, .inr ⟨?_, rfl⟩, ?_, fun f hf => .inl hf, ?_⟩
    · ext d
      simp [World.commands, World.init]
    · by_cases ht : t = x.txId
      · subst ht
        exact absurd (AList.lookup_isSome.1 (hr ▸ rfl)) (hfr n)
      · simp only [Recorded, jobs_of_ne ht]
        rintro - op hop (h | h)
        · exact (hpt n t r hr op hop).1 h
        · exact (hpt n t r hr op hop).2 h
    · simp [Deleted]
    · simp [Job.Arrived]
    · simp [Deleted]
  obtain ⟨l, -, htl, ho⟩ := Run.obeys reporting_sound (fun _ _ _ hr => reporting_of_obeys (serve_obeys hr))
    (fun _ _ _ hp => starts_obeys hp) hi (.init state) hy
  exact ⟨l, htl, ho⟩

private theorem Reachable.amidst (h : Reachable x.service state y) : Run x.amidst .any (.init state) y := by
  refine Reachable.run ?_
  induction h with
  | init => exact .init
  | step _ hs ih =>
    refine ih.step (hs.weaken (fun _ _ he => he) ?_ fun n c hc => ⟨hc.source, hc.dest, fun s => ?_, ?_⟩)
    · rintro n p (h | ⟨-, h⟩)
      · exact .inl h
      · exact .inr h
    · rw [MasterState.transactionRecords_applyCommand s hc.transactional]
    · rintro r rfl
      cases hc.transactional

/-- No data loss: at every instant of every run the blocks of the file are there, under the source path on the
coordinator or under the destination path on the participant. -/
theorem no_data_loss (x : CrossShardRename) (state : String → MasterState) (file : FileMetadata)
    (hrecords : ∀ n, (state n).transactionRecords = ∅) (hsource : (state x.a).files.lookup x.source = some file)
    (hdest : (state x.b).files.lookup x.dest = none) {y : World _ _ _ _ _ _} (hy : Reachable x.service state y) :
    (∃ f, (y.state x.a).files.lookup x.source = some f ∧ f.blocks = file.blocks) ∨
      ∃ f, (y.state x.b).files.lookup x.dest = some f ∧ f.blocks = file.blocks := by
  have hfresh : ∀ n, x.txId ∉ (state n).transactionRecords := by simp [hrecords]
  obtain ⟨l, htells, -⟩ := tells_of_run hfresh (by simp [hrecords]) (Reachable.amidst hy)
  rw [hsource, hdest] at htells
  rcases htells.source with ⟨hdel, -⟩ | ⟨-, hsame⟩
  · obtain ⟨f, hf⟩ := Option.ne_none_iff_exists'.1 (htells.dest (htells.deleted hdel))
    have hblocks := (htells.blocks f hf).resolve_left (by simp)
    exact .inr ⟨f, hf, (Option.some.inj hblocks).symm⟩
  · exact .inl ⟨file, hsame, rfl⟩

def pairRun : List (Move String MasterState MasterCommand TxRequest TxResponse Surroundings) :=
  let e : Surroundings := ⟨0, pairMap, false, true⟩
  [.start "a" (rename "a" "t" "/a" "/z")] ++ List.replicate 6 (.go 0 e) ++
    [.apply 0, .go 0 e, .go 0 e, .apply 1, .go 0 e, .go 0 e, .deliver 0] ++ List.replicate 5 (.go 1 e) ++
    [.apply 2, .go 1 e, .go 1 e, .go 0 e, .go 0 e, .deliver 1] ++ List.replicate 3 (.go 1 e) ++
    [.apply 3, .go 1 e, .go 1 e, .apply 4, .go 1 e, .go 1 e, .go 0 e, .go 0 e, .apply 5]

def pairRenamed : World String MasterState MasterCommand TxRequest TxResponse Surroundings :=
  (World.init pairState).play pair.service pairRun

private theorem pairRun_allowed : ∀ m ∈ pairRun, m.Allowed pair.service := by
  have hgo : ∀ n, pair.service.surroundings n ⟨0, pairMap, false, true⟩ := fun _ => pair_placed
  have hs : pair.service.starts "a" (rename "a" "t" "/a" "/z") := .inl ⟨rfl, rfl⟩
  simp [pairRun, or_imp, forall_and, Move.Allowed, hgo, hs]

theorem no_data_loss_pair : (pairRenamed.state pair.a).files.lookup pair.source = none ∧
    ∃ f, (pairRenamed.state pair.b).files.lookup pair.dest = some f ∧ f.blocks = pairFile.blocks := by
  have hgone : (pairRenamed.state pair.a).files.lookup pair.source = none := by decide +kernel
  have hrecords : ∀ n, (pairState n).transactionRecords = ∅ := by
    intro n
    unfold pairState
    split <;> rfl
  have hsource : (pairState pair.a).files.lookup pair.source = some pairFile := by decide +kernel
  have hdest : (pairState pair.b).files.lookup pair.dest = none := by decide +kernel
  have hr : Reachable pair.service pairState pairRenamed := Reachable.init.play pairRun pairRun_allowed
  rcases no_data_loss pair pairState pairFile hrecords hsource hdest hr with ⟨f, hf, -⟩ | h
  · rw [hgone] at hf
    cases hf
  · exact ⟨hgone, h⟩

/-- A cross-shard rename that has reported success has taken effect exactly if the deletion of its source has been
applied on the coordinator. -/
theorem success_takes_effect_iff (x : CrossShardRename) (state : String → MasterState)
    (hfresh : ∀ n, x.txId ∉ (state n).transactionRecords)
    (hpaths : ∀ n t r, (state n).transactionRecords.lookup t = some r → ∀ op ∈ r.operations,
      op.opType.path ≠ x.source ∧ op.opType.path ≠ x.dest)
    {y : World} (hy : Run x.amidst .any (.init state) y)
    (hsuccess : ∃ n r, ⟨n, none, .run (.ret (some (.renamed r)))⟩ ∈ y.threads ∧ r.success = true) :
    ((y.state x.a).files.lookup x.source = none ∧ (y.state x.b).files.lookup x.dest ≠ none) ↔
      x.Deleted y.commands := by
  obtain ⟨l, htells, hobeys⟩ := tells_of_run hfresh hpaths hy
  obtain ⟨n, r, ht, hr⟩ := hsuccess
  obtain ⟨harrived, blocks, hhad⟩ := hobeys.threads _ ht _ rfl r rfl hr
  rw [← htells.commands]
  rcases htells.source with ⟨hdel, hgone⟩ | ⟨hdel, hsame⟩
  · exact ⟨fun _ => hdel, fun _ => ⟨hgone, htells.dest harrived⟩⟩
  · refine ⟨fun h => ?_, fun h => absurd h hdel⟩
    rw [← hsame, h.1] at hhad
    cases hhad

def pairDeleting : World :=
  (World.init pairState).play pair.amidst
    (renameBegun ++ [.apply 1] ++ renameCommits 1 2 ++ List.replicate 2 (.go 1 (pairAt 0)) ++
      List.replicate 2 (.go 0 (pairAt 0)))

def pairReports : Script :=
  [.go 0 (pairAt 0), .apply 6, .go 0 (pairAt 0), .go 0 (pairAt 0), .apply 7, .go 0 (pairAt 0)]

def pairSuccess : World := pairDeleting.play pair.amidst ([.apply 5, .go 0 (pairAt 0)] ++ pairReports)

/-- The leader has lost its leadership when the deletion is proposed, and has regained it afterwards. -/
def pairDeposed : World := (pairDeleting.hear 0 (.notLeader none)).play pair.amidst pairReports

def reports (y : World) : Bool :=
  y.threads.any fun t => match t.serves, t.task with
    | none, .run (.ret (some (.renamed r))) => r.success
    | _, _ => false

private theorem of_reports {y : World} (h : reports y = true) :
    ∃ n r, ⟨n, none, .run (.ret (some (.renamed r)))⟩ ∈ y.threads ∧ r.success = true := by
  obtain ⟨⟨n, serves, task⟩, ht, hr⟩ := List.any_eq_true.1 h
  split at hr
  · rename_i r hs hts
    obtain rfl : serves = none := hs
    obtain rfl : task = .run (.ret (some (.renamed r))) := hts
    exact ⟨n, r, ht, hr⟩
  · cases hr

private theorem pairDeleting_run : Run pair.amidst .any (.init pairState) pairDeleting := by
  refine Run.play _ ?_ (.any _ _)
  have hgo : ∀ n now, pair.amidst.surroundings n (pairAt now) := fun _ => pairAt_placed
  have hs : pair.amidst.starts "a" (rename "a" "t" "/a" "/z") := .inl ⟨rfl, rfl⟩
  simp [renameBegun, renameCommits, or_imp, forall_and, Move.Allowed, hgo, hs]

private theorem pairReports_allowed : ∀ m ∈ pairReports, m.Allowed pair.amidst := by
  have hgo : ∀ n now, pair.amidst.surroundings n (pairAt now) := fun _ => pairAt_placed
  simp [pairReports, Move.Allowed, hgo]

theorem success_takes_effect_iff_pair : ((pairSuccess.state pair.a).files.lookup pair.source = none ∧
      (pairSuccess.state pair.b).files.lookup pair.dest ≠ none) ∧ pair.Deleted pairSuccess.commands := by
  have hrun : Run pair.amidst .any (.init pairState) pairSuccess := by
    refine pairDeleting_run.trans (Run.play _ ?_ (.any _ _))
    have hgo : ∀ n now, pair.amidst.surroundings n (pairAt now) := fun _ => pairAt_placed
    simpa [Move.Allowed, hgo] using pairReports_allowed
  have hfacts : reports pairSuccess = true ∧ (pairSuccess.state pair.a).files.lookup pair.source = none ∧
      (pairSuccess.state pair.b).files.lookup pair.dest ≠ none := by decide +kernel
  obtain ⟨hreports, heffect⟩ := hfacts
  have hrecords : ∀ n t r, (pairState n).transactionRecords.lookup t = some r → ∀ op ∈ r.operations,
      op.opType.path ≠ pair.source ∧ op.opType.path ≠ pair.dest := by
    intro n t r hr
    have hempty : (pairState n).transactionRecords = ∅ := by
      unfold pairState
      split <;> rfl
    rw [hempty, AList.lookup_empty] at hr
    cases hr
  have hiff := success_takes_effect_iff pair pairState fresh_pairState hrecords hrun (of_reports hreports)
  exact ⟨heffect, hiff.1 heffect⟩

/-- The deletion is refused because the leader has been deposed for a moment.  The handler goes on, reports
success, and the file is there under both paths. -/
theorem success_without_effect : ∃ y : World, Run pair.amidst .any (.init pairState) y ∧
      (∃ n r, ⟨n, none, .run (.ret (some (.renamed r)))⟩ ∈ y.threads ∧ r.success = true) ∧
      (y.state "a").files.lookup "/a" = some pairFile ∧ (y.state "b").files.lookup "/z" ≠ none := by
  have hfacts : reports pairDeposed = true ∧ (pairDeposed.state "a").files.lookup "/a" = some pairFile ∧
      (pairDeposed.state "b").files.lookup "/z" ≠ none := by decide +kernel
  refine ⟨pairDeposed, ?_, of_reports hfacts.1, hfacts.2⟩
  refine pairDeleting_run.trans ((Run.hear 0 ?_).trans (Run.play _ pairReports_allowed (.any _ _)))
  simp

end CrossShardRename

end RustHadoop
