import RustHadoop.Meta.Atomicity

/-!
# Garbage collection of transaction records

A record is removed because it is old, not because the transaction is over.  The two are the same in a run in which
a transaction is over within the hour: no clock shows a decided record of it stale while a record of it is
undecided on some shard, and nothing is prepared after a decision.
-/

namespace RustHadoop

open Process CrossShardRename

open Process (Proc Rules Guard Run GuardedStep)

namespace Shards

/-- Wherever a record of the transaction has been created, it is decided or gone. -/
def Settled (k : String) (x : World) : Prop :=
  ∀ n r0, (n, .createTransactionRecord r0) ∈ x.commands → r0.txId = k → ∀ r, record k x n = some r → r.decided

/-- The transaction is over within the hour. -/
def timely (k : String) : Guard String MasterState MasterCommand TxRequest TxResponse Surroundings where
  look x _ e := Ledger.Expired k e.now x.commands → Settled k x
  apply x p :=
    match p.command with
    | .createTransactionRecord r => r.txId = k → ∀ n, ¬ Ledger.Decided k n x.commands
    | .updateTransactionState t .prepared => t = k → ∀ n, ¬ Ledger.Decided k n x.commands
    | _ => True

/-- What is true of the world in such a run: a record may be removed only when the transaction is over. -/
structure Over (k : String) (w : Ledger × Prop) (x : World) : Prop extends Linked k w x where
  ended : w.2 → (∃ n, w.1.Decided k n) ∧ ∀ n r, record k x n = some r → r.decided

variable {d : Shards} {k : String} {w : Ledger × Prop} {x y : World}

private theorem Over.apply {i : Nat} {p : Proposal String MasterCommand} (h : Over k w x)
    (hi : x.proposals[i]? = some p) (hp : p.applied = false) (hc : w.1.Allows k w.2 p.command)
    (hg : (timely k).apply x p) : Over k (insert (p.node, p.command) w.1, w.2) (x.applyAt d.service i p) := by
  obtain ⟨m, c, _⟩ := p
  simp only [timely, ← h.commands] at hg
  refine ⟨h.toLinked.apply hi hp hc, fun ho => ?_⟩
  obtain ⟨⟨l, hdec⟩, ha⟩ := h.ended ho
  refine ⟨⟨l, hdec.mono (Set.subset_insert _ _)⟩, fun n r hr => ?_⟩
  rcases record_applyAt hr with ⟨rfl, rfl, hk⟩ | ⟨r', hr', ⟨hst, -⟩ | ⟨rfl, rfl⟩⟩
  · exact absurd hdec (hg hk l)
  · exact (ha n r' hr').imp (hst.trans ·) (hst.trans ·)
  · cases hs : r.state with
    | pending => exact absurd hs hc.1
    | prepared =>
      rw [hs] at hg
      exact absurd hdec (hg rfl l)
    | committed => exact .inl hs
    | aborted => exact .inr hs

private theorem timely_sound : (d.ledger k).Sound (timely k) (Over k) where
  state h n r hr := h.records n r hr
  quiet hs h := by
    refine ⟨h.toLinked.quiet hs, ?_⟩
    rw [record_of_same hs]
    exact h.ended
  look {w x n e} h _ hg := by
    refine ⟨(w.1, w.2 ∨ w.1.Expired k e.now), ⟨le_rfl, .inl⟩, ⟨⟨h.commands, h.records⟩, ?_⟩, .inr⟩
    rintro (ho | he)
    · exact h.ended ho
    · have hst := hg (h.commands ▸ he)
      refine ⟨?_, fun m r hr => ?_⟩
      · obtain ⟨m, r0, -, -, hdec, -⟩ := he
        exact ⟨m, hdec⟩
      · obtain ⟨r0, hr0, hk, -⟩ := (h.records m r hr).created
        exact hst m r0 (h.commands ▸ hr0) hk r hr
  other h hc := by
    refine ⟨_, le_rfl, h.toLinked.other hc, ?_⟩
    rw [record_enter hc]
    exact h.ended
  apply {w x i p} h hi hp hc hg :=
    ⟨(insert (p.node, p.command) w.1, w.2), ⟨Set.subset_insert _ _, le_rfl⟩, h.apply hi hp hc hg,
      Set.mem_insert _ _⟩

theorem exists_of_removed {see : String → Surroundings → Prop} (h : Step (d.service.seeing see) x y) {n : String}
    {r : TransactionRecord} (hr : record k x n = some r) (hg : record k y n = none) :
    ∃ p ∈ x.proposals, p.command = .deleteTransactionRecord k := by
  have hne : record k y n ≠ record k x n := by simp [hr, hg]
  rcases h.state_cases with hs | ⟨m, c, hc, hs⟩ | ⟨i, p, hi, hp, rfl⟩
  · refine absurd ?_ hne
    unfold record
    rw [hs]
  · refine absurd (congrFun (Eq.trans ?_ (record_enter (d := d) (x := x) (n := m) hc)) n) hne
    unfold record
    rw [hs]
    rfl
  · by_cases hn : n = p.node
    · subst hn
      unfold record at hg
      rw [World.state_applyAt_self] at hg
      exact ⟨p, List.mem_of_getElem? hi, MasterState.record_removed hr hg⟩
    · refine absurd ?_ hne
      unfold record
      rw [World.state_applyAt_of_ne hn]

/-- In a run in which the transaction is over within the hour, a record of it is removed only when every shard has
decided it or has no record of it. -/
theorem removed_when_settled (d : Shards) (k : String) (state : String → MasterState)
    (hfresh : ∀ n, k ∉ (state n).transactionRecords) {x y : World} (hx : Run d.service (timely k) (.init state) x)
    (hy : GuardedStep d.service (timely k) x y) {n : String} {r : TransactionRecord} (hr : record k x n = some r)
    (hgone : record k y n = none) : ∀ m r', record k x m = some r' → r'.decided := by
  have hinit : Over k (∅, False) (.init state) := ⟨Linked.init hfresh, False.elim⟩
  obtain ⟨w, -, hover, hobeys⟩ := Run.obeys timely_sound (fun _ _ r _ => serve_obeys r)
    (fun _ _ _ hp => (starts_obeys hp).imp fun _ _ _ _ _ _ => trivial) hinit (.init state) hx
  obtain ⟨p, hp, hdelete⟩ := exists_of_removed hy.1 hr hgone
  have hallowed := (hobeys.proposals p hp).1
  rw [hdelete] at hallowed
  exact (hover.ended (hallowed rfl)).2

/-- A test for `timely`; it asks for more, as it does not look at the decisions. -/
def inTime (k : String) (x : World) :
    Move String MasterState MasterCommand TxRequest TxResponse Surroundings → Bool
  | .apply i => (x.proposals[i]?).all fun p =>
    let undecided := untouched x fun _ c => c.setsState k = some .committed || c.setsState k = some .aborted
    match p.command with
    | .createTransactionRecord r => r.txId ≠ k || undecided
    | .updateTransactionState t .prepared => t ≠ k || undecided
    | _ => true
  | .go _ e =>
    (untouched x fun _ c => match c with
      | .createTransactionRecord r => r.txId = k && r.isStale e.now
      | _ => false) ||
    untouched x fun n c => match c with
      | .createTransactionRecord r => r.txId = k && (record k x n).any fun r => !decide r.decided
      | _ => false
  | _ => true

private theorem inTime_sound (x : World) (m) (h : inTime k x m = true) : m.Guarded (timely k) x := by
  cases m with
  | start | deliver => trivial
  | go i e =>
    rintro n ⟨n', r0, hr0, hk, -, hs⟩ m r1 hr1 hk1 r hr
    rcases (Bool.or_eq_true _ _).mp h with hu | hu
    · simpa [hk, hs] using of_untouched hu hr0
    · simpa [hk1, hr] using of_untouched hu hr1
  | apply i =>
    intro p hp
    have hun : (untouched x fun _ c => c.setsState k = some .committed || c.setsState k = some .aborted) = true →
        ∀ n, ¬ Ledger.Decided k n x.commands := by
      rintro hu n (hd | hd) <;> simpa [MasterCommand.setsState] using of_untouched hu hd
    simp only [inTime, hp, Option.all_some] at h
    simp only [timely]
    split at h
    · rintro rfl
      exact hun (by simpa using h)
    · rintro rfl
      exact hun (by simpa using h)
    · trivial

def cleanupRemoves (i : Nat) : Script :=
  [.start "b" (runTransactionCleanup "b")] ++ List.replicate 6 (.go i (pairAt 3600001))

def pairSettled : Script := renameBegun ++ [.apply 1] ++ renameCommits 1 2 ++ renameCloses 1 2 ++ cleanupRemoves 1

def pairStale : World := (World.init pairState).play pairShards.service pairSettled

theorem removed_when_settled_pair :
    (record "t" pairStale "b").isSome ∧ record "t" (pairStale.move pairShards.service (.apply 7)) "b" = none ∧
      ∀ m r, record "t" pairStale m = some r → r.decided := by
  have hrun : ((World.init pairState).check pairShards.service (inTime "t") pairSettled = true ∧
      inTime "t" pairStale (.apply 7) = true) ∧ (record "t" pairStale "b").isSome ∧
      record "t" (pairStale.move pairShards.service (.apply 7)) "b" = none := by decide +kernel
  obtain ⟨⟨hcx, hcy⟩, hb, hgone⟩ := hrun
  refine ⟨hb, hgone, ?_⟩
  obtain ⟨r, hr⟩ := Option.isSome_iff_exists.1 hb
  have hx : Run pairShards.service (timely "t") (.init pairState) pairStale := by
    refine Run.play _ ?_ (.of_check inTime_sound _ hcx)
    simp [pairSettled, renameBegun, renameCommits, renameCloses, cleanupRemoves, or_imp, forall_and,
      Move.Allowed, sees_pairAt, starts_rename, starts_cleanup]
  have hguarded := inTime_sound _ _ hcy
  rcases World.move_guardedStep (m := .apply 7) trivial hguarded with hsame | hstep
  · rw [hsame, hr] at hgone
    cases hgone
  · exact removed_when_settled pairShards "t" _ fresh_pairState hx hstep hr hgone

/-- The participant has committed and its answer does not arrive.  An hour later its cleanup task removes the
record, while the coordinator still has the transaction prepared. -/
theorem removed_too_early : ∃ x y : World, Run pairShards.service .any (.init pairState) x ∧
      GuardedStep pairShards.service .any x y ∧ (record "t" x "b").map TransactionRecord.state = some .committed ∧
      record "t" y "b" = none ∧ (record "t" y "a").map TransactionRecord.state = some .prepared := by
  have hx : Run pairShards.service .any (.init pairState)
      (pairCommitted.play pairShards.service (cleanupRemoves 2)) := by
    refine (Run.play _ ?_ (.any _ _)).trans (Run.play _ ?_ (.any _ _))
    · simp [renameBegun, renameCommits, or_imp, forall_and, Move.Allowed, sees_pairAt, starts_rename]
    · simp [cleanupRemoves, or_imp, forall_and, Move.Allowed, sees_pairAt, starts_cleanup]
  have hrun :
    (record "t" (pairCommitted.play pairShards.service (cleanupRemoves 2)) "b").map TransactionRecord.state =
        some .committed ∧
      record "t"
        ((pairCommitted.play pairShards.service (cleanupRemoves 2)).move pairShards.service (.apply 5)) "b" =
        none ∧
      (record "t"
        ((pairCommitted.play pairShards.service (cleanupRemoves 2)).move pairShards.service (.apply 5)) "a").map
        TransactionRecord.state = some .prepared := by decide +kernel
  rcases World.move_guardedStep (g := .any)
    (x := pairCommitted.play pairShards.service (cleanupRemoves 2)) (m := .apply 5) trivial fun _ _ => trivial
    with hsame | hstep
  · rw [hsame] at hrun
    rw [hrun.2.1] at hrun
    cases hrun.1
  · exact ⟨_, _, hx, hstep, hrun⟩

end Shards

end RustHadoop
