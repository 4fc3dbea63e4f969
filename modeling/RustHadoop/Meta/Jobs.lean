import RustHadoop.Meta.Ledger

/-!
# Moving files between shards

Any number of files are moved at the same time, each by a transaction of its own from a path of one shard to a path
of another.  The rules below say what the handlers do to the file tables on behalf of such a job: the participant
creates the file under its destination, and the coordinator deletes the source only when that has been done.  Other
transactions may run as well, if they leave certain paths alone.
-/

namespace RustHadoop

open Commitment

open Process (Proc Rules)

/-- A file that is moved from `source` on shard `a` to `dest` on shard `b`. -/
structure Job where
  source : String
  dest : String
  a : String
  b : String
  ne : a ≠ b

def TxOpType.path : TxOpType → String
  | .delete path => path
  | .create path _ => path

variable {r : TransactionRecord}

namespace Job

variable (j : Job) (t : String)

def Arrived (l : Ledger) : Prop :=
  ∃ shard m, (j.b, .applyTransactionOperation t ⟨shard, .create j.dest m⟩) ∈ l

def RecordedAs (had : List BlockInfo → Prop) (n : String) (r : TransactionRecord) : Prop :=
  r.coordinatorShard = j.a ∧ ∃ m : FileMetadata, had m.blocks ∧
    ((n = j.a ∧ r.participants = [j.a, j.b] ∧ r.operations = [⟨j.a, .delete j.source⟩, ⟨j.b, .create j.dest m⟩]) ∨
      (n = j.b ∧ r.operations = [⟨j.b, .create j.dest m⟩]))

variable {j t} {had : List BlockInfo → Prop} {l l' : Ledger}

theorem Arrived.mono (hl : l ⊆ l') (h : j.Arrived t l) : j.Arrived t l' := by
  obtain ⟨shard, m, h⟩ := h
  exact ⟨shard, m, hl h⟩

theorem Arrived.of_insert {n : String} {c : MasterCommand} (h : j.Arrived t (insert (n, c) l)) :
    j.Arrived t l ∨ (n = j.b ∧ ∃ shard m, c = .applyTransactionOperation t ⟨shard, .create j.dest m⟩) := by
  obtain ⟨shard, m, h | h⟩ := h
  · obtain ⟨rfl, rfl⟩ := Prod.mk.inj h
    exact .inr ⟨rfl, shard, m, rfl⟩
  · exact .inl ⟨shard, m, h⟩

theorem RecordedAs.operations_b (h : j.RecordedAs had j.b r) : ∃ m, r.operations = [⟨j.b, .create j.dest m⟩] := by
  obtain ⟨-, m, -, ⟨hb, -⟩ | ⟨-, ho⟩⟩ := h
  · exact absurd hb.symm j.ne
  · exact ⟨m, ho⟩

private theorem RecordedAs.operations_a (h : j.RecordedAs had j.a r) :
    r.participants = [j.a, j.b] ∧ ∃ m, r.operations = [⟨j.a, .delete j.source⟩, ⟨j.b, .create j.dest m⟩] := by
  obtain ⟨-, m, -, ⟨-, hp, ho⟩ | ⟨ha, -⟩⟩ := h
  · exact ⟨hp, m, ho⟩
  · exact absurd ha j.ne

end Job

/-- The jobs by their transactions. -/
structure Jobs where
  job : String → Option Job
  /-- other transactions may run, but leave the paths in `kept` alone -/
  strangers : Prop
  kept : Set String
  /-- the blocks of the file that the job finds under its source -/
  had : String → List BlockInfo → Prop

variable {op : TxOperation}

namespace Jobs

variable (J : Jobs)

def Recorded (n t : String) (l : Ledger) (r : TransactionRecord) : Prop :=
  match J.job t with
  | some j => j.RecordedAs (J.had t) n r ∧ (r.state = .committed → j.Arrived t l)
  | none => J.strangers → ∀ op ∈ r.operations, op.opType.path ∉ J.kept

def MayCarryOut (n t : String) (l : Ledger) (op : TxOperation) : Prop :=
  match J.job t with
  | some j => (n = j.a ∧ op.opType = .delete j.source ∧ j.Arrived t l) ∨
      (n = j.b ∧ ∃ m, op.opType = .create j.dest m ∧ J.had t m.blocks)
  | none => J.strangers ∧ op.opType.path ∉ J.kept

/-- A handler may propose the command; `client` says so for those that have nothing to do with transactions. -/
def Allows (client : String → MasterCommand → Prop) (n : String) (l : Ledger) : MasterCommand → Prop
  | .createTransactionRecord r => ∃ j, J.job r.txId = some j ∧ j.RecordedAs (J.had r.txId) n r ∧
    r.state ≠ .committed
  | .updateTransactionState t st => st = .committed → ∀ j, J.job t = some j → j.Arrived t l
  | .applyTransactionOperation t op => J.MayCarryOut n t l op
  | .deleteTransactionRecord _ | .setParticipantAcked _ | .incrementInquiryCount _ => True
  | c => client n c

def Requested (n : String) : TxRequest → Prop
  | .prepareTransaction t _ path metadata coordinatorShard _ =>
      ∃ j, J.job t = some j ∧ n = j.b ∧ path = j.dest ∧ coordinatorShard = j.a ∧
        ∃ m : FileMetadata, metadata = some m ∧ J.had t m.blocks
  | .commitTransaction t => (∀ j, J.job t = some j → n = j.b) ∧ (J.job t = none → J.strangers)
  | .abortTransaction _ | .inquireTransaction _ => True

def Answered (l : Ledger) : TxRequest → TxResponse → Prop
  | .commitTransaction t, .reply r => r.success = true → ∀ j, J.job t = some j → j.Arrived t l
  | .inquireTransaction t, .status s => s = .committed → ∀ j, J.job t = some j → j.Arrived t l
  | _, _ => True

section Mono

variable {J} {n t : String} {l l' : Ledger}

theorem Recorded.mono (hl : l ⊆ l') (h : J.Recorded n t l r) : J.Recorded n t l' r := by
  unfold Recorded at h ⊢
  split at h
  · exact ⟨h.1, fun hs => (h.2 hs).mono hl⟩
  · exact h

private theorem MayCarryOut.mono (hl : l ⊆ l') (h : J.MayCarryOut n t l op) : J.MayCarryOut n t l' op := by
  unfold MayCarryOut at h ⊢
  split at h
  · exact h.imp_left fun h => ⟨h.1, h.2.1, h.2.2.mono hl⟩
  · exact h

end Mono

section Rules

variable (sv : Process.Service String MasterState MasterCommand TxRequest TxResponse Surroundings)

/-- The addresses lead to masters of the shard, or nowhere. -/
def Leads (peers : List String) (shard : String) : Prop :=
  ∀ peer ∈ peers, ∀ address, address = peer ∨ address = "http://" ++ peer →
    ∀ n, sv.route address = some n → n = shard

/-- The shard maps place the paths of the jobs on their shards, and the peers of a shard are masters of that
shard. -/
structure Placed (e : Surroundings) : Prop where
  source : ∀ t j, J.job t = some j → e.shardMap.getShard j.source = some j.a
  dest : ∀ t j, J.job t = some j → e.shardMap.getShard j.dest = some j.b
  peers : ∀ shard peers, e.shardMap.getPeers shard = some peers → Leads sv peers shard

def rules (client : String → MasterCommand → Prop) : Rules sv Ledger where
  known n l s := (∀ t r, s.transactionRecords.lookup t = some r → J.Recorded n t l r) ∧
    ∀ t j, J.job t = some j → n = j.a → ∀ f, s.files.lookup j.source = some f → J.had t f.blocks
  seen _ _ e := J.Placed sv e
  command n l c := J.Allows client n l c
  applied n l c := (n, c) ∈ l
  request n _ r := J.Requested n r
  response := J.Answered
  result _ _ _ := True
  known_mono hl h := ⟨fun t r hr => (h.1 t r hr).mono hl, h.2⟩
  command_mono := by
    intro n l l' c hl h
    cases c with
    | updateTransactionState t st => exact fun hs j hj => (h hs j hj).mono hl
    | applyTransactionOperation t op => exact h.mono hl
    | _ => exact h
  applied_mono hl h := hl h
  request_mono _ h := h
  response_mono := by
    intro l l' r a hl h
    cases r <;> cases a <;> first | exact fun hs j hj => (h hs j hj).mono hl | trivial
  result_mono _ h := h

end Rules

section Commands

variable {J} {client : String → MasterCommand → Prop} {n t : String} {l : Ledger} {s : MasterState}
  {c : MasterCommand}

theorem Recorded.of_job {j : Job} (hj : J.job t = some j) (h : J.Recorded n t l r) :
    j.RecordedAs (J.had t) n r ∧ (r.state = .committed → j.Arrived t l) := by
  simpa only [Recorded, hj] using h

theorem Recorded.terms {r' : TransactionRecord} (h : J.Recorded n t l r') (ht : r.SameTerms r')
    (hst : r.state = .committed → r'.state = .committed ∨ ∀ j, J.job t = some j → j.Arrived t l) :
    J.Recorded n t l r := by
  obtain ⟨-, hp, ho, hcr⟩ := ht
  cases hj : J.job t with
  | none =>
    simp only [Recorded, hj] at h ⊢
    rwa [ho]
  | some j =>
    simp only [Recorded, hj] at h ⊢
    refine ⟨?_, fun hc => (hst hc).elim h.2 fun ha => ha j hj⟩
    unfold Job.RecordedAs
    rw [ho, hp, hcr]
    exact h.1

theorem Recorded.apply (hs : ∀ t r, s.transactionRecords.lookup t = some r → J.Recorded n t l r)
    (hc : J.Allows client n l c) (r : TransactionRecord)
    (hr : (s.applyCommand c).transactionRecords.lookup t = some r) : J.Recorded n t (insert (n, c) l) r := by
  have hl : l ⊆ insert (n, c) l := Set.subset_insert _ _
  rcases MasterState.record_cases hr with ⟨rfl, rfl⟩ | ⟨r', hr', ht, ⟨hst, -⟩ | rfl⟩
  · obtain ⟨j, hj, hrec, hne⟩ := hc
    simp only [Recorded, hj]
    exact ⟨hrec, fun h => absurd h hne⟩
  · exact ((hs t r' hr').mono hl).terms ht fun h => .inl (hst ▸ h)
  · exact ((hs t r' hr').mono hl).terms ht fun h => .inr fun j hj => (hc h j hj).mono hl

theorem lookup_applyTransactionOperation (s : MasterState) {op : TxOpType} {path : String} (h : op.path ≠ path) :
    (s.applyTransactionOperation op).files.lookup path = s.files.lookup path := by
  cases op with
  | delete p => exact AList.lookup_erase_ne (Ne.symm h)
  | create p m =>
    simp only [MasterState.applyTransactionOperation]
    split
    · rfl
    · exact AList.lookup_insert_ne (Ne.symm h)

theorem lookup_create (s : MasterState) (path : String) (m : FileMetadata) :
    ∃ f, (s.applyTransactionOperation (.create path m)).files.lookup path = some f ∧
      (s.files.lookup path = some f ∨ f = m) := by
  simp only [MasterState.applyTransactionOperation]
  split
  · rename_i hin
    obtain ⟨f, hf⟩ := Option.isSome_iff_exists.1 (AList.lookup_isSome.2 hin)
    exact ⟨f, hf, .inl hf⟩
  · exact ⟨m, AList.lookup_insert _, .inr rfl⟩

end Commands

section Handlers

variable {J} {sv : Process.Service String MasterState MasterCommand TxRequest TxResponse Surroundings}
  {client : String → MasterCommand → Prop} {n t : String} {l : Ledger} {j : Job}

theorem commitment : Commitment (J.rules sv client) fun t l => ∀ j, J.job t = some j → j.Arrived t l where
  mono hl h j hj := (h j hj).mono hl
  known hs hr hst _ hj := ((hs.1 _ _ hr).of_job hj).2 hst
  update _ h := h
  ack := trivial
  inquired := trivial
  reply := Iff.rfl
  status := Iff.rfl

theorem Leads.reaches {peers : List String} {shard : String} {request : TxRequest} (h : Leads sv peers shard)
    (hr : J.Requested shard request) : Reaches (J.rules sv client) l peers request := by
  intro peer hp address ha m hm
  rw [h peer hp address ha m hm]
  exact hr

theorem Placed.leads {e : Surroundings} (he : J.Placed sv e) (shard : String) :
    Leads sv ((e.shardMap.getPeers shard).getD []) shard := by
  cases h : e.shardMap.getPeers shard with
  | none => exact List.forall_mem_nil _
  | some peers => exact he.peers shard peers h

theorem MayCarryOut.of_job (hj : J.job t = some j) (h : (n = j.a ∧ op.opType = .delete j.source ∧ j.Arrived t l) ∨
      (n = j.b ∧ ∃ m, op.opType = .create j.dest m ∧ J.had t m.blocks)) : J.MayCarryOut n t l op := by
  simpa only [MayCarryOut, hj] using h

theorem Recorded.mayCarryOut (hk : J.Recorded n t l r)
    (hj : J.job t = none) (hs : J.strangers) (hop : op ∈ r.operations) : J.MayCarryOut n t l op := by
  simp only [MayCarryOut, Recorded, hj] at hk ⊢
  exact ⟨hs, hk hs op hop⟩

theorem mayCarryOut_head (hk : J.Recorded n t l r) (hs : J.job t = none → J.strangers)
    (hn : ∀ j, J.job t = some j → n ≠ j.a) (hop : r.operations.head? = some op) : J.MayCarryOut n t l op := by
  cases hj : J.job t with
  | none => exact hk.mayCarryOut hj (hs hj) (List.mem_of_mem_head? hop)
  | some j =>
    obtain ⟨-, m, hm, ⟨ha, -⟩ | ⟨hb, ho⟩⟩ := (hk.of_job hj).1
    · exact absurd ha (hn j hj)
    · rw [ho, List.head?_cons, Option.some.injEq] at hop
      subst hop
      exact .of_job hj (.inr ⟨hb, m, rfl, hm⟩)

private theorem commitTransaction_obeys (hr : J.Requested n (.commitTransaction t)) :
    (commitTransaction t).Obeys (J.rules sv client) n l (Answers (J.rules sv client) (.commitTransaction t)) := by
  refine commitment.commitTransaction_obeys fun v s r op _ hs hrec hop => ⟨?_, fun v' ha j hj => ?_⟩
  · refine mayCarryOut_head (hs.1 t r hrec) hr.2 (fun j hj => ?_) hop
    rw [hr.1 j hj]
    exact Ne.symm j.ne
  · obtain rfl := hr.1 j hj
    obtain ⟨m, ho⟩ := ((hs.1 t r hrec).of_job hj).1.operations_b
    rw [ho, List.head?_cons, Option.some.injEq] at hop
    subst hop
    exact ⟨j.b, m, ha⟩

theorem serve_obeys {r : TxRequest} (hr : J.Requested n r) :
    (serve n r).Obeys (J.rules sv client) n l (Answers (J.rules sv client) r) := by
  cases r with
  | prepareTransaction t op path metadata coordinator peers =>
    obtain ⟨j, hj, rfl, rfl, rfl, m, rfl, hm⟩ := hr
    refine Proc.Obeys.imp (prepareTransaction_obeys fun now => ?_) fun _ _ _ _ _ _ => trivial
    exact ⟨j, hj, ⟨rfl, m, hm, .inr ⟨rfl, rfl⟩⟩, fun h => nomatch h⟩
  | commitTransaction t => exact commitTransaction_obeys hr
  | abortTransaction t => exact Proc.Obeys.submit commitment.abort fun _ _ _ _ _ _ => trivial
  | inquireTransaction t => exact commitment.inquireTransaction_obeys

/-- The answer reports success only if there was a file under the source, and it has arrived. -/
def Reports (J : Jobs) (j : Job) (t : String) (l : Ledger) (a : Option TxResponse) : Prop :=
  ∀ r, a = some (.renamed r) → r.success = true → j.Arrived t l ∧ ∃ blocks, J.had t blocks

private theorem commit_requested (hj : J.job t = some j) : J.Requested j.b (.commitTransaction t) := by
  refine ⟨fun j' hj' => ?_, fun hn => ?_⟩
  · obtain rfl := Option.some.inj (hj.symm.trans hj')
    rfl
  · rw [hj] at hn
    cases hn

theorem rename_obeys (hj : J.job t = some j) :
    (rename j.a t j.source j.dest).Obeys (J.rules sv client) j.a l (J.Reports j t) := by
  refine Commitment.rename_obeys (fun _ r hr => nomatch hr) (fun v e h => ?_) fun v e _ he v' _ s m hs hm => ?_
  · rintro r ⟨⟩ ⟨⟩
  have hh : J.had t m.blocks := hs.2 t j hj rfl m hm
  simp only [he.source t j hj, he.dest t j hj, Option.getD_some]
  rw [if_neg j.ne]
  have hp := he.leads j.b
  refine (commitment.renameAcrossShards_obeys (fun now => ?_) (hp.reaches ⟨j, hj, rfl, rfl, rfl, _, rfl, hh⟩)
    (hp.reaches (commit_requested hj)) (hp.reaches trivial) fun v _ harr => ?_).imp
    fun v a _ ha r hr hs => ⟨ha r hr hs j hj, _, hh⟩
  · exact ⟨j, hj, ⟨rfl, { m with path := j.dest }, hh, .inl ⟨rfl, rfl, rfl⟩⟩, fun h => nomatch h⟩
  · exact .of_job hj (.inl ⟨rfl, rfl, harr j hj⟩)

theorem runTransactionCleanup_obeys (hst : J.strangers) :
    (runTransactionCleanup n).Obeys (J.rules sv client) n l fun _ a => a = none := by
  refine Commitment.runTransactionCleanup_obeys fun v s y hs hy => ?_
  refine commitment.cleanupRecord_obeys (fun _ _ _ _ _ _ => trivial) fun hc v' hv => ?_
  refine commitment.resolveOutcome_obeys (fun _ _ _ _ _ _ _ _ _ _ => trivial) fun op hop => ?_
  refine mayCarryOut_head ((hs.1 y.1 y.2 hy).mono hv) (fun _ => hst) (fun j hj ha => hc ?_) hop
  exact ((hs.1 y.1 y.2 hy).of_job hj).1.1.trans ha.symm

theorem recoverRecord_obeys {y : String × TransactionRecord} (hk : J.Recorded n y.1 l y.2) (hs : J.strangers)
    (hn : y.2.coordinatorShard = n) : Keeps (J.rules sv client) n l (recoverRecord n y) := by
  have hc : ∀ j, J.job y.1 = some j → n = j.a := fun j hj => hn.symm.trans (hk.of_job hj).1.1
  refine commitment.recoverRecord_obeys (fun v e _ he => (he.leads _).reaches ⟨fun j hj => ?_, fun _ => hs⟩)
    fun v op hv ha hop => ?_
  · obtain rfl := hc j hj
    simp [(hk.of_job hj).1.operations_a.1, Ne.symm j.ne]
  · cases hj : J.job y.1 with
    | none => exact (hk.mono hv).mayCarryOut hj hs (List.mem_of_find?_eq_some hop)
    | some j =>
      obtain rfl := hc j hj
      obtain ⟨-, m, ho⟩ := (hk.of_job hj).1.operations_a
      rw [ho] at hop
      obtain rfl := Option.some.inj hop
      exact .of_job hj (.inl ⟨rfl, rfl, ha j hj⟩)

theorem runTransactionRecovery_obeys (hst : J.strangers) :
    (runTransactionRecovery n).Obeys (J.rules sv client) n l fun _ a => a = none :=
  Commitment.runTransactionRecovery_obeys fun _ _ _ hs hy hn => recoverRecord_obeys (hs.1 _ _ hy) hst hn

end Handlers

end Jobs

end RustHadoop
