import RustHadoop.Meta.Rename

/-!
# The ledger of a transaction

Any number of cross-shard renames and background tasks run on any number of shards, and one transaction is looked
at. Its ledger is the set of commands that handlers have proposed and that have been applied, with the shards they
were applied on.  What the record of the transaction says on a shard can be read off the ledger: it is committed
only if an operation of the transaction has been carried out somewhere, and it is removed only when a clock has
shown it stale.
-/

namespace RustHadoop

open Commitment TransactionRecord

open Process (Proc Rules Guard Run GuardedStep)

def TransactionRecord.decided (r : TransactionRecord) : Prop := r.state = .committed ∨ r.state = .aborted

instance (r : TransactionRecord) : Decidable r.decided := inferInstanceAs (Decidable (_ ∨ _))

/-- The parts of a record that are fixed when it is created. -/
structure TransactionRecord.SameTerms (r r' : TransactionRecord) : Prop where
  timestamp : r.timestamp = r'.timestamp
  participants : r.participants = r'.participants
  operations : r.operations = r'.operations
  coordinatorShard : r.coordinatorShard = r'.coordinatorShard

namespace MasterState

variable {s : MasterState} {c : MasterCommand} {k : String} {r : TransactionRecord}

private theorem modify_cases {t : String} {f : TransactionRecord → TransactionRecord}
    (h : (s.transactionRecords.modify t f).lookup k = some r) :
    ∃ r', s.transactionRecords.lookup k = some r' ∧ ((k ≠ t ∧ r = r') ∨ (k = t ∧ r = f r')) := by
  rw [StringMap.lookup_modify] at h
  split at h
  · rename_i hk
    obtain ⟨r', hr', rfl⟩ := Option.map_eq_some_iff.1 h
    exact ⟨r', hk ▸ hr', .inr ⟨hk, rfl⟩⟩
  · rename_i hk
    exact ⟨r, h, .inl ⟨hk, rfl⟩⟩

theorem record_cases (h : (s.applyCommand c).transactionRecords.lookup k = some r) :
    (c = .createTransactionRecord r ∧ r.txId = k) ∨
      ∃ r', s.transactionRecords.lookup k = some r' ∧ r.SameTerms r' ∧
        ((r.state = r'.state ∧ ∀ st, c ≠ .updateTransactionState k st) ∨
          c = .updateTransactionState k r.state) := by
  by_cases hc : c.transactional = false
  · rw [transactionRecords_applyCommand s hc] at h
    refine .inr ⟨r, h, ⟨rfl, rfl, rfl, rfl⟩, .inl ⟨rfl, ?_⟩⟩
    rintro st rfl
    cases hc
  cases c with
  | createTransactionRecord r0 =>
    by_cases hk : k = r0.txId
    · subst hk
      simp only [applyCommand, AList.lookup_insert, Option.some.injEq] at h
      subst h
      exact .inl ⟨rfl, rfl⟩
    · simp only [applyCommand, AList.lookup_insert_ne hk] at h
      exact .inr ⟨r, h, ⟨rfl, rfl, rfl, rfl⟩, .inl ⟨rfl, by simp⟩⟩
  | updateTransactionState t st =>
    obtain ⟨r', hr', ⟨hk, rfl⟩ | ⟨rfl, rfl⟩⟩ := modify_cases h
    · exact .inr ⟨r, hr', ⟨rfl, rfl, rfl, rfl⟩, .inl ⟨rfl, by simp [Ne.symm hk]⟩⟩
    · exact .inr ⟨r', hr', ⟨rfl, rfl, rfl, rfl⟩, .inr rfl⟩
  | applyTransactionOperation t op =>
    refine .inr ⟨r, ?_, ⟨rfl, rfl, rfl, rfl⟩, .inl ⟨rfl, by simp⟩⟩
    simp only [applyCommand, applyTransactionOperation] at h
    split at h
    · exact h
    · split at h <;> exact h
  | deleteTransactionRecord t =>
    by_cases hk : k = t
    · subst hk
      simp [applyCommand] at h
    · simp only [applyCommand, AList.lookup_erase_ne hk] at h
      exact .inr ⟨r, h, ⟨rfl, rfl, rfl, rfl⟩, .inl ⟨rfl, by simp⟩⟩
  | setParticipantAcked t | incrementInquiryCount t =>
    obtain ⟨r', hr', ⟨-, rfl⟩ | ⟨-, rfl⟩⟩ := modify_cases h
    · exact .inr ⟨r, hr', ⟨rfl, rfl, rfl, rfl⟩, .inl ⟨rfl, by simp⟩⟩
    · exact .inr ⟨r', hr', ⟨rfl, rfl, rfl, rfl⟩, .inl ⟨rfl, by simp⟩⟩
  | _ => exact absurd rfl hc

theorem record_removed (hr : s.transactionRecords.lookup k = some r)
    (h : (s.applyCommand c).transactionRecords.lookup k = none) : c = .deleteTransactionRecord k := by
  by_cases hc : c.transactional = false
  · rw [transactionRecords_applyCommand s hc, hr] at h
    cases h
  have hm : ∀ (t : String) (f : TransactionRecord → TransactionRecord),
      (s.transactionRecords.modify t f).lookup k ≠ none := by
    intro t f
    rw [StringMap.lookup_modify]
    split
    · rename_i hk
      rw [← hk, hr]
      simp
    · simp [hr]
  cases c with
  | createTransactionRecord r0 =>
    by_cases hk : k = r0.txId
    · subst hk
      simp [applyCommand] at h
    · simp only [applyCommand, AList.lookup_insert_ne hk, hr] at h
      cases h
  | updateTransactionState t st => exact absurd h (hm t _)
  | applyTransactionOperation t op =>
    simp only [applyCommand, applyTransactionOperation] at h
    split at h
    · rw [hr] at h
      cases h
    · split at h <;> rw [hr] at h <;> cases h
  | deleteTransactionRecord t =>
    by_cases hk : k = t
    · rw [hk]
    · simp only [applyCommand, AList.lookup_erase_ne hk, hr] at h
      cases h
  | setParticipantAcked t | incrementInquiryCount t => exact absurd h (hm t _)
  | _ => exact absurd rfl hc

end MasterState

/-- Commands that have been applied, with the shards. -/
abbrev Ledger := Set (String × MasterCommand)

namespace Ledger

variable {l l' : Ledger} {k n : String}

def Carried (k : String) (l : Ledger) : Prop := ∃ n op, (n, .applyTransactionOperation k op) ∈ l

def Decided (k n : String) (l : Ledger) : Prop :=
  (n, .updateTransactionState k .committed) ∈ l ∨ (n, .updateTransactionState k .aborted) ∈ l

def Expired (k : String) (now : Nat) (l : Ledger) : Prop :=
  ∃ n r, (n, .createTransactionRecord r) ∈ l ∧ r.txId = k ∧ Decided k n l ∧ r.isStale now = true

/-- How the ledger accounts for a record on a shard. -/
structure Records (k n : String) (r : TransactionRecord) (l : Ledger) : Prop where
  committed : r.state = .committed → Carried k l ∧ (n, .updateTransactionState k .committed) ∈ l
  aborted : r.state = .aborted → (n, .updateTransactionState k .aborted) ∈ l
  created : ∃ r0, (n, .createTransactionRecord r0) ∈ l ∧ r0.txId = k ∧ r0.timestamp = r.timestamp

theorem Carried.mono (hl : l ⊆ l') (h : Carried k l) : Carried k l' := by
  obtain ⟨n, op, h⟩ := h
  exact ⟨n, op, hl h⟩

theorem Decided.mono (hl : l ⊆ l') (h : Decided k n l) : Decided k n l' := h.imp (fun h => hl h) fun h => hl h

variable {c : MasterCommand}

theorem Carried.of_insert (h : Carried k (insert (n, c) l)) :
    Carried k l ∨ ∃ op, c = .applyTransactionOperation k op := by
  obtain ⟨m, op, h | h⟩ := h
  · exact .inr ⟨op, (Prod.mk.inj h).2.symm⟩
  · exact .inl ⟨m, op, h⟩

theorem Decided.of_insert {m : String} (h : Decided k m (insert (n, c) l)) :
    Decided k m l ∨
      (m = n ∧ (c = .updateTransactionState k .committed ∨ c = .updateTransactionState k .aborted)) := by
  rcases h with (h | h) | (h | h)
  · exact .inr ⟨(Prod.mk.inj h).1, .inl (Prod.mk.inj h).2.symm⟩
  · exact .inl (.inl h)
  · exact .inr ⟨(Prod.mk.inj h).1, .inr (Prod.mk.inj h).2.symm⟩
  · exact .inl (.inr h)

variable {r : TransactionRecord}

theorem Records.mono (hl : l ⊆ l') (h : Records k n r l) : Records k n r l' where
  committed hs := ⟨(h.committed hs).1.mono hl, hl (h.committed hs).2⟩
  aborted hs := hl (h.aborted hs)
  created := by
    obtain ⟨r0, hr, hk⟩ := h.created
    exact ⟨r0, hl hr, hk⟩

theorem Records.decided (h : Records k n r l) (hr : r.decided) : Decided k n l :=
  hr.imp (fun hs => (h.committed hs).2) h.aborted

private theorem Records.expired {now : Nat} (h : Records k n r l) (hr : r.decided)
    (hs : r.isStale now = true) : Expired k now l := by
  obtain ⟨r0, hr0, hk, hts⟩ := h.created
  refine ⟨n, r0, hr0, hk, h.decided hr, ?_⟩
  unfold isStale age at hs ⊢
  rwa [hts]

/-- A handler may propose the command; `ended` says that the record may be removed. -/
def Allows (k : String) (l : Ledger) (ended : Prop) : MasterCommand → Prop
  | .createTransactionRecord r => ¬ r.decided
  | .updateTransactionState t st => st ≠ .pending ∧ (st = .committed → t = k → Carried k l)
  | .deleteTransactionRecord t => t = k → ended
  | _ => True

private theorem Records.apply {s : MasterState} {ended : Prop}
    (hs : ∀ r, s.transactionRecords.lookup k = some r → Records k n r l) (hc : Allows k l ended c)
    (r : TransactionRecord)
    (hr : (s.applyCommand c).transactionRecords.lookup k = some r) : Records k n r (insert (n, c) l) := by
  have hl : l ⊆ insert (n, c) l := Set.subset_insert _ _
  rcases MasterState.record_cases hr with ⟨rfl, hk⟩ | ⟨r', hr', hts, ⟨hst, -⟩ | rfl⟩
  · exact ⟨fun h => absurd (.inl h) hc, fun h => absurd (.inr h) hc, r, Set.mem_insert _ _, hk, rfl⟩
  · have h := (hs r' hr').mono hl
    refine ⟨fun hcom => h.committed (hst ▸ hcom), fun hab => h.aborted (hst ▸ hab), ?_⟩
    rw [hts.timestamp]
    exact h.created
  · have h := (hs r' hr').mono hl
    refine ⟨fun hcom => ?_, fun hab => ?_, ?_⟩
    · have hcr := (hc.2 hcom rfl).mono hl
      rw [hcom] at hcr ⊢
      exact ⟨hcr, Set.mem_insert _ _⟩
    · rw [hab]
      exact Set.mem_insert _ _
    · rw [hts.timestamp]
      exact h.created

end Ledger

/-- Shards with the masters behind addresses and what these see around them. -/
structure Shards where
  route : String → Option String
  sees : String → Surroundings → Prop

namespace Shards

/-- Renames and the background tasks run on every shard, and commands that have nothing to do with transactions are
applied at any time. -/
def service (d : Shards) : Process.Service String MasterState MasterCommand TxRequest TxResponse Surroundings where
  apply _ s c := s.applyCommand c
  serve := serve
  route := d.route
  surroundings := d.sees
  starts n p := (∃ txId source dest, p = rename n txId source dest) ∨ p = runTransactionCleanup n ∨
    p = runTransactionRecovery n
  others _ c := c.transactional = false

variable (d : Shards) (k : String)

/-- The rules of the handlers, for the ledger of transaction `k`; known is the ledger, and whether the record may
be removed. -/
def ledger : Rules d.service (Ledger × Prop) where
  known n w s := ∀ r, s.transactionRecords.lookup k = some r → w.1.Records k n r
  seen _ w e := w.1.Expired k e.now → w.2
  command _ w c := w.1.Allows k w.2 c
  applied n w c := (n, c) ∈ w.1
  request _ _ _ := True
  response w
    | .commitTransaction t, .reply r => r.success = true → t = k → w.1.Carried k
    | .inquireTransaction t, .status s => s = .committed → t = k → w.1.Carried k
    | _, _ => True
  result _ _ _ := True
  known_mono hw h r hr := (h r hr).mono hw.1
  command_mono := by
    intro n w w' c hw h
    cases c with
    | createTransactionRecord r => exact h
    | updateTransactionState t st => exact ⟨h.1, fun hs ht => (h.2 hs ht).mono hw.1⟩
    | deleteTransactionRecord t => exact fun ht => hw.2 (h ht)
    | _ => trivial
  applied_mono hw h := hw.1 h
  request_mono _ h := h
  response_mono := by
    intro w w' r a hw h
    cases r <;> cases a <;> first | exact fun hs ht => (h hs ht).mono hw.1 | trivial
  result_mono _ h := h

section Handlers

variable {d k} {n t : String} {w : Ledger × Prop}

theorem commitment : Commitment (d.ledger k) fun t w => t = k → w.1.Carried k where
  mono hw h ht := (h ht).mono hw.1
  known hs hr hst := by
    rintro rfl
    exact ((hs _ hr).committed hst).1
  update hst h := ⟨hst, h⟩
  ack := trivial
  inquired := trivial
  reply := Iff.rfl
  status := Iff.rfl

theorem reaches {peers : List String} {request : TxRequest} : Reaches (d.ledger k) w peers request :=
  fun _ _ _ _ _ _ => trivial

theorem serve_obeys (r : TxRequest) : (serve n r).Obeys (d.ledger k) n w (Answers (d.ledger k) r) := by
  cases r with
  | prepareTransaction =>
    refine Proc.Obeys.imp (prepareTransaction_obeys fun now => ?_) fun _ _ _ _ _ _ => trivial
    simp [ledger, Ledger.Allows, decided, preparedRecord]
  | commitTransaction txId =>
    refine commitment.commitTransaction_obeys fun v s r op _ _ _ _ => ⟨trivial, ?_⟩
    rintro v' ha rfl
    exact ⟨n, op, ha⟩
  | abortTransaction => exact Proc.Obeys.submit commitment.abort fun _ _ _ _ _ _ => trivial
  | inquireTransaction => exact commitment.inquireTransaction_obeys

private theorem rename_obeys {source dest : String} : Keeps (d.ledger k) n w (rename n t source dest) := by
  refine Commitment.rename_obeys (fun _ => trivial) (fun _ _ _ => trivial) fun v e _ _ v' _ s m _ _ => ?_
  split
  · refine Proc.Obeys.submit trivial fun v _ o _ => ?_
    split <;> trivial
  · refine (commitment.renameAcrossShards_obeys (fun now => ?_) reaches reaches reaches fun _ _ _ => trivial).imp
      fun _ _ _ _ => trivial
    simp [ledger, Ledger.Allows, decided, newRename]

private theorem runTransactionCleanup_obeys : Commitment.Keeps (d.ledger k) n w (runTransactionCleanup n) := by
  refine (Commitment.runTransactionCleanup_obeys fun v s y hs hy => ?_).imp fun _ _ _ _ => trivial
  refine commitment.cleanupRecord_obeys (fun v' e hv he hdec ho ht => ?_) fun _ v' _ => ?_
  · exact he (((hs y.2 (ht ▸ hy)).mono hv.1).expired hdec ho)
  · exact commitment.resolveOutcome_obeys (fun _ _ _ _ => reaches) fun _ _ => trivial

theorem starts_obeys {p : Handler (Option TxResponse)} (hp : d.service.starts n p) : Keeps (d.ledger k) n w p := by
  rcases hp with ⟨txId, source, dest, rfl⟩ | rfl | rfl
  · exact rename_obeys
  · exact runTransactionCleanup_obeys
  · refine (runTransactionRecovery_obeys fun v s y _ _ _ => ?_).imp fun _ _ _ _ => trivial
    exact commitment.recoverRecord_obeys (fun _ _ _ _ => reaches) fun _ _ _ _ _ => trivial

end Handlers

abbrev World := Process.World String MasterState MasterCommand TxRequest TxResponse Surroundings

def record (k : String) (x : World) (n : String) : Option TransactionRecord :=
  (x.state n).transactionRecords.lookup k

/-- The known ledger is that of the world, and it accounts for the records. -/
structure Linked (k : String) (w : Ledger × Prop) (x : World) : Prop where
  commands : w.1 = x.commands
  records : ∀ n r, record k x n = some r → w.1.Records k n r

section Links

variable {d k} {w : Ledger × Prop} {x y : World} {n : String}

theorem record_of_same (h : x.Same y) : record k y = record k x := by
  unfold record
  rw [h.state]

variable {c : MasterCommand}

theorem record_enter (hc : d.service.others n c) :
    record k (x.enter n (d.service.apply n (x.state n) c)) = record k x := by
  funext m
  unfold record
  by_cases hm : m = n
  · subst hm
    simp only [Process.World.enter, Function.update_self]
    exact congrArg _ (MasterState.transactionRecords_applyCommand _ hc)
  · simp only [Process.World.enter, Function.update_of_ne hm]

theorem Linked.init {state : String → MasterState} {ended : Prop} (hf : ∀ n, k ∉ (state n).transactionRecords) :
    Linked k (∅, ended) (.init state) where
  commands := by
    ext
    simp [Process.World.commands, Process.World.init]
  records n r hr := by
    have hn := AList.lookup_eq_none.2 (hf n)
    exact absurd (hn.symm.trans hr) (by simp)

theorem Linked.quiet (hs : x.Same y) (h : Linked k w x) : Linked k w y := by
  refine ⟨h.commands.trans hs.commands.symm, ?_⟩
  rw [record_of_same hs]
  exact h.records

theorem Linked.other (hc : d.service.others n c) (h : Linked k w x) :
    Linked k w (x.enter n (d.service.apply n (x.state n) c)) := by
  refine ⟨h.commands, ?_⟩
  rw [record_enter hc]
  exact h.records

variable {p : Process.Proposal String MasterCommand} {i : Nat}

theorem Linked.apply (hi : x.proposals[i]? = some p)
    (hp : p.applied = false) (hc : w.1.Allows k w.2 p.command) (h : Linked k w x) :
    Linked k (insert (p.node, p.command) w.1, w.2) (x.applyAt d.service i p) := by
  refine ⟨?_, fun m r hr => ?_⟩
  · rw [Process.World.commands_applyAt hi hp, h.commands]
  · by_cases hm : m = p.node
    · subst hm
      unfold record at hr
      rw [Process.World.state_applyAt_self] at hr
      exact Ledger.Records.apply (h.records p.node) hc r hr
    · unfold record at hr
      rw [Process.World.state_applyAt_of_ne hm] at hr
      exact (h.records m r hr).mono (Set.subset_insert _ _)

theorem record_applyAt {r : TransactionRecord} (hr : record k (x.applyAt d.service i p) n = some r) :
    (n = p.node ∧ p.command = .createTransactionRecord r ∧ r.txId = k) ∨
      ∃ r', record k x n = some r' ∧
        ((r.state = r'.state ∧ ∀ st, n = p.node → p.command ≠ .updateTransactionState k st) ∨
        (n = p.node ∧ p.command = .updateTransactionState k r.state)) := by
  unfold record at hr
  by_cases hn : n = p.node
  · subst hn
    rw [Process.World.state_applyAt_self] at hr
    rcases MasterState.record_cases hr with ⟨hc, hk⟩ | ⟨r', hr', -, ⟨hst, hne⟩ | hst⟩
    · exact .inl ⟨rfl, hc, hk⟩
    · exact .inr ⟨r', hr', .inl ⟨hst, fun st _ => hne st⟩⟩
    · exact .inr ⟨r', hr', .inr ⟨rfl, hst⟩⟩
  · rw [Process.World.state_applyAt_of_ne hn] at hr
    exact .inr ⟨r, hr, .inl ⟨rfl, fun _ h => absurd h hn⟩⟩

/-- No command of the ledger passes the test. -/
def untouched (x : World) (test : String → MasterCommand → Bool) : Bool :=
  x.proposals.all fun p => !(p.applied && test p.node p.command)

theorem of_untouched {test : String → MasterCommand → Bool} (h : untouched x test = true)
    (hc : (n, c) ∈ x.commands) : test n c = false := by
  obtain ⟨p, hp, ha, he⟩ := hc
  obtain ⟨rfl, rfl⟩ := Prod.mk.inj he
  simpa [ha] using List.all_eq_true.1 h p hp

end Links

end Shards

def MasterCommand.setsState (k : String) : MasterCommand → Option TxState
  | .updateTransactionState t st => if t = k then some st else none
  | _ => none

def MasterCommand.carriesOut (k : String) : MasterCommand → Bool
  | .applyTransactionOperation t _ => t = k
  | _ => false

end RustHadoop
