import RustHadoop.Lib.Alone
import RustHadoop.Meta.Atomicity
import RustHadoop.Meta.Jobs

/-!
# The promise of a participant

A participant that answers a prepare request with success promises to create the file when it is told to commit.
It looks for its record by the transaction id only: a record that is there is taken for its own, also when it is
the one that the same master keeps as the coordinator.
-/

namespace RustHadoop

open CrossShardRename

open Process (Proc Alone Outcome)

/-- There is a record of the transaction that is prepared or committed and whose first operation creates the
file. -/
def MasterState.Promises (s : MasterState) (txId path : String) (metadata : FileMetadata) : Prop :=
  ∃ r, s.transactionRecords.lookup txId = some r ∧ (r.state = .prepared ∨ r.state = .committed) ∧
    ∃ shardId, r.operations.head? = some ⟨shardId, .create path metadata⟩

namespace Shards

variable (d : Shards)

/-- A handler that runs alone; its proposals may fail. -/
abbrev RunsAlone {α : Type} (σ : String → MasterState) (n : String) (p : Handler α)
    (σ' : String → MasterState) (a : α) : Prop :=
  Alone d.service (· ≠ .applied) σ n p σ' a

/-- Committing the transaction takes no file away, and if it succeeds the file is there. -/
def CommitCreates (n : String) (σ : String → MasterState) (txId path : String) : Prop :=
  ∀ σ' a, d.RunsAlone σ n (commitTransaction txId) σ' a →
    (∀ p f, (σ n).files.lookup p = some f → (σ' n).files.lookup p = some f) ∧
      ∀ r, a = some (.reply r) → r.success = true → path ∈ (σ' n).files

structure Promise (n : String) (σ : String → MasterState) (txId path : String) (metadata : FileMetadata) :
    Prop where
  record : (σ n).Promises txId path metadata
  commit : d.CommitCreates n σ txId path

variable {d} {n txId path : String} {σ σ' : String → MasterState} {metadata : FileMetadata}

theorem files_kept_create (s : MasterState) {p : String} {f : FileMetadata} (h : s.files.lookup p = some f) :
    (s.applyTransactionOperation (.create path metadata)).files.lookup p = some f := by
  simp only [MasterState.applyTransactionOperation]
  split
  · exact h
  · rename_i hn
    have hp : p ≠ path := by
      rintro rfl
      exact hn (AList.lookup_isSome.1 (h ▸ rfl))
    rw [← h]
    exact AList.lookup_insert_ne hp

private theorem commitCreates_of_prepared {r : TransactionRecord} {shardId : String}
    (hr : (σ n).transactionRecords.lookup txId = some r) (hst : r.state = .prepared)
    (hop : r.operations.head? = some ⟨shardId, .create path metadata⟩) : d.CommitCreates n σ txId path := by
  intro σ' a h
  unfold commitTransaction at h
  rw [RunsAlone, Alone.state_iff] at h
  simp only [hr, Option.any_some, hst, reduceCtorEq, decide_false, Bool.false_eq_true, if_false] at h
  rw [Alone.state_iff] at h
  simp only [hr, Option.bind_some, hop, Alone.submit_iff] at h
  have hk : ∀ (s : MasterState) p f, s.files.lookup p = some f →
      (d.service.apply n s (.applyTransactionOperation txId ⟨shardId, .create path metadata⟩)).files.lookup
        p = some f :=
    fun s p f => files_kept_create s
  obtain ⟨f, hf, -⟩ := Jobs.lookup_create (σ n) path metadata
  have hin :
    path ∈ (d.service.apply n (σ n) (.applyTransactionOperation txId ⟨shardId, .create path metadata⟩)).files :=
    AList.lookup_isSome.1 (by rw [show AList.lookup path _ = some f from hf]; rfl)
  rcases h with (h | ⟨o, -, h⟩) | ⟨o, ho, h⟩
  · obtain ⟨rfl, rfl⟩ := Alone.ret_iff.1 h
    simp only [Function.update_self]
    exact ⟨hk _, fun _ _ _ => hin⟩
  · obtain ⟨rfl, rfl⟩ := Alone.ret_iff.1 h
    simp only [Function.update_self]
    exact ⟨hk _, fun _ _ _ => hin⟩
  · cases o with
    | applied => exact absurd rfl ho
    | notLeader hint =>
      obtain ⟨rfl, rfl⟩ := Alone.ret_iff.1 h
      exact ⟨fun _ _ h => h, by rintro r ⟨⟩ ⟨⟩⟩
    | closed | dropped =>
      obtain ⟨rfl, rfl⟩ := Alone.ret_iff.1 h
      exact ⟨fun _ _ h => h, by simp⟩

private theorem promise_of_fresh {metadata : Option FileMetadata} {coordinatorShard : String} {r : TxReply}
    (hf : txId ∉ (σ n).transactionRecords)
    (h : d.RunsAlone σ n (prepareTransaction n txId path metadata coordinatorShard) σ' (some (.reply r)))
    (hr : r.success = true) : d.Promise n σ' txId path (metadata.getD .default) := by
  unfold prepareTransaction at h
  rw [RunsAlone, Alone.state_iff, if_neg hf, Alone.around_iff] at h
  obtain ⟨e, -, h⟩ := h
  split at h
  · rw [Alone.state_iff] at h
    split at h
    · obtain ⟨-, hret⟩ := Alone.ret_iff.1 h
      cases hret
      cases hr
    · rw [Alone.around_iff] at h
      obtain ⟨e', -, h⟩ := h
      rcases Alone.submit_iff.1 h with h | ⟨o, ho, h⟩
      · obtain ⟨rfl, -⟩ := Alone.ret_iff.1 h
        have hl : ∀ record : TransactionRecord, record.txId = txId →
            (Function.update σ n (d.service.apply n (σ n) (.createTransactionRecord record))
              n).transactionRecords.lookup
              txId = some record := by
          rintro record rfl
          rw [Function.update_self]
          exact AList.lookup_insert _
        exact ⟨⟨_, hl _ rfl, .inl rfl, n, rfl⟩, commitCreates_of_prepared (hl _ rfl) rfl rfl⟩
      · obtain ⟨-, hret⟩ := Alone.ret_iff.1 h
        cases o with
        | applied => exact absurd rfl ho
        | notLeader hint =>
          cases hret
          cases hr
        | closed | dropped => cases hret
  · obtain ⟨-, hret⟩ := Alone.ret_iff.1 h
    cases hret

/-- A participant that answers a prepare request with success has made the promise exactly if it had no record of
the transaction or one that makes it. -/
theorem prepare_promise_iff (d : Shards) (n txId path : String) (metadata : Option FileMetadata)
    (coordinatorShard : String) {σ σ' : String → MasterState} {r : TxReply}
    (h : d.RunsAlone σ n (prepareTransaction n txId path metadata coordinatorShard) σ' (some (.reply r)))
    (hr : r.success = true) :
    d.Promise n σ' txId path (metadata.getD .default) ↔
      txId ∉ (σ n).transactionRecords ∨ d.Promise n σ txId path (metadata.getD .default) := by
  by_cases hin : txId ∈ (σ n).transactionRecords
  · unfold prepareTransaction at h
    rw [RunsAlone, Alone.state_iff, if_pos hin] at h
    obtain ⟨rfl, -⟩ := Alone.ret_iff.1 h
    exact ⟨.inr, fun h => h.resolve_left (not_not.2 hin)⟩
  · exact ⟨fun _ => .inl hin, fun _ => promise_of_fresh hin h hr⟩

theorem prepare_promise_iff_pair : ∃ σ', pairShards.RunsAlone pairState "b"
        (prepareTransaction "b" "t" "/z" (some pairFile) "a") σ' (some (.reply ⟨true, "", ""⟩)) ∧
      pairShards.Promise "b" σ' "t" "/z" pairFile := by
  have hrun : ∃ σ', Process.runAlone pairShards.service (fun _ => pairAt 0) 0 pairState "b"
      (prepareTransaction "b" "t" "/z" (some pairFile) "a") = some (σ', some (.reply ⟨true, "", ""⟩)) := ⟨_, rfl⟩
  obtain ⟨σ', hσ⟩ := hrun
  have h : pairShards.RunsAlone pairState "b"
      (prepareTransaction "b" "t" "/z" (some pairFile) "a") σ' (some (.reply ⟨true, "", ""⟩)) :=
    .of_runAlone (fun n => sees_pairAt n 0) 0 hσ
  exact ⟨σ', h, (prepare_promise_iff _ _ _ _ _ _ h rfl).2 (.inl (fresh_pairState "b"))⟩

/-- The shard map after the only shard has been split at `"/m"`, with its only master as the peer of the new
shard. -/
def sharedMap : ShardMap := ((ShardMap.newRange.addShard "a" ["m"]).splitShard "/m" "b" ["m"]).1

def sharedAt : Surroundings := ⟨0, sharedMap, false, true⟩

def sharedShards : Shards :=
  ⟨fun address => if address = "http://m" then some "a" else none, fun _ e => e = sharedAt⟩

def sharedFile : FileMetadata := FileMetadata.created "/z" 0 0

def sharedState (n : String) : MasterState :=
  if n = "a" then { MasterState.default with files := (∅ : StringMap FileMetadata).insert "/z" sharedFile }
    else .default

/-- The coordinator's record when it asks the participant to prepare. -/
def sharedRecord : TransactionRecord :=
  { TransactionRecord.newRename "t" "/z" "/a" "a" "b" { sharedFile with path := "/a" } 0 with state := .prepared }

def sharedPrepared (n : String) : MasterState :=
  if n = "a" then
    { sharedState "a" with transactionRecords := (∅ : StringMap TransactionRecord).insert "t" sharedRecord }
  else .default

/-- The master takes the record that it keeps as the coordinator for the one of the participant.  It answers that
it is prepared, its commit deletes the source, and the rename reports success although the file is gone. -/
theorem promise_broken_by_shared_master : (∃ r, sharedShards.RunsAlone sharedPrepared "a"
        (prepareTransaction "a" "t" "/a" (some { sharedFile with path := "/a" }) "a") sharedPrepared
          (some (.reply r)) ∧
      r.success = true) ∧
    ¬ (sharedPrepared "a").Promises "t" "/a" { sharedFile with path := "/a" } ∧
    ∃ σ, sharedShards.RunsAlone sharedState "a" (rename "a" "t" "/z" "/a") σ renameDone ∧
      (σ "a").files.lookup "/z" = none ∧ (σ "a").files.lookup "/a" = none ∧ (σ "b").files.lookup "/a" = none := by
  have hsees : ∀ n : String, sharedShards.service.surroundings n sharedAt := fun _ => rfl
  refine ⟨⟨⟨true, "", ""⟩, .of_runAlone hsees 0 rfl, rfl⟩, ?_, ?_⟩
  · rintro ⟨r, hr, -, shardId, hop⟩
    obtain rfl : sharedRecord = r := Option.some.inj hr
    cases hop
  · have hrun : ∃ σ, Process.runAlone sharedShards.service (fun _ => sharedAt) 1 sharedState "a"
        (rename "a" "t" "/z" "/a") = some (σ, renameDone) := ⟨_, rfl⟩
    obtain ⟨σ, hσ⟩ := hrun
    refine ⟨σ, .of_runAlone hsees 1 hσ, ?_⟩
    have hfiles : ((Process.runAlone sharedShards.service (fun _ => sharedAt) 1 sharedState "a"
        (rename "a" "t" "/z" "/a")).map fun y => ((y.1 "a").files.lookup "/z", (y.1 "a").files.lookup "/a",
          (y.1 "b").files.lookup "/a")) = some (none, none, none) := by decide +kernel
    simpa [hσ] using hfiles

end Shards

end RustHadoop
