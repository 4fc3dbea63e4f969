import RustHadoop.Meta.Commitment

/-!
# A cross-shard rename

One file is renamed from a path of shard `a` to a path of shard `b`, and no other transaction runs.
-/

namespace RustHadoop

open Process (Proc Rules)

def MasterCommand.transactional : MasterCommand → Bool
  | .createTransactionRecord _ | .updateTransactionState _ _ | .applyTransactionOperation _ _
  | .deleteTransactionRecord _ | .setParticipantAcked _ | .incrementInquiryCount _ => true
  | _ => false

theorem MasterState.transactionRecords_applyCommand (s : MasterState) {c : MasterCommand}
    (h : c.transactional = false) : (s.applyCommand c).transactionRecords = s.transactionRecords := by
  cases c with
  | createTransactionRecord | updateTransactionState | applyTransactionOperation | deleteTransactionRecord
  | setParticipantAcked | incrementInquiryCount => cases h
  | renameFile =>
    simp only [MasterState.applyCommand]
    split <;> rfl
  | _ => rfl

/-- The rename of `source` on shard `a` to `dest` on shard `b`. -/
structure CrossShardRename where
  txId : String
  a : String
  b : String
  ne : a ≠ b
  source : String
  dest : String
  /-- the master behind an address -/
  route : String → Option String

namespace CrossShardRename

variable (x : CrossShardRename)

/-- The addresses lead to masters of the shard, or nowhere. -/
def Leads (peers : List String) (shard : String) : Prop :=
  ∀ peer ∈ peers, ∀ address, address = peer ∨ address = "http://" ++ peer →
    ∀ n, x.route address = some n → n = shard

/-- The shard maps place the two paths on the two shards, and the peers of a shard are masters of that shard. -/
structure Placed (e : Surroundings) : Prop where
  source : e.shardMap.getShard x.source = some x.a
  dest : e.shardMap.getShard x.dest = some x.b
  peers : ∀ shard peers, e.shardMap.getPeers shard = some peers → x.Leads peers shard

/-- A command that has nothing to do with the transaction and the two paths. -/
structure Unrelated (c : MasterCommand) : Prop where
  transactional : c.transactional = false
  source : ∀ s : MasterState, (s.applyCommand c).files.lookup x.source = s.files.lookup x.source
  dest : ∀ s : MasterState, (s.applyCommand c).files.lookup x.dest = s.files.lookup x.dest

/-- The two shards: the rename is started on `a`, the background tasks run on both. -/
def service : Process.Service String MasterState MasterCommand TxRequest TxResponse Surroundings where
  apply _ s c := s.applyCommand c
  serve := serve
  route := x.route
  surroundings _ e := x.Placed e
  starts n p := (n = x.a ∧ p = rename x.a x.txId x.source x.dest) ∨
    ((n = x.a ∨ n = x.b) ∧ (p = runTransactionCleanup n ∨ p = runTransactionRecovery n))
  others _ c := x.Unrelated c

/-- A rename from shard `"a"` to shard `"b"`, each with one master. -/
def pair : CrossShardRename where
  txId := "t"
  a := "a"
  b := "b"
  ne := by decide
  source := "/a"
  dest := "/z"
  route address := if address = "http://ma" then some "a" else if address = "http://mb" then some "b" else none

def pairMap : ShardMap := (ShardMap.newRange.addShard "b" ["mb"]).addShard "a" ["ma"]

theorem pair_placed : pair.Placed ⟨0, pairMap, false, true⟩ where
  source := by decide
  dest := by decide
  peers := by
    have hp :
      pairMap.shardPeers = ((∅ : AList fun _ : String => List String).insert "b" ["mb"]).insert "a" ["ma"] :=
      rfl
    intro shard peers h
    rw [ShardMap.getPeers, hp] at h
    by_cases ha : shard = "a"
    · subst ha
      rw [AList.lookup_insert, Option.some.injEq] at h
      subst h
      simp [Leads, pair]
    · rw [AList.lookup_insert_ne ha] at h
      by_cases hb : shard = "b"
      · subst hb
        rw [AList.lookup_insert, Option.some.injEq] at h
        subst h
        simp [Leads, pair]
      · rw [AList.lookup_insert_ne hb, AList.lookup_empty] at h
        cases h

def pairFile : FileMetadata :=
  { FileMetadata.default with path := "/a", size := 7, blocks := [⟨"b0", 7, ["c1"], 0, 0, 0, 0⟩] }

def pairState (n : String) : MasterState :=
  if n = "a" then { MasterState.default with files := (∅ : StringMap FileMetadata).insert "/a" pairFile }
    else .default

end CrossShardRename

end RustHadoop
