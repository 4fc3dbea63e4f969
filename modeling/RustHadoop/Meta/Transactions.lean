import RustHadoop.Lib.Process
import RustHadoop.Meta.AppState

/-!
# Cross-shard transactions

The handlers of `dfs/metaserver/src/master.rs` that move a file from one shard to another: `rename` on the
coordinator, `prepare_transaction`, `commit_transaction`, `abort_transaction` and `inquire_transaction`, and one
cycle of each of the two background tasks `run_transaction_cleanup` and `run_transaction_recovery`.

A shard is a state machine for `MasterCommand`; a handler runs on one of its masters.  What a master sees around it
is the clock, its copy of the shard map, whether it is in safe mode and whether a linearizable read succeeds; each
time it looks, these may have changed.  An error status is the answer `none`.  Logging and the request monitor are
left out.
-/

namespace RustHadoop

open Process (Proc Outcome)

namespace TransactionRecord

def newRename (txId sourcePath destPath sourceShard destShard : String) (metadata : FileMetadata) (now : Nat) :
    TransactionRecord where
  txId := txId
  txType := .rename sourcePath destPath
  state := .pending
  timestamp := now
  participants := [sourceShard, destShard]
  operations := [⟨sourceShard, .delete sourcePath⟩, ⟨destShard, .create destPath metadata⟩]
  coordinatorShard := sourceShard
  participantAcked := false
  inquiryCount := 0

variable (record : TransactionRecord)

/-- The age of a record, a difference of two `u64`. -/
def age (now : Nat) : Nat := (now + 2 ^ 64 - record.timestamp) % 2 ^ 64

def isTimedOut (now : Nat) : Bool := 10000 < record.age now

def isStale (now : Nat) : Bool := 3600000 < record.age now

end TransactionRecord

inductive TxRequest
  | prepareTransaction (txId operationType path : String) (metadata : Option FileMetadata)
    (coordinatorShard : String)
      (coordinatorPeers : List String)
  | commitTransaction (txId : String)
  | abortTransaction (txId : String)
  | inquireTransaction (txId : String)

inductive InquiryStatus
  | committed
  | aborted
  | unknown
deriving DecidableEq

structure TxReply where
  success : Bool
  errorMessage : String
  leaderHint : String

structure RenameResponse where
  success : Bool
  errorMessage : String
  leaderHint : String
  redirectHint : String

inductive TxResponse
  | reply (r : TxReply)
  | status (s : InquiryStatus)
  | renamed (r : RenameResponse)

/-- What a master sees around it. -/
structure Surroundings where
  now : Nat
  shardMap : ShardMap
  safeMode : Bool
  linearizable : Bool

abbrev Handler := Proc MasterState MasterCommand TxRequest TxResponse Surroundings

def ShardMap.owns (map : ShardMap) (shardId path : String) : Bool :=
  match map.getShard path with
  | some target => target = shardId
  | none => true

def FileMetadata.default : FileMetadata := ⟨"", 0, [], "", 0, 0, 0, 0, 0, 0⟩

def Outcome.reply : Outcome → Option TxResponse
  | .applied => some (.reply ⟨true, "", ""⟩)
  | .notLeader hint => some (.reply ⟨false, "Not Leader", hint.getD ""⟩)
  | .closed | .dropped => none

def prepareTransaction (shardId txId path : String) (metadata : Option FileMetadata) (coordinatorShard : String) :
    Handler (Option TxResponse) := do
  let s ← Proc.state
  if txId ∈ s.transactionRecords then
    return some (.reply ⟨true, "", ""⟩)
  else
    let e ← Proc.around
    if e.shardMap.owns shardId path then
      let s ← Proc.state
      if path ∈ s.files then
        return some (.reply ⟨false, "Destination file already exists: " ++ path, ""⟩)
      else
        let e ← Proc.around
        let outcome ← Proc.submit (.createTransactionRecord
          { txId := txId
            txType := .rename "" path
            state := .prepared
            timestamp := e.now
            participants := [coordinatorShard, shardId]
            operations := [⟨shardId, .create path (metadata.getD .default)⟩]
            coordinatorShard := coordinatorShard
            participantAcked := false
            inquiryCount := 0 })
        return Outcome.reply outcome
    else
      return none

variable (txId : String)

def commitTransaction : Handler (Option TxResponse) := do
  let s ← Proc.state
  if (s.transactionRecords.lookup txId).any fun record => record.state = .committed then
    return some (.reply ⟨true, "", ""⟩)
  else
    let s ← Proc.state
    match (s.transactionRecords.lookup txId).bind fun record => record.operations.head? with
    | some op =>
      let outcome ← Proc.submit (.applyTransactionOperation txId op)
      match outcome with
      | .applied =>
        let _ ← Proc.submit (.updateTransactionState txId .committed)
        return some (.reply ⟨true, "", ""⟩)
      | .notLeader hint => return some (.reply ⟨false, "Not Leader", hint.getD ""⟩)
      | .closed | .dropped => return none
    | none => return some (.reply ⟨false, "Transaction not found: " ++ txId, ""⟩)

def abortTransaction : Handler (Option TxResponse) := do
  let outcome ← Proc.submit (.updateTransactionState txId .aborted)
  return Outcome.reply outcome

variable (record : TransactionRecord)

def TransactionRecord.inquiryStatus : InquiryStatus :=
  match record.state with
  | .committed => .committed
  | .aborted => .aborted
  | .pending | .prepared => .unknown

def inquireTransaction : Handler (Option TxResponse) := do
  let e ← Proc.around
  if e.linearizable then
    let s ← Proc.state
    return some (.status (((s.transactionRecords.lookup txId).map TransactionRecord.inquiryStatus).getD .unknown))
  else
    return none

/-- The request goes to one peer after the other until one accepts it or refuses it without naming a leader. -/
def sendToDestShard (request : TxRequest) : List String → Handler Bool
  | [] => return false
  | peer :: peers => do
    let answer ← Proc.ask (if peer.startsWith "http://" then peer else "http://" ++ peer) request
    match answer with
    | some (.reply r) =>
      if r.success then return true
      else if r.leaderHint = "" then return false
      else sendToDestShard request peers
    | _ => sendToDestShard request peers

def sendPrepareToDestShard (shardId txId path : String) (metadata : FileMetadata) : List String → Handler Bool :=
  sendToDestShard (.prepareTransaction txId "CREATE" path (some metadata) shardId [])

def sendCommitToDestShard : List String → Handler Bool := sendToDestShard (.commitTransaction txId)

def sendAbortToDestShard : List String → Handler Bool := sendToDestShard (.abortTransaction txId)

def renameFailed (errorMessage leaderHint : String) : Option TxResponse :=
  some (.renamed ⟨false, errorMessage, leaderHint, ""⟩)

def renameDone : Option TxResponse := some (.renamed ⟨true, "", "", ""⟩)

/-- Steps 4 to 8 of a cross-shard rename: commit on the participant, delete the source, close the record. -/
def commitRename (txId sourcePath sourceShard : String) (destPeers : List String) :
    Handler (Option TxResponse) := do
  let committed ← sendCommitToDestShard txId destPeers
  if committed then
    let _ ← Proc.submit (.applyTransactionOperation txId ⟨sourceShard, .delete sourcePath⟩)
    let _ ← Proc.submit (.updateTransactionState txId .committed)
    let _ ← Proc.submit (.setParticipantAcked txId)
    return renameDone
  else
    return renameFailed "Cross-shard commit pending, will be retried" ""

/-- Steps 2 and 3: mark the record as prepared and ask the participant to prepare. -/
def prepareRename (shardId txId sourcePath destPath sourceShard : String) (metadata : FileMetadata)
    (destPeers : List String) : Handler (Option TxResponse) := do
  let outcome ← Proc.submit (.updateTransactionState txId .prepared)
  match outcome with
  | .applied =>
    let prepared ← sendPrepareToDestShard shardId txId destPath metadata destPeers
    if prepared then
      commitRename txId sourcePath sourceShard destPeers
    else
      let _ ← sendAbortToDestShard txId destPeers
      let _ ← Proc.submit (.updateTransactionState txId .aborted)
      return renameFailed "Cross-shard prepare failed" ""
  | .closed =>
    let _ ← sendAbortToDestShard txId destPeers
    return renameFailed "Internal error: Raft unavailable" ""
  | .notLeader _ | .dropped =>
    let _ ← sendAbortToDestShard txId destPeers
    return renameFailed "Internal error: Raft commit failed" ""

def renameAcrossShards (shardId txId sourcePath destPath sourceShard destShard : String) (metadata : FileMetadata)
    (destPeers : List String) : Handler (Option TxResponse) := do
  let metadata := { metadata with path := destPath }
  let e ← Proc.around
  let outcome ← Proc.submit (.createTransactionRecord
    (.newRename txId sourcePath destPath sourceShard destShard metadata e.now))
  match outcome with
  | .applied => prepareRename shardId txId sourcePath destPath sourceShard metadata destPeers
  | .closed => return renameFailed "Internal error: Raft unavailable" ""
  | .notLeader hint => return renameFailed "Not Leader" (hint.getD "")
  | .dropped => return renameFailed "Internal error: Raft commit failed" ""

def renameInShard (sourcePath destPath : String) : Handler (Option TxResponse) := do
  let outcome ← Proc.submit (.renameFile sourcePath destPath)
  match outcome with
  | .applied => return renameDone
  | .notLeader hint => return renameFailed "Not Leader" (hint.getD "")
  | .closed | .dropped => return none

/-- `txId` is the fresh id that the handler draws. -/
def rename (shardId txId sourcePath destPath : String) : Handler (Option TxResponse) := do
  let e ← Proc.around
  if e.shardMap.owns shardId sourcePath then
    let e ← Proc.around
    if e.safeMode then
      return none
    else
      let e ← Proc.around
      let sourceShard := (e.shardMap.getShard sourcePath).getD shardId
      let destShard := (e.shardMap.getShard destPath).getD shardId
      let destPeers := (e.shardMap.getPeers destShard).getD []
      let s ← Proc.state
      match s.files.lookup sourcePath with
      | none => return renameFailed ("Source file not found: " ++ sourcePath) ""
      | some metadata =>
        if sourceShard = destShard then
          renameInShard sourcePath destPath
        else
          renameAcrossShards shardId txId sourcePath destPath sourceShard destShard metadata destPeers
  else
    return none

def timedOut : Handler Bool := do
  let e ← Proc.around
  return record.isTimedOut e.now

def stale : Handler Bool := do
  let e ← Proc.around
  return record.isStale e.now

def viaRaft (command : MasterCommand) : Handler Unit := do
  let _ ← Proc.submit command
  return ()

def abortViaRaft : Handler Unit := viaRaft (.updateTransactionState txId .aborted)

def commitViaRaft : Handler Unit := viaRaft (.updateTransactionState txId .committed)

def deleteViaRaft : Handler Unit := viaRaft (.deleteTransactionRecord txId)

def applyOperationViaRaft (op : TxOperation) : Handler Unit :=
  viaRaft (.applyTransactionOperation txId op)

def incrementInquiryCountViaRaft : Handler Unit := viaRaft (.incrementInquiryCount txId)

def peerAddress (peer : String) : String := if peer.startsWith "http" then peer else "http://" ++ peer

/-- The status that the first reachable peer reports. -/
def inquireCoordinator (txId : String) : List String → Handler (Option InquiryStatus)
  | [] => return none
  | peer :: peers => do
    let answer ← Proc.ask (peerAddress peer) (.inquireTransaction txId)
    match answer with
    | some (.status s) => return some s
    | _ => inquireCoordinator txId peers

def maxInquiryRetries : Nat := 60

/-- What a participant does with a prepared record that has timed out. -/
def resolveOutcome (record : TransactionRecord) : Handler Unit := do
  let e ← Proc.around
  let status ← inquireCoordinator txId ((e.shardMap.getPeers record.coordinatorShard).getD [])
  match status with
  | some .committed =>
    match record.operations.head? with
    | some op =>
      applyOperationViaRaft txId op
      commitViaRaft txId
    | none => return ()
  | some .aborted => abortViaRaft txId
  | some .unknown =>
    incrementInquiryCountViaRaft txId
    if maxInquiryRetries < record.inquiryCount + 1 then abortViaRaft txId else return ()
  | none => return ()

variable (shardId : String)

def cleanupRecord (x : String × TransactionRecord) : Handler Unit := do
  let late ← timedOut x.2
  let old ← stale x.2
  if x.2.coordinatorShard = "" then
    match x.2.state with
    | .pending | .prepared => if late then abortViaRaft x.1 else return ()
    | .committed | .aborted => if old then deleteViaRaft x.1 else return ()
  else
    match x.2.state, decide (x.2.coordinatorShard = shardId) with
    | .pending, _ => if late then abortViaRaft x.1 else return ()
    | .prepared, true => return ()
    | .prepared, false => if late then resolveOutcome x.1 x.2 else return ()
    | .committed, true => if x.2.participantAcked && old then deleteViaRaft x.1 else return ()
    | .committed, false | .aborted, _ => if old then deleteViaRaft x.1 else return ()

def MasterState.records (s : MasterState) : List (String × TransactionRecord) :=
  s.transactionRecords.entries.map fun x => (x.1, x.2)

def runTransactionCleanup : Handler (Option TxResponse) := do
  let s ← Proc.state
  let records ← Proc.select (fun x => do
    let late ← timedOut x.2
    let old ← stale x.2
    return late || old) s.records
  Proc.each (cleanupRecord shardId) records
  return none

/-- The commit request of the recovery task goes to one peer after the other until one accepts it. -/
def retryCommit (txId : String) : List String → Handler Bool
  | [] => return false
  | peer :: peers => do
    let answer ← Proc.ask (peerAddress peer) (.commitTransaction txId)
    match answer with
    | some (.reply r) => if r.success then return true else retryCommit txId peers
    | _ => retryCommit txId peers

def TxOpType.isDelete : TxOpType → Bool
  | .delete _ => true
  | .create _ _ => false

def applyDeleteViaRaft (record : TransactionRecord) : Handler Unit :=
  match record.operations.find? fun op => op.opType.isDelete with
  | some op => applyOperationViaRaft txId op
  | none => pure ()

def recoverRecord (x : String × TransactionRecord) : Handler Unit := do
  let e ← Proc.around
  let destShard := (x.2.participants.find? fun p => p ≠ shardId).getD ""
  let committed ← retryCommit x.1 ((e.shardMap.getPeers destShard).getD [])
  if committed then
    match x.2.state with
    | .committed => viaRaft (.setParticipantAcked x.1)
    | .prepared =>
      applyDeleteViaRaft x.1 x.2
      commitViaRaft x.1
      viaRaft (.setParticipantAcked x.1)
    | .pending | .aborted => return ()
  else
    return ()

def runTransactionRecovery : Handler (Option TxResponse) := do
  let s ← Proc.state
  let records ← Proc.select (fun x => do
    let late ← timedOut x.2
    return x.2.coordinatorShard = shardId &&
      ((x.2.state = .committed && !x.2.participantAcked) || (x.2.state = .prepared && late))) s.records
  Proc.each (recoverRecord shardId) records
  return none

def serve : TxRequest → Handler (Option TxResponse)
  | .prepareTransaction txId _ path metadata coordinatorShard _ =>
      prepareTransaction shardId txId path metadata coordinatorShard
  | .commitTransaction txId => commitTransaction txId
  | .abortTransaction txId => abortTransaction txId
  | .inquireTransaction txId => inquireTransaction txId

end RustHadoop
