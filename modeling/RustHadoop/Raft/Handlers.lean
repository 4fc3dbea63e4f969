import RustHadoop.Raft.Node

/-!
# Message and event handlers of a node

`handle_rpc`, `handle_event`, `handle_event_batch` and `tick` of `dfs/metaserver/src/simple_raft.rs`, and the
membership requests `handle_add_servers_request` and `handle_remove_servers_request`.
-/

namespace RustHadoop

namespace RaftNode

/-- The loop of the branch for `prev_log_index` at the snapshot: overwrite from the first conflict on. -/
def mergeEntries (n : RaftNode) (batch : List (Nat × LogEntry)) (index : Nat) :
    List LogEntry → RaftNode × List (Nat × LogEntry)
  | [] => (n, batch)
  | entry :: entries =>
    match n.log[index - n.lastIncludedIndex]? with
    | some mine =>
      if mine.term = entry.term then n.mergeEntries batch (index + 1) entries
      else
        let n := { n with log := n.log.take (index - n.lastIncludedIndex) }.deleteLogEntriesFrom index
        { n with log := n.log ++ [entry] }.mergeEntries (batch ++ [(index, entry)]) (index + 1) entries
    | none => { n with log := n.log ++ [entry] }.mergeEntries (batch ++ [(index, entry)]) (index + 1) entries

variable (n : RaftNode)

/-- Drop the whole log if its first entry, the snapshot point, is of another term. -/
def truncateAtSnapshot (prevLogTerm : Nat) : RaftNode :=
  match n.log.head? with
  | some first =>
    if first.term = prevLogTerm then n else { n with log := [] }.deleteLogEntriesFrom (n.lastIncludedIndex + 1)
  | none => n

variable (args : AppendEntriesArgs)

/-- `prev_log_index` is the snapshot point and the terms agree. -/
def appendAtSnapshot : RaftNode :=
  let merged := (n.truncateAtSnapshot args.prevLogTerm).mergeEntries [] (args.prevLogIndex + 1) args.entries
  (merged.1.saveLogEntriesBatch merged.2).emit
    (.replicated n.currentTerm (args.prevLogIndex + args.entries.length))

/-- The first loop of the normal case: truncate at the first conflict. -/
def truncateConflict (n : RaftNode) (index : Nat) : List LogEntry → RaftNode
  | [] => n
  | entry :: entries =>
    match n.log[index - n.lastIncludedIndex]? with
    | some mine =>
      if mine.term = entry.term then n.truncateConflict (index + 1) entries
      else { n with log := n.log.take (index - n.lastIncludedIndex) }.deleteLogEntriesFrom index
    | none => n

/-- The second loop of the normal case: append what is beyond the end of the log. -/
def appendMissing (n : RaftNode) (batch : List (Nat × LogEntry)) (index : Nat) :
    List LogEntry → RaftNode × List (Nat × LogEntry)
  | [] => (n, batch)
  | entry :: entries =>
    if n.log.length ≤ index - n.lastIncludedIndex then
      { n with log := n.log ++ [entry] }.appendMissing (batch ++ [(index, entry)]) (index + 1) entries
    else n.appendMissing batch (index + 1) entries

/-- `prev_log_index` is after the snapshot point and the terms agree. -/
def appendAfterSnapshot : RaftNode :=
  let truncated := n.truncateConflict (args.prevLogIndex + 1) args.entries
  let appended := truncated.appendMissing [] (args.prevLogIndex + 1) args.entries
  (appended.1.saveLogEntriesBatch appended.2).emit
    (.replicated n.currentTerm (args.prevLogIndex + args.entries.length))

/-- The log part of the handler, with the flag and the index of the reply. -/
def replicateEntries : RaftNode × Bool × Nat :=
  if args.prevLogIndex < n.lastIncludedIndex then (n, false, n.lastIncludedIndex)
  else if args.prevLogIndex = n.lastIncludedIndex then
    if args.prevLogTerm = n.lastIncludedTerm then
      (n.appendAtSnapshot args, true, args.prevLogIndex + args.entries.length)
    else (n, false, 0)
  else
    match n.log[args.prevLogIndex - n.lastIncludedIndex]? with
    | some prevEntry =>
      if prevEntry.term = args.prevLogTerm then
        (n.appendAfterSnapshot args, true, args.prevLogIndex + args.entries.length)
      else (n, false, args.prevLogIndex)
    | none => (n, false, n.lastIncludedIndex)

/-- Take over the leader's commit index as far as the log reaches. -/
def followCommit (leaderCommit : Nat) : RaftNode :=
  if n.commitIndex < leaderCommit then { n with commitIndex := min leaderCommit n.lastLogIndex }.applyLogs else n

def handleAppendEntries : RaftNode × RpcMessage :=
  if n.currentTerm ≤ args.term then
    let n := { n.stepDownToFollower args.term (some args.leaderAddress) with currentLeader := some args.leaderId }
    let (n, success, matchIndex) := n.replicateEntries args
    let n := if success then n.followCommit args.leaderCommit else n
    (n, .appendEntriesResponse ⟨n.currentTerm, success, matchIndex, n.id⟩)
  else (n, .appendEntriesResponse ⟨n.currentTerm, false, 0, n.id⟩)

def recordMatch (i index : Nat) : RaftNode :=
  { n with nextIndex := n.nextIndex.set i (index + 1), matchIndex := n.matchIndex.set i index }

/-- The peer position of a member, found by its address. -/
def peerIndex (serverId : Nat) : Option Nat :=
  (n.clusterConfig.allMembers.lookup serverId).bind fun addr => n.peers.findIdx? (· = addr)

/-- What each member is known to hold: the leader all of its log, the others their match index. -/
def serverMatchIndices : List (Nat × Nat) :=
  (n.id, n.lastLogIndex) :: n.clusterConfig.allMembers.entries.filterMap fun m =>
    if m.1 ≠ n.id then
      ((n.peers.findIdx? (· = m.2)).bind fun i => n.matchIndex[i]?).map fun index => (m.1, index)
    else none

def acksFor (index : Nat) : Finset Nat :=
  ((n.serverMatchIndices.filter fun p => index ≤ p.2).map Prod.fst).toFinset

/-- The highest known index that a majority holds, or else the commit index. -/
def majorityMatchIndex : Nat :=
  (((n.serverMatchIndices.map Prod.snd).insertionSort (· ≥ ·)).find? fun index =>
    n.clusterConfig.hasJointMajority (n.acksFor index)).getD n.commitIndex

def advanceCommit : RaftNode :=
  let index := n.majorityMatchIndex
  if n.commitIndex < index then
    match n.log[index - n.lastIncludedIndex]? with
    | some entry => if entry.term = n.currentTerm then { n with commitIndex := index }.applyLogs else n
    | none => n
  else n

def recordProgress (peerId index : Nat) : RaftNode :=
  match n.catchUpProgress.lookup peerId with
  | some progress => { n with catchUpProgress := n.catchUpProgress.insert peerId (progress.update index) }
  | none => n

/-- What a response of this term says about the peer that sent it. -/
def recordAppendResponse (reply : AppendEntriesReply) : RaftNode :=
  match n.peerIndex reply.peerId with
  | some i =>
    if reply.success then
      (((n.recordMatch i reply.matchIndex).recordProgress reply.peerId reply.matchIndex).ackReads
        reply.peerId).checkReadIndices
    else if n.lastIncludedIndex + 1 < n.nextIndex.getD i 0 then
      { n with nextIndex := n.nextIndex.set i (n.nextIndex.getD i 0 - 1) }
    else n
  | none => n

def handleAppendEntriesResponse (reply : AppendEntriesReply) : RaftNode :=
  if n.role = .leader ∧ reply.term = n.currentTerm then (n.recordAppendResponse reply).advanceCommit
  else if n.currentTerm < reply.term then n.stepDownForgetting reply.term
  else n

def handleInstallSnapshot (args : InstallSnapshotArgs) : RaftNode × RpcMessage :=
  let n :=
    if n.currentTerm ≤ args.term then
      let n := { n.stepDownToFollower args.term none with currentLeader := some args.leaderId }
      if n.lastIncludedIndex < args.lastIncludedIndex then
        n.installSnapshot args.lastIncludedIndex args.lastIncludedTerm args.data
      else n
    else n
  (n, .installSnapshotResponse ⟨n.currentTerm, n.lastIncludedIndex, n.id⟩)

def containsText (haystack needle : String) : Bool := haystack.toList.tails.any fun t => needle.toList.isPrefixOf t

def handleInstallSnapshotResponse (reply : InstallSnapshotReply) : RaftNode :=
  if n.role = .leader ∧ reply.term = n.currentTerm then
    -- the peer is the first whose address contains the digits of the id
    match n.peers.findIdx? fun p => containsText p (toString reply.peerId) with
    | some i => ((n.recordMatch i reply.lastIncludedIndex).ackReads reply.peerId).checkReadIndices
    | none => n
  else if n.currentTerm < reply.term then n.stepDownForgetting reply.term
  else n

def handleTimeoutNow (args : TimeoutNowArgs) : RaftNode × RpcMessage :=
  if args.term < n.currentTerm then (n, .timeoutNowResponse ⟨n.currentTerm, false⟩)
  else
    let n := if n.currentTerm < args.term then n.stepDownToFollower args.term none else n
    let n := n.standForElection
    (n, .timeoutNowResponse ⟨n.currentTerm, true⟩)

def handleRpc : RpcMessage → RaftNode × RpcMessage
  | .requestVote args => n.handleRequestVote args
  | .requestVoteResponse reply => (n.handleRequestVoteResponse reply, .requestVoteResponse reply)
  | .appendEntries args => n.handleAppendEntries args
  | .appendEntriesResponse reply => (n.handleAppendEntriesResponse reply, .appendEntriesResponse reply)
  | .installSnapshot args => n.handleInstallSnapshot args
  | .installSnapshotResponse reply => (n.handleInstallSnapshotResponse reply, .installSnapshotResponse reply)
  | .timeoutNow args => n.handleTimeoutNow args
  | .timeoutNowResponse reply => (n, .timeoutNowResponse reply)

def clusterInfo : ClusterInfo where
  nodeId := n.id
  role := n.role
  currentTerm := n.currentTerm
  leaderId := n.currentLeader
  leaderAddress := n.currentLeaderAddress
  peers := n.peers
  commitIndex := n.commitIndex
  lastApplied := n.lastApplied
  logLen := n.log.length + n.lastIncludedIndex
  votesReceived := n.votesReceived
  clusterConfig := n.clusterConfig
  configChangeState := n.configChangeState
  isSafeMode := n.appState.isSafeMode

def readRequest (tx : Nat) : ReadIndexRequest where
  readIndex := n.commitIndex
  term := n.currentTerm
  acks := {n.id}
  majorityConfirmed := n.clusterConfig.hasJointMajority {n.id}
  replyTx := tx

def registerRead (tx : Nat) : RaftNode :=
  { n with pendingReadIndices := n.pendingReadIndices ++ [n.readRequest tx] }.emit (.readIndex tx n.commitIndex)

def handleGetReadIndex (tx : Nat) : RaftNode :=
  if n.role = .leader then
    let n := n.registerRead tx
    let n := if n.clusterConfig.hasJointMajority {n.id} then n.checkReadIndices else n
    if n.peers.isEmpty then n else n.sendHeartbeats
  else n.emit (.replyRead tx (.error n.currentLeaderAddress) n.lastApplied)

/-- The `ClientRequest` arm of `handle_event`, which `handle_event_batch` never reaches. -/
def handleClientRequest (command : Command) (tx : Nat) : RaftNode :=
  if n.role = .leader then
    let entry : LogEntry := ⟨n.currentTerm, command⟩
    let n := { n with log := n.log ++ [entry] }
    let index := n.lastLogIndex
    let n := (n.saveLogEntry index entry).commitAlone
    let n := { n with pendingReplies := n.pendingReplies.insert index tx }
    if n.peers.isEmpty then n else n.sendHeartbeats
  else n.emit (.reply tx (.error n.currentLeaderAddress))

def handleEvent : Event → RaftNode
  | .rpc msg replyTx =>
      let (n, response) := n.handleRpc msg
      match replyTx with
      | some tx => n.emit (.respond tx response)
      | none => n
  | .clientRequest command tx => n.handleClientRequest command tx
  | .getLeaderInfo tx => n.emit (.replyLeader tx n.currentLeaderAddress)
  | .getClusterInfo tx => n.emit (.replyInfo tx n.clusterInfo)
  | .getReadIndex tx => n.handleGetReadIndex tx

variable (requests : List (Command × Nat))

def batchEntries : List (Nat × LogEntry) :=
  requests.zipIdx.map fun r => (n.lastIncludedIndex + n.log.length + r.2, ⟨n.currentTerm, r.1.1⟩)

def acceptRequests : RaftNode :=
  let entries := n.batchEntries requests
  let appended := { n with log := n.log ++ entries.map Prod.snd }.saveLogEntriesBatch entries
  let accepted := (entries.zip (requests.map Prod.snd))
  { appended with
    pendingReplies := accepted.foldl (fun p r => p.insert r.1.1 r.2) appended.pendingReplies
    out := appended.out ++ accepted.map fun r => .accepted r.2 r.1.1 r.1.2 }

def rejectRequests : RaftNode :=
  { n with out := n.out ++ requests.map fun r => .reply r.2 (.error n.currentLeaderAddress) }

def handleClientRequests : RaftNode :=
  if requests.isEmpty then n
  else if n.role = .leader then ((n.acceptRequests requests).commitAlone).sendHeartbeats
  else n.rejectRequests requests

end RaftNode

def Event.clientRequest? : Event → Option (Command × Nat)
  | .clientRequest command tx => some (command, tx)
  | _ => none

namespace RaftNode

variable (n : RaftNode)

/-- Everything but client requests first, then the client requests together. -/
def handleEventBatch (events : List Event) : RaftNode :=
  ((events.filter fun e => e.clientRequest?.isNone).foldl handleEvent n).handleClientRequests
    (events.filterMap Event.clientRequest?)

def appendMembership (command : MembershipCommand) : RaftNode :=
  let entry : LogEntry := ⟨n.currentTerm, .membership command⟩
  let n := { n with log := n.log ++ [entry] }
  n.saveLogEntry n.lastLogIndex entry

def enterJointConsensus (oldMembers newMembers : Members) : RaftNode :=
  let n := n.appendMembership (.beginJointConsensus oldMembers newMembers (n.clusterConfig.version + 1))
  { n with configChangeState := .inJointConsensus n.lastLogIndex newMembers }

def promoteNonVotingMembers : Except String RaftNode :=
  match n.configChangeState with
  | .addingServers servers _ =>
    match n.clusterConfig with
    | .simple oldMembers _ =>
      let newMembers := servers.entries.foldl (fun (m : Members) s => m.insert s.1 s.2.1) oldMembers
      .ok { n.enterJointConsensus oldMembers newMembers with nonVotingMembers := ∅, catchUpProgress := ∅ }
    | .joint _ _ _ => .error "Cannot promote: already in joint consensus"
  | _ => .ok n

def checkPromoteNonVotingMembers : Except String RaftNode :=
  match n.configChangeState with
  | .addingServers servers _ =>
    if servers.entries.all fun s => s.2.2.isCaughtUp n.commitIndex then n.promoteNonVotingMembers else .ok n
  | _ => .ok n

def checkFinalizeJointConsensus : RaftNode :=
  match n.configChangeState with
  | .inJointConsensus jointConfigIndex targetConfig =>
    if jointConfigIndex ≤ n.commitIndex then
      n.appendMembership (.finalizeConfiguration targetConfig (n.clusterConfig.version + 1))
    else n
  | _ => n

def handleAddServersRequest (servers : Members) : RaftNode × Except String Unit :=
  if n.role ≠ .leader then (n, .error "Not the leader")
  else match n.configChangeState with
  | .none =>
    if servers.entries.isEmpty then (n, .error "No servers to add")
    else match servers.keys.find? fun id => id ∈ n.clusterConfig.allMembers with
      | some id => (n, .error ("Server " ++ toString id ++ " already exists"))
      | none =>
        let progress := CatchUpProgress.new n.monotonicTime
        ({ n with
          configChangeState := .addingServers
            (servers.entries.foldl (fun m s => m.insert s.1 (s.2, progress)) ∅) n.monotonicTime
          nonVotingMembers := servers.entries.foldl (fun m s => m.insert s.1 s.2) n.nonVotingMembers
          catchUpProgress := servers.keys.foldl (fun m id => m.insert id progress) n.catchUpProgress
          nextIndex := n.nextIndex ++ List.replicate servers.entries.length (n.log.length + n.lastIncludedIndex)
          matchIndex := n.matchIndex ++ List.replicate servers.entries.length n.lastIncludedIndex }, .ok ())
  | _ => (n, .error "Configuration change already in progress")

/-- Send heartbeats until the target has the whole log, at most 50 times. -/
def waitForCatchUp : Nat → RaftNode → Nat → RaftNode × Bool
  | 0, n, i => (n, n.lastLogIndex ≤ n.matchIndex.getD i 0)
  | attempts + 1, n, i =>
    if n.lastLogIndex ≤ n.matchIndex.getD i 0 then (n, true) else waitForCatchUp attempts n.sendHeartbeats i

def initiateLeaderTransfer (targetId : Nat) : RaftNode × Except String Unit :=
  match n.clusterConfig.allMembers.lookup targetId with
  | none => (n, .error ("Target server " ++ toString targetId ++ " not found in cluster"))
  | some targetAddr =>
    match n.peers.findIdx? (· = targetAddr) with
    | none => (n, .error ("Target server " ++ toString targetId ++ " not in peers list"))
    | some i =>
      let (n, caughtUp) := waitForCatchUp 50 n i
      if caughtUp then
        ((n.emit (.send targetAddr (.timeoutNow ⟨n.currentTerm, n.id⟩))).stepDownForgetting n.currentTerm, .ok ())
      else
        (n, .error ("Timeout waiting for target server " ++ toString targetId ++ " to catch up (match_index=" ++
          toString (n.matchIndex.getD i 0) ++ ", log_len=" ++ toString n.lastLogIndex ++ ")"))

def beginRemoveServersJointConsensus (serverIds : List Nat) : RaftNode × Except String Unit :=
  match n.clusterConfig with
  | .simple oldMembers _ =>
    (n.enterJointConsensus oldMembers (serverIds.foldl (fun (m : Members) id => m.erase id) oldMembers), .ok ())
  | .joint _ _ _ => (n, .error "Invalid state")

def handleRemoveServersRequest (serverIds : List Nat) : RaftNode × Except String Unit :=
  if n.role ≠ .leader then (n, .error "Not the leader")
  else match n.configChangeState with
  | .none =>
    if serverIds.isEmpty then (n, .error "No servers to remove")
    else match n.clusterConfig with
      | .joint _ _ _ => (n, .error "Cannot remove servers during joint consensus")
      | .simple members _ =>
        -- the subtraction of two `usize` wraps around
        if (members.entries.length + 2 ^ 64 - serverIds.length) % 2 ^ 64 < 1 then
          (n, .error "Cannot remove all servers")
        else if n.id ∈ serverIds then
          match members.keys.find? fun id => id ∉ serverIds ∧ id ≠ n.id with
          | some targetId =>
            { n with configChangeState := .transferringLeadership targetId serverIds }.initiateLeaderTransfer
              targetId
          | none => (n, .error "No suitable target for leader transfer")
        else n.beginRemoveServersJointConsensus serverIds
  | _ => (n, .error "Configuration change already in progress")

def snapshotThreshold : Nat := 100

/-- The end of a tick: apply what is committed and compact a long log. -/
def applyAndCompact : RaftNode :=
  let n := n.applyLogs
  if snapshotThreshold < n.log.length ∧ n.lastIncludedIndex < n.lastApplied then n.createSnapshot else n

/-- One tick; `elapsed` says whether the election timeout has passed. -/
def tick (elapsed : Bool) : RaftNode :=
  let n := { n with monotonicTime := n.monotonicTime + 1 }
  if n.role = .leader then
    match n.sendHeartbeats.checkPromoteNonVotingMembers with
    | .ok promoted => promoted.checkFinalizeJointConsensus.applyAndCompact
    | .error _ => n.sendHeartbeats
  else if elapsed then n.startElection.applyAndCompact
  else n.applyAndCompact

end RaftNode

end RustHadoop
