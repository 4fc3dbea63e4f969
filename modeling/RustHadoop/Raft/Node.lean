import Mathlib.Data.List.Sort
import RustHadoop.Raft.Storage

/-!
# The Raft protocol on one node

The functions of `RaftNode` (`dfs/metaserver/src/simple_raft.rs`) that handle ticks, messages and client events, as
functions from node to node.  A `while` or `for` loop of the source is a fold or a recursion over the same data.
An index into `next_index` or `match_index` that the source would panic on reads `0` and writes nothing.

Storage does not fail here, so of the functions that return a `Result` only those that can fail for another reason
do.
-/

namespace RustHadoop

namespace RaftNode

variable (n : RaftNode)

/-- Answer the confirmed read requests whose index has been applied, the last one first. -/
def checkReadIndices : RaftNode :=
  let satisfied := fun r : ReadIndexRequest => r.majorityConfirmed && r.readIndex ≤ n.lastApplied
  { n with
    pendingReadIndices := n.pendingReadIndices.filter fun r => !satisfied r
    out := n.out ++ (n.pendingReadIndices.filter satisfied).reverse.map fun r =>
      .replyRead r.replyTx (.ok r.readIndex) n.lastApplied }

/-- Count `peerId` as having confirmed the leadership for every read request of this term. -/
def ackReads (peerId : Nat) : RaftNode :=
  { n with pendingReadIndices := n.pendingReadIndices.map fun r =>
      if r.term = n.currentTerm then
        let acks := insert peerId r.acks
        { r with acks := acks, majorityConfirmed := n.clusterConfig.hasJointMajority acks || r.majorityConfirmed }
      else r }

/-- The length of a list changed to `size`, filling up with `value` (`Vec::resize`). -/
def resize (l : List Nat) (size value : Nat) : List Nat := l.take size ++ List.replicate (size - l.length) value

/-- Rebuild the peer list after a configuration change. -/
def updatePeerTracking : RaftNode :=
  let peers := (n.clusterConfig.allMembers.entries.filter fun m => m.1 ≠ n.id).map fun m => m.2
  { n with
    peers := peers
    nextIndex := resize n.nextIndex peers.length (n.log.length + n.lastIncludedIndex)
    matchIndex := resize n.matchIndex peers.length n.lastIncludedIndex }

def applyMembershipCommand : MembershipCommand → RaftNode
  | .beginJointConsensus oldMembers newMembers version =>
      ({ n with clusterConfig := .joint oldMembers newMembers version }.updatePeerTracking).saveConfig
  | .finalizeConfiguration newMembers version =>
      { ({ n with clusterConfig := .simple newMembers version }).updatePeerTracking with
        configChangeState := .none }.saveConfig
  | .addServer _ serverAddress =>
      if serverAddress ∈ n.peers then n
      else
        { n with
          peers := n.peers ++ [serverAddress]
          nextIndex := n.nextIndex ++ [n.log.length + n.lastIncludedIndex]
          matchIndex := n.matchIndex ++ [n.lastIncludedIndex] }
  | .removeServer serverId =>
      -- the id is used as a position in the peer list
      if serverId < n.peers.length then
        { n with
          peers := n.peers.eraseIdx serverId
          nextIndex := n.nextIndex.eraseIdx serverId
          matchIndex := n.matchIndex.eraseIdx serverId }
      else n
  | .addServers _ => n
  | .removeServers _ => n

def applyCommand (n : RaftNode) (command : Command) : RaftNode :=
  match command, n.appState with
  | .master c, .master s => { n with appState := .master (s.applyCommand c) }
  | .config c, .config s =>
      { n with appState := .config (s.applyCommand (n.clock.headD 0) c), clock := n.clock.tail }
  | _, _ => n

def applyEntry (entry : LogEntry) : RaftNode :=
  match entry.command with
  | .membership c => n.applyMembershipCommand c
  | command => n.applyCommand command

def replyApplied : RaftNode :=
  match n.pendingReplies.lookup n.lastApplied with
  | some tx => { n with pendingReplies := n.pendingReplies.erase n.lastApplied }.emit (.reply tx (.ok ()))
  | none => n

def applyNext : RaftNode :=
  let n := { n with lastApplied := n.lastApplied + 1 }
  let n := match n.log[n.lastApplied - n.lastIncludedIndex]? with
    | some entry => ((n.applyEntry entry).emit (.applied n.lastApplied entry)).checkReadIndices
    | none => n
  n.replyApplied

def applyLogs : RaftNode := applyNext^[n.commitIndex - n.lastApplied] n

/-- The statements with which `start_election` and the `TimeoutNow` handler begin an election. -/
def standForElection : RaftNode :=
  let n := { n with role := .candidate, currentTerm := n.currentTerm + 1 }.saveTerm
  let n := ({ n with votedFor := some n.id }.saveVote).emit (.voted n.currentTerm n.id)
  { n with votesReceived := 1, voters := {n.id} }

/-- `become_leader` up to the entry that is appended and the indices of the peers. -/
def takeLeadership : RaftNode :=
  let n := { n with
    role := .leader
    currentLeader := some n.id
    currentLeaderAddress := some n.clientAddress }.emit (.becameLeader n.currentTerm)
  let entry : LogEntry := ⟨n.currentTerm, .noOp⟩
  let n := { n with log := n.log ++ [entry] }
  let n := n.saveLogEntry n.lastLogIndex entry
  { n with
    nextIndex := List.replicate n.peers.length (n.log.length + n.lastIncludedIndex)
    matchIndex := List.replicate n.peers.length n.lastIncludedIndex }

/-- Without peers the whole log is committed at once. -/
def commitAlone : RaftNode :=
  if n.peers.isEmpty ∧
    n.commitIndex < n.lastLogIndex then { n with commitIndex := n.lastLogIndex }.applyLogs else n

def becomeLeader : RaftNode := n.takeLeadership.commitAlone

def voteRequest : RequestVoteArgs where
  term := n.currentTerm
  candidateId := n.id
  lastLogIndex := n.lastLogIndex
  lastLogTerm := n.lastLogTerm

def startElection : RaftNode :=
  let n := n.standForElection
  let args := n.voteRequest
  if n.clusterConfig.allMembers.entries.length = 1 then n.becomeLeader
  else n.peers.foldl (fun n peer => n.emit (.send peer (.requestVote args))) n

/-- Voting members other than the node and non-voting members, with a flag for the voting ones. -/
def combinedPeers : List (Nat × String × Bool) :=
  ((n.clusterConfig.allMembers.entries.filter fun m => m.1 ≠ n.id).map fun m => (m.1, m.2, true)) ++
    n.nonVotingMembers.entries.map fun m => (m.1, m.2, false)

def snapshotMessage : InstallSnapshotArgs where
  term := n.currentTerm
  leaderId := n.id
  lastIncludedIndex := n.lastIncludedIndex
  lastIncludedTerm := n.lastIncludedTerm
  data := n.appState.serialize

/-- The entries after position `prev` of the log, where `prevEntry` is. -/
def appendMessage (prev : Nat) (prevEntry : LogEntry) : AppendEntriesArgs where
  term := n.currentTerm
  leaderId := n.id
  prevLogIndex := prev + n.lastIncludedIndex
  prevLogTerm := prevEntry.term
  entries := n.log.drop (prev + 1)
  leaderCommit := n.commitIndex
  leaderAddress := n.clientAddress

def replicateTo (i : Nat) (peer : String) : RaftNode :=
  match n.nextIndex[i]? with
  | none => n
  | some next =>
    if next ≤ n.lastIncludedIndex then n.emit (.send peer (.installSnapshot n.snapshotMessage))
    else
      -- `prev` cannot be below the snapshot here, so the source's check for that never fires
      let prev := next - 1 - n.lastIncludedIndex
      match n.log[prev]? with
      | none => { n with nextIndex := n.nextIndex.set i (n.log.length + n.lastIncludedIndex) }
      | some prevEntry => n.emit (.send peer (.appendEntries (n.appendMessage prev prevEntry)))

/-- Where the indices of a combined peer are: by address for a voting one, by rank otherwise. -/
def trackingIndex (rank : Nat) (peer : String) (voting : Bool) : Option Nat :=
  if voting then some ((n.peers.findIdx? (· = peer)).getD rank)
  else if rank < n.nextIndex.length then some rank else none

def heartbeatPeer (rank : Nat) (peer : Nat × String × Bool) : RaftNode :=
  match n.trackingIndex rank peer.2.1 peer.2.2 with
  | none => n
  | some i => n.replicateTo i peer.2.1

def sendHeartbeats : RaftNode :=
  n.combinedPeers.zipIdx.foldl (fun n p => n.heartbeatPeer p.2 p.1) n

/-- Fail all waiting requests of a leader. -/
def drainPending (leaderHint : Option String) : RaftNode :=
  { n with
    pendingReplies := ∅
    pendingReadIndices := []
    out := n.out ++ n.pendingReplies.entries.map (fun p => .reply p.2 (.error leaderHint)) ++
      n.pendingReadIndices.map (fun r => .replyRead r.replyTx (.error leaderHint) n.lastApplied) }

/-- Take over a higher term, without a vote in it. -/
def observeTerm (term : Nat) : RaftNode :=
  if n.currentTerm < term then ({ n with currentTerm := term, votedFor := none }.saveTerm).saveVote else n

def stepDownToFollower (term : Nat) (leaderHint : Option String) : RaftNode :=
  let follower := { n with role := .follower }.observeTerm term
  let hinted := match leaderHint with
    | some hint => { follower with currentLeaderAddress := some hint }
    | none => follower
  if n.role = .leader then hinted.drainPending leaderHint else hinted

/-- Step down on seeing `term`, and forget the leader. -/
def stepDownForgetting (term : Nat) : RaftNode :=
  { n.stepDownToFollower term none with currentLeader := none, currentLeaderAddress := none }

def logIsUpToDate (args : RequestVoteArgs) : Bool :=
  n.lastLogTerm < args.lastLogTerm || (args.lastLogTerm = n.lastLogTerm && n.lastLogIndex ≤ args.lastLogIndex)

def grantVote (candidateId : Nat) : RaftNode :=
  ({ n with votedFor := some candidateId }.saveVote).emit (.voted n.currentTerm candidateId)

def handleRequestVote (args : RequestVoteArgs) : RaftNode × RpcMessage :=
  if n.currentTerm ≤ args.term then
    let n := if n.currentTerm < args.term then n.stepDownForgetting args.term else n
    if (n.votedFor = none ∨ n.votedFor = some args.candidateId) ∧ n.logIsUpToDate args then
      let n := n.grantVote args.candidateId
      (n, .requestVoteResponse ⟨n.currentTerm, true, n.id⟩)
    else (n, .requestVoteResponse ⟨n.currentTerm, false, n.id⟩)
  else (n, .requestVoteResponse ⟨n.currentTerm, false, n.id⟩)

def handleRequestVoteResponse (reply : RequestVoteReply) : RaftNode :=
  if n.role = .candidate ∧ n.currentTerm = reply.term ∧ reply.voteGranted then
    let n := { n with votesReceived := n.votesReceived + 1, voters := insert reply.peerId n.voters }
    if n.clusterConfig.hasJointMajority n.voters then n.becomeLeader else n
  else if n.currentTerm < reply.term then n.stepDownForgetting reply.term
  else n

end RaftNode

end RustHadoop
