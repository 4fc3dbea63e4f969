import Mathlib.Data.Finset.Card
import RustHadoop.Meta.AppState

/-!
# Types of the Raft node

The data types of `dfs/metaserver/src/simple_raft.rs`.  A `RaftNode` holds its fields, the content of its RocksDB
and the list `out` of what it has done so far in the current call: database writes, messages, replies.  `out` is in
program order, so a crash in the middle of a call leaves a prefix of it behind.

Some effects are not actions of the code but marks for the statements about it: `voted`, `becameLeader`,
`accepted`, `replicated`, `applied` and `readIndex` say at which point the node did something.  A reply channel is
a number; the channel of a request that came over HTTP also says who sent the request and where in the trace.

Left out are timers (a tick is told whether the election timeout has passed), the HTTP client, the S3 backup and
the fields `server_roles` and `last_committed_config_index`, which the code writes and never reads.
-/

namespace RustHadoop

inductive Role
  | follower
  | candidate
  | leader
deriving DecidableEq, Repr

/-- Server ids with their addresses; the list order stands for the iteration order of the hash map. -/
abbrev Members := AList fun _ : Nat => String

inductive MembershipCommand
  | addServer (serverId : Nat) (serverAddress : String)
  | removeServer (serverId : Nat)
  | addServers (servers : Members)
  | removeServers (serverIds : List Nat)
  | beginJointConsensus (oldMembers newMembers : Members) (version : Nat)
  | finalizeConfiguration (newMembers : Members) (version : Nat)

inductive Command
  | master (c : MasterCommand)
  | config (c : ConfigCommand)
  | membership (c : MembershipCommand)
  | noOp

structure LogEntry where
  term : Nat
  command : Command

inductive ClusterConfiguration
  | simple (members : Members) (version : Nat)
  | joint (oldMembers newMembers : Members) (version : Nat)

namespace ClusterConfiguration

/-- All voting members; in a joint configuration a new address replaces an old one. -/
def allMembers : ClusterConfiguration → Members
  | simple members _ => members
  | joint oldMembers newMembers _ => newMembers.entries.foldl (fun m e => m.insert e.1 e.2) oldMembers

def majorityOf (members : Members) (acks : Finset Nat) : Bool :=
  members.entries.length / 2 < (acks.filter fun id => id ∈ members).card

def hasJointMajority : ClusterConfiguration → Finset Nat → Bool
  | simple members _, acks => majorityOf members acks
  | joint oldMembers newMembers _, acks => majorityOf oldMembers acks && majorityOf newMembers acks

def version : ClusterConfiguration → Nat
  | simple _ version => version
  | joint _ _ version => version

end ClusterConfiguration

structure CatchUpProgress where
  matchIndex : Nat
  roundsCaughtUp : Nat
  addedAt : Nat

namespace CatchUpProgress

def new (currentTime : Nat) : CatchUpProgress := ⟨0, 0, currentTime⟩

def isCaughtUp (p : CatchUpProgress) (leaderCommitIndex : Nat) : Bool :=
  leaderCommitIndex ≤ p.matchIndex && 10 ≤ p.roundsCaughtUp

def update (p : CatchUpProgress) (newMatchIndex : Nat) : CatchUpProgress :=
  if p.matchIndex < newMatchIndex then
    { p with matchIndex := newMatchIndex, roundsCaughtUp := p.roundsCaughtUp + 1 }
  else p

end CatchUpProgress

inductive ConfigChangeState
  | none
  | addingServers (servers : AList fun _ : Nat => String × CatchUpProgress) (startedAt : Nat)
  | inJointConsensus (jointConfigIndex : Nat) (targetConfig : Members)
  | transferringLeadership (targetServer : Nat) (serversToRemove : List Nat)

structure RequestVoteArgs where
  term : Nat
  candidateId : Nat
  lastLogIndex : Nat
  lastLogTerm : Nat

structure RequestVoteReply where
  term : Nat
  voteGranted : Bool
  peerId : Nat

structure AppendEntriesArgs where
  term : Nat
  leaderId : Nat
  prevLogIndex : Nat
  prevLogTerm : Nat
  entries : List LogEntry
  leaderCommit : Nat
  leaderAddress : String

structure AppendEntriesReply where
  term : Nat
  success : Bool
  matchIndex : Nat
  peerId : Nat

structure InstallSnapshotArgs where
  term : Nat
  leaderId : Nat
  lastIncludedIndex : Nat
  lastIncludedTerm : Nat
  data : SnapshotData

structure InstallSnapshotReply where
  term : Nat
  lastIncludedIndex : Nat
  peerId : Nat

structure TimeoutNowArgs where
  term : Nat
  senderId : Nat

structure TimeoutNowReply where
  term : Nat
  success : Bool

inductive RpcMessage
  | requestVote (args : RequestVoteArgs)
  | requestVoteResponse (reply : RequestVoteReply)
  | appendEntries (args : AppendEntriesArgs)
  | appendEntriesResponse (reply : AppendEntriesReply)
  | installSnapshot (args : InstallSnapshotArgs)
  | installSnapshotResponse (reply : InstallSnapshotReply)
  | timeoutNow (args : TimeoutNowArgs)
  | timeoutNowResponse (reply : TimeoutNowReply)

/-- The reply channel of a request that came over HTTP: the node that sent it and the position of the sending in
the trace. -/
structure ReplyTx where
  requester : Nat
  sentAt : Nat

structure ClusterInfo where
  nodeId : Nat
  role : Role
  currentTerm : Nat
  leaderId : Option Nat
  leaderAddress : Option String
  peers : List String
  commitIndex : Nat
  lastApplied : Nat
  logLen : Nat
  votesReceived : Nat
  clusterConfig : ClusterConfiguration
  configChangeState : ConfigChangeState
  isSafeMode : Bool

inductive Event
  | rpc (msg : RpcMessage) (replyTx : Option ReplyTx)
  | clientRequest (command : Command) (replyTx : Nat)
  | getLeaderInfo (replyTx : Nat)
  | getClusterInfo (replyTx : Nat)
  | getReadIndex (replyTx : Nat)

/-- The content of the node's RocksDB, one field for each kind of key. -/
structure Db where
  term : Option Nat
  vote : Option Nat
  snapshotMeta : Option (Nat × Nat)
  snapshotData : Option SnapshotData
  log : AList fun _ : Nat => LogEntry
  clusterConfig : Option ClusterConfiguration
  configChangeState : Option ConfigChangeState

def Db.empty : Db := ⟨none, none, none, none, ∅, none, none⟩

inductive DbWrite
  | putTerm (term : Nat)
  | putVote (vote : Nat)
  | deleteVote
  | putLog (index : Nat) (entry : LogEntry)
  | batchLog (entries : List (Nat × LogEntry))
  | deleteLog (index : Nat)
  | putSnapshotMeta (index term : Nat)
  | putSnapshotData (data : SnapshotData)
  | putClusterConfig (config : ClusterConfiguration)
  | putConfigChangeState (state : ConfigChangeState)

def DbWrite.apply (db : Db) : DbWrite → Db
  | putTerm t => { db with term := some t }
  | putVote v => { db with vote := some v }
  | deleteVote => { db with vote := none }
  | putLog i e => { db with log := db.log.insert i e }
  | batchLog es => { db with log := es.foldl (fun l e => l.insert e.1 e.2) db.log }
  | deleteLog i => { db with log := db.log.erase i }
  | putSnapshotMeta i t => { db with snapshotMeta := some (i, t) }
  | putSnapshotData d => { db with snapshotData := some d }
  | putClusterConfig c => { db with clusterConfig := some c }
  | putConfigChangeState s => { db with configChangeState := some s }

inductive Effect
  | write (w : DbWrite)
  /-- a request posted to an address -/
  | send (addr : String) (msg : RpcMessage)
  | respond (tx : ReplyTx) (msg : RpcMessage)
  | reply (tx : Nat) (result : Except (Option String) Unit)
  /-- the answer to `GetReadIndex`, marked with `last_applied` of the node at that moment -/
  | replyRead (tx : Nat) (result : Except (Option String) Nat) (lastApplied : Nat)
  | replyLeader (tx : Nat) (leader : Option String)
  | replyInfo (tx : Nat) (info : ClusterInfo)
  /-- mark: a vote for `candidate` in `term` is on disk -/
  | voted (term candidate : Nat)
  /-- mark: the role has become leader -/
  | becameLeader (term : Nat)
  /-- mark: a client request was appended to the leader's log -/
  | accepted (replyTx index : Nat) (entry : LogEntry)
  /-- mark: the log agrees with that of the leader of `term` up to `index` -/
  | replicated (term index : Nat)
  /-- mark: the entry at `index` was applied -/
  | applied (index : Nat) (entry : LogEntry)
  /-- mark: a `GetReadIndex` request was registered with `readIndex` -/
  | readIndex (replyTx readIndex : Nat)

structure ReadIndexRequest where
  readIndex : Nat
  term : Nat
  acks : Finset Nat
  majorityConfirmed : Bool
  replyTx : Nat

structure RaftNode where
  id : Nat
  peers : List String
  clientAddress : String
  role : Role
  currentTerm : Nat
  votedFor : Option Nat
  /-- the entries from `lastIncludedIndex` on; the first is a dummy -/
  log : List LogEntry
  commitIndex : Nat
  lastApplied : Nat
  nextIndex : List Nat
  matchIndex : List Nat
  currentLeader : Option Nat
  currentLeaderAddress : Option String
  lastIncludedIndex : Nat
  lastIncludedTerm : Nat
  appState : AppState
  votesReceived : Nat
  voters : Finset Nat
  db : Db
  pendingReadIndices : List ReadIndexRequest
  pendingReplies : AList fun _ : Nat => Nat
  clusterConfig : ClusterConfiguration
  configChangeState : ConfigChangeState
  nonVotingMembers : Members
  catchUpProgress : AList fun _ : Nat => CatchUpProgress
  monotonicTime : Nat
  /-- the readings the system clock will give in this call -/
  clock : List Nat
  out : List Effect

namespace RaftNode

variable (n : RaftNode)

def lastLogIndex : Nat := n.log.length - 1 + n.lastIncludedIndex

def lastLogTerm : Nat := (n.log.getLast?.map LogEntry.term).getD 0

def emit (e : Effect) : RaftNode := { n with out := n.out ++ [e] }

def put (w : DbWrite) : RaftNode := { n with db := w.apply n.db, out := n.out ++ [.write w] }

end RaftNode

end RustHadoop
