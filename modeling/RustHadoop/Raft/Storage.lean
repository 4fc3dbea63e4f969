import Mathlib.Data.List.Range
import RustHadoop.Raft.Types

/-!
# Persistence, start-up and snapshots of a node

What the node writes to RocksDB, how it starts from it (`RaftNode.new` and the first lines of `run`), and how it
creates and installs snapshots.  Writes do not fail here.  The two loops over `log:{index}` keys run until a key is
missing; they are given the number of stored entries as fuel, which always suffices.
-/

namespace RustHadoop

def afterFirst (pat : List Char) : List Char → Option (List Char)
  | [] => if pat.isEmpty then some [] else none
  | c :: cs => if pat.isPrefixOf (c :: cs) then some ((c :: cs).drop pat.length) else afterFirst pat cs

/-- `str::parse::<usize>` on a string of digits. -/
def parseUsize (digits : List Char) : Option Nat :=
  let value := digits.foldl (fun v c => v * 10 + (c.toNat - '0'.toNat)) 0
  if digits.isEmpty ∨ 2 ^ 64 ≤ value then none else some value

/-- The number after the first occurrence of a pattern, plus one. -/
def podIndexAfter (address pattern : String) : Option Nat := do
  let after ← afterFirst pattern.toList address.toList
  let index ← parseUsize (after.takeWhile Char.isDigit)
  return (index + 1) % 2 ^ 64

def extractNodeIdFromAddress (address : String) : Option Nat :=
  (podIndexAfter address "configserver-").or (podIndexAfter address "metaserver-")

namespace RaftNode

variable (n : RaftNode)

def saveTerm : RaftNode := n.put (.putTerm n.currentTerm)

def saveVote : RaftNode :=
  match n.votedFor with
  | some vote => n.put (.putVote vote)
  | none => n.put .deleteVote

def saveLogEntry (index : Nat) (entry : LogEntry) : RaftNode := n.put (.putLog index entry)

def saveLogEntriesBatch (entries : List (Nat × LogEntry)) : RaftNode :=
  if entries.isEmpty then n else n.put (.batchLog entries)

def saveConfig : RaftNode :=
  (n.put (.putClusterConfig n.clusterConfig)).put (.putConfigChangeState n.configChangeState)

def deleteLogEntriesLoop : Nat → RaftNode → Nat → RaftNode
  | 0, n, _ => n
  | fuel + 1, n, index =>
    if index ∈ n.db.log then deleteLogEntriesLoop fuel (n.put (.deleteLog index)) (index + 1) else n

/-- Delete stored entries from `startIndex` on, up to the first that is missing. -/
def deleteLogEntriesFrom (startIndex : Nat) : RaftNode :=
  deleteLogEntriesLoop n.db.log.entries.length n startIndex

def deleteLogRange (first count : Nat) : RaftNode :=
  (List.range' first count).foldl (fun n i => n.put (.deleteLog i)) n

end RaftNode

def loadLog (db : Db) : Nat → Nat → List LogEntry
  | 0, _ => []
  | fuel + 1, index =>
    match db.log.lookup index with
    | some entry => entry :: loadLog db fuel (index + 1)
    | none => []

structure LoadedState where
  term : Nat
  votedFor : Option Nat
  log : List LogEntry
  lastIncludedIndex : Nat
  lastIncludedTerm : Nat
  appState : AppState

def loadState (db : Db) (appState : AppState) : LoadedState :=
  let snapshot := db.snapshotMeta.getD (0, 0)
  { term := db.term.getD 0
    votedFor := db.vote
    log := ⟨snapshot.2, .noOp⟩ :: loadLog db db.log.entries.length (snapshot.1 + 1)
    lastIncludedIndex := snapshot.1
    lastIncludedTerm := snapshot.2
    appState :=
      match db.snapshotMeta, db.snapshotData with
      | some _, some data => data.restore appState
      | _, _ => appState }

def loadConfig (db : Db) : ClusterConfiguration × ConfigChangeState :=
  (db.clusterConfig.getD (.simple ∅ 0), db.configChangeState.getD .none)

structure RaftNodeConfig where
  id : Nat
  peers : List String
  clientAddress : String
  appState : AppState

/-- The members taken from the peer addresses, with the node itself. -/
def RaftNodeConfig.initialMembers (config : RaftNodeConfig) : Members :=
  (config.peers.foldl (fun (members : Members) peer =>
    match extractNodeIdFromAddress peer with
    | some peerId => members.insert peerId peer
    | none => members) ∅).insert config.id config.clientAddress

/-- The stored configuration, or the initial members if none is stored or the stored one is empty. -/
def RaftNodeConfig.clusterConfig (config : RaftNodeConfig) (db : Db) : ClusterConfiguration :=
  match (loadConfig db).1 with
  | .simple members version =>
    if members.entries.isEmpty then .simple config.initialMembers 0 else .simple members version
  | joint => joint

namespace RaftNode

def new (config : RaftNodeConfig) (db : Db) : RaftNode :=
  let state := loadState db config.appState
  { id := config.id
    peers := config.peers
    clientAddress := config.clientAddress
    role := .follower
    currentTerm := state.term
    votedFor := state.votedFor
    log := state.log
    commitIndex := state.lastIncludedIndex
    lastApplied := state.lastIncludedIndex
    nextIndex := []
    matchIndex := []
    currentLeader := none
    currentLeaderAddress := none
    lastIncludedIndex := state.lastIncludedIndex
    lastIncludedTerm := state.lastIncludedTerm
    appState := state.appState
    votesReceived := 0
    voters := ∅
    db := db
    pendingReadIndices := []
    pendingReplies := ∅
    clusterConfig := config.clusterConfig db
    configChangeState := (loadConfig db).2
    nonVotingMembers := ∅
    catchUpProgress := ∅
    monotonicTime := 0
    clock := []
    out := [] }

/-- A started node: `new` and what `run` does before its loop. -/
def boot (config : RaftNodeConfig) (db : Db) : RaftNode :=
  let n := new config db
  { n with
    nextIndex := List.replicate n.peers.length (n.log.length + n.lastIncludedIndex)
    matchIndex := List.replicate n.peers.length n.lastIncludedIndex }

def snapshotTerm (n : RaftNode) : Nat :=
  if n.lastIncludedIndex ≤ n.lastApplied then
    ((n.log[n.lastApplied - n.lastIncludedIndex]?).map LogEntry.term).getD n.lastIncludedTerm
  else n.lastIncludedTerm

def createSnapshot (n : RaftNode) : RaftNode :=
  let term := n.snapshotTerm
  let saved :=
    ((n.put (.putSnapshotMeta n.lastApplied term)).put (.putSnapshotData n.appState.serialize)).deleteLogRange
    (n.lastIncludedIndex + 1) (n.lastApplied - n.lastIncludedIndex)
  { saved with
    lastIncludedTerm := term
    log := ⟨term, .noOp⟩ :: n.log.drop (n.lastApplied - n.lastIncludedIndex + 1)
    lastIncludedIndex := n.lastApplied }

def installSnapshot (n : RaftNode) (lastIncludedIndex lastIncludedTerm : Nat) (data : SnapshotData) : RaftNode :=
  let saved := (n.put (.putSnapshotMeta lastIncludedIndex lastIncludedTerm)).put (.putSnapshotData data)
  let restored := { saved with appState := data.restore n.appState }
  let cleaned := restored.deleteLogRange (n.lastIncludedIndex + 1) (lastIncludedIndex - n.lastIncludedIndex)
  { cleaned with
    lastIncludedIndex := lastIncludedIndex
    lastIncludedTerm := lastIncludedTerm
    log := [⟨lastIncludedTerm, .noOp⟩]
    commitIndex := lastIncludedIndex
    lastApplied := lastIncludedIndex }

end RaftNode

end RustHadoop
