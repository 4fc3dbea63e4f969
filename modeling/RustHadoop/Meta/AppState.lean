import RustHadoop.Common.Sharding

/-!
# The replicated application state

The state machine behind the log: `MasterState` and its transaction records (`dfs/metaserver/src/master.rs`), the
state of a config server, the commands of both and `apply_command` (`dfs/metaserver/src/simple_raft.rs`).

A snapshot is the JSON text of an `AppState` without the fields marked `serde(skip)`.  `SnapshotData` is that text
up to formatting: the record of the fields that are written, the plain `MasterState` an older version wrote, or a
text that is neither.  The only node-local field that the modelled code reads is `safeMode`.

Integers of the source's messages are unbounded here; nothing below depends on their width except the two `u64`
subtractions of `CompleteFile`, which cannot underflow.  A requests-per-second value (`f64`) is its bit pattern.
-/

namespace RustHadoop

structure BlockInfo where
  blockId : String
  size : Nat
  locations : List String
  checksumCrc32c : Nat
  ecDataShards : Int
  ecParityShards : Int
  originalSize : Nat
deriving DecidableEq, Repr

structure FileMetadata where
  path : String
  size : Nat
  blocks : List BlockInfo
  etagMd5 : String
  createdAtMs : Nat
  ecDataShards : Int
  ecParityShards : Int
  lastAccessMs : Nat
  accessCount : Nat
  movedToColdAtMs : Nat
deriving DecidableEq, Repr

structure BlockChecksumInfo where
  blockId : String
  checksumCrc32c : Nat
  actualSize : Nat
deriving DecidableEq, Repr

inductive TxState
  | pending
  | prepared
  | committed
  | aborted
deriving DecidableEq, Repr

inductive TransactionType
  | rename (sourcePath destPath : String)
deriving DecidableEq, Repr

inductive TxOpType
  | delete (path : String)
  | create (path : String) (metadata : FileMetadata)
deriving DecidableEq, Repr

structure TxOperation where
  shardId : String
  opType : TxOpType
deriving DecidableEq, Repr

structure TransactionRecord where
  txId : String
  txType : TransactionType
  state : TxState
  timestamp : Nat
  participants : List String
  operations : List TxOperation
  coordinatorShard : String
  participantAcked : Bool
  inquiryCount : Nat
deriving DecidableEq, Repr

abbrev StringMap (V : Type) := AList fun _ : String => V

structure MasterState where
  files : StringMap FileMetadata
  transactionRecords : StringMap TransactionRecord
  shufflingPrefixes : Finset String
  /-- node-local, not part of a snapshot -/
  safeMode : Bool

def MasterState.default : MasterState := ⟨∅, ∅, ∅, false⟩

structure MasterInfo where
  address : String
  shardId : String
  lastHeartbeat : Nat
  rpsPerPrefix : StringMap UInt64

structure ConfigStateInner where
  shardMap : ShardMap
  masters : StringMap MasterInfo

inductive AppState
  | master (s : MasterState)
  | config (s : ConfigStateInner)

def AppState.isSafeMode : AppState → Bool
  | .master m => m.safeMode
  | .config _ => false

/-- The fields of `MasterState` that are written. -/
structure MasterImage where
  files : StringMap FileMetadata
  transactionRecords : StringMap TransactionRecord
  shufflingPrefixes : Finset String

def MasterState.image (s : MasterState) : MasterImage := ⟨s.files, s.transactionRecords, s.shufflingPrefixes⟩

/-- Reading back a master state: a skipped field gets its default. -/
def MasterImage.load (i : MasterImage) : MasterState :=
  { MasterState.default with
    files := i.files, transactionRecords := i.transactionRecords, shufflingPrefixes := i.shufflingPrefixes }

inductive SnapshotData
  | master (image : MasterImage)
  | config (s : ConfigStateInner)
  | legacyMaster (image : MasterImage)
  | malformed

def AppState.serialize : AppState → SnapshotData
  | .master m => .master m.image
  | .config c => .config c

def SnapshotData.restore (old : AppState) : SnapshotData → AppState
  | .master i => .master i.load
  | .config c => .config c
  | .legacyMaster i => .master i.load
  | .malformed => old

inductive MasterCommand
  | createFile (path : String) (ecDataShards ecParityShards : Int)
  | deleteFile (path : String)
  | allocateBlock (path blockId : String) (locations : List String)
  | registerChunkServer (address : String)
  | renameFile (sourcePath destPath : String)
  | createTransactionRecord (record : TransactionRecord)
  | updateTransactionState (txId : String) (newState : TxState)
  | applyTransactionOperation (txId : String) (operation : TxOperation)
  | deleteTransactionRecord (txId : String)
  | splitShard (splitKey newShardId : String) (newShardPeers : List String)
  | mergeShard (victimShardId : String)
  | ingestBatch (files : List FileMetadata)
  | triggerShuffle (pfx : String)
  | completeFile (path : String) (size : Nat) (etagMd5 : Option String) (createdAtMs : Option Nat)
      (blockChecksums : List BlockChecksumInfo)
  | stopShuffle (pfx : String)
  | updateAccessStats (path : String) (accessedAtMs : Nat)
  | moveToCold (path : String) (movedAtMs : Nat)
  | convertToEc (path : String) (ecDataShards ecParityShards : Int) (newBlocks : List BlockInfo)
  | setParticipantAcked (txId : String)
  | incrementInquiryCount (txId : String)

inductive ConfigCommand
  | addShard (shardId : String) (peers : List String)
  | removeShard (shardId : String)
  | splitShard (shardId splitKey newShardId : String) (newShardPeers : List String)
  | mergeShard (victimShardId retainedShardId : String)
  | rebalanceShard (oldKey newKey : String)
  | registerMaster (address shardId : String)
  | shardHeartbeat (address : String) (rpsPerPrefix : StringMap UInt64)

/-- Change the value of a key that is there (`get_mut`). -/
def StringMap.modify {V : Type} (m : StringMap V) (k : String) (f : V → V) : StringMap V :=
  match m.lookup k with
  | some v => m.insert k (f v)
  | none => m

theorem StringMap.lookup_modify {V : Type} (m : StringMap V) (k k' : String) (f : V → V) :
    (m.modify k f).lookup k' = if k' = k then (m.lookup k).map f else m.lookup k' := by
  unfold StringMap.modify
  by_cases hk : k' = k
  · subst hk
    cases h : m.lookup k' <;> simp [h]
  · cases h : m.lookup k <;> simp [hk]

namespace FileMetadata

def created (path : String) (ecDataShards ecParityShards : Int) : FileMetadata where
  path := path
  size := 0
  blocks := []
  etagMd5 := ""
  createdAtMs := 0
  ecDataShards := ecDataShards
  ecParityShards := ecParityShards
  lastAccessMs := 0
  accessCount := 0
  movedToColdAtMs := 0

def allocateBlock (blockId : String) (locations : List String) (file : FileMetadata) : FileMetadata :=
  { file with blocks := file.blocks ++ [
      { blockId := blockId, size := 0, locations := locations, checksumCrc32c := 0
        ecDataShards := file.ecDataShards, ecParityShards := file.ecParityShards, originalSize := 0 }] }

/-- The first block with the reported id takes over the reported checksum and size. -/
def reportChecksum (info : BlockChecksumInfo) : List BlockInfo → List BlockInfo
  | [] => []
  | b :: bs =>
    if b.blockId = info.blockId then
      { b with checksumCrc32c := info.checksumCrc32c, size := info.actualSize, originalSize := info.actualSize } ::
        bs
    else b :: reportChecksum info bs

/-- Without reported checksums the file size is spread evenly, the rest going to the last block. -/
def spreadSize (size : Nat) (blocks : List BlockInfo) : List BlockInfo :=
  let blockSize := size / blocks.length
  blocks.zipIdx.map fun (b, i) =>
    { b with size := if i + 1 = blocks.length then size - blockSize * (blocks.length - 1) else blockSize }

def complete (size : Nat) (etagMd5 : Option String) (createdAtMs : Option Nat)
    (blockChecksums : List BlockChecksumInfo) (file : FileMetadata) : FileMetadata :=
  { file with
    size := size
    etagMd5 := etagMd5.getD file.etagMd5
    createdAtMs := createdAtMs.getD file.createdAtMs
    blocks :=
      if blockChecksums.isEmpty then spreadSize size file.blocks
      else blockChecksums.foldl (fun bs info => reportChecksum info bs) file.blocks }

end FileMetadata

/-- Apply an operation of a committed transaction; creating a file that is there does nothing. -/
def MasterState.applyTransactionOperation (s : MasterState) : TxOpType → MasterState
  | .delete path => { s with files := s.files.erase path }
  | .create path metadata => if path ∈ s.files then s else { s with files := s.files.insert path metadata }

def MasterState.applyCommand (s : MasterState) : MasterCommand → MasterState
  | .createFile path ecData ecParity =>
      { s with files := s.files.insert path (FileMetadata.created path ecData ecParity) }
  | .deleteFile path => { s with files := s.files.erase path }
  | .allocateBlock path blockId locations =>
      { s with files := s.files.modify path (FileMetadata.allocateBlock blockId locations) }
  | .registerChunkServer _ => s
  | .renameFile sourcePath destPath =>
      match s.files.lookup sourcePath with
      | some metadata =>
          { s with files := (s.files.erase sourcePath).insert destPath { metadata with path := destPath } }
      | none => s
  | .createTransactionRecord record =>
      { s with transactionRecords := s.transactionRecords.insert record.txId record }
  | .updateTransactionState txId newState =>
      { s with transactionRecords := s.transactionRecords.modify txId fun r => { r with state := newState } }
  | .applyTransactionOperation _ operation => s.applyTransactionOperation operation.opType
  | .deleteTransactionRecord txId => { s with transactionRecords := s.transactionRecords.erase txId }
  | .splitShard splitKey _ _ =>
      { s with files := (s.files.keys.filter fun k => splitKey ≤ k).foldl (fun fs k => fs.erase k) s.files }
  | .mergeShard _ => s
  | .ingestBatch files => { s with files := files.foldl (fun fs f => fs.insert f.path f) s.files }
  | .triggerShuffle pfx => { s with shufflingPrefixes := insert pfx s.shufflingPrefixes }
  | .completeFile path size etag createdAt checksums =>
      { s with files := s.files.modify path (FileMetadata.complete size etag createdAt checksums) }
  | .stopShuffle pfx => { s with shufflingPrefixes := s.shufflingPrefixes.erase pfx }
  | .updateAccessStats path at_ =>
      { s with files := s.files.modify path fun f =>
          { f with lastAccessMs := at_, accessCount := f.accessCount + 1 } }
  | .moveToCold path at_ => { s with files := s.files.modify path fun f => { f with movedToColdAtMs := at_ } }
  | .convertToEc path ecData ecParity newBlocks =>
      { s with files := s.files.modify path fun f =>
          { f with ecDataShards := ecData, ecParityShards := ecParity, blocks := newBlocks } }
  | .setParticipantAcked txId =>
      { s with transactionRecords := s.transactionRecords.modify txId fun r =>
        { r with participantAcked := true } }
  | .incrementInquiryCount txId =>
      { s with transactionRecords := s.transactionRecords.modify txId fun r =>
          { r with inquiryCount := r.inquiryCount + 1 } }

/-- Apply a command of the config server; `now` is the clock of the replica, in seconds. -/
def ConfigStateInner.applyCommand (now : Nat) (s : ConfigStateInner) : ConfigCommand → ConfigStateInner
  | .addShard shardId peers => { s with shardMap := s.shardMap.addShard shardId peers }
  | .removeShard shardId => { s with shardMap := s.shardMap.removeShard shardId }
  | .splitShard _ splitKey newShardId newShardPeers =>
      { s with shardMap := (s.shardMap.splitShard splitKey newShardId newShardPeers).1 }
  | .mergeShard victim retained => { s with shardMap := (s.shardMap.mergeShards victim retained).1 }
  | .rebalanceShard oldKey newKey => { s with shardMap := (s.shardMap.rebalanceBoundary oldKey newKey).1 }
  | .registerMaster address shardId =>
      let shardMap :=
        if s.shardMap.hasShard shardId then
          let peers := (s.shardMap.getPeers shardId).getD []
          if address ∈ peers then s.shardMap else s.shardMap.addShard shardId (peers ++ [address])
        else s.shardMap.addShard shardId [address]
      { shardMap := shardMap
        masters := s.masters.insert address
          { address := address, shardId := shardId, lastHeartbeat := now, rpsPerPrefix := ∅ } }
  | .shardHeartbeat address rps =>
      { s with masters := s.masters.modify address fun info =>
          { info with lastHeartbeat := now, rpsPerPrefix := rps } }

end RustHadoop
