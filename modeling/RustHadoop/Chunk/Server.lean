import RustHadoop.Chunk.Checksums
import RustHadoop.Lib.Threads
import RustHadoop.Meta.AppState

/-!
# The chunk server

`MyChunkServer` of `dfs/chunkserver/src/chunkserver.rs`: blocks on disk in a hot and possibly a cold directory, a
cache of whole blocks, and the highest master term seen.  A handler is a program of atomic actions on this state;
between two of its actions other handlers and disk faults may change what it works on.

A disk operation may fail at any time, without effect.  What the masters say about the locations of a block is
arbitrary. A read of a part of a block checks the checksums of that part only to start a recovery in the
background; recoveries may start at any time here, so that check is left out.  Left out as well are erasure-coded
shards.
-/

namespace RustHadoop

open Threads

structure BlockDir where
  blocks : StringMap Bytes
  metas : StringMap Bytes

structure CachedBlock where
  data : Bytes
  size : Nat

structure ChunkServer where
  storageDir : BlockDir
  coldStorageDir : Option BlockDir
  blockCache : List (String × CachedBlock)
  cacheCapacity : Nat
  knownTerm : Nat
  /-- the variable `CHUNK_SERVER_ADDR` -/
  myAddr : String

inductive Tier
  | hot
  | cold
deriving DecidableEq

inductive IoError
  | notFound
  | other (message : String)
deriving DecidableEq

namespace ChunkServer

def new (storageDir : BlockDir) (coldStorageDir : Option BlockDir) (cacheCapacity : Nat) (myAddr : String) :
    ChunkServer where
  storageDir := storageDir
  coldStorageDir := coldStorageDir
  blockCache := []
  cacheCapacity := cacheCapacity
  knownTerm := 0
  myAddr := myAddr

variable (s : ChunkServer)

def dir : Tier → Option BlockDir
  | .hot => some s.storageDir
  | .cold => s.coldStorageDir

variable (tier : Tier)

def findBlock (blockId : String) : Option Bytes :=
  (s.dir tier).bind fun d => d.blocks.lookup blockId

variable (blockId : String)

/-- The hot directory first, then the cold one; the hot path if the block is in neither. -/
def blockPath : Tier :=
  if (s.findBlock .hot blockId).isSome then .hot
  else if (s.findBlock .cold blockId).isSome then .cold
  else .hot

def fileSize (blockId : String) : Except IoError Nat :=
  match s.findBlock tier blockId with
  | none => .error .notFound
  | some data => .ok data.length

def readExact (blockId : String) (offset length : Nat) : Except IoError Bytes :=
  match s.findBlock tier blockId with
  | none => .error .notFound
  | some data =>
    if offset + length ≤ data.length then .ok ((data.drop offset).take length)
    else .error (.other "failed to fill whole buffer")

def readFile (blockId : String) : Except IoError Bytes :=
  match s.findBlock tier blockId with
  | none => .error .notFound
  | some data => .ok data

def findMeta : Option Bytes :=
  (s.storageDir.metas.lookup blockId).or (s.coldStorageDir.bind fun d => d.metas.lookup blockId)

def setBlock (data : Bytes) : ChunkServer :=
  { s with storageDir := { s.storageDir with blocks := s.storageDir.blocks.insert blockId data } }

def setMeta (data : Bytes) : ChunkServer :=
  { s with storageDir := { s.storageDir with metas := s.storageDir.metas.insert blockId data } }

def cacheGet : ChunkServer × Option CachedBlock :=
  match s.blockCache.find? fun e => e.1 = blockId with
  | some e => ({ s with blockCache := e :: s.blockCache.filter fun e => e.1 ≠ blockId }, some e.2)
  | none => (s, none)

def cachePut (block : CachedBlock) : ChunkServer :=
  { s with blockCache := ((blockId, block) :: s.blockCache.filter fun e => e.1 ≠ blockId).take s.cacheCapacity }

def moveBlock : ChunkServer × Bool :=
  match s.coldStorageDir, s.storageDir.blocks.lookup blockId with
  | some cold, some data =>
    ({ s with
        storageDir := { s.storageDir with blocks := s.storageDir.blocks.erase blockId }
        coldStorageDir := some { cold with blocks := cold.blocks.insert blockId data } }, true)
  | _, _ => (s, false)

def moveMeta : ChunkServer × Bool :=
  match s.coldStorageDir, s.storageDir.metas.lookup blockId with
  | some cold, some data =>
    ({ s with
        storageDir := { s.storageDir with metas := s.storageDir.metas.erase blockId }
        coldStorageDir := some { cold with metas := cold.metas.insert blockId data } }, true)
  | _, _ => (s, true)

end ChunkServer

inductive ChunkOp
  | loadTerm
  | storeTerm (term : Nat)
  | blockPath (blockId : String)
  | fileSize (tier : Tier) (blockId : String)
  | readExact (tier : Tier) (blockId : String) (offset length : Nat)
  | readFile (tier : Tier) (blockId : String)
  | readMeta (blockId : String)
  /-- create a file or write it whole -/
  | setBlock (blockId : String) (data : Bytes)
  | setMeta (blockId : String) (data : Bytes)
  | cacheGet (blockId : String)
  | cachePut (blockId : String) (block : CachedBlock)
  | moveBlock (blockId : String)
  | moveMeta (blockId : String)
  | blockLocations (blockId : String)
  | myAddr

def ChunkOp.Res : ChunkOp → Type
  | .loadTerm => Nat
  | .storeTerm _ => Unit
  | .blockPath _ => Tier
  | .fileSize _ _ => Except IoError Nat
  | .readExact _ _ _ _ => Except IoError Bytes
  | .readFile _ _ => Except IoError Bytes
  | .readMeta _ => Option Bytes
  | .setBlock _ _ => Except IoError Unit
  | .setMeta _ _ => Except IoError Unit
  | .cacheGet _ => Option CachedBlock
  | .cachePut _ _ => Unit
  | .moveBlock _ => Bool
  | .moveMeta _ => Bool
  | .blockLocations _ => List String
  | .myAddr => String

def ChunkServer.exec : (o : ChunkOp) → ChunkServer → ChunkServer × o.Res
  | .loadTerm, s => (s, s.knownTerm)
  | .storeTerm term, s => ({ s with knownTerm := term }, ())
  | .blockPath blockId, s => (s, s.blockPath blockId)
  | .fileSize tier blockId, s => (s, s.fileSize tier blockId)
  | .readExact tier blockId offset length, s => (s, s.readExact tier blockId offset length)
  | .readFile tier blockId, s => (s, s.readFile tier blockId)
  | .readMeta blockId, s => (s, s.findMeta blockId)
  | .setBlock blockId data, s => (s.setBlock blockId data, .ok ())
  | .setMeta blockId data, s => (s.setMeta blockId data, .ok ())
  | .cacheGet blockId, s => s.cacheGet blockId
  | .cachePut blockId block, s => (s.cachePut blockId block, ())
  | .moveBlock blockId, s => s.moveBlock blockId
  | .moveMeta blockId, s => s.moveMeta blockId
  | .blockLocations _, s => (s, [])
  | .myAddr, s => (s, s.myAddr)

/-- The results that may come without effect: I/O errors, and any locations. -/
def ChunkOp.refuse : (o : ChunkOp) → o.Res → Prop
  | .fileSize _ _, x => ∃ e, x = .error e
  | .readExact _ _ _ _, x => ∃ e, x = .error e
  | .readFile _ _, x => ∃ e, x = .error e
  | .readMeta _, x => x = none
  | .setBlock _ _, x => ∃ e, x = .error e
  | .setMeta _ _, x => ∃ e, x = .error e
  | .moveBlock _, x => x = false
  | .moveMeta _, x => x = false
  | .blockLocations _, _ => True
  | _, _ => False

inductive Code
  | notFound
  | outOfRange
  | internal
  | dataLoss
  | failedPrecondition
deriving DecidableEq

structure Status where
  code : Code
  message : String
deriving DecidableEq

structure WriteBlockRequest where
  blockId : String
  data : Bytes
  nextServers : List String
  expectedChecksumCrc32c : UInt32
  shardIndex : Int
  masterTerm : Nat
deriving DecidableEq

structure ReplicateBlockRequest where
  blockId : String
  data : Bytes
  nextServers : List String
  expectedChecksumCrc32c : UInt32
  masterTerm : Nat
deriving DecidableEq

structure ReadBlockRequest where
  blockId : String
  offset : Nat
  length : Nat
deriving DecidableEq

structure StoreResponse where
  success : Bool
  errorMessage : String
  replicasWritten : Int
deriving DecidableEq

structure ReadBlockResponse where
  data : Bytes
  bytesRead : Nat
  totalSize : Nat
deriving DecidableEq

inductive ChunkRequest
  | writeBlock (r : WriteBlockRequest)
  | replicateBlock (r : ReplicateBlockRequest)
  | readBlock (r : ReadBlockRequest)
deriving DecidableEq

inductive ChunkAnswer
  | stored (a : Except Status StoreResponse)
  | read (a : Except Status ReadBlockResponse)
deriving DecidableEq

abbrev ChunkProg := Prog ChunkOp ChunkOp.Res ChunkRequest ChunkAnswer

namespace ChunkProg

def loadTerm : ChunkProg Nat := .perform ChunkOp.loadTerm
def storeTerm (term : Nat) : ChunkProg Unit := .perform (ChunkOp.storeTerm term)
def blockPath (blockId : String) : ChunkProg Tier := .perform (ChunkOp.blockPath blockId)
def fileSize (tier : Tier) (blockId : String) : ChunkProg (Except IoError Nat) :=
  .perform (ChunkOp.fileSize tier blockId)
def readExact (tier : Tier) (blockId : String) (offset length : Nat) : ChunkProg (Except IoError Bytes) :=
  .perform (ChunkOp.readExact tier blockId offset length)
def readFile (tier : Tier) (blockId : String) : ChunkProg (Except IoError Bytes) :=
  .perform (ChunkOp.readFile tier blockId)
def readMeta (blockId : String) : ChunkProg (Option Bytes) := .perform (ChunkOp.readMeta blockId)
def setBlock (blockId : String) (data : Bytes) : ChunkProg (Except IoError Unit) :=
  .perform (ChunkOp.setBlock blockId data)
def setMeta (blockId : String) (data : Bytes) : ChunkProg (Except IoError Unit) :=
  .perform (ChunkOp.setMeta blockId data)
def cacheGet (blockId : String) : ChunkProg (Option CachedBlock) := .perform (ChunkOp.cacheGet blockId)
def cachePut (blockId : String) (block : CachedBlock) : ChunkProg Unit := .perform (ChunkOp.cachePut blockId block)
def moveBlock (blockId : String) : ChunkProg Bool := .perform (ChunkOp.moveBlock blockId)
def moveMeta (blockId : String) : ChunkProg Bool := .perform (ChunkOp.moveMeta blockId)
def blockLocations (blockId : String) : ChunkProg (List String) := .perform (ChunkOp.blockLocations blockId)
def myAddr : ChunkProg String := .perform ChunkOp.myAddr

end ChunkProg

namespace MyChunkServer

open ChunkProg

def IoError.text : IoError → String
  | .notFound => "No such file or directory (os error 2)"
  | .other message => message

def inOrder : List (ChunkProg (Except IoError Unit)) → ChunkProg (Except IoError Unit)
  | [] => return .ok ()
  | p :: ps => do
    match ← p with
    | .ok () => inOrder ps
    | .error e => return .error e

variable (blockId : String)

/-- Both files are created, which empties them, and then written. -/
def writeBlockAsync (data : Bytes) : ChunkProg (Except IoError Unit) :=
  inOrder [setBlock blockId [], setBlock blockId data, setMeta blockId [],
    setMeta blockId (metaBytes (calculateChecksums data))]

def readBlockAsync (offset length : Nat) : ChunkProg (Except IoError Bytes) := do
  let path ← blockPath blockId
  match ← fileSize path blockId with
  | .error e => return .error e
  | .ok totalSize =>
    if totalSize ≤ offset then
      return .error (.other ("Offset " ++ toString offset ++ " exceeds file size " ++ toString totalSize))
    else readExact path blockId offset (min length (totalSize - offset))

def verifyBlock (data : Bytes) : ChunkProg (Except String Unit) := do
  match ← readMeta blockId with
  | none => return .error "Checksum file missing"
  | some checksums => return compareChecksums (parseChecksums checksums) (calculateChecksums data)

def moveBlockToCold : ChunkProg Bool := do
  if ← moveBlock blockId then moveMeta blockId else return false

def staleTerm (reqTerm known : Nat) : Status :=
  ⟨.failedPrecondition, "Stale master term: request has " ++ toString reqTerm ++ " but known term is " ++
    toString known⟩

/-- Requests with a term below the highest one seen are rejected; a request without a term is not. -/
def fence (reqTerm : Nat) : ChunkProg (Except Status Unit) := do
  let known ← loadTerm
  if 0 < reqTerm ∧ reqTerm < known then return .error (staleTerm reqTerm known)
  else if known < reqTerm then do
    storeTerm reqTerm
    return .ok ()
  else return .ok ()

def forward (r : ReplicateBlockRequest) : List String → ChunkProg Int
  | [] => return 0
  | nextServer :: remainingServers => do
    match ← Prog.ask nextServer (.replicateBlock { r with nextServers := remainingServers }) with
    | some (.stored (.ok a)) => return if a.success then a.replicasWritten else 0
    | _ => return 0

/-- Check the term and the checksum, store the block and pass it on; `mismatch` begins the text for a wrong
checksum. -/
def storeBlock (mismatch : String) (r : ReplicateBlockRequest) : ChunkProg (Except Status StoreResponse) := do
  match ← fence r.masterTerm with
  | .error e => return .error e
  | .ok () =>
    if r.expectedChecksumCrc32c ≠ 0 ∧ crc32 r.data ≠ r.expectedChecksumCrc32c then
      return .ok ⟨false, mismatch ++ ": expected " ++ toString r.expectedChecksumCrc32c ++ ", actual " ++
        toString (crc32 r.data), 0⟩
    else do
      match ← writeBlockAsync r.blockId r.data with
      | .error e => return .ok ⟨false, IoError.text e, 0⟩
      | .ok () => do
        let further ← forward r r.nextServers
        return .ok ⟨true, "", 1 + further⟩

def writeBlock (r : WriteBlockRequest) : ChunkProg (Except Status StoreResponse) :=
  storeBlock "Checksum mismatch"
    { blockId := r.blockId, data := r.data, nextServers := r.nextServers
      expectedChecksumCrc32c := r.expectedChecksumCrc32c, masterTerm := r.masterTerm }

def replicateBlock (r : ReplicateBlockRequest) : ChunkProg (Except Status StoreResponse) :=
  storeBlock "Replication checksum mismatch" r

/-- Send a block to another server; what is on disk is sent as it is, and without a checksum. -/
def initiateReplication (blockId targetAddr : String) : ChunkProg (Except String Unit) := do
  let path ← blockPath blockId
  match ← readFile path blockId with
  | .error e => return .error ("Failed to read block " ++ blockId ++ ": " ++ IoError.text e)
  | .ok data => do
    let term ← loadTerm
    match ← Prog.ask targetAddr (.replicateBlock
        { blockId := blockId, data := data, nextServers := [], expectedChecksumCrc32c := 0,
          masterTerm := term }) with
    | some (.stored (.ok _)) => return .ok ()
    | some (.stored (.error e)) => return .error ("Replication failed: " ++ e.message)
    | _ => return .error ("Failed to connect to target " ++ targetAddr)

def learnTerm (masterTerm : Nat) : ChunkProg Unit := do
  let known ← loadTerm
  if known < masterTerm then storeTerm masterTerm else return ()

/-- Fetch a block from the first location, other than the server itself, whose data fits the own checksum file. -/
def recoverFrom (blockId myAddr : String) : List String → ChunkProg (Except String Unit)
  | [] => return .error "Failed to recover block from any replica"
  | location :: locations =>
    if myAddr.toList <:+: location.toList then recoverFrom blockId myAddr locations
    else do
      match ← Prog.ask location (.readBlock ⟨blockId, 0, 0⟩) with
      | some (.read (.ok a)) => do
        match ← verifyBlock blockId a.data with
        | .ok () => do
          match ← writeBlockAsync blockId a.data with
          | .ok () => return .ok ()
          | .error _ => recoverFrom blockId myAddr locations
        | .error _ => recoverFrom blockId myAddr locations
      | _ => recoverFrom blockId myAddr locations

def recoverBlock : ChunkProg (Except String Unit) := do
  let locations ← blockLocations blockId
  if locations = [] then return .error "No replica locations found for block"
  else do
    let my ← myAddr
    recoverFrom blockId my locations

/-- A whole block whose checksums are wrong is recovered from another server and read again. -/
def readRecovered (blockId corruption : String) (offset bytesToRead totalSize : Nat) :
    ChunkProg (Except Status ReadBlockResponse) := do
  match ← recoverBlock blockId with
  | .error e => return .error ⟨.dataLoss, "Data corruption detected: " ++ corruption ++ ". Recovery failed: " ++ e⟩
  | .ok () => do
    match ← readBlockAsync blockId offset bytesToRead with
    | .error e => return .error ⟨.internal, IoError.text e⟩
    | .ok recovered => do
      match ← verifyBlock blockId recovered with
      | .error e => return .error ⟨.dataLoss, "Recovered block is still corrupted: " ++ e⟩
      | .ok () => return .ok ⟨recovered, bytesToRead, totalSize⟩

def readWhole (offset bytesToRead totalSize : Nat) : ChunkProg (Except Status ReadBlockResponse) := do
  match ← readBlockAsync blockId offset bytesToRead with
  | .error .notFound => return .error ⟨.notFound, "Block not found"⟩
  | .error e => return .error ⟨.internal, "Failed to read block: " ++ IoError.text e⟩
  | .ok data => do
    match ← verifyBlock blockId data with
    | .error e => readRecovered blockId e offset bytesToRead totalSize
    | .ok () => do
      cachePut blockId ⟨data, data.length⟩
      return .ok ⟨data, bytesToRead, totalSize⟩

def readPart (offset bytesToRead totalSize : Nat) : ChunkProg (Except Status ReadBlockResponse) := do
  match ← readBlockAsync blockId offset bytesToRead with
  | .error .notFound => return .error ⟨.notFound, "Block not found"⟩
  | .error e => return .error ⟨.internal, "Failed to read block: " ++ IoError.text e⟩
  | .ok data => return .ok ⟨data, bytesToRead, totalSize⟩

/-- Length `0` stands for the rest of the block. -/
def readBlock (r : ReadBlockRequest) : ChunkProg (Except Status ReadBlockResponse) := do
  let path ← blockPath r.blockId
  match ← fileSize path r.blockId with
  | .error _ => return .error ⟨.notFound, "Block not found"⟩
  | .ok totalSize =>
    let length := if r.length = 0 then totalSize - r.offset else r.length
    if totalSize ≤ r.offset then
      return .error ⟨.outOfRange, "Offset " ++ toString r.offset ++ " exceeds block size " ++ toString totalSize⟩
    else
      let bytesToRead := min length (totalSize - r.offset)
      if r.offset = 0 ∧ bytesToRead = totalSize then do
        match ← cacheGet r.blockId with
        | some cached => return .ok ⟨cached.data, cached.size, totalSize⟩
        | none => readWhole r.blockId r.offset bytesToRead totalSize
      else readPart r.blockId r.offset bytesToRead totalSize

def serve : ChunkRequest → ChunkProg ChunkAnswer
  | .writeBlock r => do return .stored (← writeBlock r)
  | .replicateBlock r => do return .stored (← replicateBlock r)
  | .readBlock r => do return .read (← readBlock r)

/-- What a server does without being asked: it hears from masters, which may order a replication or a move, and it
recovers blocks. -/
inductive Task
  | learnTerm (masterTerm : Nat)
  | initiateReplication (blockId targetAddr : String)
  | recoverBlock (blockId : String)
  | moveBlockToCold (blockId : String)

def task : Task → ChunkProg Unit
  | .learnTerm masterTerm => learnTerm masterTerm
  | .initiateReplication blockId targetAddr => do
    let _ ← initiateReplication blockId targetAddr
    return ()
  | .recoverBlock blockId => do
    let _ ← recoverBlock blockId
    return ()
  | .moveBlockToCold blockId => do
    let _ ← moveBlockToCold blockId
    return ()

end MyChunkServer

def blockSlice (data : Bytes) (offset length : Nat) : Except String Bytes :=
  if data.length ≤ offset then
    .error ("Offset " ++ toString offset ++ " exceeds block size " ++ toString data.length)
  else .ok ((data.drop offset).take
    (min (if length = 0 then data.length - offset else length) (data.length - offset)))

structure DiskFault where
  tier : Tier
  blockId : String
  data : Bytes

def BlockDir.corrupt (d : BlockDir) (blockId : String) (data : Bytes) : BlockDir :=
  if blockId ∈ d.blocks then { d with blocks := d.blocks.insert blockId data } else d

def ChunkServer.corrupt (f : DiskFault) (s : ChunkServer) : ChunkServer :=
  match f.tier with
  | .hot => { s with storageDir := s.storageDir.corrupt f.blockId f.data }
  | .cold => { s with coldStorageDir := s.coldStorageDir.map fun d => d.corrupt f.blockId f.data }

def chunkDevice : Device ChunkServer ChunkOp ChunkOp.Res := ⟨ChunkServer.exec, ChunkOp.refuse⟩

def chunkServers {N : Type} (route : String → Option N) (asks : ChunkRequest → Prop)
    (starts : MyChunkServer.Task → Prop) (faults : DiskFault → Prop) :
    Machine N ChunkServer ChunkOp ChunkOp.Res ChunkRequest ChunkAnswer MyChunkServer.Task DiskFault where
  toDevice := chunkDevice
  serve := MyChunkServer.serve
  task := MyChunkServer.task
  route := route
  asks := asks
  starts := starts
  fault := ChunkServer.corrupt
  faults := faults

end RustHadoop
