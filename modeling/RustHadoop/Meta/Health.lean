import Mathlib.Algebra.Order.Ring.Rat
import RustHadoop.Meta.Files

/-!
# The health of blocks

What a master knows about chunk servers (`dfs/metaserver/src/master.rs`): who is alive, which copies of blocks are
bad, and the commands that wait for the next heartbeat of a server.  `heal_under_replicated_blocks` schedules
copies of blocks that have too few live ones; `heartbeat` delivers the commands.  All of this is state of one
master and not replicated.

The iteration order of a `HashMap` is that of the `AList`.  A ratio of block counts (`f64`) is an exact fraction.
-/

namespace RustHadoop

open List

inductive CommandType
  | unknown
  | replicate
  | delete
  | reconstructEcShard
  | moveToCold
deriving DecidableEq

structure ChunkServerCommand where
  type : CommandType
  blockId : String
  targetChunkServerAddress : String
  shardIndex : Int
  ecDataShards : Int
  ecParityShards : Int
  ecShardSources : List String
  originalBlockSize : Nat
  masterTerm : Nat
deriving DecidableEq

/-- A master with what is not replicated. -/
structure MasterNode where
  state : MasterState
  chunkServers : StringMap ChunkServerStatus
  pendingCommands : StringMap (List ChunkServerCommand)
  badBlockLocations : StringMap (Finset String)
  safeModeEnteredAt : Nat
  safeModeMinChunkservers : Nat
  expectedBlockCount : Nat
  reportedBlockCount : Nat
  safeModeThreshold : ℚ
  safeModeManual : Bool
  currentTerm : Nat

namespace MasterNode

def shouldExitSafeMode (now : Nat) (m : MasterNode) : Bool :=
  if m.safeModeManual then false
  else if ¬ m.state.safeMode then false
  else if m.chunkServers.entries.length < m.safeModeMinChunkservers then false
  else if m.expectedBlockCount = 0 then true
  else if m.safeModeThreshold ≤ m.reportedBlockCount / m.expectedBlockCount then true
  else decide (60000 < now - m.safeModeEnteredAt)

variable (m : MasterNode)

def exitSafeMode : MasterNode :=
  if m.state.safeMode then { m with state := { m.state with safeMode := false }, safeModeManual := false } else m

def updateReportedBlocks (now blockCount : Nat) (m : MasterNode) : MasterNode :=
  let m := { m with reportedBlockCount := m.reportedBlockCount + blockCount }
  if m.shouldExitSafeMode now then m.exitSafeMode else m

def replicationFactor : Nat := 3

def liveServers : List String := m.chunkServers.keys

/-- The commands for the missing shards of an erasure-coded block, from the shard with this index on. -/
def reconstructFrom (m : MasterNode) (block : BlockInfo) (liveCount : Nat) :
    Nat → List String → List (String × ChunkServerCommand)
  | _, [] => []
  | shardIdx, loc :: rest =>
    if loc ∈ m.chunkServers then reconstructFrom m block liveCount (shardIdx + 1) rest
    else if (liveCount : Int) < block.ecDataShards then []
    else
      match m.liveServers.find? fun s => s ∉ block.locations with
      | none => reconstructFrom m block liveCount (shardIdx + 1) rest
      | some target =>
        (target,
          { type := .reconstructEcShard, blockId := block.blockId, targetChunkServerAddress := target
            shardIndex := shardIdx, ecDataShards := block.ecDataShards, ecParityShards := block.ecParityShards
            ecShardSources := block.locations.map fun l => if l ∈ m.chunkServers then l else ""
            originalBlockSize := block.originalSize, masterTerm := 0 }) ::
          reconstructFrom m block liveCount (shardIdx + 1) rest

variable (block : BlockInfo)

def liveShards : Nat := (block.locations.filter fun loc => loc ∈ m.chunkServers).length

def reconstructCommands : List (String × ChunkServerCommand) :=
  if (block.locations.length : Int) ≠ block.ecDataShards + block.ecParityShards then []
  else reconstructFrom m block (m.liveShards block) 0 block.locations

/-- The live locations of a block whose copy is not known to be bad. -/
def liveLocations : List String :=
  let badOn := (m.badBlockLocations.lookup block.blockId).getD ∅
  block.locations.filter fun loc => loc ∈ m.chunkServers ∧ loc ∉ badOn

/-- The commands for the missing copies of a replicated block; the first live location is the source. -/
def replicateCommands : List (String × ChunkServerCommand) :=
  let needed := replicationFactor - (m.liveLocations block).length
  match m.liveLocations block with
  | [] => []
  | source :: _ =>
    ((m.liveServers.filter fun s => s ∉ block.locations).take needed).map fun target =>
      (source,
        { type := .replicate, blockId := block.blockId, targetChunkServerAddress := target, shardIndex := -1
          ecDataShards := 0, ecParityShards := 0, ecShardSources := [], originalBlockSize := 0, masterTerm := 0 })

def blockCommands : List (String × ChunkServerCommand) :=
  if 0 < block.ecDataShards then m.reconstructCommands block else m.replicateCommands block

/-- The commands a call of `heal_under_replicated_blocks` schedules, with the servers that get them. -/
def healCommands : List (String × ChunkServerCommand) :=
  if m.liveServers = [] then []
  else m.state.files.entries.flatMap fun file => file.2.blocks.flatMap m.blockCommands

def schedule (pending : StringMap (List ChunkServerCommand)) (e : String × ChunkServerCommand) :
    StringMap (List ChunkServerCommand) :=
  pending.insert e.1 ((pending.lookup e.1).getD [] ++ [e.2])

def healUnderReplicatedBlocks : MasterNode :=
  { m with pendingCommands := m.healCommands.foldl schedule m.pendingCommands }

end MasterNode

structure HeartbeatRequest where
  chunkServerAddress : String
  usedSpace : Nat
  availableSpace : Nat
  chunkCount : Nat
  badBlocks : List String
  rackId : String

structure HeartbeatResponse where
  success : Bool
  commands : List ChunkServerCommand
  masterTerm : Nat

namespace MasterNode

/-- A heartbeat that names no rack keeps the rack that is known. -/
def recordServer (now : Nat) (m : MasterNode) (req : HeartbeatRequest) : MasterNode :=
  let rackId :=
    if req.rackId ≠ "" then req.rackId
    else ((m.chunkServers.lookup req.chunkServerAddress).map ChunkServerStatus.rackId).getD ""
  let status : ChunkServerStatus := ⟨now, req.usedSpace, req.availableSpace, req.chunkCount, rackId⟩
  { m with chunkServers := m.chunkServers.insert req.chunkServerAddress status }

def recordSafeMode (now : Nat) (isNew : Bool) (req : HeartbeatRequest) (m : MasterNode) : MasterNode :=
  let m := if m.state.safeMode ∧ isNew then m.updateReportedBlocks now req.chunkCount else m
  if m.state.safeMode ∧ m.shouldExitSafeMode now then m.exitSafeMode else m

def recordBadBlocks (req : HeartbeatRequest) (m : MasterNode) : MasterNode :=
  if req.badBlocks = [] then m
  else
    { m with badBlockLocations := req.badBlocks.foldl (fun bad blockId =>
        bad.insert blockId (insert req.chunkServerAddress ((bad.lookup blockId).getD ∅))) m.badBlockLocations
    }.healUnderReplicatedBlocks

def heartbeat (now : Nat) (m : MasterNode) (req : HeartbeatRequest) : MasterNode × HeartbeatResponse :=
  let isNew := req.chunkServerAddress ∉ m.chunkServers
  let m := ((m.recordServer now req).recordSafeMode now isNew req).recordBadBlocks req
  let commands := (m.pendingCommands.lookup req.chunkServerAddress).getD []
  ({ m with pendingCommands := m.pendingCommands.erase req.chunkServerAddress }, ⟨true, commands, m.currentTerm⟩)

def freeServers (m : MasterNode) (block : BlockInfo) : List String :=
  m.liveServers.filter fun s => s ∉ block.locations

/-- All copies of a replicated block are there, or all shards of an erasure-coded one; an erasure-coded block with
a wrong number of locations is left alone. -/
def Complete (m : MasterNode) (block : BlockInfo) : Prop :=
  if 0 < block.ecDataShards then
    (block.locations.length : Int) ≠ block.ecDataShards + block.ecParityShards ∨
      ∀ loc ∈ block.locations, loc ∈ m.chunkServers
  else replicationFactor ≤ (m.liveLocations block).length

/-- A good copy of a replicated block, or enough shards of an erasure-coded one, and a live server for all that is
missing. -/
def Healable (m : MasterNode) (block : BlockInfo) : Prop :=
  if 0 < block.ecDataShards then
    block.ecDataShards ≤ m.liveShards block ∧
      block.locations.length - m.liveShards block ≤ (m.freeServers block).length
  else m.liveLocations block ≠ [] ∧
    replicationFactor - (m.liveLocations block).length ≤ (m.freeServers block).length

instance (m : MasterNode) (block : BlockInfo) : Decidable (m.Complete block) := by
  unfold Complete
  infer_instance

instance (m : MasterNode) (block : BlockInfo) : Decidable (m.Healable block) := by
  unfold Healable
  infer_instance

variable {m m' : MasterNode} {block : BlockInfo}

private theorem replicateCommands_eq_nil_iff (hg : m.liveLocations block ≠ [])
    (he : replicationFactor - (m.liveLocations block).length ≤ (m.freeServers block).length) :
    m.replicateCommands block = [] ↔ replicationFactor ≤ (m.liveLocations block).length := by
  obtain ⟨source, rest, hlive⟩ := exists_cons_of_ne_nil hg
  have hf : (m.liveServers.filter fun s => s ∉ block.locations).length = (m.freeServers block).length := rfl
  simp only [replicateCommands, hlive, map_eq_nil_iff, take_eq_nil_iff]
  rw [hlive] at he
  constructor
  · rintro (hn | hnn)
    · omega
    · rw [hnn] at hf
      simp only [length_nil] at hf
      omega
  · intro hc
    exact .inl (by omega)

private theorem reconstructFrom_eq_nil_iff {liveCount : Nat} (hlive : block.ecDataShards ≤ liveCount)
    {locations : List String}
    (hf : (∃ loc ∈ locations, loc ∉ m.chunkServers) → m.freeServers block ≠ []) (i : Nat) :
    m.reconstructFrom block liveCount i locations = [] ↔ ∀ loc ∈ locations, loc ∈ m.chunkServers := by
  induction locations generalizing i with
  | nil => simp [reconstructFrom]
  | cons loc rest ih =>
    by_cases hloc : loc ∈ m.chunkServers
    · have hr := ih (fun ⟨l, hl, hdd⟩ => hf ⟨l, mem_cons_of_mem _ hl, hdd⟩) (i + 1)
      simp only [reconstructFrom, hloc, if_true, hr, forall_mem_cons, true_and]
    · obtain ⟨target, htr⟩ : ∃ t, (m.liveServers.find? fun s => s ∉ block.locations) = some t := by
        obtain ⟨t, ht⟩ := exists_mem_of_ne_nil _ (hf ⟨loc, mem_cons_self, hloc⟩)
        rw [freeServers, mem_filter] at ht
        exact Option.isSome_iff_exists.1 (find?_isSome.2 ⟨t, ht⟩)
      simp only [reconstructFrom, hloc, if_false, if_neg (not_lt.2 hlive), htr, forall_mem_cons, false_and,
        reduceCtorEq]

theorem blockCommands_eq_nil_iff (h : m.Healable block) : m.blockCommands block = [] ↔ m.Complete block := by
  rw [Healable] at h
  rw [blockCommands, Complete]
  split
  case isTrue hec =>
    rw [if_pos hec] at h
    rw [reconstructCommands]
    split
    case isTrue hlen => simp only [hlen, ne_eq, not_false_eq_true, true_or]
    case isFalse hlen =>
      rw [reconstructFrom_eq_nil_iff h.1]
      · simp only [hlen, false_or]
      · rintro ⟨loc, hl, hdd⟩ hn
        -- one shard is missing, so that fewer shards than locations are live
        have hlt : m.liveShards block < block.locations.length :=
          length_filter_lt_length_iff_exists.2 ⟨loc, hl, by simpa using hdd⟩
        have := h.2
        rw [hn, length_nil] at this
        omega
  case isFalse hec =>
    rw [if_neg hec] at h
    exact replicateCommands_eq_nil_iff h.1 h.2

private theorem chunkServers_ne_nil (h : m.Healable block) : m.liveServers ≠ [] := by
  intro hn
  have hdd : ∀ loc, loc ∉ m.chunkServers := fun loc hl => by
    have : loc ∈ m.liveServers := hl
    rw [hn] at this
    exact not_mem_nil this
  rw [Healable] at h
  split at h
  case isTrue hec =>
    have : m.liveShards block = 0 := by simp [liveShards, hdd]
    omega
  case isFalse hec => exact h.1 (by simp [liveLocations, hdd])

theorem healCommands_eq_nil_iff (h : ∀ file ∈ m.state.files.entries, ∀ block ∈ file.2.blocks, m.Healable block) :
    m.healCommands = [] ↔ ∀ file ∈ m.state.files.entries, ∀ block ∈ file.2.blocks, m.Complete block := by
  have ha : (m.state.files.entries.flatMap fun file => file.2.blocks.flatMap m.blockCommands) = [] ↔
      ∀ file ∈ m.state.files.entries, ∀ block ∈ file.2.blocks, m.Complete block := by
    simp only [flatMap_eq_nil_iff]
    exact forall₂_congr fun file hf => forall₂_congr fun block hb =>
      blockCommands_eq_nil_iff (h file hf block hb)
  rw [healCommands]
  split
  case isTrue hn =>
    refine iff_of_true rfl fun file hf block hb => ?_
    exact absurd hn (chunkServers_ne_nil (h file hf block hb))
  case isFalse => exact ha

structure SameHealth (m m' : MasterNode) : Prop where
  files : m'.state.files = m.state.files
  live : ∀ s, s ∈ m'.chunkServers ↔ s ∈ m.chunkServers
  bad : m'.badBlockLocations = m.badBlockLocations

section

variable (h : SameHealth m m')
include h

theorem SameHealth.trans {m'' : MasterNode} (h' : SameHealth m' m'') : SameHealth m m'' :=
  ⟨h'.files.trans h.files, fun s => (h'.live s).trans (h.live s), h'.bad.trans h.bad⟩

theorem SameHealth.liveLocations (block : BlockInfo) : m'.liveLocations block = m.liveLocations block := by
  simp only [MasterNode.liveLocations, h.bad, h.live]

theorem SameHealth.complete_iff : m'.Complete block ↔ m.Complete block := by
  simp only [Complete, h.liveLocations, h.live]

private theorem SameHealth.length_freeServers : (m'.freeServers block).length = (m.freeServers block).length := by
  have hp : m'.liveServers.Perm m.liveServers :=
    (perm_ext_iff_of_nodup m'.chunkServers.keys_nodup m.chunkServers.keys_nodup).2 h.live
  exact (hp.filter _).length_eq

theorem SameHealth.healable_iff : m'.Healable block ↔ m.Healable block := by
  simp only [Healable, liveShards, h.length_freeServers, h.liveLocations, h.live]

end

theorem sameHealth_heal (m : MasterNode) : SameHealth m m.healUnderReplicatedBlocks := ⟨rfl, fun _ => .rfl, rfl⟩

theorem SameHealth.refl (m : MasterNode) : SameHealth m m := ⟨rfl, fun _ => .rfl, rfl⟩

theorem sameHealth_exitSafeMode (m : MasterNode) (c : Prop) [Decidable c] :
    SameHealth m (if c then m.exitSafeMode else m) := by
  split
  · rw [exitSafeMode]
    split <;> exact ⟨rfl, fun _ => .rfl, rfl⟩
  · exact .refl m

private theorem sameHealth_updateReportedBlocks (now blockCount : Nat) (m : MasterNode) :
    SameHealth m (m.updateReportedBlocks now blockCount) := by
  have hc : SameHealth m { m with reportedBlockCount := m.reportedBlockCount + blockCount } :=
    ⟨rfl, fun _ => .rfl, rfl⟩
  exact hc.trans (sameHealth_exitSafeMode _ _)

private theorem sameHealth_recordSafeMode (now : Nat) (isNew : Bool) (req : HeartbeatRequest) (m : MasterNode) :
    SameHealth m (m.recordSafeMode now isNew req) := by
  have hr : SameHealth m (if m.state.safeMode ∧ isNew then m.updateReportedBlocks now req.chunkCount else m) := by
    split
    · exact sameHealth_updateReportedBlocks now _ m
    · exact .refl m
  exact hr.trans (sameHealth_exitSafeMode _ _)

section

variable (now : Nat) {req : HeartbeatRequest} (hlive : req.chunkServerAddress ∈ m.chunkServers)
include now hlive

private theorem sameHealth_recordServer : SameHealth m (m.recordServer now req) := by
  refine ⟨rfl, fun s => ?_, rfl⟩
  simp only [recordServer, AList.mem_insert]
  exact ⟨fun h => h.elim (fun heq => heq ▸ hlive) id, .inr⟩

theorem sameHealth_heartbeat (hb : req.badBlocks = []) : SameHealth m (m.heartbeat now req).1 := by
  have hr := (sameHealth_recordServer now hlive).trans (sameHealth_recordSafeMode now
    (decide (req.chunkServerAddress ∉ m.chunkServers)) req _)
  rw [heartbeat, recordBadBlocks, if_pos hb]
  exact ⟨hr.files, hr.live, hr.bad⟩

end

end MasterNode

end RustHadoop
