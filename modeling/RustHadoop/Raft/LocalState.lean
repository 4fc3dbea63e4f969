import RustHadoop.Meta.Health
import RustHadoop.Raft.Election

/-!
# Snapshots and the state of one node

Some fields of `MasterState` belong to one node and are marked `serde(skip)`: the chunk servers it has heard of and
the commands that wait for them, the bad copies that were reported, and safe mode.  A snapshot does not contain
them, and `install_snapshot` puts the state that it has read in the place of the whole old one.  So the fields get
their defaults: they survive exactly if they had these before (`snapshot_keeps_local_iff`).  A node in safe mode
that catches up by a snapshot is out of safe mode and has forgotten all chunk servers (`snapshot_forgets_servers`).
-/

namespace RustHadoop

/-- The fields of `MasterState` that are not written. -/
structure LocalState where
  chunkServers : StringMap ChunkServerStatus
  pendingCommands : StringMap (List ChunkServerCommand)
  safeMode : Bool
  safeModeEnteredAt : Nat
  safeModeMinChunkservers : Nat
  expectedBlockCount : Nat
  reportedBlockCount : Nat
  safeModeThreshold : ℚ
  safeModeManual : Bool
  badBlockLocations : StringMap (Finset String)

def LocalState.default : LocalState := ⟨∅, ∅, false, 0, 0, 0, 0, 0, false, ∅⟩

namespace MasterNode

def localState (m : MasterNode) : LocalState where
  chunkServers := m.chunkServers
  pendingCommands := m.pendingCommands
  safeMode := m.state.safeMode
  safeModeEnteredAt := m.safeModeEnteredAt
  safeModeMinChunkservers := m.safeModeMinChunkservers
  expectedBlockCount := m.expectedBlockCount
  reportedBlockCount := m.reportedBlockCount
  safeModeThreshold := m.safeModeThreshold
  safeModeManual := m.safeModeManual
  badBlockLocations := m.badBlockLocations

/-- The whole state after `serde_json::from_slice`.  The term is kept next to it, not in it. -/
def load (m : MasterNode) (image : MasterImage) : MasterNode where
  state := image.load
  chunkServers := LocalState.default.chunkServers
  pendingCommands := LocalState.default.pendingCommands
  badBlockLocations := LocalState.default.badBlockLocations
  safeModeEnteredAt := LocalState.default.safeModeEnteredAt
  safeModeMinChunkservers := LocalState.default.safeModeMinChunkservers
  expectedBlockCount := LocalState.default.expectedBlockCount
  reportedBlockCount := LocalState.default.reportedBlockCount
  safeModeThreshold := LocalState.default.safeModeThreshold
  safeModeManual := LocalState.default.safeModeManual
  currentTerm := m.currentTerm

/-- The master after reading a snapshot of a master. -/
def restore (m : MasterNode) : SnapshotData → MasterNode
  | .master image => m.load image
  | .legacyMaster image => m.load image
  | .malformed => m
  | .config _ => m

private theorem restore_agrees (m : MasterNode) {data : SnapshotData} (hdt : ∀ s, data ≠ .config s) :
    data.restore (.master m.state) = .master (m.restore data).state := by
  cases data with
  | config s => exact absurd rfl (hdt s)
  | master | legacyMaster | malformed => rfl

end MasterNode

/-- A Raft node whose state machine is a master, with the whole state of that master. -/
structure MasterReplica where
  raft : RaftNode
  master : MasterNode
  agrees : raft.appState = .master master.state

namespace MasterReplica

variable (r : MasterReplica)

def snapshot : SnapshotData := r.raft.snapshotMessage.data

theorem snapshot_eq : r.snapshot = .master r.master.state.image := by
  unfold snapshot RaftNode.snapshotMessage
  rw [r.agrees]
  rfl

theorem snapshot_ne_config (s : ConfigStateInner) : r.snapshot ≠ .config s := by
  rw [r.snapshot_eq]
  exact nofun

def installSnapshot (r : MasterReplica) (lastIncludedIndex lastIncludedTerm : Nat) (data : SnapshotData)
    (hdata : ∀ s, data ≠ .config s) : MasterReplica where
  raft := r.raft.installSnapshot lastIncludedIndex lastIncludedTerm data
  master := r.master.restore data
  agrees := by
    rw [← r.master.restore_agrees hdata, ← r.agrees, RaftNode.installSnapshot_eq]

/-- The replicated fields become those of the peer, and the others stay as they were exactly if they were the
defaults. -/
theorem snapshot_keeps_local_iff (r peer : MasterReplica) (lastIncludedIndex lastIncludedTerm : Nat) :
    let r' := r.installSnapshot lastIncludedIndex lastIncludedTerm peer.snapshot peer.snapshot_ne_config
    r'.master.state.image = peer.master.state.image ∧
      (r'.master.localState = r.master.localState ↔ r.master.localState = .default) := by
  have hload : r.master.restore peer.snapshot = r.master.load peer.master.state.image := by
    rw [peer.snapshot_eq]
    rfl
  have hlocal : (r.master.load peer.master.state.image).localState = .default := rfl
  simp only [installSnapshot, hload, hlocal]
  exact ⟨rfl, eq_comm⟩

end MasterReplica

/-- A node in safe mode that has heard of a chunk server and has a command for it. -/
def safeReplica : MasterReplica where
  raft := { (Cluster.init trio).node 2 with appState := .master { MasterState.default with safeMode := true } }
  master :=
    { state := { MasterState.default with safeMode := true }
      chunkServers := (∅ : StringMap ChunkServerStatus).insert "s1" ⟨1, 0, 10, 0, ""⟩
      pendingCommands := (∅ : StringMap (List ChunkServerCommand)).insert "s1"
        [⟨.replicate, "b", "s2", -1, 0, 0, [], 0, 0⟩]
      badBlockLocations := (∅ : StringMap (Finset String)).insert "b" {"s3"}
      safeModeEnteredAt := 1000
      safeModeMinChunkservers := 1
      expectedBlockCount := 1
      reportedBlockCount := 0
      safeModeThreshold := 99 / 100
      safeModeManual := false
      currentTerm := 0 }
  agrees := rfl

def freshReplica : MasterReplica where
  raft := (Cluster.init trio).node 1
  master := ⟨.default, ∅, ∅, ∅, 0, 0, 0, 0, 0, false, 0⟩
  agrees := rfl

theorem snapshot_forgets_servers :
    let r' := safeReplica.installSnapshot 5 1 freshReplica.snapshot freshReplica.snapshot_ne_config
    "s1" ∈ safeReplica.master.chunkServers ∧ safeReplica.master.state.safeMode = true ∧
      safeReplica.master.shouldExitSafeMode 2000 = false ∧
      r'.master.chunkServers.keys = [] ∧ r'.master.pendingCommands.keys = [] ∧
        r'.master.badBlockLocations.keys = [] ∧
      r'.master.state.safeMode = false ∧ r'.raft.appState.isSafeMode = false := by
  have hraft : (safeReplica.raft.installSnapshot 5 1 freshReplica.snapshot).appState.isSafeMode = false := by
    rw [RaftNode.installSnapshot_eq]
    rfl
  exact ⟨by decide, rfl, by decide +kernel, rfl, rfl, rfl, rfl, hraft⟩

end RustHadoop
