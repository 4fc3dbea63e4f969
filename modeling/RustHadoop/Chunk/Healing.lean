import RustHadoop.Meta.Health
import RustHadoop.Chunk.Fencing

/-!
# Healing as a closed loop

A master schedules commands for the blocks that lack copies, chunk servers get the commands with their heartbeats
and carry them out.  No part of this loop writes the locations of a block: not the command, not the replication it
starts, not the heartbeats that follow.  What a healing pass has scheduled, the next one therefore schedules again.
-/

namespace RustHadoop

open Threads MasterNode MyChunkServer

/-- A master, the chunk servers, and the commands that servers have got and not yet carried out. -/
structure HealingLoop (N : Type) where
  master : MasterNode
  servers : N → ChunkServer
  received : List (String × ChunkServerCommand)

section

variable {N : Type} [DecidableEq N] (route : String → Option N)
  (reconstruct : N → ChunkServerCommand → (N → ChunkServer) → (N → ChunkServer) → Prop)

def quietServers : Machine N ChunkServer ChunkOp ChunkOp.Res ChunkRequest ChunkAnswer Task DiskFault :=
  chunkServers route (fun _ => False) (fun _ => False) (fun _ => False)

/-- A server carries out a command with success; `reconstruct` is what rebuilding a shard does. -/
def Executed (n : N) (c : ChunkServerCommand) (σ σ' : N → ChunkServer) : Prop :=
  match c.type with
  | .replicate =>
    (quietServers route).Runs σ n (initiateReplication c.blockId c.targetChunkServerAddress) σ' (.ok ())
  | .reconstructEcShard => reconstruct n c σ σ'
  | .moveToCold => (quietServers route).Runs σ n (moveBlockToCold c.blockId) σ' true
  | .unknown => σ' = σ
  | .delete => σ' = σ

/-- A live server sends a heartbeat, or a server carries out a command it has got. -/
inductive HealingStep : HealingLoop N → HealingLoop N → Prop
  | heartbeat {l : HealingLoop N} (now : Nat) (req : HeartbeatRequest) {n : N} {σ' : N → ChunkServer}
      (hlive : req.chunkServerAddress ∈ l.master.chunkServers) (hbad : req.badBlocks = [])
      (hroute : route req.chunkServerAddress = some n)
      (hterm : (quietServers route).Runs l.servers n (learnTerm (l.master.heartbeat now req).2.masterTerm) σ' ()) :
      HealingStep l ⟨(l.master.heartbeat now req).1, σ',
        l.received ++ (l.master.heartbeat now req).2.commands.map fun c => (req.chunkServerAddress, c)⟩
  | execute {l : HealingLoop N} (before after : List (String × ChunkServerCommand)) {address : String}
      {c : ChunkServerCommand} {n : N} {σ' : N → ChunkServer}
        (hreceived : l.received = before ++ (address, c) :: after)
      (hroute : route address = some n) (hdone : Executed route reconstruct n c l.servers σ') :
      HealingStep l ⟨l.master, σ', before ++ after⟩

/-- After a healing pass of `m`, every pending command was delivered and every delivered one carried out. -/
def HealingRound (m : MasterNode) (σ : N → ChunkServer) (l : HealingLoop N) : Prop :=
  Relation.ReflTransGen (HealingStep route reconstruct) ⟨m.healUnderReplicatedBlocks, σ, []⟩ l ∧
    l.received = [] ∧ ∀ address, (l.master.pendingCommands.lookup address).getD [] = []

variable {route reconstruct}

private theorem HealingStep.sameHealth {l l' : HealingLoop N} (h : HealingStep route reconstruct l l') :
    SameHealth l.master l'.master := by
  cases h with
  | heartbeat now req hl hb => exact sameHealth_heartbeat now hl hb
  | execute => exact .refl _

private theorem HealingRound.sameHealth {m : MasterNode} {σ : N → ChunkServer} {l : HealingLoop N}
    (h : HealingRound route reconstruct m σ l) : SameHealth m l.master := by
  have hr : ∀ {l l' : HealingLoop N}, Relation.ReflTransGen (HealingStep route reconstruct) l l' →
      SameHealth l.master l'.master := by
    intro l l' hs
    induction hs with
    | refl => exact .refl _
    | tail _ hst ih => exact ih.trans hst.sameHealth
  exact (sameHealth_heal m).trans (hr h.1)

end

/-- The target of every command is recorded among the locations of the block. -/
def MasterNode.Recorded (m : MasterNode) (commands : List (String × ChunkServerCommand)) : Prop :=
  ∀ c ∈ commands, ∀ file ∈ m.state.files.entries, ∀ block ∈ file.2.blocks,
    block.blockId = c.2.blockId → c.2.targetChunkServerAddress ∈ block.locations

instance (m : MasterNode) (commands : List (String × ChunkServerCommand)) : Decidable (m.Recorded commands) := by
  unfold Recorded
  infer_instance

/-- The next healing pass has nothing to do, and what was healed is recorded, exactly when nothing was to be
healed. -/
theorem MasterNode.healed_iff_complete {N : Type} [DecidableEq N] {route : String → Option N}
    {reconstruct : N → ChunkServerCommand → (N → ChunkServer) → (N → ChunkServer) → Prop} {m : MasterNode}
    {σ : N → ChunkServer} {l : HealingLoop N}
    (hhealable : ∀ file ∈ m.state.files.entries, ∀ block ∈ file.2.blocks, m.Healable block)
    (hround : HealingRound route reconstruct m σ l) :
    (l.master.healCommands = [] ∧ l.master.Recorded m.healCommands) ↔
      ∀ file ∈ m.state.files.entries, ∀ block ∈ file.2.blocks, m.Complete block := by
  have hsame := hround.sameHealth
  have hnext : l.master.healCommands = [] ↔ m.healCommands = [] := by
    rw [healCommands_eq_nil_iff hhealable, healCommands_eq_nil_iff, hsame.files]
    · exact forall₂_congr fun _ _ => forall₂_congr fun _ _ => hsame.complete_iff
    · intro file hfile block hblock
      exact hsame.healable_iff.2 (hhealable file (hsame.files ▸ hfile) block hblock)
  rw [← healCommands_eq_nil_iff hhealable, hnext]
  refine ⟨And.left, fun hnone => ⟨hnone, fun c hc => ?_⟩⟩
  rw [hnone] at hc
  exact absurd hc List.not_mem_nil

def loneBlock : BlockInfo := ⟨"b", 1, ["s1"], 0, 0, 0, 1⟩

def loneFile : FileMetadata := ⟨"/f", 1, [loneBlock], "", 0, 0, 0, 0, 0, 0⟩

def idle : ChunkServerStatus := ⟨0, 0, 0, 0, ""⟩

def loneMaster : MasterNode where
  state := { MasterState.default with files := (∅ : StringMap FileMetadata).insert "/f" loneFile }
  chunkServers := (((∅ : StringMap ChunkServerStatus).insert "s1" idle).insert "s2" idle).insert "s3" idle
  pendingCommands := ∅
  badBlockLocations := ∅
  safeModeEnteredAt := 0
  safeModeMinChunkservers := 1
  expectedBlockCount := 0
  reportedBlockCount := 0
  safeModeThreshold := 99 / 100
  safeModeManual := false
  currentTerm := 1

def loneServers (address : String) : ChunkServer :=
  ChunkServer.new (if address = "s1" then ⟨(∅ : StringMap Bytes).insert "b" [7], ∅⟩ else ⟨∅, ∅⟩) none 100 address

def loneBeat : HeartbeatRequest := ⟨"s1", 0, 0, 1, [], ""⟩

def copyTo (target : String) : ChunkServerCommand := ⟨.replicate, "b", target, -1, 0, 0, [], 0, 0⟩

def loneMasterAfter : MasterNode := (loneMaster.healUnderReplicatedBlocks.heartbeat 0 loneBeat).1

private theorem loneBeat_answer :
    (loneMaster.healUnderReplicatedBlocks.heartbeat 0 loneBeat).2.commands = [copyTo "s3", copyTo "s2"] ∧
    (loneMaster.healUnderReplicatedBlocks.heartbeat 0 loneBeat).2.masterTerm = 1 := by
  decide +kernel

theorem loneMaster_round : ∃ σ : String → ChunkServer,
    HealingRound some (fun _ _ _ _ => False) loneMaster loneServers ⟨loneMasterAfter, σ, []⟩ ∧
      (σ "s2").findBlock .hot "b" = some [7] ∧ (σ "s3").findBlock .hot "b" = some [7] := by
  let σ₁ := Function.update loneServers "s1" { loneServers "s1" with knownTerm := 1 }
  have hb : HealingStep some (fun _ _ _ _ => False) ⟨loneMaster.healUnderReplicatedBlocks, loneServers, []⟩
      ⟨loneMasterAfter, σ₁, [("s1", copyTo "s3"), ("s1", copyTo "s2")]⟩ := by
    have ht : (quietServers some).Runs loneServers "s1"
        (learnTerm (loneMaster.healUnderReplicatedBlocks.heartbeat 0 loneBeat).2.masterTerm) σ₁ () := by
      rw [loneBeat_answer.2]
      exact learnTerm_runs (by decide)
    have hr : [("s1", copyTo "s3"), ("s1", copyTo "s2")] = [] ++
        (loneMaster.healUnderReplicatedBlocks.heartbeat 0 loneBeat).2.commands.map fun c => ("s1", c) := by
      rw [loneBeat_answer.1]
      rfl
    rw [hr]
    exact .heartbeat 0 loneBeat (by decide) rfl rfl ht
  have hp : loneMasterAfter.pendingCommands.entries = [] := by decide +kernel
  refine ⟨_, ⟨((Relation.ReflTransGen.single hb).tail (.execute [] _ rfl rfl
    -- `s1` finds the block, reads it and the term; `s3` compares the terms, takes it, and writes the block and its
    -- checksums
    (.act (.act (.act (.call rfl (.act (.act (.act (.act (.act (.act .ret)))))) .ret)))))).tail (.execute
      [] _ rfl rfl
    -- the same for `s2`
    (.act (.act (.act (.call rfl (.act (.act (.act (.act (.act (.act .ret)))))) .ret))))), rfl, fun address =>
      ?_⟩, rfl, rfl⟩
  show (loneMasterAfter.pendingCommands.lookup address).getD [] = []
  rw [show loneMasterAfter.pendingCommands = ∅ from AList.ext hp, AList.lookup_empty, Option.getD_none]

theorem loneMaster_healable :
    ∀ file ∈ loneMaster.state.files.entries, ∀ block ∈ file.2.blocks, loneMaster.Healable block := by
  decide +kernel

/-- The pass does not converge for a block with one copy, since the block is not complete. -/
theorem MasterNode.healed_iff_complete_lone : ∃ l : HealingLoop String,
    HealingRound some (fun _ _ _ _ => False) loneMaster loneServers l ∧
      ((l.master.healCommands = [] ∧ l.master.Recorded loneMaster.healCommands) ↔
        ∀ file ∈ loneMaster.state.files.entries, ∀ block ∈ file.2.blocks, loneMaster.Complete block) := by
  obtain ⟨σ, hround, -⟩ := loneMaster_round
  exact ⟨_, hround, healed_iff_complete loneMaster_healable hround⟩

/-- Both copies are made, and the next healing pass schedules both again. -/
theorem MasterNode.heals_again :
    ∃ l : HealingLoop String, HealingRound some (fun _ _ _ _ => False) loneMaster loneServers l ∧
      (∀ file ∈ loneMaster.state.files.entries, ∀ block ∈ file.2.blocks, loneMaster.Healable block) ∧
      (l.servers "s2").findBlock .hot "b" = some [7] ∧ (l.servers "s3").findBlock .hot "b" = some [7] ∧
      l.master.healCommands = loneMaster.healCommands ∧ l.master.healCommands.length = 2 ∧
      ¬ l.master.Recorded loneMaster.healCommands := by
  obtain ⟨σ, hround, h2, h3⟩ := loneMaster_round
  have hagain : loneMasterAfter.healCommands = loneMaster.healCommands ∧ loneMasterAfter.healCommands.length = 2 ∧
      ¬ loneMasterAfter.Recorded loneMaster.healCommands := by
    decide +kernel
  exact ⟨_, hround, loneMaster_healable, h2, h3, hagain⟩

end RustHadoop
