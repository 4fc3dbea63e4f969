import Mathlib.Data.Finset.Card
import RustHadoop.Lib.Multimap
import RustHadoop.Meta.Health

/-!
# What a healing pass schedules

`heal_under_replicated_blocks` goes through the blocks of all files and appends commands to the queues of chunk
servers. For a replicated block with one or two good copies on live servers it asks one of these servers to copy
the block to as many others as copies are missing, or to all that there are; for every other replicated block it
does nothing, and what waits in the queues stays there (`healing_schedules_missing`).  The order in which files and
servers come does not matter. The missing shards of an erasure-coded block are all reconstructed on the same server
(`rebuilds_apart_iff`).
-/

namespace RustHadoop

open List

def BlockInfo.Replicated (block : BlockInfo) : Prop := ¬ 0 < block.ecDataShards

instance (block : BlockInfo) : Decidable block.Replicated := by
  unfold BlockInfo.Replicated
  infer_instance

namespace MasterNode

def blocks (m : MasterNode) : List BlockInfo := m.state.files.entries.flatMap fun file => file.2.blocks

def goodReplicas (m : MasterNode) (block : BlockInfo) : Finset String :=
  block.locations.toFinset.filter fun loc =>
    loc ∈ m.chunkServers ∧ loc ∉ (m.badBlockLocations.lookup block.blockId).getD ∅

def outsiders (m : MasterNode) (block : BlockInfo) : Finset String :=
  m.chunkServers.keys.toFinset.filter fun s => s ∉ block.locations

def queue (m : MasterNode) (address : String) : List ChunkServerCommand :=
  (m.pendingCommands.lookup address).getD []

def copiesOf (block : BlockInfo) (commands : List (String × ChunkServerCommand)) :
    List (String × ChunkServerCommand) :=
  commands.filter fun e => e.2.type = .replicate ∧ e.2.blockId = block.blockId

/-- One good server is to copy the block to as many others as are missing, or to all there are. -/
structure Replenishes (m : MasterNode) (block : BlockInfo) (commands : List (String × ChunkServerCommand)) :
    Prop where
  count : commands.length = min (3 - (m.goodReplicas block).card) (m.outsiders block).card
  source : ∃ source ∈ m.goodReplicas block, ∀ e ∈ commands, e.1 = source
  targets : (commands.map fun e => e.2.targetChunkServerAddress).Nodup
  outside : ∀ e ∈ commands, e.2.targetChunkServerAddress ∈ m.outsiders block

variable {m : MasterNode} {block : BlockInfo}

theorem card_goodReplicas (hn : block.locations.Nodup) :
    (m.goodReplicas block).card = (m.liveLocations block).length := by
  have hs : m.goodReplicas block = (m.liveLocations block).toFinset := by
    ext loc
    simp [goodReplicas, liveLocations]
  rw [hs]
  exact toFinset_card_of_nodup (hn.filter _)

private theorem card_outsiders (m : MasterNode) (block : BlockInfo) :
    (m.outsiders block).card = (m.freeServers block).length := by
  have hs : m.outsiders block = (m.freeServers block).toFinset := by
    ext s
    simp [outsiders, freeServers, liveServers]
  rw [hs]
  exact toFinset_card_of_nodup (m.chunkServers.keys_nodup.filter _)

variable {e : String × ChunkServerCommand}

theorem replicateCommands_type (he : e ∈ m.replicateCommands block) :
    e.2.type = .replicate ∧ e.2.blockId = block.blockId := by
  unfold replicateCommands at he
  dsimp only at he
  split at he
  · cases he
  · obtain ⟨target, -, rfl⟩ := mem_map.1 he
    exact ⟨rfl, rfl⟩

private theorem reconstructFrom_type (liveCount : Nat) (locations : List String) (i : Nat)
    (he : e ∈ m.reconstructFrom block liveCount i locations) : e.2.type = .reconstructEcShard := by
  induction locations generalizing i with
  | nil => cases he
  | cons loc rest ih =>
    unfold reconstructFrom at he
    split at he
    · exact ih _ he
    · split at he
      · cases he
      · split at he
        · exact ih _ he
        · rcases mem_cons.1 he with rfl | he
          · rfl
          · exact ih _ he

theorem reconstructCommands_type (he : e ∈ m.reconstructCommands block) : e.2.type = .reconstructEcShard := by
  unfold reconstructCommands at he
  split at he
  · cases he
  · exact reconstructFrom_type _ _ _ he

theorem replicateCommands_replenishes (hn : block.locations.Nodup) (hpos : 1 ≤ (m.goodReplicas block).card) :
    m.Replenishes block (m.replicateCommands block) := by
  rw [card_goodReplicas hn] at hpos
  obtain ⟨source, rest, hl⟩ := exists_cons_of_length_pos hpos
  have heq :
    m.replicateCommands block = ((m.freeServers block).take (3 - (m.liveLocations block).length)).map fun target =>
      (source,
        { type := .replicate, blockId := block.blockId, targetChunkServerAddress := target, shardIndex := -1
          ecDataShards := 0, ecParityShards := 0, ecShardSources := [], originalBlockSize :=
            0, masterTerm := 0 }) := by
    simp only [replicateCommands, hl]
    rfl
  have ht : (m.replicateCommands block).map (fun e => e.2.targetChunkServerAddress) =
      (m.freeServers block).take (3 - (m.liveLocations block).length) := by
    rw [heq, map_map]
    exact map_id' _
  have hf : (m.freeServers block).Nodup := m.chunkServers.keys_nodup.filter _
  refine ⟨?_, ⟨source, ?_, ?_⟩, ?_, ?_⟩
  · rw [card_goodReplicas hn, card_outsiders, heq, length_map, length_take]
  · have hmem : source ∈ m.liveLocations block := by simp [hl]
    simpa [goodReplicas, liveLocations] using hmem
  · intro e he
    rw [heq] at he
    obtain ⟨target, -, rfl⟩ := mem_map.1 he
    rfl
  · rw [ht]
    exact hf.sublist (take_sublist _ _)
  · intro e he
    have hmem :
      e.2.targetChunkServerAddress ∈ (m.replicateCommands block).map fun e => e.2.targetChunkServerAddress :=
      mem_map_of_mem he
    rw [ht] at hmem
    simpa [outsiders, freeServers, liveServers] using mem_of_mem_take hmem

private theorem replicateCommands_eq_nil (hn : block.locations.Nodup)
    (hnn : ¬ (1 ≤ (m.goodReplicas block).card ∧ (m.goodReplicas block).card ≤ 2)) :
    m.replicateCommands block = [] := by
  rw [card_goodReplicas hn] at hnn
  unfold replicateCommands
  dsimp only
  split
  · rfl
  · rename_i source rest hl
    rw [hl, length_cons] at hnn ⊢
    have hnd : replicationFactor - (rest.length + 1) = 0 := by
      unfold replicationFactor
      omega
    rw [hnd]
    rfl

private theorem blockCommands_eq_nil (hn : m.liveServers = []) : m.blockCommands block = [] := by
  have hdd : ∀ loc, loc ∉ m.chunkServers := by
    intro loc hloc
    have hmem : loc ∈ m.liveServers := hloc
    rw [hn] at hmem
    cases hmem
  unfold blockCommands
  split
  · rename_i hec
    unfold reconstructCommands
    split
    · rfl
    · have hz : m.liveShards block = 0 := by simp [liveShards, hdd]
      rw [hz]
      cases block.locations with
      | nil => rfl
      | cons loc rest => rw [reconstructFrom, if_neg (hdd loc), if_pos (by simpa using hec)]
  · have hl : m.liveLocations block = [] := by simp [liveLocations, hdd]
    simp only [replicateCommands, hl]

theorem healCommands_eq (m : MasterNode) : m.healCommands = m.blocks.flatMap m.blockCommands := by
  unfold healCommands blocks
  rw [flatMap_assoc]
  split
  · rename_i hn
    symm
    rw [flatMap_eq_nil_iff]
    intro file _
    rw [flatMap_eq_nil_iff]
    exact fun block _ => blockCommands_eq_nil hn
  · rfl

private theorem filter_eq_singleton {α κ : Type} [DecidableEq κ] {f : α → κ} {l : List α}
    (h : (l.map f).Nodup) {a : α} (ha : a ∈ l) : (l.filter fun b => f b = f a) = [a] := by
  obtain ⟨before, after, rfl⟩ := append_of_mem ha
  rw [map_append, map_cons, nodup_append, nodup_cons] at h
  obtain ⟨-, ⟨haf, -⟩, hbf⟩ := h
  have hn : ∀ ks : List α, f a ∉ ks.map f → (ks.filter fun b => f b = f a) = [] := by
    intro ks hks
    refine filter_eq_nil_iff.2 fun b hb heq => hks ?_
    rw [← of_decide_eq_true heq]
    exact mem_map_of_mem hb
  rw [filter_append, filter_cons_of_pos (by simp), hn after haf, hn before, nil_append]
  exact fun hmem => hbf _ hmem _ mem_cons_self rfl

private theorem flatMap_ite_filter {α β : Type} (l : List α) (p : α → Prop) [DecidablePred p] (f : α → List β) :
    (l.flatMap fun a => if p a then f a else []) = (l.filter fun a => p a).flatMap f := by
  induction l with
  | nil => rfl
  | cons a l ih =>
    rw [flatMap_cons, ih]
    by_cases ha : p a
    · simp [ha]
    · simp [ha]

private theorem copiesOf_healCommands (hi : ((m.blocks.filter fun b => b.Replicated).map BlockInfo.blockId).Nodup)
    (hb : block ∈ m.blocks) (hr : block.Replicated) :
    copiesOf block m.healCommands = m.replicateCommands block := by
  have hone : ∀ b, copiesOf block (m.blockCommands b) =
      if b.Replicated ∧ b.blockId = block.blockId then m.replicateCommands b else [] := by
    intro b
    unfold copiesOf blockCommands
    by_cases hec : 0 < b.ecDataShards
    · rw [if_pos hec, if_neg fun h => h.1 hec, filter_eq_nil_iff]
      intro e he
      simp [reconstructCommands_type he]
    · rw [if_neg hec]
      split
      · rename_i hs
        refine filter_eq_self.2 fun e he => decide_eq_true ?_
        rw [← hs.2]
        exact replicateCommands_type he
      · rename_i ho
        refine filter_eq_nil_iff.2 fun e he heq => ho ⟨hec, ?_⟩
        rw [← (replicateCommands_type he).2]
        exact (of_decide_eq_true heq).2
  have hf : (m.blocks.filter fun b => b.Replicated ∧ b.blockId = block.blockId) = [block] := by
    rw [← filter_eq_singleton hi (mem_filter.2 ⟨hb, decide_eq_true hr⟩), filter_filter]
    refine filter_congr fun b _ => ?_
    rw [Bool.decide_and, Bool.and_comm]
  calc copiesOf block m.healCommands = m.blocks.flatMap fun b => copiesOf block (m.blockCommands b) := by
        rw [healCommands_eq, copiesOf, filter_flatMap]
        rfl
    _ = (m.blocks.filter fun b => b.Replicated ∧ b.blockId = block.blockId).flatMap m.replicateCommands := by
        simp only [hone]
        exact flatMap_ite_filter _ _ _
    _ = m.replicateCommands block := by rw [hf, flatMap_singleton]

/-- A healing pass appends commands to the queues and changes nothing else; for a replicated block with one or two
good copies on live servers it schedules what is missing, and for other replicated blocks nothing. -/
theorem healing_schedules_missing (hlocations : ∀ block ∈ m.blocks, block.Replicated → block.locations.Nodup)
    (hids : ((m.blocks.filter fun b => b.Replicated).map BlockInfo.blockId).Nodup) :
    m.healUnderReplicatedBlocks = { m with pendingCommands := m.healUnderReplicatedBlocks.pendingCommands } ∧
      (∀ address, m.healUnderReplicatedBlocks.queue address =
        m.queue address ++ (m.healCommands.filter fun e => e.1 = address).map Prod.snd) ∧
      (∀ e ∈ m.healCommands, e.2.type = .replicate → ∃ block ∈ m.blocks, block.Replicated ∧
        block.blockId = e.2.blockId) ∧
      ∀ block ∈ m.blocks, block.Replicated → (1 ≤ (m.goodReplicas block).card ∧ (m.goodReplicas block).card ≤ 2 →
          m.Replenishes block (copiesOf block m.healCommands)) ∧
        (¬ (1 ≤ (m.goodReplicas block).card ∧ (m.goodReplicas block).card ≤ 2) →
          copiesOf block m.healCommands = []) := by
  refine ⟨rfl, fun address => Multimap.getD_lookup_foldl_push m.healCommands m.pendingCommands address, ?_, ?_⟩
  · intro e he htype
    rw [healCommands_eq] at he
    obtain ⟨block, hblock, he⟩ := mem_flatMap.1 he
    refine ⟨block, hblock, ?_⟩
    unfold blockCommands at he
    split at he
    · rw [reconstructCommands_type he] at htype
      cases htype
    · rename_i hrep
      exact ⟨hrep, (replicateCommands_type he).2.symm⟩
  · intro block hblock hrep
    rw [copiesOf_healCommands hids hblock hrep]
    exact ⟨fun hfew => replicateCommands_replenishes (hlocations block hblock hrep) hfew.1,
      replicateCommands_eq_nil (hlocations block hblock hrep)⟩

end MasterNode

def twoBlockFile : FileMetadata :=
  ⟨"/f", 2, [⟨"b1", 1, ["s1"], 0, 0, 0, 1⟩, ⟨"b2", 1, ["s1", "s2", "s3"], 0, 0, 0, 1⟩], "", 0, 0, 0, 0, 0, 0⟩

def badCopyMaster : MasterNode where
  state := { MasterState.default with files := (∅ : StringMap FileMetadata).insert "/f" twoBlockFile }
  chunkServers := ["s1", "s2", "s3"].foldl (fun servers address => servers.insert address ⟨0, 0, 0, 0, ""⟩) ∅
  pendingCommands := ∅
  badBlockLocations := (∅ : StringMap (Finset String)).insert "b2" {"s3"}
  safeModeEnteredAt := 0
  safeModeMinChunkservers := 1
  expectedBlockCount := 0
  reportedBlockCount := 0
  safeModeThreshold := 99 / 100
  safeModeManual := false
  currentTerm := 1

/-- The first block is copied to two servers; for the second one there is no server left. -/
theorem healing_schedules_missing_bad : (badCopyMaster.queue "s1").length = 0 ∧
    ∀ block ∈ badCopyMaster.blocks, badCopyMaster.Replenishes block
      (MasterNode.copiesOf block badCopyMaster.healCommands) := by
  refine ⟨rfl, fun block hblock => ?_⟩
  have hfew : ∀ block ∈ badCopyMaster.blocks, block.Replicated ∧
      1 ≤ (badCopyMaster.goodReplicas block).card ∧ (badCopyMaster.goodReplicas block).card ≤ 2 := by decide
  exact ((MasterNode.healing_schedules_missing (by decide) (by decide)).2.2.2 block hblock (hfew block hblock).1).1
    (hfew block hblock).2

namespace MasterNode

variable {m : MasterNode} {block : BlockInfo}

def missingShards (m : MasterNode) (block : BlockInfo) : List String :=
  block.locations.filter fun loc => loc ∉ m.chunkServers

/-- Every shard is reconstructed on a live server of its own that holds no shard. -/
structure RebuildsApart (m : MasterNode) (block : BlockInfo) (commands : List (String × ChunkServerCommand)) :
    Prop where
  targets : (commands.map fun e => e.2.targetChunkServerAddress).Nodup
  outside : ∀ e ∈ commands, e.2.targetChunkServerAddress ∈ m.outsiders block

theorem targets_reconstructFrom {liveCount : Nat} (hl : block.ecDataShards ≤ liveCount) (locations : List String)
    (i : Nat) : (m.reconstructFrom block liveCount i locations).map (fun e => e.2.targetChunkServerAddress) =
      (locations.filter fun loc => loc ∉ m.chunkServers).filterMap fun _ =>
        m.liveServers.find? fun s => s ∉ block.locations := by
  induction locations generalizing i with
  | nil => rfl
  | cons loc rest ih =>
    unfold reconstructFrom
    by_cases hloc : loc ∈ m.chunkServers
    · rw [if_pos hloc, filter_cons_of_neg (by simpa using hloc), ih]
    · rw [if_neg hloc, if_neg (not_lt.2 hl), filter_cons_of_pos (by simpa using hloc), filterMap_cons]
      cases hf : m.liveServers.find? fun s => s ∉ block.locations with
      | none => simpa only [hf] using ih (i + 1)
      | some target => simpa only [hf, map_cons, cons.injEq, true_and] using ih (i + 1)

/-- The commands for an erasure-coded block with all its locations and enough live shards go to separate servers
exactly if at most one shard is missing or no server is free. -/
theorem rebuilds_apart_iff (hblock : block ∈ m.blocks) (hec : 0 < block.ecDataShards)
    (hlen : (block.locations.length : Int) = block.ecDataShards + block.ecParityShards)
    (hlive : block.ecDataShards ≤ m.liveShards block) :
    (m.blockCommands block).Sublist m.healCommands ∧ (m.RebuildsApart block (m.blockCommands block) ↔
      (m.missingShards block).length ≤ 1 ∨ m.outsiders block = ∅) := by
  have hcommands : m.blockCommands block = m.reconstructFrom block (m.liveShards block) 0 block.locations := by
    rw [blockCommands, if_pos hec, reconstructCommands, if_neg (not_not.2 hlen)]
  have htargets := targets_reconstructFrom (m := m) hlive block.locations 0
  rw [← hcommands] at htargets
  refine ⟨?_, ?_⟩
  · rw [healCommands_eq, flatMap_def]
    exact sublist_flatten_of_mem (mem_map_of_mem hblock)
  have hmem : ∀ s, s ∈ m.outsiders block ↔ s ∈ m.liveServers ∧ s ∉ block.locations := by
    simp [outsiders, liveServers]
  cases hfind : m.liveServers.find? fun s => s ∉ block.locations with
  | none =>
    have hnil : m.blockCommands block = [] := by
      rw [hfind] at htargets
      simpa using htargets
    refine iff_of_true ?_ (.inr (Finset.eq_empty_of_forall_notMem fun s hs => ?_))
    · rw [hnil]
      exact ⟨nodup_nil, by simp⟩
    · obtain ⟨hs, hout⟩ := (hmem s).1 hs
      exact find?_eq_none.1 hfind s hs (by simpa using hout)
  | some target =>
    have htarget : target ∈ m.outsiders block :=
      (hmem target).2 ⟨mem_of_find?_eq_some hfind, by simpa using find?_some hfind⟩
    have hall : (m.blockCommands block).map (fun e => e.2.targetChunkServerAddress) =
        replicate (m.missingShards block).length target := by
      rw [htargets, hfind]
      exact (filterMap_eq_map (f := fun _ => target) ▸ map_const' ..)
    have hne : m.outsiders block ≠ ∅ := Finset.ne_empty_of_mem htarget
    rw [or_iff_left hne, ← nodup_replicate (a := target), ← hall]
    refine ⟨fun h => h.targets, fun h => ⟨h, fun e he => ?_⟩⟩
    have hin : e.2.targetChunkServerAddress ∈ replicate (m.missingShards block).length target :=
      hall ▸ mem_map_of_mem he
    rw [eq_of_mem_replicate hin]
    exact htarget

end MasterNode

def shardedBlock : BlockInfo := ⟨"b1", 1, ["s1", "s2", "s3"], 0, 1, 2, 1⟩

def shardedMaster (dead : List String) : MasterNode :=
  { badCopyMaster with
    state := { MasterState.default with
      files := (∅ : StringMap FileMetadata).insert "/f" ⟨"/f", 1, [shardedBlock], "", 0, 0, 0, 0, 0, 0⟩ }
    chunkServers := (["s1", "s2", "s3", "s4"].filter fun s => s ∉ dead).foldl
      (fun servers address => servers.insert address ⟨0, 0, 0, 0, ""⟩) ∅ }

theorem MasterNode.rebuilds_apart_iff_one : ((shardedMaster ["s3"]).blockCommands shardedBlock).length = 1 ∧
    (shardedMaster ["s3"]).RebuildsApart shardedBlock ((shardedMaster ["s3"]).blockCommands shardedBlock) :=
  ⟨by decide, (MasterNode.rebuilds_apart_iff (by decide) (by decide) (by decide) (by decide)).2.2
    (.inl (by decide))⟩

/-- With two shards missing and one left, which is enough, `s4` is ordered to store both under the same block
id. -/
theorem both_shards_to_one_server :
    shardedBlock ∈ (shardedMaster ["s2", "s3"]).blocks ∧ (shardedMaster ["s2", "s3"]).liveShards shardedBlock = 1 ∧
    ((shardedMaster ["s2", "s3"]).healUnderReplicatedBlocks.queue "s4").map
        (fun c => (c.type, c.blockId, c.targetChunkServerAddress, c.shardIndex)) =
      [(.reconstructEcShard, "b1", "s4", 1), (.reconstructEcShard, "b1", "s4", 2)] := by
  decide

end RustHadoop
