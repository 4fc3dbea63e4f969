import Mathlib.Data.List.AList
import Mathlib.Data.Finset.Basic
import Mathlib.Data.String.Basic

/-!
# Shard maps

`ShardMap` of `dfs/common/src/sharding.rs`: which shard is responsible for a key, either by a consistent-hash ring
or by ranges.  The `BTreeMap`s of the source are association lists in strictly increasing key order (`BTreeMap`),
so iteration and "first key not below" are the list's own; Rust compares strings by their UTF-8 bytes, which is the
order of code points and hence that of `String`.  Hash maps are `AList`s, whose list order stands for the iteration
order.
-/

namespace RustHadoop

open List

/-- An association list in strictly increasing key order. -/
structure BTreeMap (K V : Type) [LinearOrder K] where
  entries : List (K × V)
  sorted : entries.Pairwise fun a b => a.1 < b.1

namespace BTreeMap

variable {K V : Type} [LinearOrder K]

def empty : BTreeMap K V := ⟨[], Pairwise.nil⟩

def insertEntry (k : K) (v : V) : List (K × V) → List (K × V)
  | [] => [(k, v)]
  | e :: l => if k < e.1 then (k, v) :: e :: l else if k = e.1 then (k, v) :: l else e :: insertEntry k v l

variable {l : List (K × V)}

theorem fst_of_mem_insertEntry {k : K} {v : V} {x : K × V} (h : x ∈ insertEntry k v l) : x.1 = k ∨ x ∈ l := by
  induction l with
  | nil => simp_all [insertEntry]
  | cons e l ih =>
    unfold insertEntry at h
    split at h
    · simp only [mem_cons] at h ⊢
      rcases h with rfl | h
      · exact .inl rfl
      · exact .inr h
    · split at h
      · simp only [mem_cons] at h ⊢
        rcases h with rfl | h
        · exact .inl rfl
        · exact .inr (.inr h)
      · simp only [mem_cons] at h ⊢
        rcases h with rfl | h
        · exact .inr (.inl rfl)
        · exact (ih h).imp_right .inr

private theorem insertEntry_sorted (k : K) (v : V) (h : l.Pairwise fun a b => a.1 < b.1) :
    (insertEntry k v l).Pairwise fun a b => a.1 < b.1 := by
  induction l with
  | nil => simp [insertEntry]
  | cons e l ih =>
    have he := pairwise_cons.1 h
    unfold insertEntry
    split
    · rename_i hlt
      refine pairwise_cons.2 ⟨?_, h⟩
      intro x hx
      rcases mem_cons.1 hx with rfl | hx
      · exact hlt
      · exact hlt.trans (he.1 x hx)
    · split
      · rename_i heq
        subst heq
        exact pairwise_cons.2 ⟨he.1, he.2⟩
      · rename_i hge hne
        refine pairwise_cons.2 ⟨?_, ih he.2⟩
        intro x hx
        rcases fst_of_mem_insertEntry hx with hk | hx
        · rw [hk]
          exact lt_of_le_of_ne (not_lt.1 hge) (Ne.symm hne)
        · exact he.1 x hx

def insert (k : K) (v : V) (m : BTreeMap K V) : BTreeMap K V :=
  ⟨insertEntry k v m.entries, insertEntry_sorted k v m.sorted⟩

def filter (p : K × V → Bool) (m : BTreeMap K V) : BTreeMap K V := ⟨m.entries.filter p, m.sorted.filter p⟩

def remove (k : K) (m : BTreeMap K V) : BTreeMap K V := m.filter fun e => e.1 ≠ k

def get? (k : K) (m : BTreeMap K V) : Option V := (m.entries.find? fun e => e.1 = k).map Prod.snd

def firstFrom (k : K) (m : BTreeMap K V) : Option (K × V) := m.entries.find? fun e => k ≤ e.1

end BTreeMap

abbrev ShardId := String

/-- One byte of the reflected CRC-32 with polynomial `0xEDB88320`. -/
def crc32Byte (crc : UInt32) (b : UInt8) : UInt32 :=
  (range 8).foldl (fun c _ => if c &&& 1 = 1 then (c >>> 1) ^^^ 0xEDB88320 else c >>> 1) (crc ^^^ b.toUInt32)

def crc32 (bytes : List UInt8) : UInt32 := (bytes.foldl crc32Byte 0xFFFFFFFF) ^^^ 0xFFFFFFFF

def hashKey (key : String) : Nat := (crc32 key.toUTF8.toList).toNat

inductive ShardingStrategy
  | consistentHash (ring : BTreeMap Nat ShardId) (virtualNodes : Nat)
  | range (ranges : BTreeMap String ShardId)

structure ShardMap where
  strategy : ShardingStrategy
  shards : Finset ShardId
  shardPeers : AList fun _ : ShardId => List String

namespace ShardMap

def newConsistentHash (virtualNodes : Nat) : ShardMap := ⟨.consistentHash .empty virtualNodes, ∅, ∅⟩

def newRange : ShardMap := ⟨.range .empty, ∅, ∅⟩

/-- The key above all others, `"\u{10FFFF}"` in the source. -/
def maxKey : String := String.singleton (Char.ofNat 0x10FFFF)

variable (shardId : ShardId)

/-- The ring or the ranges after a shard that was not there is added. -/
def addToStrategy : ShardingStrategy → ShardingStrategy
  | .consistentHash ring virtualNodes =>
      .consistentHash ((range virtualNodes).foldl
        (fun r i => r.insert (hashKey (shardId ++ ":" ++ toString i)) shardId) ring) virtualNodes
  | .range ranges =>
      match ranges.entries with
      | [] => .range (ranges.insert maxKey shardId)
      | [old] => .range ((BTreeMap.empty.insert "/m" shardId).insert maxKey old.2)
      | _ => .range (ranges.insert ("z-" ++ shardId) shardId)

variable (m : ShardMap)

def addShard (peers : List String) : ShardMap :=
  if shardId ∈ m.shards then { m with shardPeers := m.shardPeers.insert shardId peers }
  else
    { strategy := addToStrategy shardId m.strategy
      shards := insert shardId m.shards
      shardPeers := m.shardPeers.insert shardId peers }

def hasShard : Bool := shardId ∈ m.shards

def getPeers : Option (List String) := m.shardPeers.lookup shardId

def removeShard : ShardMap :=
  if shardId ∈ m.shards then
    { strategy := match m.strategy with
        | .consistentHash ring virtualNodes => .consistentHash (ring.filter fun e => e.2 ≠ shardId) virtualNodes
        | .range ranges => .range (ranges.filter fun e => e.2 ≠ shardId)
      shards := m.shards.erase shardId
      shardPeers := m.shardPeers.erase shardId }
  else m

def getShard (key : String) : Option ShardId :=
  match m.strategy with
  | .consistentHash ring _ => ((ring.firstFrom (hashKey key)).or ring.entries.head?).map Prod.snd
  | .range ranges => (ranges.firstFrom key).map Prod.snd

/-- Add a split point; the flag says whether it was added. -/
def splitShard (splitKey : String) (newShardId : ShardId) (peers : List String) : ShardMap × Bool :=
  match m.strategy with
  | .consistentHash _ _ => (m, false)
  | .range ranges =>
    if newShardId ∈ m.shards then (m, false)
    else if (ranges.get? splitKey).isSome then (m, false)
    else match ranges.firstFrom splitKey with
      | none => (m, false)
      | some _ =>
        ({ strategy := .range (ranges.insert splitKey newShardId)
           shards := insert newShardId m.shards
           shardPeers := m.shardPeers.insert newShardId peers }, true)

/-- The range of the victim goes to its neighbour; the last range goes to the retained shard. -/
def mergeShards (victimShardId retainedShardId : ShardId) : ShardMap × Bool :=
  match m.strategy with
  | .consistentHash _ _ => (m, false)
  | .range ranges =>
    if victimShardId ∉ m.shards ∨ retainedShardId ∉ m.shards then (m, false)
    else match ranges.entries.find? fun e => e.2 = victimShardId with
      | none => (m, false)
      | some (vk, _) =>
        let rest := ranges.remove vk
        let rest :=
          if vk = maxKey then
            (match rest.entries.find? fun e : String × ShardId => e.2 = retainedShardId with
              | some (rk, _) => rest.remove rk
              | none => rest).insert maxKey retainedShardId
          else rest
        ({ strategy := .range rest
           shards := m.shards.erase victimShardId
           shardPeers := m.shardPeers.erase victimShardId }, true)

def rebalanceBoundary (oldKey newKey : String) : ShardMap × Bool :=
  match m.strategy with
  | .consistentHash _ _ => (m, false)
  | .range ranges =>
    match ranges.get? oldKey with
    | none => (m, false)
    | some shardId => ({ m with strategy := .range ((ranges.remove oldKey).insert newKey shardId) }, true)

end ShardMap

end RustHadoop
