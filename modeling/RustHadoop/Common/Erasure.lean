import RustHadoop.Chunk.Checksums

/-!
# Erasure coding

`encode` and `decode` of `dfs/common/src/erasure.rs` over the library `reed-solomon-erasure`.  A buffer is padded
with zeros and cut into `k` data shards of the same length, to which the library adds `m` parity shards.  If the
library is systematic and restores all shards from any `k` of them, the first bytes of the data shards are the
buffer (`encode_spec`), and so is what is decoded from any `k` shards (`decode_spec`).
-/

namespace RustHadoop

open List

/-- The operations of the library; an error comes with its text. -/
structure ReedSolomon where
  new : (dataShards parityShards : Nat) → Except String Unit
  encode : (dataShards parityShards : Nat) → List Bytes → Except String (List Bytes)
  reconstruct : (dataShards parityShards : Nat) → List (Option Bytes) → Except String (List (Option Bytes))

def IsPartOf (code : List Bytes) (shards : List (Option Bytes)) : Prop :=
  shards.length = code.length ∧ ∀ (i : Nat) x, shards[i]? = some (some x) → code[i]? = some x

/-- Encoding keeps the data shards, and reconstruction restores all shards from `k` of them. -/
structure ReedSolomon.Lawful (rs : ReedSolomon) : Prop where
  encode : ∀ k m size shards, rs.new k m = .ok () → shards.length = k + m → 0 < size →
    (∀ s ∈ shards, s.length = size) →
    ∃ parity, parity.length = m ∧ rs.encode k m shards = .ok (shards.take k ++ parity)
  reconstruct :
    ∀ k m shards code present, rs.new k m = .ok () → rs.encode k m shards = .ok code → IsPartOf code present →
    k ≤ present.countP Option.isSome → rs.reconstruct k m present = .ok (code.map some)

namespace Erasure

def shardLen (dataLen dataShards : Nat) : Nat := (dataLen + (dataShards - 1)) / dataShards

def chunks (size : Nat) (data : Bytes) : List Bytes :=
  (range ((data.length + (size - 1)) / size)).map fun i => (data.drop (i * size)).take size

def resize {α : Type} (l : List α) (n : Nat) (value : α) : List α := l.take n ++ replicate (n - l.length) value

def encode (rs : ReedSolomon) (data : Bytes) (dataShards parityShards : Nat) : Except String (List Bytes) :=
  if dataShards = 0 ∨ parityShards = 0 then .error "data_shards and parity_shards must both be > 0"
  else if data = [] then .error "data must not be empty"
  else
    match rs.new dataShards parityShards with
    | .error e => .error ("RS init error: " ++ e)
    | .ok () =>
      let shardSize := shardLen data.length dataShards
      let padded := resize data (shardSize * dataShards) 0
      let shards := resize (chunks shardSize padded) (dataShards + parityShards) (replicate shardSize 0)
      match rs.encode dataShards parityShards shards with
      | .error e => .error ("RS encode error: " ++ e)
      | .ok shards => .ok shards

def join : Nat → List (Option Bytes) → Except String Bytes
  | _, [] => .ok []
  | i, none :: _ => .error ("data shard " ++ toString i ++ " missing after reconstruction")
  | i, some shard :: rest => (join (i + 1) rest).map fun data => shard ++ data

def decode (rs : ReedSolomon) (shards : List (Option Bytes)) (dataShards parityShards originalLen : Nat) :
    Except String Bytes :=
  match rs.new dataShards parityShards with
  | .error e => .error ("RS init error: " ++ e)
  | .ok () =>
    match rs.reconstruct dataShards parityShards shards with
    | .error e => .error ("RS reconstruct error: " ++ e)
    | .ok shards => (join 0 (shards.take dataShards)).map fun data => data.take originalLen

private theorem flatten_slices (data : Bytes) (size n : Nat) :
    ((range n).map fun i => (data.drop (i * size)).take size).flatten = data.take (n * size) := by
  induction n with
  | zero => simp
  | succ n ih =>
    rw [range_succ, map_append, flatten_append, ih, Nat.succ_mul, take_add]
    simp

private theorem join_map_some (i : Nat) (shards : List Bytes) : join i (shards.map some) = .ok shards.flatten := by
  induction shards generalizing i with
  | nil => rfl
  | cons shard shards ih =>
    rw [map_cons, join, ih]
    rfl

private theorem length_resize {α : Type} (l : List α) (n : Nat) (value : α) : (resize l n value).length = n := by
  rw [resize, length_append, length_take, length_replicate]
  omega

private theorem resize_of_le {α : Type} {l : List α} {n : Nat} (h : l.length ≤ n) (value : α) :
    resize l n value = l ++ replicate (n - l.length) value := by
  rw [resize, take_of_length_le h]

variable {rs : ReedSolomon} {data : Bytes} {k m size : Nat}

private theorem le_shardLen_mul (n : Nat) (hk : 0 < k) : n ≤ k * shardLen n k := by
  have hdiv := Nat.div_add_mod (n + (k - 1)) k
  have hm := Nat.mod_lt (n + (k - 1)) hk
  unfold shardLen
  omega

private theorem chunks_eq (hs : 0 < size) (hlen : data.length = k * size) :
    chunks size data = (range k).map fun i => (data.drop (i * size)).take size := by
  have hc : (k * size + (size - 1)) / size = k := by
    rw [Nat.mul_comm, Nat.mul_add_div hs, Nat.div_eq_of_lt (by omega), Nat.add_zero]
  rw [chunks, hlen, hc]

private theorem length_of_mem_chunks (hsz : 0 < size) (hlen : data.length = k * size) {s : Bytes}
    (hs : s ∈ chunks size data) : s.length = size := by
  rw [chunks_eq hsz hlen] at hs
  obtain ⟨i, hi, rfl⟩ := mem_map.1 hs
  have hle : (i + 1) * size ≤ k * size := Nat.mul_le_mul_right _ (mem_range.1 hi)
  rw [Nat.succ_mul] at hle
  rw [length_take, length_drop, hlen]
  omega

theorem encode_spec (hrs : rs.Lawful) (hdt : data ≠ []) (hk : 0 < k) (hm : 0 < m) (hn : rs.new k m = .ok ()) :
    ∃ shards code, encode rs data k m = .ok code ∧ rs.encode k m shards = .ok code ∧ code.length = k + m ∧
      (code.take k).flatten.take data.length = data := by
  have hsz : 0 < shardLen data.length k := Nat.div_pos (by have := length_pos_iff.2 hdt; omega) hk
  have hf : data.length ≤ shardLen data.length k * k := by
    rw [Nat.mul_comm]
    exact le_shardLen_mul _ hk
  generalize hs : shardLen data.length k = size at hsz hf
  obtain ⟨padded, hp⟩ : ∃ padded, resize data (size * k) 0 = padded := ⟨_, rfl⟩
  have hlen : padded.length = k * size := by rw [← hp, length_resize, Nat.mul_comm]
  have hc : (chunks size padded).length = k := by rw [chunks_eq hsz hlen, length_map, length_range]
  have hsh : resize (chunks size padded) (k + m) (replicate size 0) =
      chunks size padded ++ replicate m (replicate size 0) := by
    rw [resize_of_le (by omega), hc, Nat.add_sub_cancel_left]
  obtain ⟨parity, hpr, he⟩ := hrs.encode k m size (chunks size padded ++ replicate m (replicate size 0)) hn
    (by rw [length_append, hc, length_replicate]) hsz (by
      intro s hs
      rcases mem_append.1 hs with hs | hs
      · exact length_of_mem_chunks hsz hlen hs
      · rw [eq_of_mem_replicate hs, length_replicate])
  rw [take_left' hc] at he
  refine ⟨_, _, ?_, he, by rw [length_append, hc, hpr], ?_⟩
  · simp only [encode, if_neg (show ¬ (k = 0 ∨ m = 0) by omega), if_neg hdt, hn, hs, hp, hsh, he]
  · rw [take_left' hc, chunks_eq hsz hlen, flatten_slices, take_of_length_le (le_of_eq hlen), ← hp,
      resize_of_le hf, take_left]

theorem decode_spec (hrs : rs.Lawful) (hn : rs.new k m = .ok ()) {shards code : List Bytes}
    (he : rs.encode k m shards = .ok code) {present : List (Option Bytes)} (hp : IsPartOf code present)
    (hc : k ≤ present.countP Option.isSome) (n : Nat) :
    decode rs present k m n = .ok ((code.take k).flatten.take n) := by
  simp only [decode, hn, hrs.reconstruct k m shards code present hn he hp hc, ← map_take, join_map_some]
  rfl

end Erasure

/-- With one data shard, copies of it are a code. -/
def mirror : ReedSolomon where
  new k m := if k = 1 ∧ 0 < m then .ok () else .error "TooManyShards"
  encode _ _ shards := .ok (shards.map fun _ => shards.headD [])
  reconstruct _ _ shards :=
    match shards.findSome? id with
    | some shard => .ok (shards.map fun _ => some shard)
    | none => .error "TooFewShardsPresent"

theorem mirror_lawful : mirror.Lawful where
  encode k m size shards hn hlen hsz ha := by
    obtain ⟨rfl, -⟩ : k = 1 ∧ 0 < m := by
      by_contra h
      simp [mirror, h] at hn
    cases shards with
    | nil =>
      rw [length_nil] at hlen
      omega
    | cons d rest =>
      rw [length_cons, Nat.add_comm] at hlen
      exact ⟨rest.map fun _ => d, by rw [length_map]; omega, rfl⟩
  reconstruct k m shards code present hn he hp hc := by
    obtain ⟨rfl, -⟩ : k = 1 ∧ 0 < m := by
      by_contra h
      simp [mirror, h] at hn
    cases he
    obtain ⟨o, ho, hs⟩ := countP_pos_iff.1 (Nat.lt_of_succ_le hc)
    have hf : (present.findSome? id).isSome := findSome?_isSome_iff.2 ⟨o, ho, hs⟩
    obtain ⟨x, hx⟩ := Option.isSome_iff_exists.1 hf
    obtain ⟨o', ho', hid⟩ := exists_of_findSome?_eq_some hx
    obtain ⟨i, hi⟩ := mem_iff_getElem?.1 ho'
    cases hid
    have hcd := hp.2 i x hi
    rw [getElem?_map] at hcd
    obtain ⟨_, _, hh⟩ := Option.map_eq_some_iff.1 hcd
    have hlen := hp.1
    simp only [mirror, hx, hh]
    rw [map_const', map_const', map_replicate, hlen, length_map]

end RustHadoop
