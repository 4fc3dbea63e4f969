import Mathlib.Data.Finset.Sort
import RustHadoop.Common.Ranges
import RustHadoop.Meta.AppState

/-!
# Fetched shard maps

`fetch_shard_map` of a config server (`dfs/metaserver/src/config_server.rs`) sends the registered shards and their
peers, but no range ends.  Masters and clients rebuild a range map from that by adding the shards in the order of
their ids, so the ends they route by depend on the ids alone (`layout`).
-/

namespace RustHadoop

open ShardMap List

/-- The answer to `fetch_shard_map`. -/
def ConfigStateInner.fetchShardMap (s : ConfigStateInner) : StringMap (List String) :=
  (s.shardMap.shards.sort (· ≤ ·)).foldl (fun shards shardId =>
    match s.shardMap.getPeers shardId with
    | some peers => shards.insert shardId peers
    | none => shards) ∅

namespace ShardMap

/-- Add the fetched shards to an empty range map in the order of their ids (`run_shard_map_refresh` of a master and
`refresh_shard_map` of a client). -/
def rebuild (shards : StringMap (List String)) : ShardMap :=
  (shards.entries.mergeSort fun a b => a.1 ≤ b.1).foldl (fun m e => m.addShard e.1 e.2) newRange

def layout : List ShardId → List (String × ShardId)
  | [] => []
  | [a] => [(maxKey, a)]
  | a :: b :: rest => ("/m", b) :: rest.map (fun c => ("z-" ++ c, c)) ++ [(maxKey, a)]

private theorem append_lt_append {a b : String} (h : a < b) : "z-" ++ a < "z-" ++ b := by
  rw [String.lt_iff_toList_lt] at h ⊢
  simpa using h

private theorem m_lt_append (a : String) : "/m" < "z-" ++ a := by
  rw [String.lt_iff_toList_lt]
  have hlt : '/' < 'z' := by decide
  simpa using cons_lt_cons_iff.2 (.inl hlt)

private theorem append_lt_maxKey (a : String) : "z-" ++ a < maxKey := by
  rw [String.lt_iff_toList_lt]
  have hlt : 'z' < Char.ofNat 0x10FFFF := by decide
  simpa [maxKey] using cons_lt_cons_iff.2 (.inl hlt)

variable {s : ShardId}

private theorem insertEntry_before_last {l : List (String × ShardId)} {k : String} {e : String × ShardId}
    (hl : ∀ f ∈ l, f.1 < k) (he : k < e.1) : BTreeMap.insertEntry k s (l ++ [e]) = l ++ [(k, s), e] := by
  induction l with
  | nil => simp [BTreeMap.insertEntry, he]
  | cons f l ih =>
    have hf : f.1 < k := hl f (mem_cons_self ..)
    simp only [cons_append, BTreeMap.insertEntry, not_lt_of_gt hf, ne_of_gt hf, if_false]
    rw [ih fun f hf => hl f (mem_cons_of_mem _ hf)]

variable {ids : List ShardId}

private theorem layout_append {r : BTreeMap String ShardId} (hr : r.entries = layout ids)
    (hs : ∀ t ∈ ids, t < s) : ∃ r', addToStrategy s (.range r) = .range r' ∧ r'.entries = layout (ids ++ [s]) := by
  rcases ids with _ | ⟨a, _ | ⟨b, rest⟩⟩
  · refine ⟨r.insert maxKey s, ?_, ?_⟩
    · rw [addToStrategy, hr]
      rfl
    · simp [BTreeMap.insert, hr, layout, BTreeMap.insertEntry]
  · refine ⟨(BTreeMap.empty.insert "/m" s).insert maxKey a, ?_, ?_⟩
    · rw [addToStrategy, hr]
      rfl
    · have hlt : "/m" < maxKey := by decide
      simp [BTreeMap.insert, BTreeMap.empty, layout, BTreeMap.insertEntry, not_lt_of_gt hlt, ne_of_gt hlt]
  · refine ⟨r.insert ("z-" ++ s) s, ?_, ?_⟩
    · rw [addToStrategy, hr]
      cases rest with
      | nil => rfl
      | cons c rest => rfl
    · have hb : ∀ f ∈ ("/m", b) :: rest.map (fun c => ("z-" ++ c, c)), f.1 < "z-" ++ s := by
        intro f hf
        rcases mem_cons.1 hf with rfl | hf
        · exact m_lt_append s
        · obtain ⟨c, hc, rfl⟩ := mem_map.1 hf
          exact append_lt_append (hs c (by simp [hc]))
      simp only [BTreeMap.insert, hr, layout]
      rw [insertEntry_before_last hb (append_lt_maxKey s)]
      simp

/-- A range map as it is built from these ids. -/
structure Laid (m : ShardMap) (ids : List ShardId) : Prop where
  range : ∃ r, m.strategy = .range r ∧ r.entries = layout ids
  shards : ∀ s, s ∈ m.shards ↔ s ∈ ids

private theorem Laid.addShard {m : ShardMap} (h : m.Laid ids) (hs : ∀ t ∈ ids, t < s) (peers : List String) :
    (m.addShard s peers).Laid (ids ++ [s]) := by
  obtain ⟨⟨r, hr, he⟩, hsh⟩ := h
  have hn : s ∉ m.shards := fun hmem => lt_irrefl s (hs s ((hsh s).1 hmem))
  obtain ⟨r', hr', hen'⟩ := layout_append he hs
  rw [ShardMap.addShard, if_neg hn]
  refine ⟨⟨r', by rw [hr, hr'], hen'⟩, fun t => ?_⟩
  rw [Finset.mem_insert, hsh, mem_append, mem_singleton, or_comm]

private theorem laid_foldl {shards : List (Sigma fun _ : ShardId => List String)}
    (hs : (shards.map Sigma.fst).Pairwise (· < ·)) :
    (shards.foldl (fun m e => m.addShard e.1 e.2) newRange).Laid (shards.map Sigma.fst) := by
  induction shards using reverseRecOn with
  | nil => exact ⟨⟨.empty, rfl, rfl⟩, by simp [newRange]⟩
  | append_singleton shards e ih =>
    rw [map_append, map_singleton, pairwise_append] at hs
    obtain ⟨hsh, -, hb⟩ := hs
    rw [foldl_append, map_append]
    exact (ih hsh).addShard (fun t ht => hb t ht e.1 (mem_singleton_self _)) e.2

private theorem owners_layout : ((layout ids).map Prod.snd).Perm ids := by
  rcases ids with _ | ⟨a, _ | ⟨b, rest⟩⟩
  · rfl
  · rfl
  · have ho : (layout (a :: b :: rest)).map Prod.snd = (b :: rest) ++ [a] := by simp [layout, Function.comp_def]
    rw [ho]
    exact perm_append_singleton a (b :: rest)

private theorem reduced_layout (hi : ids.Nodup) : Intervals.Reduced (layout ids) := by
  have ho : ((layout ids).map Prod.snd).Nodup := owners_layout.nodup_iff.2 hi
  exact Pairwise.isChain (pairwise_map.1 ho)

end ShardMap

variable {s : ConfigStateInner}

namespace ConfigStateInner

def shardIds (s : ConfigStateInner) : List ShardId :=
  (s.shardMap.shards.filter fun shardId => (s.shardMap.getPeers shardId).isSome).sort (· ≤ ·)

private theorem mem_fetchShardMap {shardId : ShardId} :
    shardId ∈ s.fetchShardMap.keys ↔ shardId ∈ s.shardMap.shards ∧ (s.shardMap.getPeers shardId).isSome := by
  have hf : ∀ (l : List ShardId) (acc : StringMap (List String)), shardId ∈ (l.foldl (fun shards shardId =>
        match s.shardMap.getPeers shardId with
        | some peers => shards.insert shardId peers
        | none => shards) acc).keys ↔
      shardId ∈ acc.keys ∨ (shardId ∈ l ∧ (s.shardMap.getPeers shardId).isSome) := by
    intro l
    induction l with
    | nil => simp
    | cons t l ih =>
      intro acc
      rw [foldl_cons, ih, mem_cons]
      cases hp : s.shardMap.getPeers t with
      | none | some peers =>
        by_cases hst : shardId = t
        · subst hst
          simp [hp]
        · simp [hst]
  rw [fetchShardMap, hf]
  simp

theorem laid_rebuild (s : ConfigStateInner) : (rebuild s.fetchShardMap).Laid s.shardIds := by
  set sorted := s.fetchShardMap.entries.mergeSort fun a b => a.1 ≤ b.1 with hs
  have hp : (sorted.map Sigma.fst).Perm s.fetchShardMap.keys := (mergeSort_perm _ _).map _
  have hn : (sorted.map Sigma.fst).Nodup := hp.nodup_iff.2 s.fetchShardMap.keys_nodup
  have hle : (sorted.map Sigma.fst).Pairwise (· ≤ ·) := by
    rw [pairwise_map]
    refine (pairwise_mergeSort (fun a b c => ?_) (fun a b => ?_) _).imp (by simp)
    · simpa using le_trans
    · simpa using le_total a.1 b.1
  have hi : s.shardIds = sorted.map Sigma.fst := by
    rw [← (toFinset_sort (· ≤ ·) hn).2 hle, shardIds]
    congr 1
    ext shardId
    rw [Finset.mem_filter, mem_toFinset, hp.mem_iff, mem_fetchShardMap]
  rw [hi]
  exact laid_foldl (hle.imp₂ (fun _ _ hle hne => lt_of_le_of_ne hle hne) hn)

def initial : ConfigStateInner := ⟨newRange, ∅⟩

def run (commands : List (Nat × ConfigCommand)) : ConfigStateInner :=
  commands.foldl (fun s c => s.applyCommand c.1 c.2) initial

theorem range_addShard {m : ShardMap} (h : ∃ r, m.strategy = .range r) (shardId : ShardId) (peers : List String) :
    ∃ r, (m.addShard shardId peers).strategy = .range r := by
  obtain ⟨r, hr⟩ := h
  unfold addShard
  split
  · exact ⟨r, hr⟩
  · simp only [hr, addToStrategy]
    split
    · exact ⟨_, rfl⟩
    · exact ⟨_, rfl⟩
    · exact ⟨_, rfl⟩

private theorem range_applyCommand (h : ∃ r, s.shardMap.strategy = .range r) (now : Nat)
    (c : ConfigCommand) : ∃ r, (s.applyCommand now c).shardMap.strategy = .range r := by
  obtain ⟨r, hr⟩ := h
  cases c with
  | addShard shardId peers => exact range_addShard ⟨r, hr⟩ shardId peers
  | removeShard shardId =>
    simp only [applyCommand, removeShard, hr]
    split
    · exact ⟨_, rfl⟩
    · exact ⟨r, hr⟩
  | splitShard shardId splitKey newShardId peers =>
    simp only [applyCommand, ShardMap.splitShard, hr]
    repeat' split
    all_goals first | exact ⟨r, hr⟩ | exact ⟨_, rfl⟩
  | mergeShard victim retained =>
    simp only [applyCommand, mergeShards, hr]
    repeat' split
    all_goals first | exact ⟨r, hr⟩ | exact ⟨_, rfl⟩
  | rebalanceShard oldKey newKey =>
    simp only [applyCommand, rebalanceBoundary, hr]
    split
    · exact ⟨r, hr⟩
    · exact ⟨_, rfl⟩
  | registerMaster address shardId =>
    simp only [applyCommand]
    split
    · split
      · exact ⟨r, hr⟩
      · exact range_addShard ⟨r, hr⟩ _ _
    · exact range_addShard ⟨r, hr⟩ _ _
  | shardHeartbeat address rps => exact ⟨r, hr⟩

theorem range_run (commands : List (Nat × ConfigCommand)) : ∃ r, (run commands).shardMap.strategy = .range r := by
  induction commands using reverseRecOn with
  | nil => exact ⟨.empty, rfl⟩
  | append_singleton commands c ih =>
    rw [run, foldl_append]
    exact range_applyCommand ih c.1 c.2

/-- The map rebuilt from what a config server sends routes every key as the server's own map does exactly if the
server's ranges are, up to neighbours with the same owner, those the ids of the shards stand for. -/
theorem routes_alike_iff (commands : List (Nat × ConfigCommand)) :
    (∀ key, (rebuild (run commands).fetchShardMap).getShard key = (run commands).shardMap.getShard key) ↔
      Intervals.reduce (run commands).shardMap.ranges = layout (run commands).shardIds := by
  obtain ⟨r, hr⟩ := range_run commands
  obtain ⟨⟨r', hr', hentries⟩, -⟩ := laid_rebuild (run commands)
  have hreduced : Intervals.Reduced r'.entries := hentries ▸ reduced_layout (Finset.sort_nodup _ _)
  rw [ranges_eq hr, ← hentries, ← hreduced.reduce_eq, eq_comm, ← Intervals.route_eq_iff r'.sorted r.sorted]
  simp only [getShard_eq_route hr, getShard_eq_route hr']

/-- Two shards that were not added in the order of their ids. -/
theorem routed_apart :
    (rebuild (run [(0, .addShard "b" []), (1, .addShard "a" [])]).fetchShardMap).getShard "/f" = some "b" ∧
      (run [(0, .addShard "b" []), (1, .addShard "a" [])]).shardMap.getShard "/f" = some "a" := by
  refine ⟨?_, by decide⟩
  set s := run [(0, .addShard "b" []), (1, .addShard "a" [])] with hs
  have hids : s.shardIds = ["a", "b"] := by
    have hmem : (s.shardMap.shards.filter fun shardId => (s.shardMap.getPeers shardId).isSome) =
        ["a", "b"].toFinset := by decide
    rw [shardIds, hmem]
    exact (toFinset_sort (· ≤ ·) (by decide)).2 (by decide)
  obtain ⟨⟨r, hr, hentries⟩, -⟩ := laid_rebuild s
  rw [getShard_eq_route hr, hentries, hids]
  decide

end ConfigStateInner

end RustHadoop
