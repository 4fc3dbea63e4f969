import RustHadoop.Common.Sharding
import RustHadoop.Lib.Intervals

/-!
# Range shard maps

The calls that change a range `ShardMap`, and when they keep it sound: every key that is not above the maximal one
is routed to a registered shard, and every registered shard owns exactly one range.
-/

namespace RustHadoop

open Intervals List

variable {s : ShardId}

namespace BTreeMap

variable {K V : Type} [LinearOrder K] {m : BTreeMap K V} {k : K} {v : V} {x : K × V} {l : List (K × V)}

private theorem mem_insertEntry (hl : l.Pairwise fun a b => a.1 < b.1) :
    x ∈ insertEntry k v l ↔ x = (k, v) ∨ (x ∈ l ∧ x.1 ≠ k) := by
  induction l with
  | nil => simp [insertEntry]
  | cons e l ih =>
    obtain ⟨he, hl'⟩ := pairwise_cons.1 hl
    unfold insertEntry
    split
    · rename_i hlt
      have hne : ∀ y ∈ e :: l, y.1 ≠ k := by
        intro y hy
        rcases mem_cons.1 hy with rfl | hy
        · exact ne_of_gt hlt
        · exact ne_of_gt (hlt.trans (he y hy))
      rw [mem_cons]
      exact or_congr_right ⟨fun hx => ⟨hx, hne x hx⟩, fun hx => hx.1⟩
    · split
      · rename_i heq
        subst heq
        rw [mem_cons, mem_cons]
        refine or_congr_right ⟨fun hx => ⟨.inr hx, ne_of_gt (he x hx)⟩, fun hx => ?_⟩
        rcases hx with ⟨rfl | hx, hne⟩
        · exact absurd rfl hne
        · exact hx
      · rename_i hge hne
        rw [mem_cons, mem_cons, ih hl']
        constructor
        · rintro (rfl | h | ⟨h, hk⟩)
          · exact .inr ⟨.inl rfl, Ne.symm hne⟩
          · exact .inl h
          · exact .inr ⟨.inr h, hk⟩
        · rintro (h | ⟨rfl | h, hk⟩)
          · exact .inr (.inl h)
          · exact .inl rfl
          · exact .inr (.inr ⟨h, hk⟩)

@[simp]
theorem mem_insert : x ∈ (m.insert k v).entries ↔ x = (k, v) ∨ (x ∈ m.entries ∧ x.1 ≠ k) :=
  mem_insertEntry m.sorted

@[simp]
theorem mem_filter {p : K × V → Bool} : x ∈ (m.filter p).entries ↔ x ∈ m.entries ∧ p x = true := List.mem_filter

@[simp]
theorem mem_remove : x ∈ (m.remove k).entries ↔ x ∈ m.entries ∧ x.1 ≠ k := by simp [remove]

theorem value_unique {v' : V} (h : (k, v) ∈ m.entries) (h' : (k, v') ∈ m.entries) : v = v' := by
  have hrt : route m.entries k = some v := route_of_mem m.sorted h
  have hr' : route m.entries k = some v' := route_of_mem m.sorted h'
  exact Option.some.inj (hrt.symm.trans hr')

theorem entries_eq (hl : l.Pairwise fun a b => a.1 < b.1) (h : ∀ e, e ∈ m.entries ↔ e ∈ l) : m.entries = l := by
  have hn : ∀ {l : List (K × V)}, (l.Pairwise fun a b => a.1 < b.1) → l.Nodup :=
    fun hl => hl.imp fun hlt heq => hlt.ne (congrArg Prod.fst heq)
  refine Perm.eq_of_pairwise (fun a b _ _ hab hba => absurd hba hab.not_gt) m.sorted hl ?_
  exact (perm_ext_iff_of_nodup (hn m.sorted) (hn hl)).2 h

theorem get?_eq_some : m.get? k = some v ↔ (k, v) ∈ m.entries := by
  constructor
  · intro h
    obtain ⟨e, he, rfl⟩ := Option.map_eq_some_iff.1 h
    have hk : e.1 = k := by simpa using find?_some he
    rw [← hk]
    exact mem_of_find?_eq_some he
  · intro h
    have hs : (m.entries.find? fun e => e.1 = k).isSome := by
      rw [find?_isSome]
      exact ⟨_, h, by simp⟩
    obtain ⟨e, he⟩ := Option.isSome_iff_exists.1 hs
    have hk : e.1 = k := by simpa using find?_some he
    have hmem : (k, e.2) ∈ m.entries := hk ▸ mem_of_find?_eq_some he
    rw [get?, he, Option.map_some, value_unique hmem h]

theorem get?_eq_none : m.get? k = none ↔ ∀ e ∈ m.entries, e.1 ≠ k := by
  rw [Option.eq_none_iff_forall_ne_some]
  refine ⟨fun h e he hk => h e.2 (get?_eq_some.2 (hk ▸ he)), fun h v hv => h _ (get?_eq_some.1 hv) rfl⟩

private theorem route_insertEntry (hl : l.Pairwise fun a b => a.1 < b.1) (hk : ∀ e ∈ l, e.1 ≠ k)
    (key : K) : route (insertEntry k v l) key =
      if key ≤ k ∧ ∀ e ∈ l, key ≤ e.1 → k < e.1 then some v else route l key := by
  induction l with
  | nil => simp [insertEntry, route_cons]
  | cons e l ih =>
    obtain ⟨he, hl'⟩ := pairwise_cons.1 hl
    have hne : k ≠ e.1 := Ne.symm (hk e (mem_cons_self ..))
    rcases lt_or_gt_of_ne hne with hlt | hgt
    · have ha : ∀ f ∈ e :: l, key ≤ f.1 → k < f.1 := by
        intro f hf _
        rcases mem_cons.1 hf with rfl | hf
        · exact hlt
        · exact hlt.trans (he f hf)
      simp only [insertEntry, if_pos hlt, and_iff_left ha]
      exact route_cons
    · simp only [insertEntry, if_neg (not_lt_of_gt hgt), if_neg hne, route_cons]
      by_cases hkey : key ≤ e.1
      · rw [if_pos hkey, if_pos hkey, if_neg]
        exact fun h => not_lt_of_gt hgt (h.2 e (mem_cons_self ..) hkey)
      · rw [if_neg hkey, if_neg hkey, ih hl' fun f hf => hk f (mem_cons_of_mem _ hf)]
        have hi : (∀ f ∈ e :: l, key ≤ f.1 → k < f.1) ↔ ∀ f ∈ l, key ≤ f.1 → k < f.1 := by
          rw [forall_mem_cons]
          exact and_iff_right fun h => absurd h hkey
        simp only [hi]

private theorem filter_insertEntry (hk : ∀ e ∈ l, e.1 ≠ k) :
    (insertEntry k v l).filter (fun e => e.1 ≠ k) = l := by
  have hs : ∀ l : List (K × V), (∀ e ∈ l, e.1 ≠ k) → l.filter (fun e => e.1 ≠ k) = l := fun l hl =>
    filter_eq_self.2 fun e he => decide_eq_true (hl e he)
  induction l with
  | nil => simp [insertEntry]
  | cons e l ih =>
    have hne : e.1 ≠ k := hk e (mem_cons_self ..)
    unfold insertEntry
    split
    · rw [filter_cons_of_neg (by simp), hs _ hk]
    · rw [if_neg (Ne.symm hne), filter_cons_of_pos (by simpa using hne),
        ih fun f hf => hk f (mem_cons_of_mem _ hf)]

private theorem remove_insert (hk : ∀ e ∈ m.entries, e.1 ≠ k) : (m.insert k v).remove k = m := by
  have he : ((m.insert k v).remove k).entries = m.entries := filter_insertEntry hk
  cases m
  simp only [remove, filter, insert, mk.injEq] at he ⊢
  exact he

theorem route_insert (hk : ∀ e ∈ m.entries, e.1 ≠ k) (key : K) : route (m.insert k v).entries key =
    if key ≤ k ∧ ∀ e ∈ m.entries, key ≤ e.1 → k < e.1 then some v else route m.entries key :=
  route_insertEntry m.sorted hk key

end BTreeMap

inductive ShardCall
  | addShard (shardId : ShardId) (peers : List String)
  | removeShard (shardId : ShardId)
  | splitShard (splitKey : String) (newShardId : ShardId) (peers : List String)
  | mergeShards (victimShardId retainedShardId : ShardId)
  | rebalanceBoundary (oldKey newKey : String)

namespace ShardMap

def call (m : ShardMap) : ShardCall → ShardMap
  | .addShard shardId peers => m.addShard shardId peers
  | .removeShard shardId => m.removeShard shardId
  | .splitShard splitKey newShardId peers => (m.splitShard splitKey newShardId peers).1
  | .mergeShards victim retained => (m.mergeShards victim retained).1
  | .rebalanceBoundary oldKey newKey => (m.rebalanceBoundary oldKey newKey).1

def ranges (m : ShardMap) : List (String × ShardId) :=
  match m.strategy with
  | .range ranges => ranges.entries
  | .consistentHash _ _ => []

/-- The shard map is by ranges and sound. -/
structure Sound (m : ShardMap) : Prop where
  range : ∃ ranges, m.strategy = .range ranges
  /-- owners of ranges are registered -/
  registered : ∀ e ∈ m.ranges, e.2 ∈ m.shards
  /-- every registered shard owns exactly one range -/
  owns : ∀ s ∈ m.shards, ∃! k, (k, s) ∈ m.ranges
  /-- every key up to the maximal one is routed to a registered shard -/
  routes : m.shards.Nonempty → ∀ key ≤ maxKey, ∃ s ∈ m.shards, m.getShard key = some s

variable {m : ShardMap} {r : BTreeMap String ShardId}

section

variable (hr : m.strategy = .range r)
include hr

theorem ranges_eq : m.ranges = r.entries := by rw [ranges, hr]

theorem getShard_eq_route (key : String) : m.getShard key = route r.entries key := by
  rw [getShard, hr]
  rfl

theorem sound_iff : m.Sound ↔ (∀ e ∈ r.entries, e.2 ∈ m.shards) ∧ (∀ s ∈ m.shards, ∃! k, (k, s) ∈ r.entries) ∧
      (m.shards.Nonempty → ∃ e ∈ r.entries, maxKey ≤ e.1) := by
  constructor
  · rintro ⟨-, hreg, ho, hrt⟩
    rw [ranges_eq hr] at hreg ho
    refine ⟨hreg, ho, fun hne => ?_⟩
    obtain ⟨s, -, hs⟩ := hrt hne maxKey le_rfl
    rw [getShard_eq_route hr] at hs
    obtain ⟨k, hk, hle⟩ := exists_mem_of_route hs
    exact ⟨_, hk, hle⟩
  · rintro ⟨hreg, ho, hc⟩
    refine ⟨⟨r, hr⟩, by rwa [ranges_eq hr], by rwa [ranges_eq hr], fun hne key hkey => ?_⟩
    obtain ⟨e, he, hmax⟩ := hc hne
    obtain ⟨s, hs⟩ := exists_route ⟨e, he, hkey.trans hmax⟩
    obtain ⟨k, hk, -⟩ := exists_mem_of_route hs
    exact ⟨s, hreg _ hk, by rw [getShard_eq_route hr, hs]⟩

end

/-- The other shards reach the maximal key, or there are none. -/
def Spares (m : ShardMap) (s : ShardId) : Prop :=
  m.shards ⊆ {s} ∨ ∃ e ∈ m.ranges, e.2 ≠ s ∧ maxKey ≤ e.1

/-- The call does no harm: it puts no range end where another one is, it leaves a range that reaches the maximal
key, and it does not merge the shard at the maximal key with itself. -/
def Fine (m : ShardMap) : ShardCall → Prop
  | .addShard s _ => s ∈ m.shards ∨ m.ranges.length ≤ 1 ∨ ∀ e ∈ m.ranges, e.1 ≠ "z-" ++ s
  | .removeShard s => s ∈ m.shards → m.Spares s
  | .splitShard _ _ _ => True
  | .mergeShards v s => v ∈ m.shards → s ∈ m.shards →
      ((maxKey, v) ∈ m.ranges → v ≠ s) ∧ ((maxKey, v) ∉ m.ranges → m.Spares v)
  | .rebalanceBoundary k k' => (∃ e ∈ m.ranges, e.1 = k) → k ≠ k' →
      (∀ e ∈ m.ranges, e.1 ≠ k') ∧ (maxKey ≤ k' ∨ ∃ e ∈ m.ranges, e.1 ≠ k ∧ maxKey ≤ e.1)

theorem Sound.parts (hm : m.Sound) : ∃ r : BTreeMap String ShardId, m.strategy = .range r ∧ m.ranges = r.entries ∧
    (∀ e ∈ r.entries, e.2 ∈ m.shards) ∧ (∀ s ∈ m.shards, ∃! k, (k, s) ∈ r.entries) ∧
    (m.shards.Nonempty → ∃ e ∈ r.entries, maxKey ≤ e.1) := by
  obtain ⟨r, hr⟩ := hm.range
  exact ⟨r, hr, ranges_eq hr, (sound_iff hr).1 hm⟩

private theorem maxKey_ne : ("/m" : String) ≠ maxKey := by decide

variable {k : String}

theorem Sound.insert_range (hm : m.Sound) (hr : m.strategy = .range r) (hs : s ∉ m.shards)
    (hk : ∀ e ∈ r.entries, e.1 ≠ k) (hne : m.shards.Nonempty) (peers : AList fun _ : ShardId => List String) :
    Sound ⟨.range (r.insert k s), insert s m.shards, peers⟩ := by
  obtain ⟨hreg, ho, hc⟩ := (sound_iff hr).1 hm
  refine (sound_iff rfl).2 ⟨fun e he => ?_, fun t ht => ?_, fun _ => ?_⟩
  · rcases BTreeMap.mem_insert.1 he with rfl | ⟨he, -⟩
    · exact Finset.mem_insert_self _ _
    · exact Finset.mem_insert_of_mem (hreg e he)
  · rcases Finset.mem_insert.1 ht with rfl | hold
    · refine ⟨k, by simp, fun k' hk' => ?_⟩
      rcases BTreeMap.mem_insert.1 hk' with hk' | ⟨hk', -⟩
      · exact (Prod.mk.inj hk').1
      · exact absurd (hreg _ hk') hs
    · obtain ⟨k0, hk0, hu⟩ := ho t hold
      refine ⟨k0, BTreeMap.mem_insert.2 (.inr ⟨hk0, hk _ hk0⟩), fun k' hk' => ?_⟩
      rcases BTreeMap.mem_insert.1 hk' with hk' | ⟨hk', -⟩
      · exact absurd ((Prod.mk.inj hk').2 ▸ hold) hs
      · exact hu k' hk'
  · obtain ⟨e, he, hmax⟩ := hc hne
    exact ⟨e, BTreeMap.mem_insert.2 (.inr ⟨he, hk e he⟩), hmax⟩

variable {r' : BTreeMap String ShardId}

private theorem owns_without {shards : Finset ShardId} (hreg : ∀ e ∈ r.entries, e.2 ∈ shards)
    (ho : ∀ s ∈ shards, ∃! k, (k, s) ∈ r.entries) (hr' : ∀ e, e ∈ r'.entries ↔ e ∈ r.entries ∧ e.2 ≠ s) :
    (∀ e ∈ r'.entries, e.2 ∈ shards.erase s) ∧ ∀ t ∈ shards.erase s, ∃! k, (k, t) ∈ r'.entries := by
  constructor
  · intro e he
    obtain ⟨he, hes⟩ := (hr' e).1 he
    exact Finset.mem_erase.2 ⟨hes, hreg e he⟩
  · intro t ht
    obtain ⟨hts, ht⟩ := Finset.mem_erase.1 ht
    obtain ⟨k, hk, hu⟩ := ho t ht
    exact ⟨k, (hr' _).2 ⟨hk, hts⟩, fun k' hk' => hu k' ((hr' _).1 hk').1⟩

theorem sound_without_iff (hm : m.Sound) (hr : m.strategy = .range r)
    (hr' : ∀ e, e ∈ r'.entries ↔ e ∈ r.entries ∧ e.2 ≠ s) (peers : AList fun _ : ShardId => List String) :
    Sound ⟨.range r', m.shards.erase s, peers⟩ ↔ m.Spares s := by
  obtain ⟨hreg, ho, hc⟩ := (sound_iff hr).1 hm
  rw [sound_iff rfl, Spares, ranges_eq hr]
  constructor
  · rintro ⟨-, -, hc'⟩
    by_cases hsub : m.shards ⊆ {s}
    · exact .inl hsub
    · obtain ⟨t, ht, hts⟩ := Finset.not_subset.1 hsub
      obtain ⟨e, he, hmax⟩ := hc' ⟨t, Finset.mem_erase.2 ⟨by simpa using hts, ht⟩⟩
      exact .inr ⟨e, ((hr' e).1 he).1, ((hr' e).1 he).2, hmax⟩
  · intro hs
    obtain ⟨hreg', ho'⟩ := owns_without hreg ho hr'
    refine ⟨hreg', ho', ?_⟩
    rintro ⟨t, ht⟩
    obtain ⟨hts, ht⟩ := Finset.mem_erase.1 ht
    rcases hs with hsub | ⟨e, he, hes, hmax⟩
    · exact absurd (Finset.mem_singleton.1 (hsub ht)) hts
    · exact ⟨e, (hr' e).2 ⟨he, hes⟩, hmax⟩

theorem sound_addShard_iff (hm : m.Sound) (s : ShardId) (peers : List String) :
    (m.addShard s peers).Sound ↔ m.Fine (.addShard s peers) := by
  obtain ⟨r, hr, hrn, hreg, ho, hc⟩ := hm.parts
  unfold addShard
  by_cases hs : s ∈ m.shards
  · rw [if_pos hs]
    have hr' : ({ m with shardPeers := m.shardPeers.insert s peers } : ShardMap).strategy = .range r := hr
    exact iff_of_true ((sound_iff hr').2 ⟨hreg, ho, hc⟩) (.inl hs)
  rw [if_neg hs]
  simp only [Fine, hs, false_or, hrn]
  cases hl : r.entries with
  | nil =>
    have hem : m.shards = ∅ := by
      refine Finset.eq_empty_of_forall_notMem fun t ht => ?_
      obtain ⟨k, hk, -⟩ := ho t ht
      simp [hl] at hk
    refine iff_of_true ((sound_iff (r := r.insert maxKey s) (by simp [hr, addToStrategy, hl])).2 ⟨?_, ?_, ?_⟩)
      (by simp)
    · simp [hl, hem]
    · intro t ht
      obtain rfl : t = s := by simpa [hem] using ht
      exact ⟨maxKey, by simp, by simp [hl]⟩
    · exact fun _ => ⟨(maxKey, s), by simp, le_rfl⟩
  | cons old rest =>
    cases rest with
    | nil =>
      have hsh : ∀ t ∈ m.shards, t = old.2 := by
        intro t ht
        obtain ⟨k, hk, -⟩ := ho t ht
        rw [hl, mem_singleton] at hk
        rw [← hk]
      have hold : old.2 ∈ m.shards := hreg old (by simp [hl])
      have hne : s ≠ old.2 := by
        rintro rfl
        exact hs hold
      refine iff_of_true ((sound_iff (r := (BTreeMap.empty.insert "/m" s).insert maxKey old.2)
        (by simp [hr, addToStrategy, hl])).2 ⟨?_, ?_, ?_⟩) (by simp)
      · simp [BTreeMap.empty, hold]
      · intro t ht
        rcases Finset.mem_insert.1 ht with rfl | ht
        · exact ⟨"/m", by simp [maxKey_ne], by simp [BTreeMap.empty, hne]⟩
        · obtain rfl := hsh t ht
          exact ⟨maxKey, by simp, by simp [BTreeMap.empty, Ne.symm hne]⟩
      · exact fun _ => ⟨(maxKey, old.2), by simp, le_rfl⟩
    | cons old' rest =>
      rw [← hl]
      rw [sound_iff (r := r.insert ("z-" ++ s) s) (by simp [hr, addToStrategy, hl])]
      constructor
      · rintro ⟨-, ho', -⟩
        refine .inr fun e he hkey => ?_
        have hes : e.2 ≠ s := by
          rintro rfl
          exact hs (hreg e he)
        obtain ⟨k, hk, -⟩ := ho' e.2 (Finset.mem_insert_of_mem (hreg e he))
        rw [BTreeMap.mem_insert] at hk
        rcases hk with hk | ⟨hk, hne⟩
        · exact hes (Prod.mk.inj hk).2
        · exact hne ((ho e.2 (hreg e he)).unique hk he ▸ hkey)
      · intro hf
        have hn : ∀ e ∈ r.entries, e.1 ≠ "z-" ++ s := hf.resolve_left (by simp [hl])
        have hp := (sound_iff rfl).1 (hm.insert_range hr hs hn ⟨old.2, hreg old (by simp [hl])⟩ ∅)
        exact hp

private theorem sound_removeShard_iff (hm : m.Sound) (s : ShardId) : (m.removeShard s).Sound ↔
    m.Fine (.removeShard s) := by
  obtain ⟨r, hr⟩ := hm.range
  unfold removeShard
  by_cases hs : s ∈ m.shards
  · simp only [Fine, hs, forall_const, hr]
    exact sound_without_iff hm hr (by simp) _
  · rw [if_neg hs]
    exact iff_of_true hm fun h => absurd h hs

/-- What a split asks of the map: a shard that is not registered, and a key below some range end that is none
itself. -/
structure SplitMade (shards : Finset ShardId) (r : BTreeMap String ShardId) (splitKey : String) (s : ShardId) :
    Prop where
  new : s ∉ shards
  free : ∀ e ∈ r.entries, e.1 ≠ splitKey
  covered : ∃ e ∈ r.entries, splitKey ≤ e.1

theorem splitShard_cases (hr : m.strategy = .range r) (splitKey : String) (s : ShardId) (peers : List String) :
    ¬ SplitMade m.shards r splitKey s ∧ m.splitShard splitKey s peers = (m, false) ∨
      SplitMade m.shards r splitKey s ∧ m.splitShard splitKey s peers =
        (⟨.range (r.insert splitKey s), insert s m.shards, m.shardPeers.insert s peers⟩, true) := by
  simp only [splitShard, hr]
  split
  · rename_i hs
    exact .inl ⟨fun h => h.new hs, rfl⟩
  · rename_i hs
    split
    · rename_i hk
      obtain ⟨v, hv⟩ := Option.isSome_iff_exists.1 hk
      exact .inl ⟨fun h => by simp [BTreeMap.get?_eq_none.2 h.free] at hv, rfl⟩
    · rename_i hf
      rw [Option.not_isSome_iff_eq_none] at hf
      split
      · rename_i hn
        refine .inl ⟨fun h => ?_, rfl⟩
        obtain ⟨e, he, hle⟩ := h.covered
        exact absurd hle (by simpa using find?_eq_none.1 hn e he)
      · rename_i e he
        exact .inr
          ⟨⟨hs, BTreeMap.get?_eq_none.1 hf, e, mem_of_find?_eq_some he, by simpa using find?_some he⟩, rfl⟩

theorem sound_splitShard (hm : m.Sound) (splitKey : String) (s : ShardId) (peers : List String) :
    (m.splitShard splitKey s peers).1.Sound := by
  obtain ⟨r, hr⟩ := hm.range
  rcases splitShard_cases hr splitKey s peers with ⟨-, heq⟩ | ⟨⟨hs, hf, e, he, -⟩, heq⟩
  · rw [heq]
    exact hm
  · rw [heq]
    exact hm.insert_range hr hs hf ⟨e.2, ((sound_iff hr).1 hm).1 e he⟩ _

private theorem sound_moved_iff (hm : m.Sound) (hr : m.strategy = .range r) {k' : String}
    (hks : (k, s) ∈ r.entries) (hkk : k ≠ k')
    (hr' : ∀ e, e ∈ r'.entries ↔ e = (k', s) ∨ (e ∈ r.entries ∧ e.1 ≠ k ∧ e.1 ≠ k'))
    (peers : AList fun _ : ShardId => List String) : Sound ⟨.range r', m.shards, peers⟩ ↔
      (∀ e ∈ r.entries, e.1 ≠ k') ∧ (maxKey ≤ k' ∨ ∃ e ∈ r.entries, e.1 ≠ k ∧ maxKey ≤ e.1) := by
  obtain ⟨hreg, ho, hc⟩ := (sound_iff hr).1 hm
  have hs : s ∈ m.shards := hreg _ hks
  rw [sound_iff rfl]
  constructor
  · rintro ⟨-, ho', hc'⟩
    refine ⟨fun e he hek => ?_, ?_⟩
    · obtain ⟨k1, hk1, -⟩ := ho' e.2 (hreg e he)
      rcases (hr' _).1 hk1 with hk1 | ⟨hk1, -, hne⟩
      · have hes : (e.1, s) ∈ r.entries := (Prod.mk.inj hk1).2 ▸ he
        exact hkk (((ho s hs).unique hks hes).trans hek)
      · exact hne (((ho e.2 (hreg e he)).unique hk1 he).trans hek)
    · obtain ⟨e, he, hmax⟩ := hc' ⟨s, hs⟩
      rcases (hr' e).1 he with rfl | ⟨he, hek, -⟩
      · exact .inl hmax
      · exact .inr ⟨e, he, hek, hmax⟩
  · rintro ⟨hf, hmax⟩
    refine ⟨fun e he => ?_, fun t ht => ?_, fun _ => ?_⟩
    · rcases (hr' e).1 he with rfl | ⟨he, -⟩
      · exact hs
      · exact hreg e he
    · obtain ⟨k0, hk0, hu⟩ := ho t ht
      by_cases hts : t = s
      · subst hts
        refine ⟨k', (hr' _).2 (.inl rfl), fun k1 hk1 => ?_⟩
        rcases (hr' _).1 hk1 with hk1 | ⟨hk1, hne, -⟩
        · exact (Prod.mk.inj hk1).1
        · exact absurd ((ho t ht).unique hk1 hks) hne
      · refine ⟨k0, (hr' _).2 (.inr ⟨hk0, ?_, hf _ hk0⟩), fun k1 hk1 => ?_⟩
        · rintro rfl
          exact hts (BTreeMap.value_unique hk0 hks)
        · rcases (hr' _).1 hk1 with hk1 | ⟨hk1, -⟩
          · exact absurd (Prod.mk.inj hk1).2 hts
          · exact hu k1 hk1
    · rcases hmax with hmax | ⟨e, he, hek, hmax⟩
      · exact ⟨(k', s), (hr' _).2 (.inl rfl), hmax⟩
      · exact ⟨e, (hr' e).2 (.inr ⟨he, hek, hf e he⟩), hmax⟩

private theorem sound_rebalanceBoundary_iff (hm : m.Sound) (k k' : String) :
    (m.rebalanceBoundary k k').1.Sound ↔ m.Fine (.rebalanceBoundary k k') := by
  obtain ⟨r, hr, hrn, hreg, ho, hc⟩ := hm.parts
  simp only [rebalanceBoundary, hr, Fine, hrn]
  cases hg : r.get? k with
  | none =>
    refine iff_of_true hm ?_
    rintro ⟨e, he, hk⟩
    exact absurd hk (BTreeMap.get?_eq_none.1 hg e he)
  | some s =>
    have hks : (k, s) ∈ r.entries := BTreeMap.get?_eq_some.1 hg
    have hex : ∃ e ∈ r.entries, e.1 = k := ⟨_, hks, rfl⟩
    simp only [hex, forall_const]
    by_cases hkk : k = k'
    · subst hkk
      refine iff_of_true ((sound_iff rfl).2 ?_) fun h => absurd rfl h
      have hs : ∀ e, e ∈ ((r.remove k).insert k s).entries ↔ e ∈ r.entries := by
        intro e
        rw [BTreeMap.mem_insert, BTreeMap.mem_remove, and_assoc, and_self]
        refine ⟨?_, fun he => ?_⟩
        · rintro (rfl | ⟨he, -⟩)
          · exact hks
          · exact he
        · by_cases hek : e.1 = k
          · exact .inl (Prod.ext hek (BTreeMap.value_unique (hek ▸ he) hks))
          · exact .inr ⟨he, hek⟩
      simp only [hs]
      exact ⟨hreg, ho, hc⟩
    · simp only [ne_eq, hkk, not_false_eq_true, forall_const]
      refine sound_moved_iff hm hr hks hkk (fun e => ?_) _
      rw [BTreeMap.mem_insert, BTreeMap.mem_remove, and_assoc]

variable {v : ShardId}

private theorem sound_mergeLast_iff (hm : m.Sound) (hr : m.strategy = .range r) (hv : (maxKey, v) ∈ r.entries)
    (hs : s ∈ m.shards) (hr' : ∀ e, e ∈ r'.entries ↔ e = (maxKey, s) ∨ (e ∈ r.entries ∧ e.1 ≠ maxKey ∧ e.2 ≠ s))
    (peers : AList fun _ : ShardId => List String) : Sound ⟨.range r', m.shards.erase v, peers⟩ ↔ v ≠ s := by
  obtain ⟨hreg, ho, hc⟩ := (sound_iff hr).1 hm
  rw [sound_iff rfl]
  constructor
  · rintro ⟨hreg', -, -⟩ rfl
    exact (Finset.mem_erase.1 (hreg' _ ((hr' _).2 (.inl rfl)))).1 rfl
  · intro hvs
    refine ⟨fun e he => ?_, fun t ht => ?_, fun _ => ⟨_, (hr' _).2 (.inl rfl), le_rfl⟩⟩
    · rcases (hr' e).1 he with rfl | ⟨he, hmax, -⟩
      · exact Finset.mem_erase.2 ⟨Ne.symm hvs, hs⟩
      · refine Finset.mem_erase.2 ⟨?_, hreg e he⟩
        rintro rfl
        exact hmax ((ho _ (hreg e he)).unique he hv)
    · obtain ⟨htv, ht⟩ := Finset.mem_erase.1 ht
      obtain ⟨k0, hk0, hu⟩ := ho t ht
      by_cases hts : t = s
      · subst hts
        refine ⟨maxKey, (hr' _).2 (.inl rfl), fun k1 hk1 => ?_⟩
        rcases (hr' _).1 hk1 with hk1 | ⟨-, -, hne⟩
        · exact (Prod.mk.inj hk1).1
        · exact absurd rfl hne
      · refine ⟨k0, (hr' _).2 (.inr ⟨hk0, ?_, hts⟩), fun k1 hk1 => ?_⟩
        · rintro rfl
          exact htv (BTreeMap.value_unique hk0 hv)
        · rcases (hr' _).1 hk1 with hk1 | ⟨hk1, -⟩
          · exact absurd (Prod.mk.inj hk1).2 hts
          · exact hu k1 hk1

theorem find?_owner {l : List (String × ShardId)} (hk : (k, v) ∈ l)
    (hu : ∀ k', (k', v) ∈ l → k' = k) : l.find? (fun e => e.2 = v) = some (k, v) := by
  have hs : (l.find? fun e => e.2 = v).isSome := by
    rw [find?_isSome]
    exact ⟨_, hk, by simp⟩
  obtain ⟨e, he⟩ := Option.isSome_iff_exists.1 hs
  have hev : e.2 = v := by simpa using find?_some he
  have hek : e.1 = k := hu _ (hev ▸ mem_of_find?_eq_some he)
  rw [he, ← hek, ← hev]

theorem mem_withoutOwner (hu : ∀ k k', (k, s) ∈ r.entries → (k', s) ∈ r.entries → k' = k) (e : String × ShardId) :
    (e ∈ (match r.entries.find? fun e : String × ShardId => e.2 = s with
      | some (rk, _) => r.remove rk
      | none => r).entries) ↔ e ∈ r.entries ∧ e.2 ≠ s := by
  by_cases hex : ∃ k, (k, s) ∈ r.entries
  · obtain ⟨k, hk⟩ := hex
    rw [find?_owner hk (hu k · hk)]
    simp only [BTreeMap.mem_remove]
    refine and_congr_right fun he => not_congr ⟨fun hek => ?_, fun hes => ?_⟩
    · exact BTreeMap.value_unique (hek ▸ he) hk
    · exact hu k _ hk (hes ▸ he)
  · have hn : r.entries.find? (fun e : String × ShardId => e.2 = s) = none := by
      refine find?_eq_none.2 fun e he hes => hex ⟨e.1, ?_⟩
      have hes : e.2 = s := by simpa using hes
      exact hes ▸ he
    rw [hn]
    refine ⟨fun he => ⟨he, ?_⟩, fun he => he.1⟩
    rintro rfl
    exact hex ⟨e.1, he⟩

/-- A merge of registered shards drops the range of the victim.  If this is the last one, the retained shard gets
it for its own. -/
theorem mergeShards_eq (hm : m.Sound) (hr : m.strategy = .range r) (hv : v ∈ m.shards) (hs : s ∈ m.shards)
    (hk : (k, v) ∈ r.entries) : ∃ r', (m.mergeShards v s).1 = ⟨.range r', m.shards.erase v, m.shardPeers.erase v⟩ ∧
      (k = maxKey → ∀ e, e ∈ r'.entries ↔ e = (maxKey, s) ∨ (e ∈ r.entries ∧ e.1 ≠ maxKey ∧ e.2 ≠ s)) ∧
      (k ≠ maxKey → ∀ e, e ∈ r'.entries ↔ e ∈ r.entries ∧ e.2 ≠ v) := by
  obtain ⟨-, ho, -⟩ := (sound_iff hr).1 hm
  have hu : ∀ k', (k', v) ∈ r.entries → k' = k := fun k' hk' => (ho v hv).unique hk' hk
  simp only [mergeShards, hr]
  rw [if_neg (by simp [hv, hs]), find?_owner hk hu]
  refine ⟨_, rfl, fun hmax e => ?_, fun hmax e => ?_⟩
  · subst hmax
    have hu' : ∀ k k', (k, s) ∈ (r.remove maxKey).entries → (k', s) ∈ (r.remove maxKey).entries → k' = k := by
      intro k k' hk hk'
      exact (ho s hs).unique (BTreeMap.mem_remove.1 hk').1 (BTreeMap.mem_remove.1 hk).1
    rw [if_pos rfl, BTreeMap.mem_insert]
    refine (or_congr_right (and_congr_left fun _ => mem_withoutOwner hu' e)).trans ?_
    rw [BTreeMap.mem_remove]
    tauto
  · rw [if_neg hmax, BTreeMap.mem_remove]
    refine and_congr_right fun he => not_congr ⟨fun hek => ?_, fun hev => ?_⟩
    · exact BTreeMap.value_unique (hek ▸ he) hk
    · exact hu _ (hev ▸ he)

private theorem sound_mergeShards_iff (hm : m.Sound) (v s : ShardId) : (m.mergeShards v s).1.Sound ↔
    m.Fine (.mergeShards v s) := by
  obtain ⟨r, hr, hrn, -, how, -⟩ := hm.parts
  by_cases hreg : v ∈ m.shards ∧ s ∈ m.shards
  · obtain ⟨hv, hs⟩ := hreg
    obtain ⟨k, hk, hu⟩ := how v hv
    obtain ⟨r', heq, hl, ho⟩ := mergeShards_eq hm hr hv hs hk
    simp only [Fine, hrn, hv, hs, forall_const]
    rw [heq]
    by_cases hmax : k = maxKey
    · have hsn := sound_mergeLast_iff hm hr (hmax ▸ hk) hs (hl hmax) (m.shardPeers.erase v)
      subst hmax
      simpa only [hk, forall_const, not_true_eq_false, false_imp_iff, and_true] using hsn
    · have hno : (maxKey, v) ∉ r.entries := fun h => hmax (hu _ h).symm
      have hsn := sound_without_iff hm hr (ho hmax) (m.shardPeers.erase v)
      simpa only [hno, false_imp_iff, not_false_eq_true, forall_const, true_and] using hsn
  · have hrf : (m.mergeShards v s).1 = m := by
      simp only [mergeShards, hr]
      rw [if_pos (by tauto)]
    rw [hrf]
    exact iff_of_true hm fun hv hs => absurd ⟨hv, hs⟩ hreg

private theorem sound_call_iff (hm : m.Sound) (c : ShardCall) : (m.call c).Sound ↔ m.Fine c := by
  cases c with
  | addShard s peers => exact sound_addShard_iff hm s peers
  | removeShard s => exact sound_removeShard_iff hm s
  | splitShard k s peers => exact iff_of_true (sound_splitShard hm k s peers) trivial
  | mergeShards v s => exact sound_mergeShards_iff hm v s
  | rebalanceBoundary k k' => exact sound_rebalanceBoundary_iff hm k k'

theorem sound_newRange : newRange.Sound := (sound_iff rfl).2 (by simp [BTreeMap.empty, newRange])

/-- Starting from an empty range map, a sequence of calls keeps the map sound all along exactly if every call is
fine in the map it finds. -/
theorem sound_calls_iff (calls : List ShardCall) : (∀ done, done <+: calls → (done.foldl call newRange).Sound) ↔
      ∀ done c, done ++ [c] <+: calls → (done.foldl call newRange).Fine c := by
  constructor
  · intro hsound done c hpre
    have hdone : (done.foldl call newRange).Sound := hsound done ((prefix_append done [c]).trans hpre)
    have hnext := hsound (done ++ [c]) hpre
    rw [foldl_append] at hnext
    exact (sound_call_iff hdone c).1 hnext
  · intro hfine done
    induction done using reverseRecOn with
    | nil => exact fun _ => sound_newRange
    | append_singleton done c ih =>
      intro hpre
      have hdone := ih ((prefix_append done [c]).trans hpre)
      rw [foldl_append]
      exact (sound_call_iff hdone c).2 (hfine done c hpre)

/-- Removing the shard at the maximal key leaves the other one registered and its keys unrouted. -/
theorem removed_last_range :
    let m := [ShardCall.addShard "a" [], .addShard "b" [], .removeShard "a"].foldl call newRange
    "/z" ≤ maxKey ∧ "b" ∈ m.shards ∧ m.getShard "/z" = none := by
  decide

def CutOff (m : ShardMap) (splitKey key : String) : Prop :=
  key ≤ splitKey ∧ ∀ e ∈ m.ranges, e.1 < splitKey → e.1 < key

/-- A split that is made moves the keys it cuts off to the new shard and no other keys; one that is refused changes
nothing. -/
structure SplitsExactly (m : ShardMap) (splitKey : String) (s : ShardId) (peers : List String) : Prop where
  routed : (m.splitShard splitKey s peers).2 = true → ∀ key,
    (m.splitShard splitKey s peers).1.getShard key = some s ↔ m.CutOff splitKey key
  others : (m.splitShard splitKey s peers).2 = true → ∀ key, ¬ m.CutOff splitKey key →
    (m.splitShard splitKey s peers).1.getShard key = m.getShard key
  registered : (m.splitShard splitKey s peers).2 = true →
    s ∈ (m.splitShard splitKey s peers).1.shards ∧ (m.splitShard splitKey s peers).1.getPeers s = some peers
  refused : (m.splitShard splitKey s peers).2 = false →
    (∀ key, (m.splitShard splitKey s peers).1.getShard key = m.getShard key) ∧
      (m.splitShard splitKey s peers).1.shards = m.shards ∧
      ∀ t, (m.splitShard splitKey s peers).1.getPeers t = m.getPeers t

theorem getShard_insert (hr : m.strategy = .range r) {splitKey : String} (hf : ∀ e ∈ r.entries, e.1 ≠ splitKey)
    (s : ShardId) (shards : Finset ShardId) (shardPeers : AList fun _ : ShardId => List String) (key : String) :
    (m.CutOff splitKey key → getShard ⟨.range (r.insert splitKey s), shards, shardPeers⟩ key = some s) ∧
      (¬ m.CutOff splitKey key →
        getShard ⟨.range (r.insert splitKey s), shards, shardPeers⟩ key = m.getShard key) := by
  have hc : m.CutOff splitKey key ↔ key ≤ splitKey ∧ ∀ e ∈ r.entries, key ≤ e.1 → splitKey < e.1 := by
    rw [CutOff, ranges_eq hr]
    refine and_congr_right fun _ => forall₂_congr fun e he => ⟨fun h hle => ?_, fun h hlt => ?_⟩
    · exact lt_of_not_ge fun hge => not_lt_of_ge hle (h (lt_of_le_of_ne hge (hf e he)))
    · exact lt_of_not_ge fun hle => lt_asymm hlt (h hle)
  rw [getShard_eq_route rfl, getShard_eq_route hr, BTreeMap.route_insert hf, hc]
  exact ⟨fun h => if_pos h, fun h => if_neg h⟩

/-- A split is exact exactly if it is refused (the shard is registered, the key ends a range or lies above all of
them) or the new shard owns no range yet, which an unregistered one may. -/
theorem splitsExactly_iff (r : BTreeMap String ShardId) (shards : Finset ShardId)
    (shardPeers : AList fun _ : ShardId => List String) (splitKey : String) (s : ShardId) (peers : List String) :
    SplitsExactly ⟨.range r, shards, shardPeers⟩ splitKey s peers ↔
      (s ∉ shards → (∀ e ∈ r.entries, e.1 ≠ splitKey) → (∃ e ∈ r.entries, splitKey ≤ e.1) →
        ∀ e ∈ r.entries, e.2 ≠ s) := by
  have hr : (⟨.range r, shards, shardPeers⟩ : ShardMap).strategy = .range r := rfl
  rcases splitShard_cases hr splitKey s peers with ⟨hnot, heq⟩ | ⟨hmade, heq⟩
  · refine iff_of_true ⟨?_, ?_, ?_, ?_⟩ fun hn hf hc => absurd ⟨hn, hf, hc⟩ hnot
    · exact fun h => by rw [heq] at h; cases h
    · exact fun h => by rw [heq] at h; cases h
    · exact fun h => by rw [heq] at h; cases h
    · exact fun _ => by rw [heq]; exact ⟨fun _ => rfl, rfl, fun _ => rfl⟩
  · have hfree := hmade.free
    constructor
    · intro h _ _ _ e he hes
      -- the end of a range of the new shard is routed to it, and it is not cut off
      have hcut : CutOff ⟨.range r, shards, shardPeers⟩ splitKey e.1 := by
        refine (h.routed (by rw [heq]) e.1).1 ?_
        rw [heq, getShard_eq_route rfl, ← hes]
        exact route_of_mem (r.insert splitKey e.2).sorted (BTreeMap.mem_insert.2 (.inr ⟨he, hfree e he⟩))
      exact lt_irrefl _ (hcut.2 e he (lt_of_le_of_ne hcut.1 (hfree e he)))
    · intro h
      have howner : ∀ key, getShard ⟨.range r, shards, shardPeers⟩ key ≠ some s := by
        intro key hkey
        rw [getShard_eq_route rfl] at hkey
        obtain ⟨k, hk, -⟩ := exists_mem_of_route hkey
        exact h hmade.new hfree hmade.covered _ hk rfl
      have hget := getShard_insert hr hfree s (insert s shards) (shardPeers.insert s peers)
      refine ⟨fun _ key => ?_, fun _ key hkey => ?_, fun _ => ?_, fun h => ?_⟩
      · rw [heq]
        refine ⟨fun hkey => ?_, (hget key).1⟩
        by_contra hcut
        exact howner key (((hget key).2 hcut).symm.trans hkey)
      · rw [heq]
        exact (hget key).2 hkey
      · rw [heq]
        exact ⟨Finset.mem_insert_self _ _, AList.lookup_insert _⟩
      · rw [heq] at h
        cases h

/-- A shard at the maximal key that was merged with itself is not registered and keeps its range; a split that
registers it again leaves keys above the split key with it. -/
theorem split_of_stale_owner :
    let m := [ShardCall.addShard "a" [], .mergeShards "a" "a"].foldl call newRange
    (m.splitShard "/k" "a" []).2 = true ∧ (m.splitShard "/k" "a" []).1.getShard "/z" = some "a" ∧
      ¬ "/z" ≤ "/k" := by
  decide

/-- If all owners are registered and peers are kept for registered shards only, merging the new shard of a split
below the maximal key into the shard that owned the split key before gives back the map as it was. -/
theorem mergeShards_splitShard (hr : m.strategy = .range r) (hreg : ∀ e ∈ m.ranges, e.2 ∈ m.shards)
    (hpeers : ∀ t ∈ m.shardPeers.keys, t ∈ m.shards) {splitKey : String} (hkey : splitKey ≠ maxKey) (s : ShardId)
    (peers : List String) (hsplit : (m.splitShard splitKey s peers).2 = true) :
    ∃ owner, m.getShard splitKey = some owner ∧
      (m.splitShard splitKey s peers).1.mergeShards s owner = (m, true) := by
  rw [ranges_eq hr] at hreg
  rcases splitShard_cases hr splitKey s peers with ⟨-, heq⟩ | ⟨⟨hs, hfree, hcovered⟩, heq⟩
  · rw [heq] at hsplit
    cases hsplit
  · obtain ⟨owner, howner⟩ := exists_route hcovered
    obtain ⟨k, hk, -⟩ := exists_mem_of_route howner
    refine ⟨owner, by rw [getShard_eq_route hr, howner], ?_⟩
    have hfind : (r.insert splitKey s).entries.find? (fun e => e.2 = s) = some (splitKey, s) := by
      refine find?_owner (BTreeMap.mem_insert.2 (.inl rfl)) fun k' hk' => ?_
      rcases BTreeMap.mem_insert.1 hk' with hk' | ⟨hk', -⟩
      · exact (Prod.mk.inj hk').1
      · exact absurd (hreg _ hk') hs
    have hregistered : ¬ (s ∉ insert s m.shards ∨ owner ∉ insert s m.shards) := by
      simp [hreg _ hk]
    have hnone : s ∉ m.shardPeers := fun h => hs (hpeers s h)
    have herase : (m.shardPeers.insert s peers).erase s = m.shardPeers := by
      refine AList.ext ?_
      show (m.shardPeers.insert s peers).entries.kerase s = _
      rw [AList.entries_insert_of_notMem hnone]
      exact kerase_cons_eq rfl
    simp only [heq, mergeShards, if_neg hregistered, hfind, if_neg hkey, BTreeMap.remove_insert hfree,
      Finset.erase_insert hs, herase]
    cases m
    cases hr
    rfl

/-- Two shards, split at `/k` and merged again. -/
theorem mergeShards_splitShard_two :
    let m := [ShardCall.addShard "a" ["p"], .addShard "b" ["q"]].foldl call newRange
    (m.splitShard "/k" "c" ["r"]).2 = true ∧ ∃ owner, m.getShard "/k" = some owner ∧
      (m.splitShard "/k" "c" ["r"]).1.mergeShards "c" owner = (m, true) := by
  exact ⟨by decide, mergeShards_splitShard rfl (by decide) (by decide) (by decide) "c" ["r"] (by decide)⟩

end ShardMap

end RustHadoop
