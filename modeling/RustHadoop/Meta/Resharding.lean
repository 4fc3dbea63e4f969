import Mathlib.Data.List.Sort
import RustHadoop.Common.Ranges
import RustHadoop.Meta.AppState

/-!
# Splitting and merging shards

The two sequences `run_split_detector` of `dfs/metaserver/src/master.rs` starts, without failures and with nothing
in between: a split of the detector's own shard and a merge with a neighbour.  Both change the shard map of the
config server and push file metadata to a master, which ingests it.

A `ShardedCluster` holds the replicated state of every shard; `serves` says to which shard the master at an address
belongs.
-/

namespace RustHadoop

open Intervals ShardMap List MasterState Option AList

variable {path : String}

/-- The directory of the first file, `path[..rfind('/') + 1]`. -/
def shufflePrefix (files : List FileMetadata) : Option String :=
  files.head?.bind fun f =>
    match f.path.toList.reverse.dropWhile (· ≠ '/') with
    | [] => none
    | rest => some (String.ofList rest.reverse)

/-- `ingest_metadata`: the files are inserted and a shuffle of the first one's directory is triggered. -/
def MasterState.ingestMetadata (s : MasterState) (files : List FileMetadata) : MasterState :=
  let s := s.applyCommand (.ingestBatch files)
  match shufflePrefix files with
  | some pfx => s.applyCommand (.triggerShuffle pfx)
  | none => s

structure SplitShardResponse where
  success : Bool
  errorMessage : String
  leaderHint : String
  newShardPeers : List String

/-- Up to three masters, the ones with the most recent heartbeats first. -/
def ConfigStateInner.healthiestMasters (s : ConfigStateInner) : List String :=
  (((s.masters.entries.map Sigma.snd).insertionSort fun a b => b.lastHeartbeat ≤ a.lastHeartbeat).take 3).map
    MasterInfo.address

/-- `split_shard`; the answer does not depend on whether the shard map takes the split. -/
def ConfigStateInner.splitShard (now : Nat) (s : ConfigStateInner) (shardId splitKey newShardId : String)
    (newShardPeers : List String) : ConfigStateInner × SplitShardResponse :=
  let newShardPeers := if newShardPeers.isEmpty then s.healthiestMasters else newShardPeers
  if newShardPeers.isEmpty then (s, ⟨false, "No available master nodes for new shard", "", []⟩)
  else (s.applyCommand now (.splitShard shardId splitKey newShardId newShardPeers), ⟨true, "", "", newShardPeers⟩)

/-- The shards before and after a shard in the order of the ranges. -/
def ShardMap.neighborsFrom (shardId : ShardId) (prev : Option ShardId) :
    List (String × ShardId) → Option ShardId × Option ShardId
  | [] => (none, none)
  | e :: l => if e.2 = shardId then (prev, l.head?.map Prod.snd) else neighborsFrom shardId (some e.2) l

def ShardMap.getNeighbors (m : ShardMap) (shardId : ShardId) : Option ShardId × Option ShardId :=
  match m.strategy with
  | .range ranges => neighborsFrom shardId none ranges.entries
  | .consistentHash _ _ => (none, none)

structure ShardedCluster where
  config : ConfigStateInner
  masters : ShardId → MasterState

variable {t : ShardId} {splitKey newId pfx : String} {m : ShardMap}

namespace ShardedCluster

def onShard (c : ShardedCluster) (shardId : ShardId) (f : MasterState → MasterState) : ShardedCluster :=
  { c with masters := Function.update c.masters shardId (f (c.masters shardId)) }

def newShardId (shardId : ShardId) (uuid : String) : ShardId := shardId ++ "-split-" ++ uuid

/-- The split of a shard at a hot prefix: `SplitShard` on the shard's masters, then the files to move are read,
then `split_shard` on the config server, then the files are pushed to the first peer of the new shard. -/
def split (serves : String → ShardId) (now : Nat) (c : ShardedCluster) (shardId : ShardId) (pfx uuid : String) :
    ShardedCluster :=
  let c := c.onShard shardId fun s => s.applyCommand (.splitShard pfx (newShardId shardId uuid) [])
  let filesToMove :=
    ((c.masters shardId).files.entries.filter fun e => pfx.toList.isPrefixOf e.1.toList).map Sigma.snd
  let reply := c.config.splitShard now shardId pfx (newShardId shardId uuid) []
  let c := { c with config := reply.1 }
  if reply.2.success = true ∧ filesToMove ≠ [] then
    match reply.2.newShardPeers with
    | [] => c
    | peer :: _ => c.onShard (serves peer) fun s => s.ingestMetadata filesToMove
  else c

/-- The merge of a shard with a neighbour, the one before it if there is one: `merge_shard` on the config server,
then all files of the shard are pushed to the first of its peers.  The detector looks at its own copy of the shard
map, which may be another one when it looks for the peers. -/
def merge (serves : String → ShardId) (now : Nat) (c : ShardedCluster) (known known' : ShardMap)
    (shardId : ShardId) : ShardedCluster :=
  match (known.getNeighbors shardId).1.or (known.getNeighbors shardId).2 with
  | none => c
  | some victim =>
    let c := { c with config := c.config.applyCommand now (.mergeShard victim shardId) }
    let allFiles := (c.masters shardId).files.entries.map Sigma.snd
    match known'.getPeers shardId with
    | some (peer :: _) => c.onShard (serves peer) fun s => s.ingestMetadata allFiles
    | _ => c

variable {serves : String → ShardId} {now : Nat} {c : ShardedCluster} {shardId : ShardId}

@[simp]
theorem masters_onShard (t t' : ShardId) (f : MasterState → MasterState) :
    (c.onShard t f).masters t' = if t' = t then f (c.masters t) else c.masters t' := by
  unfold onShard
  by_cases h : t' = t
  · subst h
    simp
  · simp [h]

variable {s : MasterState}

theorem mem_applySplit {peers : List String} :
    path ∈ (s.applyCommand (.splitShard splitKey newId peers)).files ↔ path ∈ s.files ∧ path < splitKey := by
  have hf : ∀ (l : List String) (fs : StringMap FileMetadata),
      path ∈ l.foldl (fun fs k => fs.erase k) fs ↔ path ∈ fs ∧ path ∉ l := by
    intro l
    induction l with
    | nil => simp
    | cons k l ih =>
      intro fs
      rw [foldl_cons, ih, mem_erase, mem_cons]
      tauto
  simp only [applyCommand]
  rw [hf, mem_filter, ← AList.mem_keys, ← not_le]
  simp only [decide_eq_true_eq]
  tauto

private theorem le_of_isPrefixOf (h : pfx.toList.isPrefixOf path.toList = true) : pfx ≤ path := by
  obtain ⟨rest, hr⟩ := isPrefixOf_iff_prefix.1 h
  rw [← not_lt, String.lt_iff_toList_lt, ← hr]
  generalize pfx.toList = l
  induction l with
  | nil => simp
  | cons x l ih =>
    rw [cons_append, cons_lt_cons_iff]
    simpa using ih

/-- When the files to move are read, `SplitShard` has deleted them. -/
theorem filesToMove_eq_nil : ((s.applyCommand (.splitShard pfx newId [])).files.entries.filter
      fun e => pfx.toList.isPrefixOf e.1.toList).map Sigma.snd = [] := by
  rw [map_eq_nil_iff, filter_eq_nil_iff]
  intro e he hp
  have hmem : e.1 ∈ (s.applyCommand (.splitShard pfx newId [])).files := mem_keys.2 (mem_map_of_mem he)
  exact not_lt_of_ge (le_of_isPrefixOf hp) (mem_applySplit.1 hmem).2

private theorem split_eq (pfx uuid : String) : c.split serves now shardId pfx uuid =
    { config := (c.config.splitShard now shardId pfx (newShardId shardId uuid) []).1
      masters :=
        (c.onShard shardId fun s => s.applyCommand (.splitShard pfx (newShardId shardId uuid) [])).masters } := by
  unfold split
  rw [if_neg]
  · rfl
  · rintro ⟨-, hne⟩
    rw [masters_onShard, if_pos rfl] at hne
    exact hne filesToMove_eq_nil

/-- The file is on exactly the shard the config server routes it to. -/
def Reachable (c : ShardedCluster) (path : String) : Prop :=
  ∃ t, c.config.shardMap.getShard path = some t ∧ ∀ t', path ∈ (c.masters t').files ↔ t' = t

private theorem newShardId_ne (uuid : String) : newShardId shardId uuid ≠ shardId := by
  intro h
  have hlen := congrArg String.length h
  have hs : "-split-".length = 7 := rfl
  rw [newShardId, String.length_append, String.length_append, hs] at hlen
  omega

private theorem getShard_splitShard_iff {r : BTreeMap String ShardId} (hr : m.strategy = .range r)
    {newId s : ShardId} (hne : newId ≠ s) (hs : m.getShard path = some s) (hlt : path < splitKey)
    (peers : List String) :
    (m.splitShard splitKey newId peers).1.getShard path = some s ↔
      newId ∈ m.shards ∨ (∃ e ∈ r.entries, e.1 = splitKey) ∨ ∃ e ∈ r.entries, path ≤ e.1 ∧ e.1 < splitKey := by
  simp only [splitShard, hr]
  by_cases hn : newId ∈ m.shards
  · simp [hn, hs]
  rw [if_neg hn]
  cases hg : r.get? splitKey with
  | some t =>
    refine iff_of_true hs (.inr (.inl ⟨_, BTreeMap.get?_eq_some.1 hg, rfl⟩))
  | none =>
    have hfr : ∀ e ∈ r.entries, e.1 ≠ splitKey := BTreeMap.get?_eq_none.1 hg
    have hrt : route r.entries path = some s := by rw [← getShard_eq_route hr, hs]
    cases hf : r.firstFrom splitKey with
    | none =>
      obtain ⟨k, hk, hle⟩ := exists_mem_of_route hrt
      have hb : ¬ splitKey ≤ k := by simpa using find?_eq_none.1 hf _ hk
      exact iff_of_true hs (.inr (.inr ⟨_, hk, hle, not_le.1 hb⟩))
    | some e =>
      simp only [isSome_none, Bool.false_eq_true, if_false]
      rw [getShard_eq_route rfl, BTreeMap.route_insert hfr, hrt]
      constructor
      · intro h
        split at h
        · exact absurd (some.inj h) hne
        · rename_i hno
          have hno := not_and.1 hno (le_of_lt hlt)
          push Not at hno
          obtain ⟨e, he, hle, hge⟩ := hno
          exact .inr (.inr ⟨e, he, hle, lt_of_le_of_ne hge (hfr e he)⟩)
      · rintro (h | ⟨e, he, hek⟩ | ⟨e, he, hle, hb⟩)
        · exact absurd h hn
        · exact absurd hek (hfr e he)
        · rw [if_neg]
          exact fun h => lt_asymm hb (h.2 e he hle)

private theorem shardMap_splitShard {s : ConfigStateInner}
    (hdn : (s.splitShard now shardId splitKey newId []).2.success = true) :
    (s.splitShard now shardId splitKey newId []).1.shardMap =
      (s.shardMap.splitShard splitKey newId s.healthiestMasters).1 := by
  by_cases hp : s.healthiestMasters.isEmpty
  · simp [ConfigStateInner.splitShard, hp] at hdn
  · simp [ConfigStateInner.splitShard, hp, ConfigStateInner.applyCommand]

/-- After the split of a shard all its files are reachable exactly if they all are below the split key and the
range of the new shard, which ends at the split key, reaches down to none of them. -/
theorem split_reachable_iff {r : BTreeMap String ShardId} (hr : c.config.shardMap.strategy = .range r)
    (splitKey uuid : String)
    (hrouted : ∀ path ∈ (c.masters shardId).files, c.config.shardMap.getShard path = some shardId)
    (hother : ∀ path ∈ (c.masters shardId).files, ∀ t ≠ shardId, path ∉ (c.masters t).files)
    (hdone : (c.config.splitShard now shardId splitKey (newShardId shardId uuid) []).2.success = true) :
    (∀ path ∈ (c.masters shardId).files, (c.split serves now shardId splitKey uuid).Reachable path) ↔
      ∀ path ∈ (c.masters shardId).files, path < splitKey ∧
        (newShardId shardId uuid ∈ c.config.shardMap.shards ∨ (∃ e ∈ r.entries, e.1 = splitKey) ∨
          ∃ e ∈ r.entries, path ≤ e.1 ∧ e.1 < splitKey) := by
  refine forall₂_congr fun path hpath => ?_
  have hmap : (c.split serves now shardId splitKey uuid).config.shardMap =
      (c.config.shardMap.splitShard splitKey (newShardId shardId uuid) c.config.healthiestMasters).1 := by
    rw [split_eq]
    exact shardMap_splitShard hdone
  have hheld : ∀ t, path ∈ ((c.split serves now shardId splitKey uuid).masters t).files ↔
      t = shardId ∧ path < splitKey := by
    intro t
    rw [split_eq, masters_onShard]
    by_cases ht : t = shardId
    · rw [if_pos ht, mem_applySplit]
      simp [ht, hpath]
    · rw [if_neg ht]
      simp [ht, hother path hpath t ht]
  have hiff : path < splitKey → _ := fun hlt =>
    getShard_splitShard_iff hr (newShardId_ne uuid) (hrouted path hpath) hlt c.config.healthiestMasters
  constructor
  · rintro ⟨t, hroute, hexact⟩
    obtain ⟨rfl, hlt⟩ := (hheld t).1 ((hexact t).2 rfl)
    exact ⟨hlt, (hiff hlt).1 (hmap ▸ hroute)⟩
  · rintro ⟨hlt, hkept⟩
    refine ⟨shardId, ?_, fun t => ?_⟩
    · rw [hmap]
      exact (hiff hlt).2 hkept
    · rw [hheld t, and_iff_left hlt]

/-- Shard `a` up to `/m` with one file, shard `b` above, and one master. -/
def hotShard : ShardedCluster where
  config := [ConfigCommand.addShard "b" [], .registerMaster "m1" "a"].foldl (fun s c => s.applyCommand 0 c)
    ⟨newRange, ∅⟩
  masters := fun t =>
    if t = "a" then { default with files := singleton "/b/x" (FileMetadata.created "/b/x" 0 0) }
    else default

private theorem mem_hotShard : path ∈ (hotShard.masters t).files ↔ t = "a" ∧ path = "/b/x" := by
  unfold hotShard
  by_cases ht : t = "a"
  · simp [ht, AList.mem_keys]
  · simp [ht, MasterState.default]

/-- A split above the range of the shard. -/
theorem split_reachable_iff_above : "/b/x" ∈ (hotShard.masters "a").files ∧
    ∀ path ∈ (hotShard.masters "a").files, (hotShard.split (fun _ => "a") 0 "a" "/n" "1").Reachable path := by
  refine ⟨by decide,
    (split_reachable_iff (r := ⟨[("/m", "a"), (maxKey, "b")], by decide⟩) (by rfl) "/n" "1" ?_ ?_ ?_).2 ?_⟩
  · intro path hpath
    rw [(mem_hotShard.1 hpath).2]
    decide
  · intro path _ t ht hpath
    exact ht (mem_hotShard.1 hpath).1
  · decide
  · intro path hpath
    rw [(mem_hotShard.1 hpath).2]
    decide

/-- A split at the prefix of a file: the shard has deleted the file and the map still routes it there. -/
theorem split_loses_file :
    "/b/x" ∈ (hotShard.masters "a").files ∧ hotShard.config.shardMap.getShard "/b/x" = some "a" ∧
      (hotShard.split (fun _ => "a") 0 "a" "/b/" "1").config.shardMap.getShard "/b/x" = some "a" ∧
      "/b/x" ∉ ((hotShard.split (fun _ => "a") 0 "a" "/b/" "1").masters "a").files := by
  decide

theorem mem_ingestMetadata {files : List FileMetadata} :
    path ∈ (s.ingestMetadata files).files ↔ path ∈ s.files ∨ ∃ f ∈ files, f.path = path := by
  have hfl : ∀ (l : List FileMetadata) (fs : StringMap FileMetadata),
      path ∈ l.foldl (fun fs f => fs.insert f.path f) fs ↔ path ∈ fs ∨ ∃ f ∈ l, f.path = path := by
    intro l
    induction l with
    | nil => simp
    | cons f l ih =>
      intro fs
      rw [foldl_cons, ih, mem_insert, exists_mem_cons_iff, eq_comm]
      tauto
  have hf : (s.ingestMetadata files).files = files.foldl (fun fs f => fs.insert f.path f) s.files := by
    unfold ingestMetadata
    dsimp only
    split
    · rfl
    · rfl
  rw [hf, hfl]

/-- Every file is on the shard it is routed to, under its own path. -/
structure Consistent (c : ShardedCluster) : Prop where
  routed : ∀ t, ∀ path ∈ (c.masters t).files, c.config.shardMap.getShard path = some t
  keyed : ∀ t path f, (c.masters t).files.lookup path = some f → f.path = path

section Merge

variable {known known' : ShardMap} {victim : ShardId}

theorem config_merge (hv : (known.getNeighbors shardId).1.or (known.getNeighbors shardId).2 = some victim) :
    (c.merge serves now known known' shardId).config.shardMap =
    (c.config.shardMap.mergeShards victim shardId).1 := by
  unfold merge
  rw [hv]
  dsimp only
  split
  · rfl
  · rfl

theorem masters_merge (serves : String → ShardId) (now : Nat) (c : ShardedCluster) (known known' : ShardMap)
    (shardId t : ShardId) :
    ((c.merge serves now known known' shardId).masters t).files = (c.masters t).files ∨
    ((c.merge serves now known known' shardId).masters t).files =
      ((c.masters t).ingestMetadata ((c.masters shardId).files.entries.map Sigma.snd)).files := by
  unfold merge
  split
  · exact .inl rfl
  · dsimp only
    split
    · rename_i peer _ _
      rw [masters_onShard]
      by_cases ht : t = serves peer
      · rw [if_pos ht, ht]
        exact .inr rfl
      · rw [if_neg ht]
        exact .inl rfl
    · exact .inl rfl

private theorem mem_of_mem_merge (hc : c.Consistent)
    (h : path ∈ ((c.merge serves now known known' shardId).masters t).files) :
    path ∈ (c.masters t).files ∨ path ∈ (c.masters shardId).files := by
  rcases masters_merge serves now c known known' shardId t with heq | heq
  · exact .inl (heq ▸ h)
  · rw [heq, mem_ingestMetadata] at h
    refine h.imp_right ?_
    rintro ⟨f, hf, rfl⟩
    obtain ⟨e, he, rfl⟩ := mem_map.1 hf
    have hlk : (c.masters shardId).files.lookup e.1 = some e.2 := mem_lookup_iff.2 he
    rw [hc.keyed shardId e.1 e.2 hlk]
    exact mem_keys.2 (mem_map_of_mem he)

private theorem mem_merge_of_mem (h : path ∈ (c.masters t).files) :
    path ∈ ((c.merge serves now known known' shardId).masters t).files := by
  rcases masters_merge serves now c known known' shardId t with heq | heq
  · rwa [heq]
  · rw [heq, mem_ingestMetadata]
    exact .inl h

private theorem getShard_mergeShards_ne (hm : m.Sound) (hv : victim ∈ m.shards) (hs : shardId ∈ m.shards)
    (hne : victim ≠ shardId) (path : String) : (m.mergeShards victim shardId).1.getShard path ≠ some victim := by
  obtain ⟨r, hr, -, -, how, -⟩ := hm.parts
  obtain ⟨k, hk, huniq⟩ := how victim hv
  obtain ⟨r', heq, hls, ho⟩ := mergeShards_eq hm hr hv hs hk
  rw [heq, getShard_eq_route rfl]
  intro hrt
  obtain ⟨k', hmem, -⟩ := exists_mem_of_route hrt
  by_cases hmax : k = maxKey
  · rcases (hls hmax _).1 hmem with hmem | ⟨hmem, hk', -⟩
    · exact hne (Prod.mk.inj hmem).2
    · exact hk' ((huniq k' hmem).trans hmax)
  · exact ((ho hmax _).1 hmem).2 rfl

/-- The file is on the shard it is routed to. -/
def Found (c : ShardedCluster) (path : String) : Prop :=
  ∃ t, c.config.shardMap.getShard path = some t ∧ path ∈ (c.masters t).files

/-- After the merge of two shards the files of the victim are found exactly if they still are routed to the victim,
which in a sound shard map means that it had none. -/
theorem merge_found_iff (hc : c.Consistent)
    (hvictim : (known.getNeighbors shardId).1.or (known.getNeighbors shardId).2 = some victim)
    (hne : victim ≠ shardId) :
    ((∀ path ∈ (c.masters victim).files, (c.merge serves now known known' shardId).Found path) ↔
      ∀ path ∈ (c.masters victim).files,
        (c.config.shardMap.mergeShards victim shardId).1.getShard path = some victim) ∧
    (c.config.shardMap.Sound → victim ∈ c.config.shardMap.shards → shardId ∈ c.config.shardMap.shards →
      ((∀ path ∈ (c.masters victim).files, (c.merge serves now known known' shardId).Found path) ↔
        ∀ path, path ∉ (c.masters victim).files)) := by
  have hiff : (∀ path ∈ (c.masters victim).files, (c.merge serves now known known' shardId).Found path) ↔
      ∀ path ∈ (c.masters victim).files,
        (c.config.shardMap.mergeShards victim shardId).1.getShard path = some victim := by
    refine forall₂_congr fun path hpath => ?_
    have hold := hc.routed victim path hpath
    unfold Found
    rw [config_merge hvictim]
    constructor
    · rintro ⟨t, hroute, hmem⟩
      rcases mem_of_mem_merge hc hmem with hmem | hmem
      · have ht := hc.routed t path hmem
        rw [hold, some.injEq] at ht
        rw [hroute, ht]
      · have hs := hc.routed shardId path hmem
        rw [hold, some.injEq] at hs
        exact absurd hs hne
    · intro hroute
      exact ⟨victim, hroute, mem_merge_of_mem hpath⟩
  refine ⟨hiff, fun hm hv hs => hiff.trans ?_⟩
  refine forall_congr' fun path => imp_congr_right fun _ => ?_
  exact iff_of_false (getShard_mergeShards_ne hm hv hs hne path) id

end Merge

/-- Shard `a` up to `/m`, shard `b` above with one file. -/
def quietShard : ShardedCluster where
  config := [ConfigCommand.addShard "b" ["m2"], .addShard "a" ["m1"]].foldl (fun s c => s.applyCommand 0 c)
    ⟨newRange, ∅⟩
  masters := fun t =>
    if t = "b" then { default with files := singleton "/y" (FileMetadata.created "/y" 0 0) }
    else default

/-- The master at `m1` belongs to `a`, every other one to `b`. -/
def quietServes (address : String) : ShardId := if address = "m1" then "a" else "b"

/-- Shard `a` merges `b` into itself: the map routes the file to `a`, and it is on `b` alone. -/
theorem merge_loses_file :
    "/y" ∈ (quietShard.masters "b").files ∧ quietShard.config.shardMap.getShard "/y" = some "b" ∧
      (quietShard.merge quietServes 0 quietShard.config.shardMap quietShard.config.shardMap
        "a").config.shardMap.getShard
        "/y" = some "a" ∧
      "/y" ∉ ((quietShard.merge quietServes 0 quietShard.config.shardMap quietShard.config.shardMap "a").masters
        "a").files := by
  decide

theorem mem_quietShard : path ∈ (quietShard.masters t).files ↔ t = "b" ∧ path = "/y" := by
  unfold quietShard
  by_cases ht : t = "b"
  · simp [ht, AList.mem_keys]
  · simp [ht, MasterState.default]

private theorem consistent_quietShard : quietShard.Consistent := by
  constructor
  · intro t path hp
    obtain ⟨rfl, rfl⟩ := mem_quietShard.1 hp
    decide
  · intro t path f hf
    obtain ⟨rfl, rfl⟩ := mem_quietShard.1 (lookup_isSome.1 (by rw [hf]; rfl))
    obtain rfl : FileMetadata.created "/y" 0 0 = f := some.inj hf
    rfl

/-- Shard `b` merges `a`, which has no files; shard `a` merges `b`, which has one. -/
theorem merge_found_iff_quiet : (∀ path ∈ (quietShard.masters "a").files,
      (quietShard.merge quietServes 0 quietShard.config.shardMap quietShard.config.shardMap "b").Found path) ∧
    ¬ ∀ path ∈ (quietShard.masters "b").files,
      (quietShard.merge quietServes 0 quietShard.config.shardMap quietShard.config.shardMap "a").Found path := by
  constructor
  · refine (merge_found_iff consistent_quietShard (by decide) (by decide)).1.2 fun path hpath => ?_
    exact absurd (mem_quietShard.1 hpath).1 (by decide)
  · intro hfound
    have hrouted := (merge_found_iff consistent_quietShard (by decide) (by decide)).1.1 hfound "/y" (by decide)
    exact absurd hrouted (by decide)

end ShardedCluster

namespace ShardMap

variable {m : ShardMap} {r : BTreeMap String ShardId} {v s : ShardId}

private theorem neighborsFrom_eq {front back : List (String × ShardId)} {k : String} (hf : ∀ e ∈ front, e.2 ≠ v)
    (prev : Option ShardId) :
    neighborsFrom v prev
      (front ++ (k, v) :: back) = ((front.getLast?.map Prod.snd).or prev, back.head?.map Prod.snd) := by
  induction front generalizing prev with
  | nil => simp [neighborsFrom]
  | cons e front ih =>
    rw [forall_mem_cons] at hf
    rw [cons_append, neighborsFrom, if_neg hf.1, ih hf.2, getLast?_cons]
    cases front.getLast? <;> rfl

private theorem neighborsFrom_eq_none {l : List (String × ShardId)} (hl : ∀ e ∈ l, e.2 ≠ v)
    (prev : Option ShardId) : neighborsFrom v prev l = (none, none) := by
  induction l generalizing prev with
  | nil => rfl
  | cons e l ih =>
    rw [forall_mem_cons] at hl
    rw [neighborsFrom, if_neg hl.1, ih hl.2]

section

variable {front back : List (String × ShardId)} {k : String} {r' : BTreeMap String ShardId}
variable (hl : r.entries = front ++ (k, v) :: back)
variable (huniq : ∀ {t k1 k2}, (k1, t) ∈ r.entries → (k2, t) ∈ r.entries → k1 = k2)
include hl huniq

private theorem lt_and_gt : (∀ e ∈ front, e.1 < k) ∧ (∀ e ∈ back, k < e.1) ∧ ∀ e ∈ front ++ back, e.2 ≠ v := by
  have hs := r.sorted
  rw [hl, pairwise_append, pairwise_cons] at hs
  have hf : ∀ e ∈ front, e.1 < k := fun e he => hs.2.2 e he _ mem_cons_self
  refine ⟨hf, hs.2.1.1, ?_⟩
  rintro ⟨k', t⟩ he rfl
  have hk' : k' = k := huniq (by rw [hl]; simp at he ⊢; tauto) (by rw [hl]; simp)
  rcases mem_append.1 he with he | he
  · exact (hf _ he).ne hk'
  · exact (hs.2.1.1 _ he).ne' hk'

private theorem drop_exact_iff (hr' : ∀ e, e ∈ r'.entries ↔ e ∈ r.entries ∧ e.2 ≠ v) :
    (∀ key, route r'.entries key =
        if route r.entries key = some v then some s else route r.entries key) ↔
      back.head?.map Prod.snd = some s := by
  obtain ⟨hf, hb, hfr⟩ := lt_and_gt hl huniq
  have hs : (front ++ back).Pairwise fun a b => a.1 < b.1 :=
    (hl ▸ r.sorted).sublist ((sublist_cons_self _ _).append_left _)
  have hen : r'.entries = front ++ back := by
    refine BTreeMap.entries_eq hs fun e => ?_
    rw [hr', hl]
    have ho := hfr e
    simp only [mem_append, mem_cons] at ho ⊢
    constructor
    · rintro ⟨he | rfl | he, hev⟩
      · exact .inl he
      · exact absurd rfl hev
      · exact .inr he
    · intro he
      exact ⟨by tauto, ho he⟩
  rw [hen]
  constructor
  · intro hex
    have hk := hex k
    have hold : route r.entries k = some v := route_of_mem r.sorted (e := (k, v)) (by rw [hl]; simp)
    have hn : route front k = none :=
      map_eq_none_iff.2 (find?_eq_none.2 (by simpa using hf))
    rw [hold, if_pos rfl, route_append, hn, none_or] at hk
    rw [← hk]
    cases back with
    | nil => rfl
    | cons e back => exact (route_cons_of_le (hb e mem_cons_self).le).symm
  · intro hnx key
    obtain ⟨⟨k', t⟩, he, rfl⟩ := map_eq_some_iff.1 hnx
    obtain ⟨back, rfl⟩ : ∃ back', back = (k', t) :: back' := ⟨_, (head?_eq_some_iff.1 he).choose_spec⟩
    rw [hl]
    exact route_merge (hb _ mem_cons_self).le (.inl ⟨rfl, rfl⟩) (fun e he => hfr e (by simp at he ⊢; tauto)) key

private theorem last_exact_iff (hne : v ≠ s)
    (hn : front.getLast?.map Prod.snd = some s ∨ back.head?.map Prod.snd = some s)
    (hr' : ∀ e, e ∈ r'.entries ↔ e = (k, s) ∨ (e ∈ r.entries ∧ e.1 ≠ k ∧ e.2 ≠ s)) :
    (∀ key, route r'.entries key =
        if route r.entries key = some v then some s else route r.entries key) ↔
      front.getLast?.map Prod.snd = some s := by
  obtain ⟨hf, hbc, hfr⟩ := lt_and_gt hl huniq
  constructor
  · intro hex
    refine hn.resolve_right fun hnx => ?_
    obtain ⟨⟨k', t⟩, he, rfl⟩ := map_eq_some_iff.1 hnx
    have hmem := mem_of_head? he
    have hk := hex k'
    have hold : route r.entries k' = some t :=
      route_of_mem r.sorted (e := (k', t)) (by rw [hl]; simp [hmem])
    rw [hold, if_neg (by simpa using Ne.symm hne)] at hk
    obtain ⟨k1, hk1, hle⟩ := exists_mem_of_route hk
    rcases (hr' _).1 hk1 with heq | ⟨-, -, hnot⟩
    · rw [(Prod.mk.inj heq).1] at hle
      exact absurd (hbc _ hmem) hle.not_gt
    · exact hnot rfl
  · intro hp key
    obtain ⟨⟨k', t⟩, he, rfl⟩ := map_eq_some_iff.1 hp
    obtain ⟨front, rfl⟩ : ∃ front', front = front' ++ [(k', t)] := ⟨_, (getLast?_eq_some_iff.1 he).choose_spec⟩
    rw [append_assoc, singleton_append] at hl
    have hoh := (lt_and_gt hl huniq).2.2
    have hen : r'.entries = front ++ (k, t) :: back := by
      have hs := r.sorted
      rw [hl] at hs
      refine BTreeMap.entries_eq ?_ fun e => ?_
      · simp only [pairwise_append, pairwise_cons, forall_mem_cons] at hs ⊢
        exact ⟨hs.1, hs.2.1.2, fun a ha => (hs.2.2 a ha).2⟩
      · rw [hr', hl]
        have haf := hbc e
        have ho := hoh e
        have hb := hf e
        simp only [mem_append, mem_cons] at ho hb ⊢
        constructor
        · rintro (rfl | ⟨he | rfl | rfl | he, hek, het⟩)
          · exact .inr (.inl rfl)
          · exact .inl he
          · exact absurd rfl het
          · exact absurd rfl hek
          · exact .inr (.inr he)
        · rintro (he | rfl | he)
          · exact .inr ⟨.inl he, (hb (.inl he)).ne, ho (.inl he)⟩
          · exact .inl rfl
          · exact .inr ⟨.inr (.inr (.inr he)), (haf he).ne', ho (.inr (.inr he))⟩
    rw [hen, hl]
    exact route_merge (hf (k', t) (by simp)).le (.inr ⟨rfl, rfl⟩) (fun e he => hfr e (by simp at he ⊢; tauto)) key

end

/-- Merging neighbours is exact exactly if the victim stands right below the retained shard, or right above it with
the last range: a range that is dropped falls to the shard above. -/
theorem merge_exact_iff (hm : m.Sound) (hne : v ≠ s)
    (hneighbors : (m.getNeighbors v).1 = some s ∨ (m.getNeighbors v).2 = some s) :
    (∀ key, (m.mergeShards v s).1.getShard key = if m.getShard key = some v then some s else m.getShard key) ↔
      if (maxKey, v) ∈ m.ranges then (m.getNeighbors v).1 = some s else (m.getNeighbors v).2 = some s := by
  obtain ⟨r, hr, hranges, hreg, howns, -⟩ := hm.parts
  have huniq : ∀ {t k1 k2}, (k1, t) ∈ r.entries → (k2, t) ∈ r.entries → k1 = k2 :=
    fun h1 h2 => (howns _ (hreg _ h1)).unique h1 h2
  have hnb : m.getNeighbors v = neighborsFrom v none r.entries := by rw [getNeighbors, hr]
  obtain ⟨⟨k, t⟩, hk, rfl⟩ : ∃ e ∈ r.entries, e.2 = v := by
    by_contra hno
    rw [hnb, neighborsFrom_eq_none fun e he hev => hno ⟨e, he, hev⟩] at hneighbors
    simp at hneighbors
  obtain ⟨front, back, hl⟩ := append_of_mem hk
  have hfree := (lt_and_gt hl huniq).2.2
  rw [hl, neighborsFrom_eq fun e he => hfree e (mem_append_left _ he), or_none] at hnb
  rw [hnb] at hneighbors ⊢
  have hs : s ∈ m.shards := by
    rcases hneighbors with h | h
    · obtain ⟨e, he, rfl⟩ := map_eq_some_iff.1 h
      exact hreg e (by rw [hl]; simp [mem_of_getLast? he])
    · obtain ⟨e, he, rfl⟩ := map_eq_some_iff.1 h
      exact hreg e (by rw [hl]; simp [mem_of_head? he])
  obtain ⟨r', heq, hlast, hother⟩ := mergeShards_eq hm hr (hreg _ hk) hs hk
  have hmax : (maxKey, t) ∈ m.ranges ↔ k = maxKey := by
    rw [hranges]
    exact ⟨fun h => huniq hk h, fun h => h ▸ hk⟩
  have hnew : ∀ key, (m.mergeShards t s).1.getShard key = route r'.entries key := by
    intro key
    rw [heq]
    exact getShard_eq_route rfl key
  simp only [hnew, getShard_eq_route hr, hmax]
  by_cases hkmax : k = maxKey
  · rw [if_pos hkmax]
    exact last_exact_iff hl huniq hne hneighbors (hkmax ▸ hlast hkmax)
  · rw [if_neg hkmax]
    exact drop_exact_iff hl huniq (hother hkmax)

/-- Shard `c` up to `/k`, `b` up to `/m` and `a` above. -/
def threeShards : ShardMap :=
  ([ShardCall.addShard "a" [], .addShard "b" []].foldl call newRange).splitShard "/k" "c" [] |>.1

private theorem sound_threeShards : threeShards.Sound := by
  have hf : (newRange.addShard "a" []).Sound :=
    (sound_addShard_iff sound_newRange "a" []).2 (.inr (.inl (by decide)))
  have hs : ((newRange.addShard "a" []).addShard "b" []).Sound :=
    (sound_addShard_iff hf "b" []).2 (.inr (.inl (by decide)))
  exact sound_splitShard hs "/k" "c" []

theorem merge_exact_iff_below :
    threeShards.Sound ∧ (threeShards.mergeShards "b" "a").1.getShard "/l" = some "a" := by
  have hexact :=
    (merge_exact_iff sound_threeShards (v := "b") (s := "a") (by decide) (by decide)).2 (by decide) "/l"
  exact ⟨sound_threeShards, hexact.trans (by decide)⟩

/-- The keys of `b` fall to `a` when `b` is merged into `c`. -/
theorem merge_misroutes :
    threeShards.Sound ∧ threeShards.getNeighbors "b" = (some "c", some "a") ∧
      threeShards.getShard "/l" = some "b" ∧
      (threeShards.mergeShards "b" "c").2 = true ∧
        (threeShards.mergeShards "b" "c").1.getShard "/l" = some "a" := by
  exact ⟨sound_threeShards, by decide⟩

end ShardMap

end RustHadoop
