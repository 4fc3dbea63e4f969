import RustHadoop.Lib.Multimap
import RustHadoop.Meta.Files

/-!
# The placement of blocks

`select_servers_rack_aware` spreads the copies of a block over the racks: in each round it takes the best server
that is left of every rack, until it has enough.  The racks come in an order that the two sorts and the iteration
over a hash map leave open (`RackOrder`).  Whatever the order, the selection is as large as it can be, no rack gets
two servers more than another one that has servers left, and within a rack the servers with the most space are
taken (`rack_aware_placement`).

The argument is about turns: when the loop ends, in the middle of a round or between two, there is a number `k`
such that every rack has had `k` or `k + 1` turns, and what a rack has given is the beginning of its list
(`pickRounds_turns`).
-/

namespace RustHadoop

open List

variable {s : String × ChunkServerStatus}

variable {selected : List String} {n : Nat}

theorem pickRound_full (hn : n ≤ selected.length) (racks : List (List String)) :
    pickRound n selected racks = (selected, racks) := by
  cases racks with
  | nil => rfl
  | cons rack rest =>
    unfold pickRound
    rw [if_pos hn]

private theorem pickRounds_full (hn : n ≤ selected.length) (rounds : Nat)
    (racks : List (List String)) : pickRounds n rounds selected racks = selected := by
  cases rounds with
  | zero => rfl
  | succ rounds =>
    unfold pickRounds
    rw [pickRound_full hn, if_pos rfl]

theorem pickRound_spec (hn : selected.length ≤ n) (racks : List (List String)) : ∃ j, pickRound n selected racks =
        (selected ++ (racks.take j).flatMap (take 1), (racks.take j).map (drop 1) ++ racks.drop j) ∧
      (selected ++ (racks.take j).flatMap (take 1)).length ≤ n ∧
      (racks.length ≤ j ∨ n ≤ (selected ++ (racks.take j).flatMap (take 1)).length) := by
  induction racks generalizing selected with
  | nil => exact ⟨0, by simp [pickRound], by simpa using hn, .inl le_rfl⟩
  | cons rack rest ih =>
    by_cases hf : n ≤ selected.length
    · exact ⟨0, by simp [pickRound_full hf], by simpa using hn, .inr (by simpa using hf)⟩
    · have ht : (selected ++ rack.take 1).length ≤ n := by
        rw [length_append, length_take]
        omega
      obtain ⟨j, hr, hle, he⟩ := ih ht
      have hs : pickRound n selected (rack :: rest) = ((pickRound n (selected ++ rack.take 1) rest).1,
            rack.drop 1 :: (pickRound n (selected ++ rack.take 1) rest).2) := by
        cases rack with
        | nil | cons server others => simp [pickRound, hf]
      refine ⟨j + 1, ?_, ?_, ?_⟩
      · rw [hs, hr]
        simp
      · simpa using hle
      · simpa using he

section Turns

variable {n : Nat} {racks : List (List String)}

/-- What the racks have given when each has had its turns. -/
def given (turns : List String → Nat) (racks : List (List String)) : List String :=
  racks.flatMap fun rack => rack.take (turns rack)

private theorem given_turn (k j : Nat) :
    (given (fun _ => k) racks ++ (racks.take j).flatMap fun rack => (rack.drop k).take 1).Perm
      (given (fun _ => k + 1) (racks.take j) ++ given (fun _ => k) (racks.drop j)) := by
  have hs : given (fun _ => k) racks = given (fun _ => k) (racks.take j) ++ given (fun _ => k) (racks.drop j) := by
    rw [given, given, given, ← flatMap_append, take_append_drop]
  rw [hs, append_assoc]
  refine (perm_append_comm.append_left _).trans ?_
  rw [← append_assoc]
  refine ((flatMap_append_perm _ _ _).trans (.of_eq (flatMap_congr fun rack _ => ?_))).append_right _
  rw [take_add]

private theorem pickRounds_from (rounds k : Nat) (hsel : selected.Perm (given (fun _ => k) racks))
    (hle : selected.length ≤ n) (hrn : n ≤ selected.length + rounds) :
    ∃ j k', (pickRounds n rounds selected (racks.map (drop k))).Perm
        (given (fun _ => k' + 1) (racks.take j) ++ given (fun _ => k') (racks.drop j)) ∧
      (pickRounds n rounds selected (racks.map (drop k))).length ≤ n ∧
      (n ≤ (pickRounds n rounds selected (racks.map (drop k))).length ∨ ∀ rack ∈ racks, rack.length ≤ k') := by
  induction rounds generalizing k selected with
  | zero => exact ⟨0, k, hsel, hle, .inl hrn⟩
  | succ rounds ih =>
    obtain ⟨j, hr, hle', he⟩ := pickRound_spec hle (racks.map (drop k))
    have hh : ((racks.map (drop k)).take j).flatMap (take 1) =
        (racks.take j).flatMap fun rack => (rack.drop k).take 1 := by
      rw [← map_take, flatMap_map]
    rw [hh, length_map] at he
    rw [hh] at hr hle'
    unfold pickRounds
    rw [hr]
    dsimp only
    split
    · -- no rack had a server left, or the selection was full
      rename_i hs
      refine ⟨0, k, hsel, hle, ?_⟩
      rcases he with ha | hf
      · rw [take_of_length_le ha, length_append] at hs
        have hn : (racks.flatMap fun rack => (rack.drop k).take 1) = [] := eq_nil_of_length_eq_zero (by omega)
        refine .inr fun rack hrc => ?_
        have hrs := flatMap_eq_nil_iff.1 hn rack hrc
        rw [take_eq_nil_iff, drop_eq_nil_iff] at hrs
        exact hrs.resolve_left (by simp)
      · exact .inl (hs ▸ hf)
    · rename_i hm
      have hl : selected.length <
          (selected ++ (racks.take j).flatMap fun rack => (rack.drop k).take 1).length := by
        rw [length_append] at hm ⊢
        omega
      have hg := (hsel.append_right _).trans (given_turn k j)
      rcases Nat.lt_or_ge j racks.length with hb | ha
      · -- the round was broken off
        have hf := he.resolve_left (by omega)
        rw [pickRounds_full hf]
        exact ⟨j, k, hg, hle', .inl hf⟩
      · have hrs : ((racks.map (drop k)).take j).map (drop 1) ++ (racks.map (drop k)).drop j =
            racks.map (drop (k + 1)) := by
          rw [take_of_length_le (by simpa using ha), drop_eq_nil_of_le (by simpa using ha), append_nil, map_map]
          refine map_congr_left fun rack _ => ?_
          rw [Function.comp_apply, drop_drop]
        have hw : given (fun _ => k + 1) (racks.take j) ++
            given (fun _ => k) (racks.drop j) = given (fun _ => k + 1) racks := by
          rw [take_of_length_le ha, drop_eq_nil_of_le ha]
          exact append_nil _
        rw [hrs]
        exact ih (k + 1) (hw ▸ hg) hle' (by omega)

private theorem pickRounds_turns (hr : racks.Nodup) (n : Nat) :
    ∃ (k : Nat) (turns : List String → Nat), (∀ rack, turns rack = k ∨ turns rack = k + 1) ∧
      (pickRounds n n [] racks).Perm (given turns racks) ∧ (pickRounds n n [] racks).length ≤ n ∧
      (n ≤ (pickRounds n n [] racks).length ∨ ∀ rack ∈ racks, rack.length ≤ k) := by
  have he : ([] : List String).Perm (given (fun _ => 0) racks) := by simp [given]
  have hs : racks.map (drop 0) = racks :=
    (map_congr_left fun _ _ => drop_zero).trans (map_id' racks)
  obtain ⟨j, k, hsel, hend⟩ := pickRounds_from n 0 he (Nat.zero_le n) (by simp)
  rw [hs] at hsel hend
  have ht : given (fun rack => if rack ∈ racks.take j then k + 1 else k) racks =
      given (fun _ => k + 1) (racks.take j) ++ given (fun _ => k) (racks.drop j) := by
    conv_lhs => rw [given, ← take_append_drop j racks, flatMap_append, take_append_drop]
    congr 1
    · exact flatMap_congr fun rack hrc => by rw [if_pos hrc]
    · exact flatMap_congr fun rack hrc => by rw [if_neg fun htk => disjoint_take_drop hr le_rfl htk hrc]
  refine ⟨k, fun rack => if rack ∈ racks.take j then k + 1 else k, fun rack => ?_, ht ▸ hsel, hend⟩
  dsimp only
  split
  · exact .inr rfl
  · exact .inl rfl

private theorem given_sublist (turns : List String → Nat) (racks : List (List String)) :
    (given turns racks).Sublist racks.flatten := by
  induction racks with
  | nil => simp [given]
  | cons rack rest ih =>
    rw [given, flatMap_cons, flatten_cons]
    exact (take_sublist _ _).append ih

end Turns

/-- The rack of a server: the one it names, or a rack of its own. -/
inductive Rack
  | named (rackId : String)
  | alone (address : String)
deriving DecidableEq

def rackOf (server : String × ChunkServerStatus) : Rack :=
  if server.2.rackId = "" then .alone server.1 else .named server.2.rackId

variable {s' : String × ChunkServerStatus}

/-- The keys of the hash map tell the racks apart if no name looks like the key of a server. -/
theorem rackKey_eq_iff (hs : ¬ ∃ rest, s.2.rackId = "__addr__" ++ rest)
    (hs' : ¬ ∃ rest, s'.2.rackId = "__addr__" ++ rest) : rackKey s = rackKey s' ↔ rackOf s = rackOf s' := by
  unfold rackKey rackOf
  split <;> split
  · rw [Rack.alone.injEq]
    constructor
    · intro h
      have := congrArg String.toList h
      rw [String.toList_append, String.toList_append, append_cancel_left_eq] at this
      exact String.toList_inj.1 this
    · exact congrArg _
  · exact iff_of_false (fun h => hs' ⟨_, h.symm⟩) nofun
  · exact iff_of_false (fun h => hs ⟨_, h⟩) nofun
  · rw [Rack.named.injEq]

def rackBuckets (candidates : List (String × ChunkServerStatus)) : StringMap (List (String × ChunkServerStatus)) :=
  candidates.foldl (Multimap.push rackKey id) ∅

def bestSpace (rack : List (String × ChunkServerStatus)) : Nat :=
  (rack.head?.map fun s => s.2.availableSpace).getD 0

variable (servers : List (String × ChunkServerStatus))

/-- The racks in an order that the sorts and the iteration over the hash map can leave them in. -/
def RackOrder (racks : List (List (String × ChunkServerStatus))) : Prop :=
  ∃ candidates : List (String × ChunkServerStatus), candidates.Perm servers ∧
    candidates.Pairwise (fun s s' => s'.2.availableSpace ≤ s.2.availableSpace) ∧
    racks.Perm ((rackBuckets candidates).entries.map fun b => b.2) ∧
    racks.Pairwise fun r r' => bestSpace r' ≤ bestSpace r

private theorem pairwise_mergeSort_by {α : Type} (f : α → Nat) (l : List α) :
    (l.mergeSort fun a b => decide (f b ≤ f a)).Pairwise fun a b => f b ≤ f a := by
  have h : (l.mergeSort fun a b => decide (f b ≤ f a)).Pairwise fun a b => decide (f b ≤ f a) = true := by
    apply pairwise_mergeSort
    · intro a b c hab hbc
      simp only [decide_eq_true_eq] at hab hbc ⊢
      omega
    · intro a b
      simp only [Bool.or_eq_true, decide_eq_true_eq]
      omega
  exact h.imp of_decide_eq_true

private theorem rackOrder_racks : RackOrder servers (racks servers) :=
  ⟨byAvailableSpace servers, mergeSort_perm _ _, pairwise_mergeSort_by (fun s => s.2.availableSpace) servers,
    mergeSort_perm _ _, pairwise_mergeSort_by bestSpace _⟩

/-- What a division of the servers into racks is. -/
structure Racked (servers : List (String × ChunkServerStatus)) (racks : List (List (String × ChunkServerStatus))) :
    Prop where
  flatten : racks.flatten.Perm servers
  nonempty : ∀ rack ∈ racks, rack ≠ []
  members : ∀ rack ∈ racks, ∀ s ∈ rack, rack.Perm (servers.filter fun s' => rackKey s' = rackKey s)
  sorted : ∀ rack ∈ racks, rack.Pairwise fun s s' => s'.2.availableSpace ≤ s.2.availableSpace
  unique : ∀ rack ∈ racks, ∀ rack' ∈ racks, ∀ s ∈ rack, s ∈ rack' → rack = rack'

private theorem RackOrder.racked {servers : List (String × ChunkServerStatus)}
    {racks : List (List (String × ChunkServerStatus))} (h : RackOrder servers racks) : Racked servers racks := by
  obtain ⟨candidates, hp, hsr, hr, -⟩ := h
  rw [rackBuckets, Multimap.values_foldl_push, ← rackBuckets] at hr
  have hk : ∀ key, key ∈ (rackBuckets candidates).keys ↔ ∃ s ∈ candidates, rackKey s = key := by
    intro key
    have h : key ∈ rackBuckets candidates ↔ _ := Multimap.mem_foldl_push candidates ∅ key
    rw [or_iff_right (AList.notMem_empty key)] at h
    exact h
  have hrc : ∀ rack ∈ racks, ∃ key, (∃ s ∈ candidates, rackKey s = key) ∧
      rack = candidates.filter fun s => rackKey s = key := by
    intro rack hrc
    obtain ⟨key, hkey, rfl⟩ := mem_map.1 (hr.subset hrc)
    exact ⟨key, (hk key).1 hkey, rfl⟩
  refine ⟨?_, ?_, ?_, ?_, ?_⟩
  · have hf := hr.flatten
    rw [← flatMap_def] at hf
    exact (hf.trans (Multimap.flatMap_filter_perm (rackBuckets candidates).keys_nodup
      fun s hs => (hk _).2 ⟨s, hs, rfl⟩)).trans hp
  · intro rack hmem hnil
    obtain ⟨key, ⟨s, hs, hkey⟩, rfl⟩ := hrc rack hmem
    exact filter_eq_nil_iff.1 hnil s hs (by simpa using hkey)
  · intro rack hmem s hs
    obtain ⟨key, -, rfl⟩ := hrc rack hmem
    have hkey : rackKey s = key := by simpa using (mem_filter.1 hs).2
    rw [hkey]
    exact hp.filter _
  · intro rack hmem
    obtain ⟨key, -, rfl⟩ := hrc rack hmem
    exact hsr.sublist filter_sublist
  · intro rack hmem rack' hm' s hs hs'
    obtain ⟨key, -, rfl⟩ := hrc rack hmem
    obtain ⟨key', -, rfl⟩ := hrc rack' hm'
    have hkey : rackKey s = key := by simpa using (mem_filter.1 hs).2
    have hk' : rackKey s = key' := by simpa using (mem_filter.1 hs').2
    rw [← hkey, ← hk']

def chosen (selected : List String) (rack : Rack) : Nat :=
  (servers.filter fun s => rackOf s = rack ∧ s.1 ∈ selected).length

/-- A selection of `n` servers that is complete and balanced. -/
structure Placed (servers : List (String × ChunkServerStatus)) (n : Nat) (selected : List String) : Prop where
  nodup : selected.Nodup
  members : ∀ address ∈ selected, address ∈ servers.map Prod.fst
  length : selected.length = min n servers.length
  balanced : ∀ rack rack', chosen servers selected rack' ≤ chosen servers selected rack + 1 ∨
    ∀ s ∈ servers, rackOf s = rack → s.1 ∈ selected
  best : ∀ s ∈ servers, ∀ s' ∈ servers, rackOf s = rackOf s' → s.1 ∈ selected → s'.1 ∉ selected →
    s'.2.availableSpace ≤ s.2.availableSpace

variable {rack : List (String × ChunkServerStatus)}

section Selection

variable {servers : List (String × ChunkServerStatus)} {racks : List (List (String × ChunkServerStatus))}

def addresses (racks : List (List (String × ChunkServerStatus))) : List (List String) :=
  racks.map fun rack => rack.map fun s => s.1

theorem eq_of_address (hnodup : (servers.map Prod.fst).Nodup) (hs : s ∈ servers)
    (hs' : s' ∈ servers) (h : s.1 = s'.1) : s = s' :=
  inj_on_of_nodup_map hnodup hs hs' h

section

variable (h : Racked servers racks)
include h

theorem Racked.mem (hr : rack ∈ racks) (hs : s ∈ rack) : s ∈ servers :=
  h.flatten.subset (mem_flatten.2 ⟨rack, hr, hs⟩)

theorem Racked.exists_rack (hs : s ∈ servers) : ∃ rack ∈ racks, s ∈ rack :=
  mem_flatten.1 (h.flatten.symm.subset hs)

private theorem Racked.nodup_addresses (hnodup : (servers.map Prod.fst).Nodup) : (addresses racks).Nodup := by
  have hf : racks.flatten.Nodup := h.flatten.nodup_iff.2 hnodup.of_map
  have hr : racks.Nodup := by
    refine (nodup_flatten.1 hf).2.imp_of_mem fun {rack rack'} hrc _ hds heq => ?_
    obtain ⟨s, hs⟩ := exists_mem_of_ne_nil rack (h.nonempty rack hrc)
    exact hds hs (heq ▸ hs)
  refine hr.map_on fun rack hrc rack' hr' heq => ?_
  obtain ⟨s, hs⟩ := exists_mem_of_ne_nil rack (h.nonempty rack hrc)
  obtain ⟨s', hs', hsm⟩ : ∃ s' ∈ rack', s'.1 = s.1 := by
    rw [← mem_map, ← heq]
    exact mem_map_of_mem hs
  obtain rfl := eq_of_address hnodup (h.mem hr' hs') (h.mem hrc hs) hsm
  exact h.unique rack hrc rack' hr' _ hs hs'

theorem Racked.mem_of_rackOf (hnames : ∀ s ∈ servers, ¬ ∃ rest, s.2.rackId = "__addr__" ++ rest)
    (hr : rack ∈ racks) (hs : s ∈ rack) (hs' : s' ∈ servers) (hsm : rackOf s' = rackOf s) : s' ∈ rack := by
  refine (h.members rack hr s hs).mem_iff.2 (mem_filter.2 ⟨hs', decide_eq_true ?_⟩)
  exact (rackKey_eq_iff (hnames s' hs') (hnames s (h.mem hr hs))).2 hsm

end

variable {turns : List String → Nat}

theorem Racked.mem_given (h : Racked servers racks) (hnodup : (servers.map Prod.fst).Nodup) (hr : rack ∈ racks)
    (hs : s ∈ rack) : s.1 ∈ given turns (addresses racks) ↔ s ∈ rack.take (turns (rack.map fun s => s.1)) := by
  unfold given addresses
  rw [flatMap_map, mem_flatMap]
  constructor
  · rintro ⟨rack', hr', hmem⟩
    rw [← map_take] at hmem
    obtain ⟨s', hs', hsm⟩ := mem_map.1 hmem
    obtain rfl := eq_of_address hnodup (h.mem hr' (mem_of_mem_take hs')) (h.mem hr hs) hsm
    obtain rfl := h.unique rack hr rack' hr' _ hs (mem_of_mem_take hs')
    exact hs'
  · intro hmem
    refine ⟨rack, hr, ?_⟩
    rw [← map_take]
    exact mem_map_of_mem hmem

private theorem filter_mem_take {α : Type} [DecidableEq α] {l : List α} (hl : l.Nodup) (k : Nat) :
    (l.filter fun a => a ∈ l.take k) = l.take k := by
  have ha : ∀ a ∈ l.drop k, a ∉ l.take k := fun a hdr ht => disjoint_take_drop hl le_rfl ht hdr
  have hs : (l.take k ++ l.drop k).filter (fun a => a ∈ l.take k) = l.take k := by
    rw [filter_append, filter_eq_self.2 (by simp), filter_eq_nil_iff.2 (by simpa using ha), append_nil]
  rwa [take_append_drop] at hs

section

variable (h : Racked servers racks) (hnodup : (servers.map Prod.fst).Nodup)
  (hnames : ∀ s ∈ servers, ¬ ∃ rest, s.2.rackId = "__addr__" ++ rest)
include h hnodup hnames

private theorem Racked.chosen_eq (hsel : selected.Perm (given turns (addresses racks))) (hrc : rack ∈ racks)
    (hs : s ∈ rack) : chosen servers selected (rackOf s) = min (turns (rack.map fun s => s.1)) rack.length := by
  have hr : rack.Nodup := (h.members rack hrc s hs).nodup_iff.2 (hnodup.of_map.filter _)
  have hf : (servers.filter fun s' => rackOf s' = rackOf s ∧ s'.1 ∈ selected) =
      (servers.filter fun s' => rackKey s' = rackKey s).filter fun s' => s'.1 ∈ selected := by
    rw [filter_filter]
    refine filter_congr fun s' hs' => ?_
    rw [← Bool.decide_and, decide_eq_decide, rackKey_eq_iff (hnames s' hs') (hnames s (h.mem hrc hs)), and_comm]
  have ht : (rack.filter fun s' => s'.1 ∈ selected) = rack.take (turns (rack.map fun s => s.1)) := by
    rw [← filter_mem_take hr]
    refine filter_congr fun s' hs' => ?_
    rw [decide_eq_decide, hsel.mem_iff, h.mem_given hnodup hrc hs']
  rw [chosen, hf, ← ((h.members rack hrc s hs).filter _).length_eq, ht, length_take]

private theorem Racked.balanced {k : Nat} (htr : ∀ rack, turns rack = k ∨ turns rack = k + 1)
    (hsel : selected.Perm (given turns (addresses racks))) (r r' : Rack) :
    chosen servers selected r' ≤ chosen servers selected r + 1 ∨ ∀ s ∈ servers, rackOf s = r → s.1 ∈ selected := by
  by_cases hsome : (∃ s ∈ servers, rackOf s = r) ∧ ∃ s ∈ servers, rackOf s = r'
  · obtain ⟨⟨s, hs, rfl⟩, s', hs', rfl⟩ := hsome
    obtain ⟨rack, hr, hin⟩ := h.exists_rack hs
    obtain ⟨rack', hr', hin'⟩ := h.exists_rack hs'
    rw [h.chosen_eq hnodup hnames hsel hr hin, h.chosen_eq hnodup hnames hsel hr' hin']
    rcases Nat.lt_or_ge (turns (rack.map fun s => s.1)) rack.length with hlt | hge
    · left
      have ht := htr (rack.map fun s => s.1)
      have ht' := htr (rack'.map fun s => s.1)
      omega
    · -- all servers of the rack have been taken
      right
      intro s1 hs1 hsm
      have hi := h.mem_of_rackOf hnames hr hin hs1 hsm
      rw [hsel.mem_iff, h.mem_given hnodup hr hi, take_of_length_le hge]
      exact hi
  · rw [not_and_or] at hsome
    rcases hsome with hn | hn
    · exact .inr fun s hs hsm => absurd ⟨s, hs, hsm⟩ hn
    · left
      have hz : chosen servers selected r' = 0 := by
        rw [chosen, length_eq_zero_iff, filter_eq_nil_iff]
        exact fun s hs hsm => hn ⟨s, hs, (of_decide_eq_true hsm).1⟩
      omega

private theorem Racked.best (hsel : selected.Perm (given turns (addresses racks))) (hs : s ∈ servers)
    (hs' : s' ∈ servers) (hsm : rackOf s = rackOf s') (hin : s.1 ∈ selected) (ho : s'.1 ∉ selected) :
    s'.2.availableSpace ≤ s.2.availableSpace := by
  obtain ⟨rack, hr, hrs⟩ := h.exists_rack hs
  have hrs' := h.mem_of_rackOf hnames hr hrs hs' hsm.symm
  rw [hsel.mem_iff, h.mem_given hnodup hr hrs] at hin
  rw [hsel.mem_iff, h.mem_given hnodup hr hrs'] at ho
  have hsr := h.sorted rack hr
  rw [← take_append_drop (turns (rack.map fun s => s.1)) rack, pairwise_append] at hsr
  rw [← take_append_drop (turns (rack.map fun s => s.1)) rack, mem_append] at hrs'
  exact hsr.2.2 s hin s' (hrs'.resolve_left ho)

end

/-- A result of `select_servers_rack_aware`, for some order of the racks. -/
def SelectsRackAware (servers : List (String × ChunkServerStatus)) (n : Nat) (selected : List String) : Prop :=
  ∃ racks, RackOrder servers racks ∧ selected = pickRounds n n [] (addresses racks)

private theorem selectsRackAware_self (servers : List (String × ChunkServerStatus)) (n : Nat) :
    SelectsRackAware servers n (selectServersRackAware servers n) :=
  ⟨racks servers, rackOrder_racks servers, rfl⟩

/-- Whatever the order of the racks, the selection is complete and balanced. -/
theorem rack_aware_placement {n : Nat} {selected : List String} (hnodup : (servers.map Prod.fst).Nodup)
    (hnames : ∀ s ∈ servers, ¬ ∃ rest, s.2.rackId = "__addr__" ++ rest)
    (hselects : SelectsRackAware servers n selected) : Placed servers n selected := by
  obtain ⟨racks, horder, hselected⟩ := hselects
  have h := horder.racked
  obtain ⟨k, turns, hturns, hsel, hle, hend⟩ := pickRounds_turns (h.nodup_addresses hnodup) n
  rw [← hselected] at hsel hle hend
  have hflat : (addresses racks).flatten.Perm (servers.map Prod.fst) := by
    have := h.flatten.map Prod.fst
    rwa [map_flatten] at this
  have hsub := given_sublist turns (addresses racks)
  refine ⟨?_, ?_, ?_, h.balanced hnodup hnames hturns hsel, ?_⟩
  · exact hsel.nodup_iff.2 ((hflat.nodup_iff.2 hnodup).sublist hsub)
  · exact fun address haddress => hflat.subset (hsub.subset (hsel.subset haddress))
  · have hall := hflat.length_eq
    have hsome := hsub.length_le
    rw [← hsel.length_eq] at hsome
    rw [length_map] at hall
    rcases hend with hfull | hasked
    · omega
    · -- every rack has given all it has
      have hgiven : given turns (addresses racks) = (addresses racks).flatten := by
        rw [given, ← flatMap_id]
        refine flatMap_congr fun rack hrack => take_of_length_le ?_
        have hlen := hasked rack hrack
        have ht := hturns rack
        omega
      have hsize := hsel.length_eq
      rw [hgiven] at hsize
      omega
  · exact fun s hs s' hs' hsame hin hout => h.best hnodup hnames hsel hs hs' hsame hin hout

end Selection

def fourServers : List (String × ChunkServerStatus) :=
  [("a", ⟨0, 0, 50, 0, "r1"⟩), ("b", ⟨0, 0, 40, 0, "r1"⟩), ("c", ⟨0, 0, 30, 0, "r2"⟩), ("d", ⟨0, 0, 20, 0, ""⟩)]

theorem rack_aware_placement_four :
    fourServers.length = 4 ∧ Placed fourServers 3 (selectServersRackAware fourServers 3) := by
  refine ⟨rfl, rack_aware_placement (by decide) ?_ (selectsRackAware_self fourServers 3)⟩
  rintro s hs ⟨rest, hrest⟩
  have hlist := congrArg String.toList hrest
  rw [String.toList_append] at hlist
  simp only [fourServers, mem_cons, not_mem_nil, or_false] at hs
  rcases hs with rfl | rfl | rfl | rfl <;> simp at hlist

end RustHadoop
