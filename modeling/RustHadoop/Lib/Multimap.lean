import Mathlib.Data.List.AList
import Mathlib.Data.List.Perm.Basic

/-!
# Maps of lists

A list is spread over a map by appending each element to the list of its key, which is there from the first element
with that key on (`entry(key).or_default().push(value)`).  The lists that are there before only get longer, by the
values of their key in the order of the list.
-/

namespace Multimap

open List

variable {κ α β : Type} [DecidableEq κ] {key : α → κ} {value : α → β}

def push (key : α → κ) (value : α → β) (m : AList fun _ : κ => List β) (a : α) : AList fun _ : κ => List β :=
  m.insert (key a) ((m.lookup (key a)).getD [] ++ [value a])

theorem getD_lookup_push (m : AList fun _ : κ => List β) (a : α) (k : κ) :
    ((push key value m a).lookup k).getD [] = (m.lookup k).getD [] ++ if key a = k then [value a] else [] := by
  unfold push
  by_cases hk : key a = k
  · subst hk
    simp
  · rw [AList.lookup_insert_ne (Ne.symm hk), if_neg hk, append_nil]

section

variable (l : List α) (m : AList fun _ : κ => List β) (k : κ)
include l m k

theorem getD_lookup_foldl_push : ((l.foldl (push key value) m).lookup k).getD [] =
      (m.lookup k).getD [] ++ (l.filter fun a => key a = k).map value := by
  induction l generalizing m with
  | nil => simp
  | cons a l ih =>
    rw [foldl_cons, ih, getD_lookup_push, append_assoc]
    congr 1
    by_cases hk : key a = k
    · simp [hk]
    · simp [hk]

theorem mem_foldl_push : k ∈ l.foldl (push key value) m ↔ k ∈ m ∨ ∃ a ∈ l, key a = k := by
  induction l generalizing m with
  | nil => simp
  | cons a l ih =>
    rw [foldl_cons, ih, push, AList.mem_insert, exists_mem_cons_iff]
    constructor
    · rintro ((rfl | hm) | hl)
      · exact .inr (.inl rfl)
      · exact .inl hm
      · exact .inr (.inr hl)
    · rintro (hm | rfl | hl)
      · exact .inl (.inr hm)
      · exact .inl (.inl rfl)
      · exact .inr hl

end

theorem values_foldl_push (l : List α) : ((l.foldl (push key id) ∅).entries.map fun e => e.2) =
      (l.foldl (push key id) ∅).keys.map fun k => l.filter fun a => key a = k := by
  rw [AList.keys, keys, map_map]
  refine map_congr_left fun e he => ?_
  have hl : (l.foldl (push key id) ∅).lookup e.1 = some e.2 := AList.mem_lookup_iff.2 he
  have hv : ((l.foldl (push key id) ∅).lookup e.1).getD [] = _ := getD_lookup_foldl_push l ∅ e.1
  rw [hl] at hv
  simpa using hv

theorem flatMap_filter_perm {keys : List κ} (hn : keys.Nodup) {l : List α} (hky : ∀ a ∈ l, key a ∈ keys) :
    (keys.flatMap fun k => l.filter fun a => key a = k).Perm l := by
  induction l with
  | nil => simp
  | cons a l ih =>
    obtain ⟨before, after, rfl⟩ := append_of_mem (hky a mem_cons_self)
    have hr := ih fun b hb => hky b (mem_cons_of_mem _ hb)
    obtain ⟨hbf, ha⟩ : key a ∉ before ∧ key a ∉ after := by
      rw [nodup_append, nodup_cons] at hn
      exact ⟨fun h => hn.2.2 _ h _ mem_cons_self rfl, hn.2.1.1⟩
    have hs : ∀ ks : List κ, key a ∉ ks →
        (ks.flatMap fun k => (a :: l).filter fun b => key b = k) = ks.flatMap fun k => l.filter fun b =>
          key b = k := by
      intro ks hks
      refine flatMap_congr fun k hk => ?_
      rw [filter_cons_of_neg]
      simpa using fun heq : key a = k => hks (heq ▸ hk)
    rw [flatMap_append, flatMap_cons, hs before hbf, hs after ha, filter_cons_of_pos (by simp)]
    rw [flatMap_append, flatMap_cons] at hr
    exact perm_middle.trans (hr.cons a)

end Multimap
