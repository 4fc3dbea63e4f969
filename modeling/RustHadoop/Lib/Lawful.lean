import Mathlib.Algebra.Order.Group.Nat
import Mathlib.Data.List.Induction

/-!
# Lists in which every element is allowed by what comes before it

`Lawful ok l`: each element `x` of `l` satisfies `ok p x`, where `p` is the part of `l` before it.  Such a property
is closed under prefixes, so it speaks about a record that may be cut off at any point.
-/

namespace RustHadoop

open List

variable {α : Type*} {ok : List α → α → Prop} {l l' : List α} {x : α}

theorem getElem?_mono {k : Nat} (h : l <+: l') (hx : l[k]? = some x) : l'[k]? = some x := by
  obtain ⟨r, rfl⟩ := h
  rwa [List.getElem?_append_left (List.getElem?_eq_some_iff.1 hx).1]

def Lawful (ok : List α → α → Prop) (l : List α) : Prop := ∀ k x, l[k]? = some x → ok (l.take k) x

namespace Lawful

@[simp] theorem nil : Lawful ok [] := by simp [Lawful]

section

variable (h : Lawful ok l)
include h

theorem of_prefix (hp : l' <+: l) : Lawful ok l' := by
  obtain ⟨r, rfl⟩ := hp
  intro k x hx
  have hk : k < l'.length := (List.getElem?_eq_some_iff.1 hx).1
  have := h k x (getElem?_mono (prefix_append l' r) hx)
  rwa [take_append_of_le_length hk.le] at this

theorem concat (hx : ok l x) : Lawful ok (l ++ [x]) := by
  intro k y hy
  rcases lt_trichotomy k l.length with hk | rfl | hk
  · rw [getElem?_append_left hk] at hy
    rw [take_append_of_le_length hk.le]
    exact h k y hy
  · simp only [getElem?_concat_length, Option.some.injEq] at hy
    subst hy
    simpa using hx
  · rw [getElem?_eq_none (by simp; omega)] at hy
    cases hy

theorem append (hl : ∀ x ∈ l', ∀ p, l <+: p → ok p x) : Lawful ok (l ++ l') := by
  induction l' generalizing l with
  | nil => simpa using h
  | cons x l' ih =>
    rw [append_cons]
    refine ih (h.concat (hl x (mem_cons_self ..) l (prefix_refl l))) fun y hy p hp => ?_
    exact hl y (mem_cons_of_mem _ hy) p ((prefix_append l [x]).trans hp)

theorem of_mem (hx : x ∈ l) : ∃ p, p <+: l ∧ ok p x := by
  obtain ⟨k, hk⟩ := getElem?_of_mem hx
  exact ⟨l.take k, take_prefix k l, h k x hk⟩

theorem index_unique {P : α → Prop} (hP : ∀ p x, P x → ok p x → ∀ y ∈ p, ¬ P y) {k m : Nat} {y : α}
    (hk : l[k]? = some x) (hm : l[m]? = some y) (hx : P x) (hy : P y) : k = m := by
  have hlt : ∀ {k m : Nat} {x y : α}, l[k]? = some x → l[m]? = some y → P x → P y → ¬ k < m := by
    intro k m x y hk hm hx hy hlt
    refine hP _ y hy (h m y hm) x ?_ hx
    exact mem_of_getElem? (by rw [getElem?_take_of_lt hlt]; exact hk)
  exact Nat.le_antisymm (Nat.le_of_not_lt (hlt hm hk hy hx)) (Nat.le_of_not_lt (hlt hk hm hx hy))

theorem induction {P : List α → Prop} (nil : P [])
    (concat : ∀ l x, Lawful ok l → P l → ok l x → P (l ++ [x])) : P l := by
  induction l using reverseRecOn with
  | nil => exact nil
  | append_singleton l x ih =>
    have hl : Lawful ok l := h.of_prefix (prefix_append l [x])
    have hx : ok l x := by simpa using h l.length x (by simp)
    exact concat l x hl (ih hl) hx

end

end Lawful

end RustHadoop
