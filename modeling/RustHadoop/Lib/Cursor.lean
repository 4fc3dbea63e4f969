import Mathlib.Data.List.Infix
import Mathlib.Data.List.Lex
import Mathlib.Data.List.Pairwise
import Mathlib.Order.Lattice

/-!
# Reading a sorted list piece by piece

A reader of a sorted list that remembers the last element it has seen goes on with those behind it.  If the list is
sorted strictly, these are the elements it has not seen (`behind_append`).

Lists with a common beginning lie next to each other in the lexicographic order (`prefix_of_between`).
-/

namespace Cursor

open List

variable {α : Type*} [LinearOrder α]

def behind (x : α) (l : List α) : List α := l.dropWhile fun y => ¬ x < y

theorem behind_append {a b : List α} {x : α} (h : (a ++ b).Pairwise (· < ·)) (hx : a.getLast? = some x) :
    behind x (a ++ b) = b := by
  obtain ⟨a, rfl⟩ := getLast?_eq_some_iff.1 hx
  obtain ⟨ha, -, hab⟩ := pairwise_append.1 h
  have hle : ∀ y ∈ a ++ [x], decide (¬ x < y) = true := by
    intro y hy
    rcases mem_append.1 hy with hy | hy
    · have hlt := (pairwise_append.1 ha).2.2 y hy x mem_cons_self
      simpa using hlt.le
    · simp [mem_singleton.1 hy]
  rw [behind, dropWhile_append_of_pos hle]
  cases b with
  | nil => rfl
  | cons y b =>
    have hlt := hab x (mem_append_right _ mem_cons_self) y mem_cons_self
    exact dropWhile_cons_of_neg (by simpa using hlt)

theorem lt_of_mem_behind {x y : α} {l : List α} (h : l.Pairwise (· < ·)) (hy : y ∈ behind x l) : x < y := by
  induction l with
  | nil => exact absurd hy not_mem_nil
  | cons z l ih =>
    obtain ⟨hz, hl⟩ := pairwise_cons.1 h
    by_cases hx : x < z
    · rw [behind, dropWhile_cons_of_neg (by simpa using hx)] at hy
      rcases mem_cons.1 hy with rfl | hy
      · exact hx
      · exact hx.trans (hz y hy)
    · rw [behind, dropWhile_cons_of_pos (by simpa using hx)] at hy
      exact ih hl hy

theorem prefix_of_between {p a b c : List α} (hab : a < b) (hbc : b < c) (ha : p <+: a) (hc : p <+: c) :
    p <+: b := by
  induction p generalizing a b c with
  | nil => exact nil_prefix
  | cons x p ih =>
    obtain ⟨a, rfl⟩ := ha
    obtain ⟨c, rfl⟩ := hc
    cases b with
    | nil => exact absurd hab (not_lt_nil _)
    | cons y b =>
      rw [cons_append, cons_lt_cons_iff] at hab hbc
      have hxy : x = y := by
        rcases hab with hlt | ⟨heq, -⟩
        · rcases hbc with hlt' | ⟨heq, -⟩
          · exact absurd (hlt.trans hlt') (lt_irrefl x)
          · exact heq.symm
        · exact heq
      subst hxy
      have hab := (hab.resolve_left (lt_irrefl x)).2
      have hbc := (hbc.resolve_left (lt_irrefl x)).2
      exact cons_prefix_cons.2 ⟨rfl, ih hab hbc (prefix_append _ _) (prefix_append _ _)⟩

end Cursor
