import Mathlib.Data.List.Nodup

/-!
# Functions given by a table

A hash function is known at some inputs, and all that matters elsewhere is that it has no collisions: the table
gives the values, and outside of it a value carries its input behind a mark that no value of the table has.
-/

namespace Tables

open List

variable {α β : Type}

def lookupOr [BEq α] (entries : List (α × β)) (otherwise : α → β) (a : α) : β :=
  (entries.lookup a).getD (otherwise a)

/-- The input that has the value, from the table or else by `back`. -/
def lookupBack [BEq β] (entries : List (α × β)) (back : β → Option α) (b : β) : Option α :=
  ((entries.find? fun e => e.2 == b).map Prod.fst).or (back b)

theorem mem_of_lookup [BEq α] [LawfulBEq α] {l : List (α × β)} {a : α} {b : β} (h : l.lookup a = some b) :
    (a, b) ∈ l := by
  induction l with
  | nil => cases h
  | cons e l ih =>
    rw [lookup_cons] at h
    split at h
    · rename_i heq
      cases h
      rw [eq_of_beq heq]
      exact mem_cons_self
    · exact mem_cons_of_mem _ (ih h)

variable {entries : List (α × β)} {otherwise : α → β}

theorem lookupBack_lookupOr [BEq α] [LawfulBEq α] [BEq β] [LawfulBEq β]
    {back : β → Option α} (hv : (entries.map Prod.snd).Nodup) (hb : ∀ a, back (otherwise a) = some a)
    (hap : ∀ a, otherwise a ∉ entries.map Prod.snd) (a : α) :
    lookupBack entries back (lookupOr entries otherwise a) = some a := by
  unfold lookupOr lookupBack
  rcases ha : entries.lookup a with _ | b
  · have hn : entries.find? (fun e => e.2 == otherwise a) = none := by
      refine find?_eq_none.2 fun e he heq => hap a ?_
      rw [← eq_of_beq heq]
      exact mem_map_of_mem he
    rw [Option.getD_none, hn, hb]
    rfl
  · obtain ⟨e, he⟩ : ∃ e, entries.find? (fun e => e.2 == b) = some e := by
      rw [← Option.isSome_iff_exists, find?_isSome]
      exact ⟨(a, b), mem_of_lookup ha, beq_self_eq_true b⟩
    have hvl : (e.2 == b) = true := by simpa using find?_some he
    have hs : e = (a, b) :=
      inj_on_of_nodup_map hv (mem_of_find?_eq_some he) (mem_of_lookup ha) (eq_of_beq hvl)
    rw [Option.getD_some, he, hs]
    rfl

theorem lookupOr_injective [BEq α] [LawfulBEq α]
    (hv : (entries.map Prod.snd).Nodup) (hinj : Function.Injective otherwise)
    (hap : ∀ a, otherwise a ∉ entries.map Prod.snd) : Function.Injective (lookupOr entries otherwise) := by
  intro a a' h
  unfold lookupOr at h
  rcases ha : entries.lookup a with _ | b <;> rcases ha' : entries.lookup a' with _ | b'
  · rw [ha, ha'] at h
    exact hinj h
  · rw [ha, ha'] at h
    exact absurd (mem_map_of_mem (mem_of_lookup ha')) ((show otherwise a = b' from h) ▸ hap a)
  · rw [ha, ha'] at h
    exact absurd (mem_map_of_mem (mem_of_lookup ha)) ((show b = otherwise a' from h) ▸ hap a')
  · rw [ha, ha'] at h
    -- the same value stands at one place of the table only
    have hb : b = b' := h
    subst hb
    have := inj_on_of_nodup_map hv (mem_of_lookup ha) (mem_of_lookup ha') rfl
    exact congrArg Prod.fst this

def marked (mark : α) (n : Nat) (l : List α) : List α := replicate n mark ++ l

theorem marked_injective (mark : α) (n : Nat) : Function.Injective (marked mark n) :=
  append_right_injective _

theorem length_marked (mark : α) (n : Nat) (l : List α) : (marked mark n l).length = n + l.length := by
  simp [marked]

/-- Two inputs as one, the length of the first in front. -/
def paired (zero one : α) (l l' : List α) : List α := replicate l.length one ++ zero :: (l ++ l')

theorem paired_injective {zero one : α} (h : zero ≠ one) {k k' l l' : List α}
    (heq : paired zero one k l = paired zero one k' l') : k = k' ∧ l = l' := by
  have hs : ∀ {m n : Nat} {u v : List α},
      replicate m one ++ zero :: u = replicate n one ++ zero :: v → m = n ∧ u = v := by
    intro m n u v huv
    induction m generalizing n with
    | zero =>
      cases n with
      | zero => exact ⟨rfl, (cons.inj huv).2⟩
      | succ n => exact absurd (cons.inj huv).1 h
    | succ m ih =>
      cases n with
      | zero => exact absurd (cons.inj huv).1.symm h
      | succ n =>
        obtain ⟨hmn, huv⟩ := ih (cons.inj huv).2
        exact ⟨by omega, huv⟩
  obtain ⟨hlen, ha⟩ := hs heq
  exact append_inj ha hlen

end Tables
