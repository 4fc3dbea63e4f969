import Mathlib.Algebra.Group.Nat.Defs
import Mathlib.Data.List.Chain
import Mathlib.Data.List.Perm.Basic
import Mathlib.Order.Lattice

/-!
# Stores that keep their entries in the order of their keys

A map is the list of its entries, ascending by key.  What is put above all other keys goes to the end; deleting a
range from below takes away the first entries.

Keys made of bytes are compared byte by byte, and numbers written with the most significant byte first are compared
like numbers.  A chain in which an element names the one before it has only one order.
-/

namespace Ordered

open List

variable {κ α β : Type}

def Ascending [LinearOrder κ] (l : List (κ × α)) : Prop := l.Pairwise fun a b => a.1 < b.1

instance [LinearOrder κ] (l : List (κ × α)) : Decidable (Ascending l) := inferInstanceAs (Decidable (Pairwise _ _))

structure OrderedMap (κ α : Type) [LinearOrder κ] where
  entries : List (κ × α)
  ascending : Ascending entries

variable {l : List (κ × α)} {e : κ × α}

section
variable [LinearOrder κ]

def insertEntry (e : κ × α) : List (κ × α) → List (κ × α)
  | [] => [e]
  | d :: rest => if e.1 < d.1 then e :: d :: rest else if e.1 = d.1 then e :: rest else d :: insertEntry e rest

theorem eq_or_mem_of_mem_insertEntry {d : κ × α} (h : d ∈ insertEntry e l) : d = e ∨ d ∈ l := by
  induction l with
  | nil => exact .inl (mem_singleton.1 h)
  | cons a rest ih =>
    rw [insertEntry] at h
    split_ifs at h
    · exact mem_cons.1 h
    · exact (mem_cons.1 h).imp_right (mem_cons_of_mem _)
    · rcases mem_cons.1 h with rfl | h
      · exact .inr mem_cons_self
      · exact (ih h).imp_right (mem_cons_of_mem _)

theorem ascending_insertEntry (e : κ × α) (h : Ascending l) : Ascending (insertEntry e l) := by
  induction l with
  | nil => exact pairwise_singleton _ _
  | cons a rest ih =>
    obtain ⟨ha, hr⟩ := pairwise_cons.1 h
    rw [insertEntry]
    split_ifs with hlt heq
    · refine pairwise_cons.2 ⟨fun d hd => ?_, h⟩
      rcases mem_cons.1 hd with rfl | hd
      · exact hlt
      · exact hlt.trans (ha d hd)
    · exact pairwise_cons.2 ⟨fun d hd => heq ▸ ha d hd, hr⟩
    · refine pairwise_cons.2 ⟨fun d hd => ?_, ih hr⟩
      rcases eq_or_mem_of_mem_insertEntry hd with rfl | hd
      · exact lt_of_le_of_ne (not_lt.1 hlt) (Ne.symm heq)
      · exact ha d hd

theorem insertEntry_of_above (h : ∀ d ∈ l, d.1 < e.1) : insertEntry e l = l ++ [e] := by
  induction l with
  | nil => rfl
  | cons a rest ih =>
    have ha := h a mem_cons_self
    rw [insertEntry, if_neg ha.not_gt, if_neg ha.ne', ih fun d hd => h d (mem_cons_of_mem _ hd)]
    rfl

theorem perm_insertEntry (h : ∀ d ∈ l, d.1 ≠ e.1) : (insertEntry e l).Perm (e :: l) := by
  induction l with
  | nil => exact Perm.refl _
  | cons a rest ih =>
    rw [insertEntry]
    split_ifs with hlt heq
    · exact Perm.refl _
    · exact absurd heq.symm (h a mem_cons_self)
    · exact ((ih fun d hd => h d (mem_cons_of_mem _ hd)).cons a).trans (Perm.swap e a rest)

namespace OrderedMap

theorem ascending_nil : Ascending ([] : List (κ × α)) := Pairwise.nil

def empty : OrderedMap κ α := ⟨[], ascending_nil⟩

variable (m : OrderedMap κ α)

def put (e : κ × α) : OrderedMap κ α := ⟨insertEntry e m.entries, ascending_insertEntry e m.ascending⟩

def putAll (l : List (κ × α)) : OrderedMap κ α := l.foldl put m

def deleteRange (low high : κ) : OrderedMap κ α :=
  ⟨m.entries.filter fun e => ¬ (low ≤ e.1 ∧ e.1 < high), m.ascending.filter _⟩

def deleteAll (keys : List κ) : OrderedMap κ α :=
  ⟨m.entries.filter fun e => e.1 ∉ keys, m.ascending.filter _⟩

variable {m : OrderedMap κ α}

theorem entries_putAll_of_ascending (h : Ascending (m.entries ++ l)) : (m.putAll l).entries = m.entries ++ l := by
  induction l generalizing m with
  | nil => exact (append_nil _).symm
  | cons e rest ih =>
    have ha : ∀ d ∈ m.entries, d.1 < e.1 := fun d hd => (pairwise_append.1 h).2.2 d hd e mem_cons_self
    have hp : (m.put e).entries = m.entries ++ [e] := insertEntry_of_above ha
    rw [putAll, foldl_cons, ← putAll, ih, hp, append_assoc, singleton_append]
    rwa [hp, append_assoc, singleton_append]

theorem perm_putAll (h : ((m.entries ++ l).map Prod.fst).Nodup) : (m.putAll l).entries.Perm (m.entries ++ l) := by
  induction l generalizing m with
  | nil => rw [append_nil]; exact Perm.refl _
  | cons e rest ih =>
    have hn : ∀ d ∈ m.entries, d.1 ≠ e.1 := by
      intro d hd heq
      rw [map_append, map_cons] at h
      exact (nodup_append.1 h).2.2 d.1 (mem_map_of_mem hd) e.1 mem_cons_self heq
    have hput : (m.put e).entries.Perm (e :: m.entries) := perm_insertEntry hn
    have hp : ((m.put e).entries ++ rest).Perm (m.entries ++ e :: rest) :=
      (hput.append_right rest).trans perm_middle.symm
    rw [putAll, foldl_cons, ← putAll]
    exact (ih ((hp.map _).nodup_iff.2 h)).trans hp

theorem perm_putAll_map {f : β → κ × α} {old new : List β} (hm : m.entries.Perm (old.map f))
    (hk : ((old ++ new).map fun b => (f b).1).Nodup) :
    (m.putAll (new.map f)).entries.Perm ((old ++ new).map f) := by
  have hp : (m.entries ++ new.map f).Perm ((old ++ new).map f) := map_append (f := f) ▸ hm.append_right _
  refine (perm_putAll ((hp.map _).nodup_iff.2 ?_)).trans hp
  rwa [map_map]

theorem mem_or_mem_of_mem_putAll (h : e ∈ (m.putAll l).entries) : e ∈ m.entries ∨ e ∈ l := by
  induction l generalizing m with
  | nil => exact .inl h
  | cons d rest ih =>
    rcases ih h with h | h
    · rcases eq_or_mem_of_mem_insertEntry h with rfl | h
      · exact .inr mem_cons_self
      · exact .inl h
    · exact .inr (mem_cons_of_mem _ h)

theorem entries_eq_append_deleteRange {low : κ} (h : ∀ e ∈ m.entries, low ≤ e.1) (high : κ) :
    ∃ gone, m.entries = gone ++ (m.deleteRange low high).entries := by
  have hf : ∀ {l : List (κ × α)}, Ascending l → (∀ e ∈ l, low ≤ e.1) →
      ∃ gone, l = gone ++ l.filter fun e => ¬ (low ≤ e.1 ∧ e.1 < high) := by
    intro l hl hlow
    induction l with
    | nil => exact ⟨[], rfl⟩
    | cons e rest ih =>
      obtain ⟨he, hr⟩ := pairwise_cons.1 hl
      by_cases hb : e.1 < high
      · obtain ⟨gone, hg⟩ := ih hr fun d hd => hlow d (mem_cons_of_mem _ hd)
        refine ⟨e :: gone, ?_⟩
        rw [filter_cons_of_neg (by simpa using ⟨hlow e mem_cons_self, hb⟩), cons_append, ← hg]
      · -- from here on every key is at least `high`
        have hk : ∀ d ∈ e :: rest, decide (¬ (low ≤ d.1 ∧ d.1 < high)) = true := by
          intro d hd
          refine decide_eq_true fun hd' => hb ?_
          rcases mem_cons.1 hd with rfl | hd
          · exact hd'.2
          · exact (he d hd).trans hd'.2
        exact ⟨[], (filter_eq_self.2 hk).symm⟩
  exact hf m.ascending h

end OrderedMap

end

structure ByteKey where
  bytes : List UInt8
deriving DecidableEq

def ByteKey.numbers (k : ByteKey) : List Nat := k.bytes.map UInt8.toNat

theorem ByteKey.numbers_injective : Function.Injective ByteKey.numbers := by
  rintro ⟨b⟩ ⟨b'⟩ h
  exact congrArg _ (map_injective_iff.2 (fun _ _ => UInt8.toNat_inj.1) h)

instance : LinearOrder ByteKey := LinearOrder.lift' ByteKey.numbers ByteKey.numbers_injective

theorem ByteKey.lt_iff {k k' : ByteKey} : k < k' ↔ k.numbers < k'.numbers := Iff.rfl

/-- The lowest bytes of a number, the most significant one first. -/
def beBytes : Nat → Nat → List UInt8
  | 0, _ => []
  | width + 1, n => UInt8.ofNat (n / 256 ^ width) :: beBytes width n

theorem length_beBytes (width n : Nat) : (beBytes width n).length = width := by
  induction width with
  | zero => rfl
  | succ width ih => rw [beBytes, length_cons, ih]

private theorem digits_lt_iff {p a b x y : Nat} (hx : x < p) (hy : y < p) :
    p * a + x < p * b + y ↔ a < b ∨ a = b ∧ x < y := by
  rcases Nat.lt_trichotomy a b with h | rfl | h
  · have := Nat.mul_le_mul_left p (show a + 1 ≤ b from h)
    rw [Nat.mul_add, Nat.mul_one] at this
    omega
  · omega
  · have := Nat.mul_le_mul_left p (show b + 1 ≤ a from h)
    rw [Nat.mul_add, Nat.mul_one] at this
    omega

private theorem digits_inj {p a b x y : Nat} (hx : x < p) (hy : y < p) (h : p * a + x = p * b + y) :
    a = b ∧ x = y := by
  have hlt := digits_lt_iff (a := a) (b := b) hx hy
  have hgt := digits_lt_iff (a := b) (b := a) hy hx
  omega

theorem beBytes_append_lt_iff (width n m : Nat) (t t' : List Nat) :
    (beBytes width n).map UInt8.toNat ++ t < (beBytes width m).map UInt8.toNat ++ t' ↔
      n % 256 ^ width < m % 256 ^ width ∨ n % 256 ^ width = m % 256 ^ width ∧ t < t' := by
  induction width with
  | zero => simp [beBytes, Nat.mod_one]
  | succ width ih =>
    have hn := Nat.mod_lt n (Nat.pow_pos (n := width) (show 0 < 256 by decide))
    have hm := Nat.mod_lt m (Nat.pow_pos (n := width) (show 0 < 256 by decide))
    rw [beBytes, beBytes, map_cons, map_cons, cons_append, cons_append, cons_lt_cons_iff, ih,
      Nat.pow_succ, Nat.mod_mul, Nat.mod_mul, Nat.add_comm (n % _), Nat.add_comm (m % _), digits_lt_iff hn hm]
    simp only [UInt8.toNat_ofNat']
    constructor
    · rintro (h | ⟨heq, h | ⟨hl, ht⟩⟩)
      · exact .inl (.inl h)
      · exact .inl (.inr ⟨heq, h⟩)
      · exact .inr ⟨by rw [show n / 256 ^ width % 256 = m / 256 ^ width % 256 from heq, hl], ht⟩
    · rintro ((h | h) | ⟨heq, ht⟩)
      · exact .inl h
      · exact .inr ⟨h.1, .inl h.2⟩
      · obtain ⟨hh, hl⟩ := digits_inj hn hm heq
        exact .inr ⟨hh, .inr ⟨hl, ht⟩⟩

variable {R : α → α → Prop}

theorem exists_before_of_mem {a b : α} {l : List α} (h : (b :: l).IsChain R) (ha : a ∈ l) :
    ∃ c ∈ b :: l, R c a := by
  induction l generalizing b with
  | nil => cases ha
  | cons d l ih =>
    obtain ⟨hd, hl⟩ := isChain_cons_cons.1 h
    rcases mem_cons.1 ha with rfl | ha
    · exact ⟨b, mem_cons_self, hd⟩
    · obtain ⟨c, hc, hca⟩ := ih hl ha
      exact ⟨c, mem_cons_of_mem _ hc, hca⟩

/-- A chain whose links go back to one element only, and whose first element goes back to none, has only one
order. -/
theorem eq_of_perm_of_isChain {l l' : List α} (hp : l'.Perm l) (hn : l.Nodup)
    (hu : ∀ a ∈ l, ∀ b ∈ l, ∀ c ∈ l, R a c → R b c → a = b) (hf : ∀ a ∈ l.head?, ∀ b ∈ l, ¬ R b a)
    (hl : l.IsChain R) (hl' : l'.IsChain R) : l' = l := by
  induction l generalizing l' with
  | nil => exact perm_nil.1 hp
  | cons a l ih =>
    rcases l' with _ | ⟨b, l'⟩
    · cases hp.symm.length_eq
    · -- the first element has none before it, so it comes first in the other order as well
      have hab : a = b := by
        by_contra hne
        have ha : a ∈ l' := (mem_cons.1 (hp.mem_iff.2 mem_cons_self)).resolve_left hne
        obtain ⟨c, hc, hca⟩ := exists_before_of_mem hl' ha
        exact hf a rfl c (hp.mem_iff.1 hc) hca
      subst hab
      obtain ⟨hnt, hn⟩ := nodup_cons.1 hn
      congr 1
      refine ih hp.cons_inv hn ?_ ?_ hl.tail hl'.tail
      · exact fun c hc d hd e he =>
          hu c (mem_cons_of_mem _ hc) d (mem_cons_of_mem _ hd) e (mem_cons_of_mem _ he)
      · intro c hc d hd hdc
        rcases l with _ | ⟨e, l⟩
        · cases hc
        · cases hc
          have hac := (isChain_cons_cons.1 hl).1
          have had := hu a mem_cons_self d (mem_cons_of_mem _ hd) c (by simp) hac hdc
          exact hnt (had ▸ hd)

theorem exists_perm_of_perm_map {f : α → β} {l : List β} {l' : List α} (h : l.Perm (l'.map f)) :
    ∃ l'' : List α, l''.Perm l' ∧ l = l''.map f := by
  have hi : Forall₂ (fun b a => b = f a) (l'.map f) l' := forall₂_map_left_iff.2 (forall₂_same.2 fun _ _ => rfl)
  obtain ⟨l'', hl'', hp⟩ := perm_comp_forall₂ h hi
  refine ⟨l'', hp, ?_⟩
  rw [← forall₂_eq_eq_eq]
  exact forall₂_map_right_iff.2 hl''

end Ordered
