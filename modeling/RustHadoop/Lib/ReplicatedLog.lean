import Mathlib.Data.Finset.Basic

/-!
# Histories of a replicated log

A leader-based replicated log, seen through what can never be taken back: who voted for whom in which term, the log
a candidate stood with, the log of the leader of each term, and how much of that leader's log each replica has
acknowledged.  A `History` holds these next to the current term and log of every replica; `Step` lists what a
replica may do.  The logs are whole logs: compaction is not visible here.

`Inv` is the invariant of every history.  Its core is `Conforms`: a log agrees, up to each of its entries, with the
log of the leader of the entry's term.  Log matching is immediate from it, and the three clauses `held`, `voted`
and `elected` carry the election restriction to `leader_completeness`: what a quorum acknowledged in a term is in
the log of every later leader.

Replicas are of type `N`, entries of type `E` with `tm` the term of an entry, and `Q` says which sets are quorums.
-/

namespace ReplicatedLog

open List

variable {k : Nat} {N E : Type*}

/-- What a run of the protocol has fixed so far, with the current term and log of each replica. -/
structure History (N E : Type*) where
  term : N → Nat
  log : N → List E
  /-- the candidate a replica voted for in a term -/
  vote : N → Nat → Option N
  /-- the log with which a candidate stood for a term -/
  ballot : N → Nat → Option (List E)
  lead : Nat → Option N
  /-- the log of the leader of a term when it was elected -/
  base : Nat → List E
  leaderLog : Nat → List E
  /-- the length of the leader's log of a term that a replica has acknowledged -/
  ack : N → Nat → Nat

variable (tm : E → Nat)

/-- The term of the entry at position `k` (from 1), `0` before the first entry. -/
def termAt (L : List E) (k : Nat) : Nat :=
  if k = 0 then 0 else ((L[k - 1]?).map tm).getD 0

/-- The log `b` is at least as up to date as `L`. -/
def UpToDate (b L : List E) : Prop :=
  termAt tm L L.length < termAt tm b b.length ∨ (termAt tm b b.length = termAt tm L L.length ∧ L.length ≤ b.length)

open Classical in
/-- Replace `L` by `p` unless `L` already starts with `p`. -/
noncomputable def overwrite (p L : List E) : List E := if p <+: L then L else p

/-- `L` agrees up to each of its entries with the log of the leader of the entry's term. -/
def Conforms (h : History N E) (L : List E) : Prop :=
  ∀ k e, L[k]? = some e → L.take (k + 1) <+: h.leaderLog (tm e)

/-- Position `k` of the log of the leader of term `T` holds an entry of that term. -/
def OwnEntry (h : History N E) (T k : Nat) : Prop :=
  0 < k ∧ ∃ e, (h.leaderLog T)[k - 1]? = some e ∧ tm e = T

/-- Every leader of a term strictly between `T` and `b` was elected with the first `k` entries of leader `T`. -/
def AllCarry (h : History N E) (T k b : Nat) : Prop :=
  ∀ t, T < t → t < b → h.lead t ≠ none → (h.base t).take k = (h.leaderLog T).take k

/-- A quorum acknowledged the first `k` entries of the leader of term `T`, the last of which is of that term. -/
def Committed (Q : Finset N → Prop) (h : History N E) (T k : Nat) : Prop :=
  OwnEntry tm h T k ∧ ∃ A, Q A ∧ ∀ v ∈ A, k ≤ h.ack v T

@[simp] theorem termAt_zero (L : List E) : termAt tm L 0 = 0 := by simp [termAt]

variable {L : List E} {e : E}

theorem termAt_succ (h : L[k]? = some e) : termAt tm L (k + 1) = tm e := by
  simp [termAt, h]

theorem termAt_append_left (M : List E) (hk : k ≤ L.length) : termAt tm (L ++ M) k = termAt tm L k := by
  unfold termAt
  split
  · rfl
  · rw [getElem?_append_left (by omega)]

theorem termAt_take {m : Nat} (hk : k ≤ m) : termAt tm (L.take m) k = termAt tm L k := by
  unfold termAt
  split
  · rfl
  · rw [getElem?_take_of_lt (by omega)]

variable {M : List E}

theorem termAt_of_prefix_of_le (h : L <+: M) (hk : k ≤ L.length) : termAt tm M k = termAt tm L k := by
  obtain ⟨R, rfl⟩ := h
  exact termAt_append_left tm R hk

theorem take_of_prefix_of_le (h : L <+: M) (hk : k ≤ L.length) : M.take k = L.take k := by
  obtain ⟨R, rfl⟩ := h
  rw [take_append_of_le_length hk]

section

variable {L M : List E} (h : L.take k = M.take k) {j : Nat}
include h

theorem take_eq_of_le (hj : j ≤ k) : L.take j = M.take j := by
  have := congrArg (take j) h
  rwa [take_take, take_take, Nat.min_eq_left hj] at this

theorem getElem?_eq_of_take_eq (hj : j < k) : L[j]? = M[j]? := by
  rw [← getElem?_take_of_lt hj, h, getElem?_take_of_lt hj]

end

theorem prefix_overwrite (p L : List E) : p <+: overwrite p L := by
  unfold overwrite
  split
  · assumption
  · exact prefix_rfl

theorem take_overwrite {p : List E} (h : p.take k <+: L) : (overwrite p L).take k = L.take k := by
  unfold overwrite
  split
  · rfl
  · rename_i hp
    have hlt : k < p.length := by
      by_contra hge
      rw [take_of_length_le (by omega)] at h
      exact hp h
    have hl : (p.take k).length = k := by simp; omega
    have := take_of_prefix_of_le h (k := k) (by omega)
    rw [this, take_take, Nat.min_self]

theorem take_overwrite_take (h : L.take k = M.take k) (m : Nat) : (overwrite (M.take m) L).take k = L.take k := by
  refine take_overwrite ?_
  rw [take_take, ← take_eq_of_le h (Nat.min_le_left k m)]
  exact take_prefix _ _

theorem termAt_overwrite {p : List E} (h : p.take k <+: L) : termAt tm (overwrite p L) k = termAt tm L k := by
  rw [← termAt_take tm (Nat.le_refl k), take_overwrite h, termAt_take tm (Nat.le_refl k)]

section Conforming

variable {tm : E → Nat} {h : History N E} {L M : List E}

section

variable (hL : Conforms tm h L)
include hL

theorem Conforms.take (m : Nat) : Conforms tm h (L.take m) := by
  intro k e hk
  obtain ⟨hlt, -⟩ := List.getElem?_eq_some_iff.1 hk
  rw [length_take] at hlt
  rw [getElem?_take_of_lt (by omega)] at hk
  rw [take_take, Nat.min_eq_left (by omega)]
  exact hL k e hk

theorem Conforms.prefix_leader (hk : L[k]? = some e) : L.take (k + 1) = (h.leaderLog (tm e)).take (k + 1) := by
  obtain ⟨hlt, -⟩ := List.getElem?_eq_some_iff.1 hk
  have hlen : (L.take (k + 1)).length = k + 1 := by rw [length_take]; omega
  have := take_of_prefix_of_le (hL k e hk) (k := k + 1) (by omega)
  rw [this, take_take, Nat.min_self]

/-- Log matching: two logs with entries of one term at one position agree up to it. -/
theorem Conforms.matching (hM : Conforms tm h M) {e' : E} (he : L[k]? = some e)
    (he' : M[k]? = some e') (ht : tm e = tm e') : L.take (k + 1) = M.take (k + 1) := by
  rw [hL.prefix_leader he, hM.prefix_leader he', ht]

theorem Conforms.matching_termAt (hM : Conforms tm h M) (hk : k ≤ L.length)
    (hk' : k ≤ M.length) (ht : termAt tm L k = termAt tm M k) : L.take k = M.take k := by
  cases k with
  | zero => simp
  | succ k =>
    have he : L[k]? = some L[k] := getElem?_eq_getElem (by omega)
    have he' : M[k]? = some M[k] := getElem?_eq_getElem (by omega)
    rw [termAt_succ tm he, termAt_succ tm he'] at ht
    exact hL.matching hM he he' ht

theorem Conforms.prefix_last (hne : L ≠ []) : L <+: h.leaderLog (termAt tm L L.length) := by
  have hpos : 0 < L.length := length_pos_iff.2 hne
  have he : L[L.length - 1]? = some L[L.length - 1] := getElem?_eq_getElem (by omega)
  have ht := termAt_succ tm he
  rw [Nat.sub_add_cancel hpos] at ht
  have := hL _ _ he
  rw [Nat.sub_add_cancel hpos, take_length] at this
  rw [ht]
  exact this

end

end Conforming

end ReplicatedLog
