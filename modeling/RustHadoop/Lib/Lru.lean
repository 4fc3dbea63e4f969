import Mathlib.Data.List.Nodup

/-!
# A cache that forgets what was used least recently

Entries stand in the order of their last use, the most recent one first.  A cache holds a key at most once and
never more entries than its capacity.
-/

structure Lru (K V : Type) where
  capacity : Nat
  entries : List (K × V)
  positive : 0 < capacity
  nodup : (entries.map Prod.fst).Nodup
  bounded : entries.length ≤ capacity

namespace Lru

open List

variable {K V : Type} [DecidableEq K]

def empty (capacity : Nat) (h : 0 < capacity) : Lru K V := ⟨capacity, [], h, nodup_nil, Nat.zero_le _⟩

def without (k : K) (l : List (K × V)) : List (K × V) := l.filter fun e => e.1 ≠ k

variable {e : K × V} {l : List (K × V)} {k : K}

theorem mem_without : e ∈ without k l ↔ e ∈ l ∧ e.1 ≠ k := by
  simp [without]

private theorem nodup_without (h : (l.map Prod.fst).Nodup) :
    ((without k l).map Prod.fst).Nodup := h.sublist (filter_sublist.map _)

private theorem notMem_without (k : K) (l : List (K × V)) : k ∉ (without k l).map Prod.fst := by
  intro hk
  obtain ⟨e, he, hek⟩ := mem_map.1 hk
  exact (mem_without.1 he).2 hek

def pop (c : Lru K V) (k : K) : Lru K V where
  capacity := c.capacity
  entries := without k c.entries
  positive := c.positive
  nodup := nodup_without c.nodup
  bounded := Nat.le_trans (length_filter_le _ _) c.bounded

/-- Put an entry in front; if the cache is full, the last one goes. -/
def put (c : Lru K V) (k : K) (v : V) : Lru K V where
  capacity := c.capacity
  entries := (k, v) :: (without k c.entries).take (c.capacity - 1)
  positive := c.positive
  nodup := by
    have hsub : ((without k c.entries).take (c.capacity - 1)).Sublist (without k c.entries) := take_sublist _ _
    refine nodup_cons.2 ⟨fun hk => notMem_without k c.entries ((hsub.map _).subset hk), ?_⟩
    exact (nodup_without c.nodup).sublist (hsub.map _)
  bounded := by
    have := c.positive
    have hlen := length_take_le (c.capacity - 1) (without k c.entries)
    rw [length_cons]
    omega

def find? (c : Lru K V) (k : K) : Option V := (c.entries.find? fun e => e.1 = k).map Prod.snd

/-- Look a key up; an entry that is found comes to the front. -/
def get (c : Lru K V) (k : K) : Option V × Lru K V :=
  match c.find? k with
  | some v => (some v, c.put k v)
  | none => (none, c)

section

variable {c : Lru K V} {k : K} {v : V}

theorem mem_of_find? (h : c.find? k = some v) : (k, v) ∈ c.entries := by
  obtain ⟨e, he, rfl⟩ := Option.map_eq_some_iff.1 h
  have hk : e.1 = k := by simpa using find?_some he
  rw [← hk]
  exact mem_of_find?_eq_some he

theorem mem_pop (h : e ∈ (c.pop k).entries) : e ∈ c.entries := (mem_without.1 h).1

theorem mem_put (h : e ∈ (c.put k v).entries) : e = (k, v) ∨ e ∈ c.entries := by
  rcases mem_cons.1 h with h | h
  · exact .inl h
  · exact .inr (mem_without.1 (mem_of_mem_take h)).1

theorem get_spec :
    (∀ v, (c.get k).1 = some v → (k, v) ∈ c.entries) ∧ ∀ e ∈ (c.get k).2.entries, e ∈ c.entries := by
  unfold get
  split
  · rename_i v hv
    refine ⟨fun w hw => ?_, fun e he => ?_⟩
    · cases hw
      exact mem_of_find? hv
    · rcases mem_put he with rfl | he
      · exact mem_of_find? hv
      · exact he
  · exact ⟨fun v hv => (by cases hv), fun e he => he⟩

end

end Lru
