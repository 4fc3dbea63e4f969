import Mathlib.Data.List.Chain
import Mathlib.Order.Lattice

/-!
# Consecutive intervals

A list of interval ends in increasing order, each with a value, maps every key to the value of the first interval
whose end is not below the key.  Two such lists map every key to the same value exactly if they are the same after
neighbours with the same value have been joined.  If the keys above the last end are mapped to the first value, the
intervals are a ring.
-/

namespace Intervals

open List Option

variable {K V : Type} [LinearOrder K]

/-- The value of the first interval whose end is not below the key. -/
def route (l : List (K × V)) (key : K) : Option V := (l.find? fun e => key ≤ e.1).map Prod.snd

def Increasing (l : List (K × V)) : Prop := l.Pairwise fun a b => a.1 < b.1

variable {l l' : List (K × V)} {e : K × V} {key : K} {v : V}

@[simp]
theorem route_nil : route ([] : List (K × V)) key = none := rfl

theorem route_cons : route (e :: l) key = if key ≤ e.1 then some e.2 else route l key := by
  unfold route
  by_cases h : key ≤ e.1
  · simp [h]
  · simp [h]

theorem route_cons_of_le (h : key ≤ e.1) : route (e :: l) key = some e.2 := by rw [route_cons, if_pos h]

theorem route_cons_of_lt (h : e.1 < key) : route (e :: l) key = route l key :=
  by rw [route_cons, if_neg (not_le.2 h)]

theorem route_append : route (l ++ l') key = (route l key).or (route l' key) := by
  rw [route, find?_append, map_or]
  rfl

theorem exists_mem_of_route (h : route l key = some v) : ∃ k, (k, v) ∈ l ∧ key ≤ k := by
  obtain ⟨e, he, rfl⟩ := map_eq_some_iff.1 h
  exact ⟨e.1, mem_of_find?_eq_some he, by simpa using find?_some he⟩

theorem exists_route (h : ∃ e ∈ l, key ≤ e.1) : ∃ v, route l key = some v := by
  obtain ⟨e, he, hk⟩ := h
  have hs : (l.find? fun e => key ≤ e.1).isSome := by
    rw [find?_isSome]
    exact ⟨e, he, by simpa using hk⟩
  obtain ⟨e', he'⟩ := isSome_iff_exists.1 hs
  exact ⟨e'.2, by rw [route, he', map_some]⟩

theorem route_of_mem (hl : Increasing l) (he : e ∈ l) : route l e.1 = some e.2 := by
  induction l with
  | nil => cases he
  | cons f l ih =>
    obtain ⟨hf, hl⟩ := pairwise_cons.1 hl
    rcases mem_cons.1 he with rfl | he
    · exact route_cons_of_le le_rfl
    · rw [route_cons_of_lt (hf e he)]
      exact ih hl he

theorem route_merge [DecidableEq V] {a b : K} {x y w : V} (hab : a ≤ b) (hxy : x = v ∧ y = w ∨ x = w ∧ y = v)
    (hf : ∀ e ∈ l ++ l', e.2 ≠ v) (key : K) :
    route (l ++ (b, w) :: l') key =
      if route (l ++ (a, x) :: (b, y) :: l') key = some v then some w else route
        (l ++ (a, x) :: (b, y) :: l') key := by
  have hno : ∀ l1, (∀ e ∈ l1, e.2 ≠ v) → route l1 key ≠ some v := by
    intro l1 h1 hr
    obtain ⟨k, hk, -⟩ := exists_mem_of_route hr
    exact h1 _ hk rfl
  have hl := hno l fun e he => hf e (mem_append_left _ he)
  have hl' := hno l' fun e he => hf e (mem_append_right _ he)
  rw [route_append, route_append, route_cons, route_cons, route_cons]
  cases hr : route l key with
  | some t =>
    rw [hr] at hl
    simp [hl]
  | none =>
    by_cases ha : key ≤ a
    · rcases hxy with ⟨rfl, rfl⟩ | ⟨rfl, rfl⟩ <;> simp [ha, ha.trans hab]
    · by_cases hb : key ≤ b
      · rcases hxy with ⟨rfl, rfl⟩ | ⟨rfl, rfl⟩ <;> simp [ha, hb]
      · simp [ha, hb, hl']

/-- The first value from a position on, or the first of all. -/
def around (l : List (K × V)) (key : K) : Option V := (route l key).or (l.head?.map Prod.snd)

def Leads (l : List (K × V)) (key k : K) : Prop :=
  key ≤ k ∧ (∀ e ∈ l, key ≤ e.1 → k ≤ e.1) ∨ (∀ e ∈ l, e.1 < key) ∧ ∀ e ∈ l, k ≤ e.1

theorem exists_leads (hl : Increasing l) (hne : l ≠ []) (key : K) :
    ∃ e ∈ l, around l key = some e.2 ∧ Leads l key e.1 := by
  induction l with
  | nil => exact absurd rfl hne
  | cons f l ih =>
    obtain ⟨hf, hl⟩ := pairwise_cons.1 hl
    have hmin : ∀ e ∈ f :: l, f.1 ≤ e.1 := forall_mem_cons.2 ⟨le_rfl, fun e he => le_of_lt (hf e he)⟩
    by_cases hk : key ≤ f.1
    · exact ⟨f, mem_cons_self .., by simp [around, route_cons_of_le hk], .inl ⟨hk, fun e he _ => hmin e he⟩⟩
    · have hr : route (f :: l) key = route l key := route_cons_of_lt (not_le.1 hk)
      by_cases ha : ∃ e ∈ l, key ≤ e.1
      · obtain ⟨v, hv⟩ := exists_route ha
        obtain ⟨e, he, har, hld⟩ := ih hl (ne_nil_of_mem ha.choose_spec.1)
        rw [around, hv, some_or] at har
        refine ⟨e, mem_cons_of_mem _ he, by rw [around, hr, hv, some_or, har], .inl ?_⟩
        rcases hld with ⟨hle, hfr⟩ | ⟨hb, -⟩
        · exact ⟨hle, forall_mem_cons.2 ⟨fun h => absurd h hk, hfr⟩⟩
        · exact absurd ha.choose_spec.2 (not_le.2 (hb _ ha.choose_spec.1))
      · push Not at ha
        have hn : route l key = none := map_eq_none_iff.2 (find?_eq_none.2 (by simpa using ha))
        refine ⟨f, mem_cons_self .., by simp [around, hr, hn], .inr ⟨?_, hmin⟩⟩
        exact forall_mem_cons.2 ⟨not_le.1 hk, ha⟩

theorem Leads.unique {e f : K × V} (he : e ∈ l) (hf : f ∈ l) (h : Leads l key e.1) (h' : Leads l key f.1) :
    e.1 = f.1 := by
  rcases h with ⟨hle, hfr⟩ | ⟨hb, hfr⟩
  · rcases h' with ⟨hle', hf'⟩ | ⟨hb', -⟩
    · exact le_antisymm (hfr f hf hle') (hf' e he hle)
    · exact absurd hle (not_le.2 (hb' e he))
  · rcases h' with ⟨hle', -⟩ | ⟨-, hf'⟩
    · exact absurd hle' (not_le.2 (hb f hf))
    · exact le_antisymm (hfr f hf) (hf' e he)

theorem around_agree (hl : Increasing l) (hl' : Increasing l') (hn : ∀ e ∈ l', e.2 = v ∨ e ∈ l)
    (ho : ∀ e ∈ l, e ∈ l' ∨ (e.1, v) ∈ l') (key : K) : around l' key = some v ∨ around l' key = around l key := by
  have hen : ∀ e ∈ l, ∃ f ∈ l', f.1 = e.1 := fun e he => (ho e he).elim (fun h => ⟨e, h, rfl⟩) fun h => ⟨_, h, rfl⟩
  by_cases hne : l' = []
  · subst hne
    obtain rfl : l = [] := eq_nil_iff_forall_not_mem.2 fun e he => by simpa using hen e he
    exact .inr rfl
  obtain ⟨e, he, ha, hld⟩ := exists_leads hl' hne key
  rcases hn e he with rfl | hel
  · exact .inl ha
  have hld : Leads l key e.1 := by
    rcases hld with ⟨hle, hfr⟩ | ⟨hb, hfr⟩
    · refine .inl ⟨hle, fun f hf hk => ?_⟩
      obtain ⟨f', hf', heq⟩ := hen f hf
      exact heq ▸ hfr f' hf' (heq ▸ hk)
    · refine .inr ⟨fun f hf => ?_, fun f hf => ?_⟩
      · obtain ⟨f', hf', heq⟩ := hen f hf
        exact heq ▸ hb f' hf'
      · obtain ⟨f', hf', heq⟩ := hen f hf
        exact heq ▸ hfr f' hf'
  obtain ⟨f, hf, ha', hld'⟩ := exists_leads hl (ne_nil_of_mem hel) key
  have hfe : f.1 = e.1 := hld'.unique hf hel hld
  have hv : some f.2 = some e.2 := by rw [← route_of_mem hl hf, ← route_of_mem hl hel, hfe]
  exact .inr (ha.trans (hv.symm.trans ha'.symm))

section Reduce

variable [DecidableEq V]

/-- Put an interval in front, unless the next one has the same value. -/
def join (e : K × V) : List (K × V) → List (K × V)
  | [] => [e]
  | f :: l => if e.2 = f.2 then f :: l else e :: f :: l

def reduce : List (K × V) → List (K × V)
  | [] => []
  | e :: l => join e (reduce l)

omit [LinearOrder K] in
theorem join_sublist : (join e l).Sublist (e :: l) := by
  cases l with
  | nil => exact .refl _
  | cons f l =>
    simp only [join]
    split
    · exact .cons _ (.refl _)
    · exact .refl _

omit [LinearOrder K] in
theorem reduce_sublist : (reduce l).Sublist l := by
  induction l with
  | nil => exact .refl _
  | cons e l ih => exact join_sublist.trans (ih.cons_cons e)

theorem route_join (hl : Increasing (e :: l)) : route (join e l) key = route (e :: l) key := by
  cases l with
  | nil => rfl
  | cons f l =>
    simp only [join]
    split
    · rename_i hv
      by_cases hk : key ≤ e.1
      · have hf : key ≤ f.1 := hk.trans (le_of_lt ((pairwise_cons.1 hl).1 f (mem_cons_self ..)))
        rw [route_cons_of_le hk, route_cons_of_le hf, hv]
      · rw [route_cons_of_lt (not_le.1 hk)]
    · rfl

theorem route_reduce (hl : Increasing l) : route (reduce l) key = route l key := by
  induction l with
  | nil => rfl
  | cons e l ih =>
    have hi : Increasing (e :: reduce l) := hl.sublist (reduce_sublist.cons_cons e)
    show route (join e (reduce l)) key = _
    rw [route_join hi, route_cons, route_cons, ih hl.of_cons]

def Reduced (l : List (K × V)) : Prop := l.IsChain fun a b => a.2 ≠ b.2

omit [LinearOrder K] in
theorem Reduced.join (hl : Reduced l) : Reduced (join e l) := by
  cases l with
  | nil => exact List.IsChain.singleton _
  | cons f l =>
    simp only [Intervals.join]
    split
    · exact hl
    · rename_i hv
      exact isChain_cons_cons.2 ⟨hv, hl⟩

omit [LinearOrder K] in
theorem reduced_reduce : Reduced (reduce l) := by
  induction l with
  | nil => exact IsChain.nil
  | cons e l ih => exact ih.join

omit [LinearOrder K] in
theorem Reduced.reduce_eq (hl : Reduced l) : reduce l = l := by
  induction l with
  | nil => rfl
  | cons e l ih =>
    cases l with
    | nil => rfl
    | cons f l =>
      obtain ⟨hv, hl⟩ := isChain_cons_cons.1 hl
      show Intervals.join e (reduce (f :: l)) = _
      rw [ih hl]
      exact if_neg hv

omit [DecidableEq V] in
theorem Reduced.route_ne (hl : Increasing (e :: l)) (hr : Reduced (e :: l)) {k : K} (hk : e.1 < k)
    (h : ∀ key, e.1 < key → key ≤ k → route l key = some e.2) : False := by
  cases l with
  | nil => simpa using h k hk le_rfl
  | cons f l =>
    have hv : e.2 ≠ f.2 := (isChain_cons_cons.1 hr).1
    have hef : e.1 < f.1 := (pairwise_cons.1 hl).1 f (mem_cons_self ..)
    have hmin := h (min f.1 k) (lt_min hef hk) (min_le_right _ _)
    rw [route_cons_of_le (min_le_left _ _), some.injEq] at hmin
    exact hv hmin.symm

omit [DecidableEq V] in
theorem not_lt_of_route {f : K × V} (hl : Increasing (e :: l)) (hr : Reduced (e :: l))
    (h : ∀ key, route (e :: l) key = route (f :: l') key) : ¬ e.1 < f.1 := by
  intro hlt
  have hv : e.2 = f.2 := by
    have hk := h e.1
    rwa [route_cons_of_le le_rfl, route_cons_of_le (le_of_lt hlt), some.injEq] at hk
  refine hr.route_ne hl hlt fun key hk hle => ?_
  rw [← route_cons_of_lt hk, h key, route_cons_of_le hle, hv]

omit [DecidableEq V] in
theorem eq_of_route (hl : Increasing l) (hr : Reduced l) (hl' : Increasing l') (hr' : Reduced l')
    (h : ∀ key, route l key = route l' key) : l = l' := by
  induction l generalizing l' with
  | nil =>
    cases l' with
    | nil => rfl
    | cons f l' =>
      have hk := h f.1
      rw [route_cons_of_le le_rfl] at hk
      cases hk
  | cons e l ih =>
    cases l' with
    | nil =>
      have hk := h e.1
      rw [route_cons_of_le le_rfl] at hk
      cases hk
    | cons f l' =>
      have he : e.1 = f.1 := le_antisymm (not_lt.1 (not_lt_of_route hl' hr' fun key => (h key).symm))
        (not_lt.1 (not_lt_of_route hl hr h))
      have hv : e.2 = f.2 := by
        have hk := h e.1
        rwa [route_cons_of_le le_rfl, route_cons_of_le (le_of_eq he), some.injEq] at hk
      obtain rfl : e = f := Prod.ext he hv
      -- above the common end the rest decides; below it the rest has the value of its first interval
      have ha : ∀ key, e.1 < key → route l key = route l' key := by
        intro key hk
        rw [← route_cons_of_lt hk (l := l), h key, route_cons_of_lt hk]
      rw [ih hl.of_cons hr.tail hl'.of_cons hr'.tail fun key => ?_]
      rcases lt_or_ge e.1 key with hk | hk
      · exact ha key hk
      · cases l with
        | nil =>
          cases l' with
          | nil => rfl
          | cons f' t' =>
            have hf' := ha f'.1 ((pairwise_cons.1 hl').1 f' (mem_cons_self ..))
            rw [route_cons_of_le le_rfl] at hf'
            cases hf'
        | cons f t =>
          have hf : e.1 < f.1 := (pairwise_cons.1 hl).1 f (mem_cons_self ..)
          cases l' with
          | nil =>
            have hf' := ha f.1 hf
            rw [route_cons_of_le le_rfl] at hf'
            cases hf'
          | cons f' t' =>
            have hf' : e.1 < f'.1 := (pairwise_cons.1 hl').1 f' (mem_cons_self ..)
            have hmin := ha (min f.1 f'.1) (lt_min hf hf')
            rw [route_cons_of_le (min_le_left _ _), route_cons_of_le (min_le_right _ _)] at hmin
            rw [route_cons_of_le (hk.trans (le_of_lt hf)), route_cons_of_le (hk.trans (le_of_lt hf')), hmin]

theorem route_eq_iff (hl : Increasing l) (hl' : Increasing l') :
    (∀ key, route l key = route l' key) ↔ reduce l = reduce l' := by
  constructor
  · intro h
    refine eq_of_route (hl.sublist reduce_sublist) reduced_reduce
      (hl'.sublist reduce_sublist) reduced_reduce fun key => ?_
    rw [route_reduce hl, route_reduce hl', h key]
  · intro h key
    rw [← route_reduce hl, h, route_reduce hl']

end Reduce

end Intervals
