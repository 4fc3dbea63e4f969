import Mathlib.Data.List.Induction

/-!
# Threads over nodes with local state

A node has a state, and around it run threads: a thread acts on the state of its node, one atomic action after
another, and calls other nodes.  Calls are lost, delayed and duplicated, actions may be refused, and faults change
the state of a node at any time.

`Prog.Keeps` is a program logic with one invariant that every atomic action and every fault keeps
(`Machine.Sound`), and `Reachable.keeps` is the rule for whole runs.  `Runs` is what a program does when nothing
else runs and nothing fails.
-/

namespace Threads

open Function List

/-- A program that ends with an `α`: it performs actions `O`, each with its own kind of result, and calls addresses
with requests `R` for answers `A`. -/
inductive Prog (O : Type) (Res : O → Type) (R A α : Type) : Type
  | ret (a : α)
  | act (o : O) (k : Res o → Prog O Res R A α)
  | call (address : String) (r : R) (k : Option A → Prog O Res R A α)

namespace Prog

variable {O : Type} {Res : O → Type} {R A α β : Type}

def bind (f : α → Prog O Res R A β) : Prog O Res R A α → Prog O Res R A β
  | ret a => f a
  | act o k => .act o fun x => (k x).bind f
  | call address r k => .call address r fun a => (k a).bind f

instance : Monad (Prog O Res R A) where
  pure := .ret
  bind p f := p.bind f

def perform (o : O) : Prog O Res R A (Res o) := .act o .ret

def ask (address : String) (r : R) : Prog O Res R A (Option A) := .call address r .ret

end Prog

/-- The effect of actions on states `S`, and the results with which an action may be refused. -/
structure Device (S O : Type) (Res : O → Type) where
  exec : (o : O) → S → S × Res o
  refuse : (o : O) → Res o → Prop

/-- Nodes `N` with states `S`: the programs behind requests and tasks, which of them come from outside, and the
faults that may happen. -/
structure Machine (N S O : Type) (Res : O → Type) (R A K F : Type) extends Device S O Res where
  serve : R → Prog O Res R A A
  task : K → Prog O Res R A Unit
  route : String → Option N
  asks : R → Prop
  starts : K → Prop
  fault : F → S → S
  faults : F → Prop

variable {i : Nat}

section

variable {N S O : Type} {Res : O → Type} {R A K F α β : Type}

/-- A running program; one that serves a request ends with an answer to it. -/
structure Thread (N O : Type) (Res : O → Type) (R A : Type) where
  node : N
  asked : Option R
  rest : Prog O Res R A (Option A)

structure World (N S O : Type) (Res : O → Type) (R A : Type) where
  state : N → S
  threads : List (Thread N O Res R A)
  /-- the answers that have been given -/
  answers : List (N × R × A)

def World.initial (σ : N → S) : World N S O Res R A := ⟨σ, [], []⟩

namespace Machine

variable (M : Machine N S O Res R A K F)

def serving (n : N) (r : R) : Thread N O Res R A := ⟨n, some r, (M.serve r).bind fun a => .ret (some a)⟩

def working (n : N) (task : K) : Thread N O Res R A := ⟨n, none, (M.task task).bind fun _ => .ret none⟩

variable [DecidableEq N]

/-- The steps of a world.  The guard says which actions with which results the steps are restricted to. -/
inductive Step (guard : (o : O) → Res o → Prop) : World N S O Res R A → World N S O Res R A → Prop
  | request {w} (n : N) {r : R} (h : M.asks r) : Step guard w { w with threads := w.threads ++ [M.serving n r] }
  | task {w} (n : N) {t : K} (h : M.starts t) : Step guard w { w with threads := w.threads ++ [M.working n t] }
  | fault {w} (n : N) {f : F} (h : M.faults f) :
      Step guard w { w with state := update w.state n (M.fault f (w.state n)) }
  | act {w} {i : Nat} {n : N} {asked : Option R} {o : O} {k : Res o → Prog O Res R A (Option A)}
      (hi : w.threads[i]? = some ⟨n, asked, .act o k⟩) (hg : guard o (M.exec o (w.state n)).2) :
      Step guard w
        { w with
          state := update w.state n (M.exec o (w.state n)).1
          threads := w.threads.set i ⟨n, asked, k (M.exec o (w.state n)).2⟩ }
  | refuse {w} {i : Nat} {n : N} {asked : Option R} {o : O} {k : Res o → Prog O Res R A (Option A)} {x : Res o}
      (hi : w.threads[i]? = some ⟨n, asked, .act o k⟩) (hx : M.refuse o x) (hg : guard o x) :
      Step guard w { w with threads := w.threads.set i ⟨n, asked, k x⟩ }
  | deliver {w} {i : Nat} {n n' : N} {asked : Option R} {address : String} {r : R}
      {k : Option A → Prog O Res R A (Option A)} (hi : w.threads[i]? = some ⟨n, asked, .call address r k⟩)
      (hr : M.route address = some n') : Step guard w { w with threads := w.threads ++ [M.serving n' r] }
  | reply {w} {i : Nat} {n n' : N} {asked : Option R} {address : String} {r : R} {a : A}
      {k : Option A → Prog O Res R A (Option A)} (hi : w.threads[i]? = some ⟨n, asked, .call address r k⟩)
      (hr : M.route address = some n') (ha : (n', r, a) ∈ w.answers) :
      Step guard w { w with threads := w.threads.set i ⟨n, asked, k (some a)⟩ }
  | lose {w} {i : Nat} {n : N} {asked : Option R} {address : String} {r : R}
      {k : Option A → Prog O Res R A (Option A)}
      (hi : w.threads[i]? = some ⟨n, asked, .call address r k⟩) :
      Step guard w { w with threads := w.threads.set i ⟨n, asked, k none⟩ }
  | answer {w} {i : Nat} {n : N} {r : R} {a : A} (hi : w.threads[i]? = some ⟨n, some r, .ret (some a)⟩) :
      Step guard w { w with answers := w.answers ++ [(n, r, a)] }

inductive Reachable (guard : (o : O) → Res o → Prop) (w0 : World N S O Res R A) : World N S O Res R A → Prop
  | refl : Reachable guard w0 w0
  | step {w w'} (h : Reachable guard w0 w) (hs : M.Step guard w w') : Reachable guard w0 w'

variable {M}

section

variable {guard guard' : (o : O) → Res o → Prop} (h : ∀ o x, guard o x → guard' o x)
include h

theorem Step.mono {w w' : World N S O Res R A} (hs : M.Step guard w w') : M.Step guard' w w' := by
  cases hs with
  | request n hr => exact .request n hr
  | task n ht => exact .task n ht
  | fault n hf => exact .fault n hf
  | act hi hg => exact .act hi (h _ _ hg)
  | refuse hi hx hg => exact .refuse hi hx (h _ _ hg)
  | deliver hi hr => exact .deliver hi hr
  | reply hi hr ha => exact .reply hi hr ha
  | lose hi => exact .lose hi
  | answer hi => exact .answer hi

theorem Reachable.mono {w0 w : World N S O Res R A} (hw : M.Reachable guard w0 w) : M.Reachable guard' w0 w := by
  induction hw with
  | refl => exact .refl
  | step _ hs ih => exact .step ih (hs.mono h)

end

end Machine

/-- What is kept: an invariant of the states of nodes, and what is known about requests and answers. -/
structure Contract (S R A : Type) where
  inv : S → Prop
  req : R → Prop
  ans : R → A → Prop

section

variable (D : Device S O Res) (guard : (o : O) → Res o → Prop) (C : Contract S R A)

/-- The program keeps the contract and ends with a result that satisfies `Q`. -/
def Prog.Keeps (Q : α → Prop) : Prog O Res R A α → Prop
  | .ret a => Q a
  | .act o k =>
      (∀ s, C.inv s → guard o (D.exec o s).2 → C.inv (D.exec o s).1 ∧ (k (D.exec o s).2).Keeps Q) ∧
        ∀ x, D.refuse o x → guard o x → (k x).Keeps Q
  | .call _ r k => C.req r ∧ ∀ a, (∀ x ∈ a, C.ans r x) → (k a).Keeps Q

/-- All programs and faults keep the contract. -/
structure Machine.Sound (M : Machine N S O Res R A K F) : Prop where
  serve : ∀ r, C.req r → (M.serve r).Keeps M.toDevice guard C (C.ans r)
  task : ∀ t, M.starts t → (M.task t).Keeps M.toDevice guard C fun _ => True
  asks : ∀ r, M.asks r → C.req r
  fault : ∀ f s, M.faults f → C.inv s → C.inv (M.fault f s)

/-- Everything in the world is as the contract says. -/
structure World.Kept (w : World N S O Res R A) : Prop where
  state : ∀ n, C.inv (w.state n)
  threads : ∀ t ∈ w.threads, t.rest.Keeps D guard C fun a => ∀ x ∈ a, ∀ r ∈ t.asked, C.ans r x
  answers : ∀ e ∈ w.answers, C.ans e.2.1 e.2.2

end

variable {M : Machine N S O Res R A K F} {D : Device S O Res} {guard : (o : O) → Res o → Prop}
  {C : Contract S R A} {o : O}
  {r : R}

namespace Prog.Keeps

variable {Q Q' : α → Prop} {p : Prog O Res R A α}

theorem imp (h : p.Keeps D guard C Q) (hQ : ∀ a, Q a → Q' a) : p.Keeps D guard C Q' := by
  induction p with
  | ret a => exact hQ a h
  | act o k ih =>
    refine ⟨fun s hs hg => ?_, fun x hx hg => ih x (h.2 x hx hg)⟩
    obtain ⟨hs', hk⟩ := h.1 s hs hg
    exact ⟨hs', ih _ hk⟩
  | call address r k ih => exact ⟨h.1, fun a ha => ih a (h.2 a ha)⟩

theorem bind {f : α → Prog O Res R A β} {P : β → Prop} (h : p.Keeps D guard C Q)
    (hf : ∀ a, Q a → (f a).Keeps D guard C P) : (p.bind f).Keeps D guard C P := by
  induction p with
  | ret a => exact hf a h
  | act o k ih =>
    refine ⟨fun s hs hg => ?_, fun x hx hg => ih x (h.2 x hx hg)⟩
    obtain ⟨hs', hk⟩ := h.1 s hs hg
    exact ⟨hs', ih _ hk⟩
  | call address r k ih => exact ⟨h.1, fun a ha => ih a (h.2 a ha)⟩

theorem perform {Q : Res o → Prop}
    (h : ∀ s, C.inv s → guard o (D.exec o s).2 → C.inv (D.exec o s).1 ∧ Q (D.exec o s).2)
    (h' : ∀ x, D.refuse o x → guard o x → Q x) : (Prog.perform o : Prog O Res R A (Res o)).Keeps D guard C Q :=
  ⟨h, h'⟩

theorem ask {address : String} {Q : Option A → Prop} (hr : C.req r) (h : ∀ a, (∀ x ∈ a, C.ans r x) → Q a) :
    (Prog.ask address r : Prog O Res R A (Option A)).Keeps D guard C Q := ⟨hr, h⟩

end Prog.Keeps

namespace Machine.Sound

theorem serving (hM : M.Sound guard C) (n : N) (hr : C.req r) : (M.serving n r).rest.Keeps M.toDevice guard C
    fun a => ∀ x ∈ a, ∀ r' ∈ (M.serving n r).asked, C.ans r' x := by
  refine (hM.serve r hr).bind fun a ha => ?_
  intro x hx r' hr'
  cases hx
  cases hr'
  exact ha

theorem working (hM : M.Sound guard C) (n : N) {t : K} (ht : M.starts t) :
    (M.working n t).rest.Keeps M.toDevice guard C
    fun a => ∀ x ∈ a, ∀ r' ∈ (M.working n t).asked, C.ans r' x := by
  refine (hM.task t ht).bind fun _ _ => ?_
  intro x hx
  cases hx

end Machine.Sound

namespace World.Kept

variable {w : World N S O Res R A} {t : Thread N O Res R A}

section

variable (h : w.Kept D guard C) (ht : t.rest.Keeps D guard C fun a => ∀ x ∈ a, ∀ r ∈ t.asked, C.ans r x)
include h ht

theorem spawn : World.Kept D guard C { w with threads := w.threads ++ [t] } := by
  refine ⟨h.state, fun t' ht' => ?_, h.answers⟩
  rcases mem_append.1 ht' with ht' | ht'
  · exact h.threads t' ht'
  · rw [mem_singleton.1 ht']
    exact ht

theorem advance : World.Kept D guard C { w with threads := w.threads.set i t } := by
  refine ⟨h.state, fun t' ht' => ?_, h.answers⟩
  rcases mem_or_eq_of_mem_set ht' with ht' | rfl
  · exact h.threads t' ht'
  · exact ht

end

theorem update [DecidableEq N] (h : w.Kept D guard C) {n : N} {s : S} (hs : C.inv s) :
    World.Kept D guard C { w with state := update w.state n s } := by
  refine ⟨fun n' => ?_, h.threads, h.answers⟩
  by_cases hn : n' = n
  · subst hn
    simpa using hs
  · simpa [hn] using h.state n'

theorem thread (h : w.Kept D guard C) (hi : w.threads[i]? = some t) :
    t.rest.Keeps D guard C fun a => ∀ x ∈ a, ∀ r ∈ t.asked, C.ans r x := h.threads t (mem_of_getElem? hi)

end World.Kept

variable [DecidableEq N] {w w' : World N S O Res R A}

theorem Machine.Step.keeps (hM : M.Sound guard C) (hs : M.Step guard w w')
    (h : w.Kept M.toDevice guard C) : w'.Kept M.toDevice guard C := by
  cases hs with
  | request n hr => exact h.spawn (hM.serving n (hM.asks _ hr))
  | task n ht => exact h.spawn (hM.working n ht)
  | fault n hf => exact h.update (hM.fault _ _ hf (h.state n))
  | @act i n asked o k hi hg =>
    obtain ⟨hinv, hk⟩ := (h.thread hi).1 (w.state n) (h.state n) hg
    exact (h.update hinv).advance hk
  | refuse hi hx hg => exact h.advance ((h.thread hi).2 _ hx hg)
  | deliver hi hr => exact h.spawn (hM.serving _ (h.thread hi).1)
  | reply hi hr ha =>
    refine h.advance ((h.thread hi).2 _ ?_)
    intro x hx
    cases hx
    exact h.answers _ ha
  | lose hi => exact h.advance ((h.thread hi).2 none fun x hx => by cases hx)
  | answer hi =>
    refine ⟨h.state, h.threads, fun e he => ?_⟩
    rcases mem_append.1 he with he | he
    · exact h.answers e he
    · rw [mem_singleton.1 he]
      exact h.thread hi _ rfl _ rfl

variable {σ : N → S}

theorem Machine.Reachable.keeps (hM : M.Sound guard C) (hσ : ∀ n, C.inv (σ n))
    (h : M.Reachable guard (World.initial σ) w) : w.Kept M.toDevice guard C := by
  induction h with
  | refl => exact ⟨hσ, by simp [World.initial], by simp [World.initial]⟩
  | step _ hs ih => exact hs.keeps hM ih

/-- The program ends with this result and leaves these states when it runs alone on a node and nothing fails. -/
inductive Machine.Runs (M : Machine N S O Res R A K F) :
    {α : Type} → (N → S) → N → Prog O Res R A α → (N → S) → α → Prop
  | ret {α : Type} {σ : N → S} {n : N} {a : α} : M.Runs σ n (.ret a) σ a
  | act {α : Type} {σ σ' : N → S} {n : N} {o : O} {k : Res o → Prog O Res R A α} {a : α}
      (h : M.Runs (update σ n (M.exec o (σ n)).1) n (k (M.exec o (σ n)).2) σ' a) : M.Runs σ n (.act o k) σ' a
  | call {α : Type} {σ σ₁ σ' : N → S} {n n' : N} {address : String} {r : R} {x : A}
      {k : Option A → Prog O Res R A α}
      {a : α} (hr : M.route address = some n') (hx : M.Runs σ n' (M.serve r) σ₁ x)
        (h : M.Runs σ₁ n (k (some x)) σ' a) :
      M.Runs σ n (.call address r k) σ' a
  | unreachable {α : Type} {σ σ' : N → S} {n : N} {address : String} {r : R}
      {k : Option A → Prog O Res R A α} {a : α}
      (hr : M.route address = none) (h : M.Runs σ n (k none) σ' a) : M.Runs σ n (.call address r k) σ' a

variable {p : Prog O Res R A α} {a : α} {b : β}

namespace Machine.Runs

variable {σ σ' : N → S} {n : N}

theorem ret_iff {b : α} : M.Runs σ n (.ret a : Prog O Res R A α) σ' b ↔ σ' = σ ∧ b = a := by
  constructor
  · intro h
    cases h
    exact ⟨rfl, rfl⟩
  · rintro ⟨rfl, rfl⟩
    exact .ret

theorem act_iff {k : Res o → Prog O Res R A α} : M.Runs σ n (.act o k) σ' a ↔
    M.Runs (update σ n (M.exec o (σ n)).1) n (k (M.exec o (σ n)).2) σ' a := by
  refine ⟨fun h => ?_, .act⟩
  cases h with
  | act h => exact h

theorem perform_iff {x : Res o} : M.Runs σ n (Prog.perform o) σ' x ↔
    σ' = update σ n (M.exec o (σ n)).1 ∧ x = (M.exec o (σ n)).2 := act_iff.trans ret_iff

variable {f : α → Prog O Res R A β}

theorem bind_iff : M.Runs σ n (p.bind f) σ' b ↔ ∃ σ₁ a, M.Runs σ n p σ₁ a ∧ M.Runs σ₁ n (f a) σ' b := by
  constructor
  · intro h
    induction p generalizing σ with
    | ret a => exact ⟨σ, a, .ret, h⟩
    | act o k ih =>
      obtain ⟨σ₁, a, hp, hf⟩ := ih _ (act_iff.1 h)
      exact ⟨σ₁, a, .act hp, hf⟩
    | call address r k ih =>
      cases h with
      | call hr hx h =>
        obtain ⟨σ₁, a, hp, hf⟩ := ih _ h
        exact ⟨σ₁, a, .call hr hx hp, hf⟩
      | unreachable hr h =>
        obtain ⟨σ₁, a, hp, hf⟩ := ih _ h
        exact ⟨σ₁, a, .unreachable hr hp, hf⟩
  · rintro ⟨σ₁, a, hp, hf⟩
    induction hp with
    | ret => exact hf
    | act _ ih => exact .act (ih hf)
    | call hr hx _ _ ih => exact .call hr hx (ih hf)
    | unreachable hr _ ih => exact .unreachable hr (ih hf)

theorem bind {σ₁ : N → S} (h : M.Runs σ n p σ₁ a)
    (h' : M.Runs σ₁ n (f a) σ' b) : M.Runs σ n (p.bind f) σ' b := bind_iff.2 ⟨σ₁, a, h, h'⟩

end Machine.Runs

theorem Machine.Reachable.trans {w0 w1 w2 : World N S O Res R A} (h : M.Reachable guard w0 w1)
    (h' : M.Reachable guard w1 w2) : M.Reachable guard w0 w2 := by
  induction h' with
  | refl => exact h
  | step _ hs ih => exact .step ih hs

/-- The world after a thread has run on: the other threads are where they were, and no answer is forgotten. -/
structure World.Extends (w w' : World N S O Res R A) (i : Nat) : Prop where
  threads : ∀ j ≠ i, j < w.threads.length → w'.threads[j]? = w.threads[j]?
  length : w.threads.length ≤ w'.threads.length
  answers : ∀ e ∈ w.answers, e ∈ w'.answers

omit [DecidableEq N] in
theorem World.Extends.refl (i : Nat) : w.Extends w i :=
  ⟨fun _ _ _ => rfl, Nat.le_refl _, fun _ he => he⟩

omit [DecidableEq N] in
theorem World.Extends.trans {w0 w1 w2 : World N S O Res R A} (h : w0.Extends w1 i) (h' : w1.Extends w2 i) :
    w0.Extends w2 i where
  threads j hj hlt := (h'.threads j hj (Nat.lt_of_lt_of_le hlt h.length)).trans (h.threads j hj hlt)
  length := Nat.le_trans h.length h'.length
  answers e he := h'.answers e (h.answers e he)

omit [DecidableEq N] in
theorem World.Extends.set (t : Thread N O Res R A) :
    w.Extends { w with state := σ, threads := w.threads.set i t } i where
  threads j hj _ := getElem?_set_ne (Ne.symm hj)
  length := by simp
  answers _ he := he

variable {σ' : N → S}

theorem Machine.Runs.reachable {n : N} (h : M.Runs σ n p σ' a)
    (hw : w.state = σ) {asked : Option R} {f : α → Prog O Res R A (Option A)}
    (hi : w.threads[i]? = some ⟨n, asked, p.bind f⟩) :
    ∃ w', M.Reachable (fun _ _ => True) w w' ∧ w'.state = σ' ∧ w'.threads[i]? = some ⟨n, asked, f a⟩ ∧
      w.Extends w' i := by
  induction h generalizing w i asked with
  | ret => exact ⟨w, .refl, hw, hi, .refl i⟩
  | @act α σ σ' n o k a h ih =>
    subst hw
    have hlt : i < w.threads.length := (List.getElem?_eq_some_iff.1 hi).1
    obtain ⟨w', hrc, hs, hth, hext⟩ := ih (i := i) (f := f) (w := { w with
        state := update w.state n (M.exec o (w.state n)).1
        threads := w.threads.set i ⟨n, asked, (k (M.exec o (w.state n)).2).bind f⟩ }) rfl
      (getElem?_set_self hlt)
    exact ⟨w', .trans (.step .refl (.act hi trivial)) hrc, hs, hth, .trans (.set _) hext⟩
  | @call α σ σ₁ σ' n n' address r x k a hr hx h ihx ih =>
    subst hw
    have hlt : i < w.threads.length := (List.getElem?_eq_some_iff.1 hi).1
    -- the handler runs in a thread of its own, after the others
    have hsp : (w.threads ++ [M.serving n' r])[w.threads.length]? =
        some ⟨n', some r, (M.serve r).bind fun a => .ret (some a)⟩ := by simp [Machine.serving]
    obtain ⟨w2, hrh, hst, htr, hex⟩ :=
      ihx (w := { w with threads := w.threads ++ [M.serving n' r] }) rfl hsp
    have hl : w.threads.length < w2.threads.length := (List.getElem?_eq_some_iff.1 htr).1
    have ho : ∀ j < w.threads.length, w2.threads[j]? = w.threads[j]? := by
      intro j hj
      rw [hex.threads j (Nat.ne_of_lt hj) (by simp; omega), getElem?_append_left hj]
    obtain ⟨w', hrc, hs, hth, hext⟩ := ih (i := i) (f := f) (w := { w2 with
        threads := w2.threads.set i ⟨n, asked, (k (some x)).bind f⟩
        answers := w2.answers ++ [(n', r, x)] }) hst (getElem?_set_self (Nat.lt_trans hlt hl))
    refine ⟨w', .trans (.step .refl (.deliver hi hr)) (.trans hrh (.trans (.step (.step .refl (.answer htr))
      (.reply ((ho i hlt).trans hi) hr (by simp))) hrc)), hs, hth, ?_⟩
    refine ⟨fun j hj hjlt => ?_, ?_, fun e he => ?_⟩
    · rw [hext.threads j hj (by rw [length_set]; omega), getElem?_set_ne (Ne.symm hj), ho j hjlt]
    · have hlen := hext.length
      rw [length_set] at hlen
      omega
    · exact hext.answers e (mem_append_left _ (hex.answers e he))
  | @unreachable α σ σ' n address r k a hr h ih =>
    subst hw
    have hlt : i < w.threads.length := (List.getElem?_eq_some_iff.1 hi).1
    obtain ⟨w', hrc, hs, hth, hext⟩ := ih (i := i) (f := f)
      (w := { w with threads := w.threads.set i ⟨n, asked, (k none).bind f⟩ }) rfl (getElem?_set_self hlt)
    exact ⟨w', .trans (.step .refl (.lose hi)) hrc, hs, hth, .trans (.set _) hext⟩

section

variable {w0 w : World N S O Res R A} (h : M.Reachable (fun _ _ => True) w0 w) {n : N}
include h

theorem Machine.Reachable.request (hr : M.asks r) {a : A} (hrn : M.Runs w.state n (M.serve r) σ' a) :
    ∃ w', M.Reachable (fun _ _ => True) w0 w' ∧ w'.state = σ' ∧ (n, r, a) ∈ w'.answers := by
  have hs : (w.threads ++ [M.serving n r])[w.threads.length]? =
      some ⟨n, some r, (M.serve r).bind fun a => .ret (some a)⟩ := by simp [Machine.serving]
  obtain ⟨w', hrc, hst, hth, -⟩ :=
    hrn.reachable (w := { w with threads := w.threads ++ [M.serving n r] }) rfl hs
  exact ⟨_, .step (.trans (.step h (.request n hr)) hrc) (.answer hth), hst, by simp⟩

theorem Machine.Reachable.task {t : K} (ht : M.starts t) (hrn : M.Runs w.state n (M.task t) σ' ()) :
    ∃ w', M.Reachable (fun _ _ => True) w0 w' ∧ w'.state = σ' := by
  have hs : (w.threads ++ [M.working n t])[w.threads.length]? =
      some ⟨n, none, (M.task t).bind fun _ => .ret none⟩ := by simp [Machine.working]
  obtain ⟨w', hr, hst, -, -⟩ :=
    hrn.reachable (w := { w with threads := w.threads ++ [M.working n t] }) rfl hs
  exact ⟨w', .trans (.step h (.task n ht)) hr, hst⟩

end

inductive Move (N R K F : Type)
  | request (n : N) (r : R)
  | task (n : N) (t : K)
  | fault (n : N) (f : F)
  | act (i : Nat)
  | deliver (i : Nat)
  /-- the thread gets the answer with that index -/
  | reply (i j : Nat)
  | lose (i : Nat)
  | answer (i : Nat)

def Move.Allowed (M : Machine N S O Res R A K F) : Move N R K F → Prop
  | .request _ r => M.asks r
  | .task _ t => M.starts t
  | .fault _ f => M.faults f
  | _ => True

variable [DecidableEq R]

/-- Make a move; actions are restricted to those with an allowed result. -/
def World.move (M : Machine N S O Res R A K F) (ok : (o : O) → Res o → Bool) (w : World N S O Res R A) :
    Move N R K F → Option (World N S O Res R A)
  | .request n r => some { w with threads := w.threads ++ [M.serving n r] }
  | .task n t => some { w with threads := w.threads ++ [M.working n t] }
  | .fault n f => some { w with state := update w.state n (M.fault f (w.state n)) }
  | .act i =>
    match w.threads[i]? with
    | some ⟨n, asked, .act o k⟩ =>
      if ok o (M.exec o (w.state n)).2 then
        some
          { w with
            state := update w.state n (M.exec o (w.state n)).1
            threads := w.threads.set i ⟨n, asked, k (M.exec o (w.state n)).2⟩ }
      else none
    | _ => none
  | .deliver i =>
    match w.threads[i]? with
    | some ⟨_, _, .call address r _⟩ =>
      (M.route address).map fun n => { w with threads := w.threads ++ [M.serving n r] }
    | _ => none
  | .reply i j =>
    match w.threads[i]?, w.answers[j]? with
    | some ⟨n, asked, .call address r k⟩, some (n', r', a) =>
      if M.route address = some n' ∧
        r' = r then some { w with threads := w.threads.set i ⟨n, asked, k (some a)⟩ } else none
    | _, _ => none
  | .lose i =>
    match w.threads[i]? with
    | some ⟨n, asked, .call _ _ k⟩ => some { w with threads := w.threads.set i ⟨n, asked, k none⟩ }
    | _ => none
  | .answer i =>
    match w.threads[i]? with
    | some ⟨n, some r, .ret (some a)⟩ => some { w with answers := w.answers ++ [(n, r, a)] }
    | _ => none

def World.play (M : Machine N S O Res R A K F) (ok : (o : O) → Res o → Bool) (w : World N S O Res R A)
    (moves : List (Move N R K F)) : Option (World N S O Res R A) := moves.foldlM (World.move M ok) w

variable {ok : (o : O) → Res o → Bool}

theorem Move.Allowed.step {m : Move N R K F} (hm : m.Allowed M)
    (h : w.move M ok m = some w') : M.Step (fun o x => ok o x) w w' := by
  cases m with
  | request n r =>
    cases h
    exact .request n hm
  | task n t =>
    cases h
    exact .task n hm
  | fault n f =>
    cases h
    exact .fault n hm
  | act i =>
    simp only [World.move] at h
    split at h
    · rename_i hi
      split at h
      · rename_i hok
        cases h
        exact .act hi hok
      · cases h
    · cases h
  | deliver i =>
    simp only [World.move] at h
    split at h
    · rename_i hi
      obtain ⟨n', hr, rfl⟩ := Option.map_eq_some_iff.1 h
      exact .deliver hi hr
    · cases h
  | reply i j =>
    simp only [World.move] at h
    split at h
    · rename_i hi hj
      split at h
      · rename_i hr
        cases h
        obtain ⟨hr, rfl⟩ := hr
        exact .reply hi hr (mem_of_getElem? hj)
      · cases h
    · cases h
  | lose i =>
    simp only [World.move] at h
    split at h
    · rename_i hi
      cases h
      exact .lose hi
    · cases h
  | answer i =>
    simp only [World.move] at h
    split at h
    · rename_i hi
      cases h
      exact .answer hi
    · cases h

theorem Machine.Reachable.of_play {moves : List (Move N R K F)}
    (hm : ∀ m ∈ moves, m.Allowed M) (h : w.play M ok moves = some w') : M.Reachable (fun o x => ok o x) w w' := by
  induction moves using reverseRecOn generalizing w' with
  | nil =>
    cases h
    exact .refl
  | append_singleton moves m ih =>
    rw [World.play, foldlM_append, Option.bind_eq_bind, Option.bind_eq_some_iff] at h
    obtain ⟨w1, hw1, h⟩ := h
    have hs : w1.move M ok m = some w' := by simpa using h
    exact .step (ih (fun m' hm' => hm m' (mem_append_left _ hm')) hw1)
      ((hm m (mem_append_right _ (mem_singleton_self m))).step hs)

end

end Threads
