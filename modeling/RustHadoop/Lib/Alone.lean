import RustHadoop.Lib.Process

/-!
# A handler that runs alone

A handler runs from its beginning to its end and nothing else happens, apart from the handlers that it calls.  It
reads the present states, its commands are applied one after the other, and its calls are answered if the address
leads to a node.  What is left open is what it sees around it, and which outcomes other than success it may be told
of a command, which is then not applied.
-/

namespace Process

open Proc

variable {N S C R A E : Type} [DecidableEq N]

/-- The handler of node `n`, started when the nodes are in the states `σ`, leaves them in the states `σ'` and ends
with the given value. -/
inductive Alone (sv : Service N S C R A E) (fails : Outcome → Prop) :
    {α : Type} → (N → S) → N → Proc S C R A E α → (N → S) → α → Prop
  | ret {α : Type} {σ : N → S} {n : N} {a : α} : Alone sv fails σ n (.ret a) σ a
  | read {α : Type} {σ σ' : N → S} {n : N} {k : S → Proc S C R A E α} {a : α}
      (h : Alone sv fails σ n (k (σ n)) σ' a) :
      Alone sv fails σ n (.read k) σ' a
  | look {α : Type} {σ σ' : N → S} {n : N} {k : E → Proc S C R A E α} {a : α} {e : E} (he : sv.surroundings n e)
      (h : Alone sv fails σ n (k e) σ' a) : Alone sv fails σ n (.look k) σ' a
  | applied {α : Type} {σ σ' : N → S} {n : N} {c : C} {k : Outcome → Proc S C R A E α} {a : α}
      (h : Alone sv fails (Function.update σ n (sv.apply n (σ n) c)) n (k .applied) σ' a) :
      Alone sv fails σ n (.propose c k) σ' a
  | failed {α : Type} {σ σ' : N → S} {n : N} {c : C} {k : Outcome → Proc S C R A E α} {a : α} {o : Outcome}
      (ho : fails o) (h : Alone sv fails σ n (k o) σ' a) : Alone sv fails σ n (.propose c k) σ' a
  | served {α : Type} {σ σ₁ σ' : N → S} {n m : N} {address : String} {r : R}
      {k : Option A → Proc S C R A E α} {a : α}
      {b : Option A} (hm : sv.route address = some m) (hs : Alone sv fails σ m (sv.serve m r) σ₁ b)
      (h : Alone sv fails σ₁ n (k b) σ' a) : Alone sv fails σ n (.call address r k) σ' a
  | unrouted {α : Type} {σ σ' : N → S} {n : N} {address : String} {r : R} {k : Option A → Proc S C R A E α} {a : α}
      (hm : sv.route address = none) (h : Alone sv fails σ n (k none) σ' a) :
        Alone sv fails σ n (.call address r k) σ' a

namespace Alone

variable {sv : Service N S C R A E} {fails : Outcome → Prop} {α β : Type} {σ σ' : N → S} {n : N} {a : α} {b : β}

@[simp]
theorem ret_iff {a' : α} : Alone sv fails σ n (.ret a') σ' a ↔ σ' = σ ∧ a = a' := by
  constructor
  · intro h
    cases h
    exact ⟨rfl, rfl⟩
  · rintro ⟨rfl, rfl⟩
    exact .ret

theorem bind_iff {p : Proc S C R A E α} {f : α → Proc S C R A E β} :
    Alone sv fails σ n (p >>= f) σ' b ↔ ∃ σ₁ a, Alone sv fails σ n p σ₁ a ∧ Alone sv fails σ₁ n (f a) σ' b := by
  show Alone sv fails σ n (p.bind f) σ' b ↔ _
  constructor
  · intro h
    induction p generalizing σ with
    | ret a => exact ⟨σ, a, .ret, h⟩
    | read k ih =>
      cases h with
      | read h =>
        obtain ⟨σ₁, a, hp, hf⟩ := ih _ h
        exact ⟨σ₁, a, .read hp, hf⟩
    | look k ih =>
      cases h with
      | look he h =>
        obtain ⟨σ₁, a, hp, hf⟩ := ih _ h
        exact ⟨σ₁, a, .look he hp, hf⟩
    | propose c k ih =>
      cases h with
      | applied h =>
        obtain ⟨σ₁, a, hp, hf⟩ := ih _ h
        exact ⟨σ₁, a, .applied hp, hf⟩
      | failed ho h =>
        obtain ⟨σ₁, a, hp, hf⟩ := ih _ h
        exact ⟨σ₁, a, .failed ho hp, hf⟩
    | call address r k ih =>
      cases h with
      | served hm hs h =>
        obtain ⟨σ₁, a, hp, hf⟩ := ih _ h
        exact ⟨σ₁, a, .served hm hs hp, hf⟩
      | unrouted hm h =>
        obtain ⟨σ₁, a, hp, hf⟩ := ih _ h
        exact ⟨σ₁, a, .unrouted hm hp, hf⟩
  · rintro ⟨σ₁, a, hp, hf⟩
    induction hp with
    | ret => exact hf
    | read _ ih => exact .read (ih hf)
    | look he _ ih => exact .look he (ih hf)
    | applied _ ih => exact .applied (ih hf)
    | failed ho _ ih => exact .failed ho (ih hf)
    | served hm hs _ _ ih => exact .served hm hs (ih hf)
    | unrouted hm _ ih => exact .unrouted hm (ih hf)

section Statements

theorem state_iff {f : S → Proc S C R A E β} :
    Alone sv fails σ n (state >>= f) σ' b ↔ Alone sv fails σ n (f (σ n)) σ' b := by
  constructor
  · intro h
    cases h with
    | read h => exact h
  · exact .read

theorem around_iff {f : E → Proc S C R A E β} :
    Alone sv fails σ n (around >>= f) σ' b ↔ ∃ e, sv.surroundings n e ∧ Alone sv fails σ n (f e) σ' b := by
  constructor
  · intro h
    cases h with
    | look he h => exact ⟨_, he, h⟩
  · rintro ⟨e, he, h⟩
    exact .look he h

theorem submit_iff {c : C} {f : Outcome → Proc S C R A E β} : Alone sv fails σ n (submit c >>= f) σ' b ↔
      Alone sv fails (Function.update σ n (sv.apply n (σ n) c)) n (f .applied) σ' b ∨
        ∃ o, fails o ∧ Alone sv fails σ n (f o) σ' b := by
  constructor
  · intro h
    cases h with
    | applied h => exact .inl h
    | failed ho h => exact .inr ⟨_, ho, h⟩
  · rintro (h | ⟨o, ho, h⟩)
    · exact .applied h
    · exact .failed ho h

theorem ask_iff {address : String} {r : R} {f : Option A → Proc S C R A E β} :
    Alone sv fails σ n (ask address r >>= f) σ' b ↔
      (∃ m σ₁ y, sv.route address = some m ∧ Alone sv fails σ m (sv.serve m r) σ₁ y ∧
        Alone sv fails σ₁ n (f y) σ' b) ∨ (sv.route address = none ∧ Alone sv fails σ n (f none) σ' b) := by
  constructor
  · intro h
    cases h with
    | served hm hs h => exact .inl ⟨_, _, _, hm, hs, h⟩
    | unrouted hm h => exact .inr ⟨hm, h⟩
  · rintro (⟨m, σ₁, y, hm, hs, h⟩ | ⟨hm, h⟩)
    · exact .served hm hs h
    · exact .unrouted hm h

end Statements

end Alone

def Proc.CallFree {α : Type} : Proc S C R A E α → Prop
  | .ret _ => True
  | .read k => ∀ s, (k s).CallFree
  | .look k => ∀ e, (k e).CallFree
  | .propose _ k => ∀ o, (k o).CallFree
  | .call _ _ _ => False

section CallFree

variable {β : Type}

theorem Proc.CallFree.state {f : S → Proc S C R A E β} (h : ∀ s, (f s).CallFree) : (state >>= f).CallFree := h

theorem Proc.CallFree.around {f : E → Proc S C R A E β} (h : ∀ e, (f e).CallFree) : (around >>= f).CallFree := h

theorem Proc.CallFree.submit {c : C} {f : Outcome → Proc S C R A E β} (h : ∀ o, (f o).CallFree) :
    (submit c >>= f).CallFree := h

end CallFree

section Exists

variable {sv : Service N S C R A E} {fails : Outcome → Prop} {α : Type} (he : ∀ n, ∃ e, sv.surroundings n e)

include he

theorem Alone.exists_of_callFree {p : Proc S C R A E α} (hp : p.CallFree) (σ : N → S) (n : N) :
    ∃ σ' a, Alone sv fails σ n p σ' a := by
  induction p generalizing σ with
  | ret a => exact ⟨σ, a, .ret⟩
  | read k ih =>
    obtain ⟨σ', a, h⟩ := ih _ (hp _) σ
    exact ⟨σ', a, .read h⟩
  | look k ih =>
    obtain ⟨e, hs⟩ := he n
    obtain ⟨σ', a, h⟩ := ih e (hp e) σ
    exact ⟨σ', a, .look hs h⟩
  | propose c k ih =>
    obtain ⟨σ', a, h⟩ := ih .applied (hp _) (Function.update σ n (sv.apply n (σ n) c))
    exact ⟨σ', a, .applied h⟩
  | call => exact hp.elim

theorem Alone.exists_of_serve (hsr : ∀ m r, (sv.serve m r).CallFree) (p : Proc S C R A E α) (σ : N → S) (n : N) :
    ∃ σ' a, Alone sv fails σ n p σ' a := by
  induction p generalizing σ with
  | ret a => exact ⟨σ, a, .ret⟩
  | read k ih =>
    obtain ⟨σ', a, h⟩ := ih _ σ
    exact ⟨σ', a, .read h⟩
  | look k ih =>
    obtain ⟨e, hsee⟩ := he n
    obtain ⟨σ', a, h⟩ := ih e σ
    exact ⟨σ', a, .look hsee h⟩
  | propose c k ih =>
    obtain ⟨σ', a, h⟩ := ih .applied (Function.update σ n (sv.apply n (σ n) c))
    exact ⟨σ', a, .applied h⟩
  | call address r k ih =>
    cases hm : sv.route address with
    | none =>
      obtain ⟨σ', a, h⟩ := ih none σ
      exact ⟨σ', a, .unrouted hm h⟩
    | some m =>
      obtain ⟨σ₁, b, hs⟩ := Alone.exists_of_callFree he (hsr m r) σ m
      obtain ⟨σ', a, h⟩ := ih b σ₁
      exact ⟨σ', a, .served hm hs h⟩

end Exists

section Evaluate

variable {α : Type} (sv : Service N S C R A E) (e : N → E)

/-- The run in which every handler of node `n` sees `e n` around it, given how calls are answered. -/
def Proc.evaluate (answer : (N → S) → N → R → Option ((N → S) × Option A)) (n : N) :
    (N → S) → Proc S C R A E α → Option ((N → S) × α)
  | σ, .ret a => some (σ, a)
  | σ, .read k => (k (σ n)).evaluate answer n σ
  | σ, .look k => (k (e n)).evaluate answer n σ
  | σ, .propose c k => (k .applied).evaluate answer n (Function.update σ n (sv.apply n (σ n) c))
  | σ, .call address r k =>
    match sv.route address with
    | some m => (answer σ m r).bind fun y => (k y.2).evaluate answer n y.1
    | none => (k none).evaluate answer n σ

def answerAlone (depth : Nat) (σ : N → S) (m : N) (r : R) : Option ((N → S) × Option A) :=
  match depth with
  | 0 => none
  | depth + 1 => (sv.serve m r).evaluate sv e (answerAlone depth) m σ

def runAlone (depth : Nat) (σ : N → S) (n : N) (p : Proc S C R A E α) : Option ((N → S) × α) :=
  p.evaluate sv e (answerAlone sv e depth) n σ

variable {sv e} {fails : Outcome → Prop} {σ σ' : N → S} {n : N} {a : α}

section

variable (he : ∀ n, sv.surroundings n (e n))
include he

theorem Alone.of_evaluate {answer : (N → S) → N → R → Option ((N → S) × Option A)}
    (ha : ∀ σ m r σ' b, answer σ m r = some (σ', b) → Alone sv fails σ m (sv.serve m r) σ' b)
    (p : Proc S C R A E α) (h : p.evaluate sv e answer n σ = some (σ', a)) : Alone sv fails σ n p σ' a := by
  induction p generalizing σ with
  | ret a' =>
    obtain ⟨rfl, rfl⟩ : σ = σ' ∧ a' = a := by simpa [evaluate] using h
    exact .ret
  | read k ih => exact .read (ih _ h)
  | look k ih => exact .look (he n) (ih _ h)
  | propose c k ih => exact .applied (ih _ h)
  | call address r k ih =>
    simp only [evaluate] at h
    split at h
    · rename_i m hm
      obtain ⟨⟨σ₁, b⟩, hb, h⟩ := Option.bind_eq_some_iff.1 h
      exact .served hm (ha _ _ _ _ _ hb) (ih _ h)
    · rename_i hm
      exact .unrouted hm (ih _ h)

theorem Alone.of_answerAlone (depth : Nat) {m : N} {r : R} {b : Option A}
    (h : answerAlone sv e depth σ m r = some (σ', b)) : Alone sv fails σ m (sv.serve m r) σ' b := by
  induction depth generalizing σ σ' m r b with
  | zero => cases h
  | succ depth ih => exact .of_evaluate he (fun _ _ _ _ _ h => ih h) _ h

theorem Alone.of_runAlone (depth : Nat) {p : Proc S C R A E α}
    (h : runAlone sv e depth σ n p = some (σ', a)) : Alone sv fails σ n p σ' a :=
  .of_evaluate he (fun _ _ _ _ _ h => .of_answerAlone he depth h) p h

end

end Evaluate

end Process
