import RustHadoop.Lib.Threads
import Mathlib.Logic.Relation

/-!
# A program against its environment

One program of actions and calls runs, and everything around it is one state, the environment: it says what an
action or a call may result in and what state it leaves.
-/

namespace Threads

/-- What actions and calls may result in. -/
structure Environment (E O : Type) (Res : O → Type) (R A : Type) where
  act : E → (o : O) → Res o → E → Prop
  call : E → String → R → Option A → E → Prop

variable {E O : Type} {Res : O → Type} {R A α β : Type}

/-- The program, started in an environment, ends with this result and leaves this environment. -/
inductive Environment.Runs (V : Environment E O Res R A) : {α : Type} → E → Prog O Res R A α → E → α → Prop
  | ret {α : Type} {e : E} {a : α} : V.Runs e (.ret a) e a
  | act {α : Type} {e e1 e' : E} {o : O} {x : Res o} {k : Res o → Prog O Res R A α} {a : α} (hx : V.act e o x e1)
      (h : V.Runs e1 (k x) e' a) : V.Runs e (.act o k) e' a
  | call {α : Type} {e e1 e' : E} {address : String} {r : R} {x : Option A}
      {k : Option A → Prog O Res R A α} {a : α}
      (hx : V.call e address r x e1) (h : V.Runs e1 (k x) e' a) : V.Runs e (.call address r k) e' a

variable {a : α} {b : β} {o : O}

namespace Environment.Runs

variable {V : Environment E O Res R A} {e e' : E}

theorem ret_iff {b : α} : V.Runs e (.ret a : Prog O Res R A α) e' b ↔ e' = e ∧ b = a := by
  constructor
  · intro h
    cases h
    exact ⟨rfl, rfl⟩
  · rintro ⟨rfl, rfl⟩
    exact .ret

theorem perform_iff {x : Res o} : V.Runs e (Prog.perform o) e' x ↔ V.act e o x e' := by
  constructor
  · intro h
    cases h with
    | act hx h =>
      obtain ⟨rfl, rfl⟩ := ret_iff.1 h
      exact hx
  · intro h
    exact .act h .ret

theorem ask_iff {address : String} {r : R} {x : Option A} :
    V.Runs e (Prog.ask address r) e' x ↔ V.call e address r x e' := by
  constructor
  · intro h
    cases h with
    | call hx h =>
      obtain ⟨rfl, rfl⟩ := ret_iff.1 h
      exact hx
  · intro h
    exact .call h .ret

variable {p : Prog O Res R A α} {f : α → Prog O Res R A β}

theorem bind_iff : V.Runs e (p >>= f) e' b ↔ ∃ e1 a, V.Runs e p e1 a ∧ V.Runs e1 (f a) e' b := by
  show V.Runs e (p.bind f) e' b ↔ _
  constructor
  · intro h
    induction p generalizing e with
    | ret a => exact ⟨e, a, .ret, h⟩
    | act o k ih =>
      cases h with
      | act hx h =>
        obtain ⟨e1, a, hp, hf⟩ := ih _ h
        exact ⟨e1, a, .act hx hp, hf⟩
    | call address r k ih =>
      cases h with
      | call hx h =>
        obtain ⟨e1, a, hp, hf⟩ := ih _ h
        exact ⟨e1, a, .call hx hp, hf⟩
  · rintro ⟨e1, a, hp, hf⟩
    induction hp with
    | ret => exact hf
    | act hx _ ih => exact .act hx (ih hf)
    | call hx _ ih => exact .call hx (ih hf)

theorem bind {e1 : E} (h : V.Runs e p e1 a)
    (h' : V.Runs e1 (f a) e' b) : V.Runs e (p >>= f) e' b := bind_iff.2 ⟨e1, a, h, h'⟩

theorem mono {V' : Environment E O Res R A} (ha : ∀ e o x e', V.act e o x e' → V'.act e o x e')
    (hc : ∀ e address r x e', V.call e address r x e' → V'.call e address r x e')
    (h : V.Runs e p e' a) : V'.Runs e p e' a := by
  induction h with
  | ret => exact .ret
  | act hx _ ih => exact .act (ha _ _ _ _ hx) ih
  | call hx _ ih => exact .call (hc _ _ _ _ _ hx) ih

end Environment.Runs

def Prog.each (f : α → Prog O Res R A Unit) : List α → Prog O Res R A Unit
  | [] => pure ()
  | a :: rest => do
    f a
    each f rest

theorem Environment.Runs.each_cons {V : Environment E O Res R A} {e e' : E} {f : α → Prog O Res R A Unit}
    {rest : List α} : V.Runs e (Prog.each f (a :: rest)) e' () ↔
      ∃ e1, V.Runs e (f a) e1 () ∧ V.Runs e1 (Prog.each f rest) e' () := by
  constructor
  · intro h
    obtain ⟨e1, _, ha, hr⟩ := bind_iff.1 h
    exact ⟨e1, ha, hr⟩
  · rintro ⟨e1, ha, hr⟩
    exact ha.bind hr

/-- The program can end, and however it ends, the condition holds. -/
def Environment.Ensures (V : Environment E O Res R A) (e : E) (p : Prog O Res R A α) (Q : E → α → Prop) : Prop :=
  (∃ e' a, V.Runs e p e' a) ∧ ∀ e' a, V.Runs e p e' a → Q e' a

/-- However the program ends, it has kept `I`, and the condition holds of its result. -/
def Environment.Keeps (V : Environment E O Res R A) (I : E → Prop) (p : Prog O Res R A α) (Q : α → Prop) : Prop :=
  ∀ e, I e → ∀ e' a, V.Runs e p e' a → I e' ∧ Q a

/-- Whatever results of a kind its actions have, all of them are of a kind, and so is its own result. -/
def Prog.Performs (may : (o : O) → Res o → Prop) (P : O → Prop) (Q : α → Prop) : Prog O Res R A α → Prop
  | .ret a => Q a
  | .act o k => P o ∧ ∀ x, may o x → (k x).Performs may P Q
  | .call _ _ k => ∀ x, (k x).Performs may P Q

namespace Prog.Performs

variable {may : (o : O) → Res o → Prop} {P : O → Prop} {Q : α → Prop}

theorem perform (h : P o) : (Prog.perform o : Prog O Res R A (Res o)).Performs may P (may o) := ⟨h, fun _ hx => hx⟩

theorem bind {p : Prog O Res R A β} {S : β → Prop} {f : β → Prog O Res R A α} (hp : p.Performs may P S)
    (hf : ∀ b, S b → (f b).Performs may P Q) : (p >>= f).Performs may P Q := by
  show (p.bind f).Performs may P Q
  induction p with
  | ret b => exact hf b hp
  | act o k ih => exact ⟨hp.1, fun x hx => ih x (hp.2 x hx)⟩
  | call address r k ih => exact fun x => ih x (hp x)

theorem each {f : β → Prog O Res R A Unit} {l : List β} (h : ∀ b ∈ l, (f b).Performs may P fun _ => True) :
    (Prog.each f l).Performs may P fun _ => True := by
  induction l with
  | nil => exact trivial
  | cons b rest ih =>
    exact bind (h b List.mem_cons_self) fun _ _ => ih fun b hb => h b (List.mem_cons_of_mem _ hb)

theorem foldlM {f : α → β → Prog O Res R A α} (h : ∀ a b, (f a b).Performs may P fun _ => True)
    (l : List β) (a : α) : (l.foldlM f a : Prog O Res R A α).Performs may P fun _ => True := by
  induction l generalizing a with
  | nil => exact trivial
  | cons b rest ih =>
    rw [List.foldlM_cons]
    exact bind (h a b) fun a' _ => ih a'

variable {p : Prog O Res R A α}

theorem mono {P' : O → Prop} {Q' : α → Prop} (hP : ∀ o, P o → P' o) (hQ : ∀ a, Q a → Q' a)
    (h : p.Performs may P Q) : p.Performs may P' Q' := by
  induction p with
  | ret a => exact hQ a h
  | act o k ih => exact ⟨hP o h.1, fun x hx => ih x (h.2 x hx)⟩
  | call address r k ih => exact fun x => ih x (h x)

variable {V : Environment E O Res R A}

theorem keeps {I : E → Prop} (h : p.Performs may P Q)
    (ha : ∀ e o x e', P o → I e → V.act e o x e' → may o x ∧ I e')
    (hc : ∀ e address r x e', I e → V.call e address r x e' → I e') : V.Keeps I p Q := by
  intro e he e' a hr
  induction hr with
  | ret => exact ⟨he, h⟩
  | act hx _ ih =>
    obtain ⟨hm, hI⟩ := ha _ _ _ _ h.1 he hx
    exact ih (h.2 _ hm) hI
  | call hx _ ih => exact ih (h _) (hc _ _ _ _ _ he hx)

theorem simulates {S : E → E → Prop} (h : p.Performs may P Q)
    (ha : ∀ e d o x e', P o → S e d → V.act e o x e' → may o x ∧ ∃ d', V.act d o x d' ∧ S e' d')
    (hc : ∀ e d address r x e', S e d → V.call e address r x e' → ∃ d', V.call d address r x d' ∧ S e' d')
    {e d e' : E} (hr : V.Runs e p e' a) (hS : S e d) : ∃ d', V.Runs d p d' a := by
  induction hr generalizing d with
  | ret => exact ⟨d, .ret⟩
  | act hx _ ih =>
    obtain ⟨hm, d1, hd, hS1⟩ := ha _ _ _ _ _ h.1 hS hx
    obtain ⟨d', hr'⟩ := ih (h.2 _ hm) hS1
    exact ⟨d', .act hd hr'⟩
  | call hx _ ih =>
    obtain ⟨d1, hd, hS1⟩ := hc _ _ _ _ _ _ hS hx
    obtain ⟨d', hr'⟩ := ih (h _) hS1
    exact ⟨d', .call hd hr'⟩

end Prog.Performs

/-- Carry out a program that calls nobody, with one answer for every action. -/
def Prog.exec (step : E → (o : O) → Res o × E) : Prog O Res Empty Empty α → E → α × E
  | .ret a, e => (a, e)
  | .act o k, e =>
    match step e o with
    | (x, e') => (k x).exec step e'
  | .call _ r _, _ => r.elim

theorem Environment.Runs.exec {V : Environment E O Res Empty Empty} {step : E → (o : O) → Res o × E}
    (hs : ∀ e o, V.act e o (step e o).1 (step e o).2) (p : Prog O Res Empty Empty α) (e : E) :
    V.Runs e p (p.exec step e).2 (p.exec step e).1 := by
  induction p generalizing e with
  | ret a => exact .ret
  | act o k ih => exact .act (hs e o) (ih _ _)
  | call address r k ih => exact r.elim

end Threads
