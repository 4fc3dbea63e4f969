import Mathlib.Order.Basic
import Mathlib.Data.List.Basic

/-!
# Handlers over state machines that apply commands

A node is a state machine that applies one command after another.  Around it run handlers: a handler reads a state
of its node, not necessarily the latest one, proposes commands, calls handlers of other nodes and looks at its
surroundings (clocks, configuration).  A proposed command may be applied at any later time or never, whatever the
handler was told except that it was applied.  Calls are lost, duplicated and delayed, any number of handlers run at
the same time, and a handler may die at any point.
-/

namespace Process

/-- What a handler is told about a command it proposed. -/
inductive Outcome
  | applied
  | notLeader (hint : Option String)
  /-- the command could not be handed over -/
  | closed
  /-- no answer came -/
  | dropped
deriving DecidableEq

/-- A handler that ends with an `α`: it reads states `S`, looks at surroundings `E`, proposes commands `C`, and
calls addresses with requests `R` for answers `A`. -/
inductive Proc (S C R A E α : Type) : Type
  | ret (a : α)
  | read (k : S → Proc S C R A E α)
  | look (k : E → Proc S C R A E α)
  | propose (c : C) (k : Outcome → Proc S C R A E α)
  | call (address : String) (r : R) (k : Option A → Proc S C R A E α)

namespace Proc

variable {S C R A E α β : Type}

def bind (f : α → Proc S C R A E β) : Proc S C R A E α → Proc S C R A E β
  | ret a => f a
  | read k => .read fun s => (k s).bind f
  | look k => .look fun e => (k e).bind f
  | propose c k => .propose c fun o => (k o).bind f
  | call address r k => .call address r fun a => (k a).bind f

instance : Monad (Proc S C R A E) where
  pure := ret
  bind p f := p.bind f

def state : Proc S C R A E S := .read .ret

def around : Proc S C R A E E := .look .ret

def submit (c : C) : Proc S C R A E Outcome := .propose c .ret

def ask (address : String) (r : R) : Proc S C R A E (Option A) := .call address r .ret

def each (f : β → Proc S C R A E Unit) : List β → Proc S C R A E Unit
  | [] => pure ()
  | b :: bs => do
    f b
    each f bs

def select (p : β → Proc S C R A E Bool) : List β → Proc S C R A E (List β)
  | [] => pure []
  | b :: bs => do
    let keep ← p b
    let rest ← select p bs
    pure (if keep then b :: rest else rest)

end Proc

structure Service (N S C R A E : Type) where
  apply : N → S → C → S
  /-- the handler of a request -/
  serve : N → R → Proc S C R A E (Option A)
  /-- the node behind an address -/
  route : String → Option N
  /-- what a handler of the node may see around it -/
  surroundings : N → E → Prop
  /-- handlers that start by themselves or for a client, at any time and any number of times -/
  starts : N → Proc S C R A E (Option A) → Prop
  /-- commands that come from elsewhere -/
  others : N → C → Prop

section Runs

variable {N S C R A E : Type}

inductive Task (S C R A E : Type)
  | run (p : Proc S C R A E (Option A))
  /-- waiting to hear about a proposal -/
  | waiting (proposal : Nat) (k : Outcome → Proc S C R A E (Option A))
  /-- waiting for the answer to a call -/
  | calling (request : Nat) (k : Option A → Proc S C R A E (Option A))

/-- A running handler of a node, with the request it serves, if any. -/
structure Thread (N S C R A E : Type) where
  node : N
  serves : Option Nat
  task : Task S C R A E

structure Proposal (N C : Type) where
  node : N
  command : C
  applied : Bool

structure World (N S C R A E : Type) where
  state : N → S
  /-- the states that a node has been in before -/
  past : N → S → Prop
  proposals : List (Proposal N C)
  requests : List (String × R)
  responses : List (Nat × A)
  threads : List (Thread N S C R A E)

namespace World

def init (state : N → S) : World N S C R A E := ⟨state, fun _ _ => False, [], [], [], []⟩

variable (x : World N S C R A E)

def enter [DecidableEq N] (n : N) (s : S) : World N S C R A E :=
  { x with state := Function.update x.state n s, past := fun m s' => x.past m s' ∨ (m = n ∧ s' = x.state n) }

def spawn (t : Thread N S C R A E) : World N S C R A E := { x with threads := x.threads ++ [t] }

def resume (i : Nat) (t : Thread N S C R A E) : World N S C R A E :=
  { x with threads := x.threads.set i t }

end World

variable [DecidableEq N]

inductive Step (sv : Service N S C R A E) (x : World N S C R A E) : World N S C R A E → Prop
  | start {n : N} {p} (h : sv.starts n p) : Step sv x (x.spawn ⟨n, none, .run p⟩)
  | deliver {k : Nat} {address : String} {r : R} {n : N} (hr : x.requests[k]? = some (address, r))
      (hn : sv.route address = some n) : Step sv x (x.spawn ⟨n, some k, .run (sv.serve n r)⟩)
  | die (i : Nat) : Step sv x { x with threads := x.threads.eraseIdx i }
  | other {n : N} {c : C} (h : sv.others n c) : Step sv x (x.enter n (sv.apply n (x.state n) c))
  | apply {k : Nat} {p : Proposal N C} (h : x.proposals[k]? = some p) (hp : p.applied = false) :
      Step sv x { x.enter p.node (sv.apply p.node (x.state p.node) p.command) with
        proposals := x.proposals.set k { p with applied := true } }
  | read {i : Nat} {n : N} {o k} {s : S} (h : x.threads[i]? = some ⟨n, o, .run (.read k)⟩)
      (hs : s = x.state n ∨ x.past n s) : Step sv x (x.resume i ⟨n, o, .run (k s)⟩)
  | look {i : Nat} {n : N} {o k} {e : E} (h : x.threads[i]? = some ⟨n, o, .run (.look k)⟩)
      (he : sv.surroundings n e) : Step sv x (x.resume i ⟨n, o, .run (k e)⟩)
  | propose {i : Nat} {n : N} {o k} {c : C} (h : x.threads[i]? = some ⟨n, o, .run (.propose c k)⟩) :
      Step sv x
        { x.resume i ⟨n, o, .waiting x.proposals.length k⟩ with proposals := x.proposals ++ [⟨n, c, false⟩] }
  | refused {i : Nat} {n : N} {o k} {c : C} (h : x.threads[i]? = some ⟨n, o, .run (.propose c k)⟩) :
      Step sv x (x.resume i ⟨n, o, .run (k .closed)⟩)
  | applied {i id : Nat} {n : N} {o k} {p : Proposal N C} (h : x.threads[i]? = some ⟨n, o, .waiting id k⟩)
      (hp : x.proposals[id]? = some p) (ha : p.applied = true) : Step sv x (x.resume i ⟨n, o, .run (k .applied)⟩)
  | unsure {i id : Nat} {n : N} {o k} {out : Outcome} (h : x.threads[i]? = some ⟨n, o, .waiting id k⟩)
      (ho : out ≠ .applied) : Step sv x (x.resume i ⟨n, o, .run (k out)⟩)
  | call {i : Nat} {n : N} {o address r k} (h : x.threads[i]? = some ⟨n, o, .run (.call address r k)⟩) :
      Step sv x { x.resume i ⟨n, o, .calling x.requests.length k⟩ with requests := x.requests ++ [(address, r)] }
  | answered {i id : Nat} {n : N} {o k} {a : A} (h : x.threads[i]? = some ⟨n, o, .calling id k⟩)
      (ha : (id, a) ∈ x.responses) : Step sv x (x.resume i ⟨n, o, .run (k (some a))⟩)
  | unanswered {i id : Nat} {n : N} {o k} (h : x.threads[i]? = some ⟨n, o, .calling id k⟩) :
      Step sv x (x.resume i ⟨n, o, .run (k none)⟩)
  | finish {i id : Nat} {n : N} {a : A} (h : x.threads[i]? = some ⟨n, some id, .run (.ret (some a))⟩) :
      Step sv x { x with responses := x.responses ++ [(id, a)], threads := x.threads.eraseIdx i }

inductive Reachable (sv : Service N S C R A E) (state : N → S) : World N S C R A E → Prop
  | init : Reachable sv state (.init state)
  | step {x y} : Reachable sv state x → Step sv x y → Reachable sv state y

end Runs

section Scripts

variable {N S C R A E : Type} [DecidableEq N]

inductive Move (N S C R A E : Type)
  | start (n : N) (p : Proc S C R A E (Option A))
  | deliver (k : Nat)
  | apply (k : Nat)
  | go (i : Nat) (e : E)

variable (x : World N S C R A E)

/-- Let the handler at position `i` go on: it reads the present state, and waits if there is nothing to hear
yet. -/
def World.go (i : Nat) (e : E) : World N S C R A E :=
  match x.threads[i]? with
  | some ⟨n, o, .run (.read k)⟩ => x.resume i ⟨n, o, .run (k (x.state n))⟩
  | some ⟨n, o, .run (.look k)⟩ => x.resume i ⟨n, o, .run (k e)⟩
  | some ⟨n, o, .run (.propose c k)⟩ =>
    { x.resume i ⟨n, o, .waiting x.proposals.length k⟩ with proposals := x.proposals ++ [⟨n, c, false⟩] }
  | some ⟨n, o, .run (.call address r k)⟩ =>
    { x.resume i ⟨n, o, .calling x.requests.length k⟩ with requests := x.requests ++ [(address, r)] }
  | some ⟨n, o, .waiting id k⟩ =>
    if (x.proposals[id]?).any Proposal.applied then x.resume i ⟨n, o, .run (k .applied)⟩ else x
  | some ⟨n, o, .calling id k⟩ =>
    match x.responses.find? fun y => y.1 = id with
    | some y => x.resume i ⟨n, o, .run (k (some y.2))⟩
    | none => x
  | some ⟨_, some id, .run (.ret (some a))⟩ =>
    { x with responses := x.responses ++ [(id, a)], threads := x.threads.eraseIdx i }
  | _ => x

variable (sv : Service N S C R A E)

def World.move : Move N S C R A E → World N S C R A E
  | .start n p => x.spawn ⟨n, none, .run p⟩
  | .deliver k =>
    match x.requests[k]? with
    | some q => match sv.route q.1 with
      | some n => x.spawn ⟨n, some k, .run (sv.serve n q.2)⟩
      | none => x
    | none => x
  | .apply k =>
    match x.proposals[k]? with
    | some p =>
      if p.applied then x
      else { x.enter p.node (sv.apply p.node (x.state p.node) p.command) with
        proposals := x.proposals.set k { p with applied := true } }
    | none => x
  | .go i e => x.go i e

def World.play (ms : List (Move N S C R A E)) : World N S C R A E :=
  ms.foldl (fun x m => x.move sv m) x

def Move.Allowed : Move N S C R A E → Prop
  | .start n p => sv.starts n p
  | .go _ e => ∀ n, sv.surroundings n e
  | .deliver _ | .apply _ => True

variable {sv : Service N S C R A E} {state : N → S} {x : World N S C R A E}

theorem World.go_step (x : World N S C R A E) (i : Nat) {e : E} (he : ∀ n, sv.surroundings n e) :
    x.go i e = x ∨ Step sv x (x.go i e) := by
  unfold World.go
  split
  · rename_i ht
    exact .inr (.read ht (.inl rfl))
  · rename_i ht
    exact .inr (.look ht (he _))
  · rename_i ht
    exact .inr (.propose ht)
  · rename_i ht
    exact .inr (.call ht)
  · rename_i ht
    split
    · rename_i hp
      obtain ⟨p, hp, ha⟩ := (Option.any_eq_true _ _).1 hp
      exact .inr (.applied ht hp ha)
    · exact .inl rfl
  · rename_i n o id k ht
    split
    · rename_i y hy
      have hid : y.1 = id := by simpa using List.find?_some hy
      refine .inr (.answered ht ?_)
      rw [← hid]
      exact List.mem_of_find?_eq_some hy
    · exact .inl rfl
  · rename_i ht
    exact .inr (.finish ht)
  · exact .inl rfl

variable {m : Move N S C R A E}

theorem World.move_step (x : World N S C R A E) (hm : m.Allowed sv) :
    x.move sv m = x ∨ Step sv x (x.move sv m) := by
  cases m with
  | start n p => exact .inr (.start hm)
  | deliver k =>
    simp only [World.move]
    split
    · rename_i q hq
      split
      · rename_i n hn
        exact .inr (.deliver hq hn)
      · exact .inl rfl
    · exact .inl rfl
  | apply k =>
    simp only [World.move]
    split
    · rename_i p hp
      split
      · exact .inl rfl
      · rename_i ha
        exact .inr (.apply hp (by simpa using ha))
    · exact .inl rfl
  | go i e => exact x.go_step i hm

theorem Reachable.move (h : Reachable sv state x) (hm : m.Allowed sv) : Reachable sv state (x.move sv m) := by
  rcases x.move_step hm with hx | hs
  · rw [hx]
    exact h
  · exact h.step hs

theorem Reachable.play (h : Reachable sv state x) (ms : List (Move N S C R A E)) (hms : ∀ m ∈ ms, m.Allowed sv) :
    Reachable sv state (x.play sv ms) := by
  induction ms generalizing x with
  | nil => exact h
  | cons m ms ih =>
    exact ih (h.move (hms m (List.mem_cons_self ..))) fun m' hm' => hms m' (List.mem_cons_of_mem _ hm')

end Scripts

end Process
