import Mathlib.Data.Set.BooleanAlgebra
import Mathlib.Order.CompletePartialOrder
import RustHadoop.Lib.Process

/-!
# Rules for handlers

A program logic for handlers.  It speaks about what is *known*, an element of a preorder that only goes up: what
one handler has learned stays true whatever the others do.  `Rules` says what a handler may conclude from what it
reads, sees and hears, and what it has to keep to when it proposes, calls and answers; `Proc.Obeys` says that a
handler does.

What is known is linked to the world by a relation of its own, and a `Guard` restricts the runs: it says which
commands are applied and what is seen in which world.  `Run.obeys` is the rule for whole runs; `Reachable.run`
makes it one for the runs without a condition.
-/

namespace Process

open List

variable {N S C R A E α β : Type}

variable (x : World N S C R A E)

def World.commands : Set (N × C) :=
  {d | ∃ p ∈ x.proposals, p.applied = true ∧ (p.node, p.command) = d}

def World.Applies (p : Proposal N C) (y : World N S C R A E) : Prop :=
  ∃ (k : Nat) (q : Proposal N C), x.proposals[k]? = some p ∧ p.applied = false ∧ y.proposals[k]? = some q ∧
    q.applied = true

/-- A condition on runs: what may be seen and which proposal may be applied in a world. -/
structure Guard (N S C R A E : Type) where
  look : World N S C R A E → N → E → Prop
  apply : World N S C R A E → Proposal N C → Prop

def Guard.any : Guard N S C R A E := ⟨fun _ _ _ => True, fun _ _ => True⟩

variable (sv : Service N S C R A E)

def Service.seeing (see : N → E → Prop) : Service N S C R A E :=
  { sv with surroundings := fun n e => sv.surroundings n e ∧ see n e }

def GuardedStep [DecidableEq N] (g : Guard N S C R A E) (x y : World N S C R A E) : Prop :=
  Step (sv.seeing (g.look x)) x y ∧ ∀ p, x.Applies p y → g.apply x p

abbrev Run [DecidableEq N] (g : Guard N S C R A E) : World N S C R A E → World N S C R A E → Prop :=
  Relation.ReflTransGen (GuardedStep sv g)

section

variable [DecidableEq N] {sv : Service N S C R A E}

theorem Step.weaken {x y : World N S C R A E} {see : N → E → Prop}
    {starts : N → Proc S C R A E (Option A) → Prop} {others : N → C → Prop}
    (hsee : ∀ n e, sv.surroundings n e → see n e) (hst : ∀ n p, sv.starts n p → starts n p)
    (hoh : ∀ n c, sv.others n c → others n c) (h : Step sv x y) :
    Step { sv with surroundings := see, starts := starts, others := others } x y := by
  cases h with
  | start h => exact .start (hst _ _ h)
  | deliver hr hn => exact .deliver hr hn
  | die i => exact .die i
  | other h => exact .other (hoh _ _ h)
  | apply h hp => exact .apply h hp
  | read h hs => exact .read h hs
  | look h he => exact .look h (hsee _ _ he)
  | propose h => exact .propose h
  | refused h => exact .refused h
  | applied h hp ha => exact .applied h hp ha
  | unsure h ho => exact .unsure h ho
  | call h => exact .call h
  | answered h ha => exact .answered h ha
  | unanswered h => exact .unanswered h
  | finish h => exact .finish h

theorem Step.guarded_any {x y : World N S C R A E} (h : Step sv x y) : GuardedStep sv .any x y :=
  ⟨h.weaken (fun _ _ he => ⟨he, trivial⟩) (fun _ _ h => h) fun _ _ h => h, fun _ _ => trivial⟩

theorem Reachable.run {state : N → S} {x : World N S C R A E}
    (h : Reachable sv state x) : Run sv .any (.init state) x := by
  induction h with
  | init => exact .refl
  | step _ hst ih => exact ih.tail hst.guarded_any

end

/-- Nothing has been applied in between. -/
structure World.Same (x y : World N S C R A E) : Prop where
  state : y.state = x.state
  past : y.past = x.past
  commands : y.commands = x.commands

def World.applyAt [DecidableEq N] (k : Nat) (p : Proposal N C) : World N S C R A E :=
  { x.enter p.node (sv.apply p.node (x.state p.node) p.command) with
    proposals := x.proposals.set k { p with applied := true } }

variable {n : N}

section

variable [DecidableEq N] {sv : Service N S C R A E} {x : World N S C R A E} {k : Nat} {p : Proposal N C}

theorem World.state_applyAt_self : (x.applyAt sv k p).state p.node = sv.apply p.node (x.state p.node) p.command :=
  Function.update_self ..

theorem World.state_applyAt_of_ne (hn : n ≠ p.node) : (x.applyAt sv k p).state n = x.state n :=
  Function.update_of_ne hn ..

theorem World.commands_applyAt (hk : x.proposals[k]? = some p) (hp : p.applied = false) :
    (x.applyAt sv k p).commands = insert (p.node, p.command) x.commands := by
  obtain ⟨hlt, hg⟩ := List.getElem?_eq_some_iff.1 hk
  ext d
  constructor
  · rintro ⟨q, hq, ha, rfl⟩
    rcases mem_or_eq_of_mem_set hq with hq | rfl
    · exact .inr ⟨q, hq, ha, rfl⟩
    · exact .inl rfl
  · rintro (rfl | ⟨q, hq, ha, rfl⟩)
    · exact ⟨_, mem_set hlt _, rfl, rfl⟩
    · obtain ⟨i, hi⟩ := mem_iff_getElem?.1 hq
      have hne : k ≠ i := by
        rintro rfl
        rw [hk, Option.some.injEq] at hi
        rw [← hi, hp] at ha
        cases ha
      have hset : (x.proposals.set k { p with applied := true })[i]? = some q := by
        rw [getElem?_set_ne hne]
        exact hi
      exact ⟨q, mem_of_getElem? hset, ha, rfl⟩

end

theorem Step.state_cases [DecidableEq N] {sv : Service N S C R A E} {x y : World N S C R A E} (h : Step sv x y) :
    y.state = x.state ∨ (∃ n c, sv.others n c ∧ y.state = (x.enter n (sv.apply n (x.state n) c)).state) ∨
      ∃ k p, x.proposals[k]? = some p ∧ p.applied = false ∧ y = x.applyAt sv k p := by
  cases h with
  | @other n c h => exact .inr (.inl ⟨n, c, h, rfl⟩)
  | @apply k p h hp => exact .inr (.inr ⟨k, p, h, hp, rfl⟩)
  | _ => exact .inl rfl

variable {W : Type} [Preorder W]

/-- What handlers may rely on and have to keep, in terms of what is known. -/
structure Rules (sv : Service N S C R A E) (W : Type) [Preorder W] where
  /-- true of every state that a node has been in -/
  known : N → W → S → Prop
  /-- true of what a handler sees around it -/
  seen : N → W → E → Prop
  /-- the command may be proposed -/
  command : N → W → C → Prop
  /-- known once the command has been applied -/
  applied : N → W → C → Prop
  /-- the request may be sent to the node -/
  request : N → W → R → Prop
  /-- the request may be answered so -/
  response : W → R → A → Prop
  /-- a handler that serves no request may end so -/
  result : N → W → A → Prop
  known_mono : ∀ {n w w' s}, w ≤ w' → known n w s → known n w' s
  command_mono : ∀ {n w w' c}, w ≤ w' → command n w c → command n w' c
  applied_mono : ∀ {n w w' c}, w ≤ w' → applied n w c → applied n w' c
  request_mono : ∀ {n w w' r}, w ≤ w' → request n w r → request n w' r
  response_mono : ∀ {w w' r a}, w ≤ w' → response w r a → response w' r a
  result_mono : ∀ {n w w' a}, w ≤ w' → result n w a → result n w' a

variable {sv : Service N S C R A E} (K : Rules sv W)

/-- Started on node `n` when `w` is known, the handler keeps to the rules and ends with `Q`. -/
def Proc.Obeys (n : N) : W → Proc S C R A E α → (W → α → Prop) → Prop
  | w, .ret a, Q => Q w a
  | w, .read k, Q => ∀ w', w ≤ w' → ∀ s, K.known n w' s → (k s).Obeys n w' Q
  | w, .look k, Q => ∀ w', w ≤ w' → ∀ e, K.seen n w' e → (k e).Obeys n w' Q
  | w, .propose c k, Q => K.command n w c ∧ ∀ w', w ≤ w' → ∀ o, (o = .applied → K.applied n w' c) →
      (k o).Obeys n w' Q
  | w, .call address r k, Q => (∀ m, sv.route address = some m → K.request m w r) ∧
      ∀ w', w ≤ w' → ∀ a, (∀ x, a = some x → K.response w' r x) → (k a).Obeys n w' Q

variable {K} {n : N} {w w' : W} {p : Proc S C R A E α} {Q : W → α → Prop}

theorem Proc.Obeys.mono (hQ : ∀ v v' a, v ≤ v' → Q v a → Q v' a)
    (hw : w ≤ w') (h : p.Obeys K n w Q) : p.Obeys K n w' Q := by
  cases p with
  | ret a => exact hQ w w' a hw h
  | read k | look k => exact fun v hv => h v (hw.trans hv)
  | propose c k => exact ⟨K.command_mono hw h.1, fun v hv => h.2 v (hw.trans hv)⟩
  | call address r k => exact ⟨fun m hm => K.request_mono hw (h.1 m hm), fun v hv => h.2 v (hw.trans hv)⟩

theorem Proc.Obeys.imp {Q' : W → α → Prop} (h : p.Obeys K n w Q)
    (hQ : ∀ v a, w ≤ v → Q v a → Q' v a) : p.Obeys K n w Q' := by
  induction p generalizing w with
  | ret a => exact hQ w a le_rfl h
  | read k ih => exact fun v hv s hs => ih s (h v hv s hs) fun v' a hv' => hQ v' a (hv.trans hv')
  | look k ih => exact fun v hv e he => ih e (h v hv e he) fun v' a hv' => hQ v' a (hv.trans hv')
  | propose c k ih => exact ⟨h.1, fun v hv o ho => ih o (h.2 v hv o ho) fun v' a hv' => hQ v' a (hv.trans hv')⟩
  | call address r k ih =>
      exact ⟨h.1, fun v hv a ha => ih a (h.2 v hv a ha) fun v' a hv' => hQ v' a (hv.trans hv')⟩

theorem Proc.Obeys.bind {f : α → Proc S C R A E β} {Q : W → β → Prop}
    (h : p.Obeys K n w fun v a => (f a).Obeys K n v Q) : (p >>= f).Obeys K n w Q := by
  show (p.bind f).Obeys K n w Q
  induction p generalizing w with
  | ret a => exact h
  | read k ih => exact fun v hv s hs => ih s (h v hv s hs)
  | look k ih => exact fun v hv e he => ih e (h v hv e he)
  | propose c k ih => exact ⟨h.1, fun v hv o ho => ih o (h.2 v hv o ho)⟩
  | call address r k ih => exact ⟨h.1, fun v hv a ha => ih a (h.2 v hv a ha)⟩

def Rules.ending (K : Rules sv W) (result : N → W → A → Prop)
    (mono : ∀ {n w w' a}, w ≤ w' → result n w a → result n w' a) : Rules sv W :=
  { K with result := result, result_mono := mono }

theorem Proc.Obeys.ending (h : p.Obeys K n w Q) (result : N → W → A → Prop)
    (mono : ∀ {n w w' a}, w ≤ w' → result n w a → result n w' a) : p.Obeys (K.ending result mono) n w Q := by
  induction p generalizing w with
  | ret a => exact h
  | read k ih => exact fun v hv s hs => ih s (h v hv s hs)
  | look k ih => exact fun v hv e he => ih e (h v hv e he)
  | propose c k ih => exact ⟨h.1, fun v hv o ho => ih o (h.2 v hv o ho)⟩
  | call address r k ih => exact ⟨h.1, fun v hv a ha => ih a (h.2 v hv a ha)⟩

section Statements

variable {Q : W → β → Prop}

theorem Proc.Obeys.state {f : S → Proc S C R A E β}
    (h : ∀ v, w ≤ v → ∀ s, K.known n v s → (f s).Obeys K n v Q) : (Proc.state >>= f).Obeys K n w Q := h

theorem Proc.Obeys.around {f : E → Proc S C R A E β}
    (h : ∀ v, w ≤ v → ∀ e, K.seen n v e → (f e).Obeys K n v Q) : (Proc.around >>= f).Obeys K n w Q := h

theorem Proc.Obeys.submit {c : C} {f : Outcome → Proc S C R A E β} (hc : K.command n w c)
    (h : ∀ v, w ≤ v → ∀ o, (o = .applied → K.applied n v c) → (f o).Obeys K n v Q) :
    (Proc.submit c >>= f).Obeys K n w Q := ⟨hc, h⟩

theorem Proc.Obeys.ask {address : String} {r : R} {f : Option A → Proc S C R A E β}
    (hr : ∀ m, sv.route address = some m → K.request m w r)
    (h : ∀ v, w ≤ v → ∀ a, (∀ x, a = some x → K.response v r x) → (f a).Obeys K n v Q) :
    (Proc.ask address r >>= f).Obeys K n w Q := ⟨hr, h⟩

theorem Proc.Obeys.each {f : α → Proc S C R A E Unit} (l : List α)
    (h : ∀ a ∈ l, ∀ v, w ≤ v → (f a).Obeys K n v fun _ _ => True) :
    (Proc.each f l).Obeys K n w fun _ _ => True := by
  induction l generalizing w with
  | nil => exact trivial
  | cons a l ih =>
    refine Proc.Obeys.bind ((h a (mem_cons_self ..) w le_rfl).imp fun v _ hv _ => ih fun b hb v' hv' => ?_)
    exact h b (mem_cons_of_mem _ hb) v' (hv.trans hv')

theorem Proc.Obeys.select {p : α → Proc S C R A E Bool} (P : α → Prop) (l : List α)
    (h : ∀ a ∈ l, ∀ v, w ≤ v → (p a).Obeys K n v fun _ keep => keep = true → P a) :
    (Proc.select p l).Obeys K n w fun _ r => ∀ a ∈ r, a ∈ l ∧ P a := by
  induction l generalizing w with
  | nil => exact forall_mem_nil _
  | cons a l ih =>
    refine Proc.Obeys.bind ((h a (mem_cons_self ..) w le_rfl).imp fun v keep hv hkp => ?_)
    refine Proc.Obeys.bind ((ih fun b hb v' hv' => h b (mem_cons_of_mem _ hb) v' (hv.trans hv')).imp ?_)
    intro v' rest _ hr b hb
    have hmem : (b = a ∧ keep = true) ∨ b ∈ rest := by
      cases keep with
      | true => exact (mem_cons.1 hb).imp (fun h => ⟨h, rfl⟩) fun h => h
      | false => exact .inr hb
    rcases hmem with ⟨rfl, hk⟩ | hb
    · exact ⟨mem_cons_self .., hkp hk⟩
    · exact ⟨mem_cons_of_mem _ (hr b hb).1, (hr b hb).2⟩

end Statements

variable (K) in
/-- What a handler has to end with. -/
def Ends (requests : List (String × R)) (n : N) (serves : Option Nat) (w : W) (a : Option A) : Prop :=
  ∀ y, a = some y → match serves with
    | some id => ∃ q, requests[id]? = some q ∧ K.response w q.2 y
    | none => K.result n w y

theorem Ends.mono {requests requests' : List (String × R)} {serves : Option Nat} {a : Option A}
    (hg : ∀ (id : Nat) q, requests[id]? = some q → requests'[id]? = some q) (hw : w ≤ w')
    (h : Ends K requests n serves w a) : Ends K requests' n serves w' a := by
  intro y hy
  have he := h y hy
  cases serves with
  | none => exact K.result_mono hw he
  | some id =>
    obtain ⟨q, hq, hr⟩ := he
    exact ⟨q, hg id q hq, K.response_mono hw hr⟩

variable (K) in
def Thread.Obeys (w : W) (x : World N S C R A E) (t : Thread N S C R A E) : Prop :=
  match t.task with
  | .run p => p.Obeys K t.node w (Ends K x.requests t.node t.serves)
  | .waiting id k => ∃ p, x.proposals[id]? = some p ∧ p.node = t.node ∧ ∀ w', w ≤ w' → ∀ o,
      (o = .applied → K.applied t.node w' p.command) → (k o).Obeys K t.node w' (Ends K x.requests t.node t.serves)
  | .calling id k => ∃ q, x.requests[id]? = some q ∧ ∀ w', w ≤ w' → ∀ a, (∀ y, a = some y → K.response w' q.2 y) →
      (k a).Obeys K t.node w' (Ends K x.requests t.node t.serves)

structure World.Extends (x y : World N S C R A E) : Prop where
  requests : ∀ (id : Nat) q, x.requests[id]? = some q → y.requests[id]? = some q
  proposals : ∀ (id : Nat) p, x.proposals[id]? = some p → ∃ p', y.proposals[id]? = some p' ∧ p'.node = p.node ∧
    p'.command = p.command

variable {t : Thread N S C R A E}

theorem Thread.Obeys.mono {x y : World N S C R A E} (hw : w ≤ w') (hg : x.Extends y)
    (h : t.Obeys K w x) : t.Obeys K w' y := by
  have he : ∀ v a, Ends K x.requests t.node t.serves v a → Ends K y.requests t.node t.serves v a :=
    fun v a => Ends.mono hg.requests le_rfl
  obtain ⟨n, o, task⟩ := t
  cases task with
  | run p =>
    have hm : ∀ v v' a, v ≤ v' → Ends K x.requests n o v a → Ends K x.requests n o v' a :=
      fun _ _ _ => Ends.mono fun _ _ h => h
    exact (Proc.Obeys.mono hm hw h).imp fun v a _ => he v a
  | waiting id k =>
    obtain ⟨p, hp, hn, hk⟩ := h
    obtain ⟨p', hp', hn', hc'⟩ := hg.proposals id p hp
    refine ⟨p', hp', hn'.trans hn, fun v hv out ho => ?_⟩
    rw [hc'] at ho
    exact (hk v (hw.trans hv) out ho).imp fun v a _ => he v a
  | calling id k =>
    obtain ⟨q, hq, hk⟩ := h
    exact ⟨q, hg.requests id q hq, fun v hv a ha => (hk v (hw.trans hv) a ha).imp fun v a _ => he v a⟩

variable (K) in
/-- Everything in the world, its states apart, is as the rules say. -/
structure World.Obeys (w : W) (x : World N S C R A E) : Prop where
  past : ∀ n s, x.past n s → K.known n w s
  proposals : ∀ p ∈ x.proposals, K.command p.node w p.command ∧ (p.applied = true → K.applied p.node w p.command)
  requests : ∀ q ∈ x.requests, ∀ m, sv.route q.1 = some m → K.request m w q.2
  responses : ∀ y ∈ x.responses, ∃ q, x.requests[y.1]? = some q ∧ K.response w q.2 y.2
  threads : ∀ t ∈ x.threads, t.Obeys K w x

variable (K) in
/-- The rules are sound for guarded runs: what is known is linked to the world by `L`, and every step keeps the
link. -/
structure Rules.Sound [DecidableEq N] (g : Guard N S C R A E) (L : W → World N S C R A E → Prop) : Prop where
  state : ∀ {w x}, L w x → ∀ n, K.known n w (x.state n)
  quiet : ∀ {w} {x y : World N S C R A E}, x.Same y → L w x → L w y
  look : ∀ {w x n e}, L w x → sv.surroundings n e → g.look x n e → ∃ w', w ≤ w' ∧ L w' x ∧ K.seen n w' e
  other : ∀ {w x n c}, L w x → sv.others n c → ∃ w', w ≤ w' ∧ L w' (x.enter n (sv.apply n (x.state n) c))
  apply : ∀ {w x k p}, L w x → x.proposals[k]? = some p → p.applied = false → K.command p.node w p.command →
    g.apply x p →
    ∃ w', w ≤ w' ∧ L w' (x.applyAt sv k p) ∧ K.applied p.node w' p.command

section Steps

variable {x y : World N S C R A E}

private theorem some_concat {β : Type} {l : List β} {b : β} (i : Nat) (a : β) (h : l[i]? = some a) :
    (l ++ [b])[i]? = some a := by
  rw [List.getElem?_append_left (List.getElem?_eq_some_iff.1 h).1]
  exact h

section

variable (h : x.Obeys K w)
include h

theorem World.Obeys.mono (hw : w ≤ w') : x.Obeys K w' where
  past n s hs := K.known_mono hw (h.past n s hs)
  proposals p hp := ⟨K.command_mono hw (h.proposals p hp).1, fun ha => K.applied_mono hw ((h.proposals p hp).2 ha)⟩
  requests q hq m hm := K.request_mono hw (h.requests q hq m hm)
  responses y hy := by
    obtain ⟨q, hq, hr⟩ := h.responses y hy
    exact ⟨q, hq, K.response_mono hw hr⟩
  threads t ht := (h.threads t ht).mono hw ⟨fun _ _ h => h, fun _ p h => ⟨p, h, rfl, rfl⟩⟩

theorem World.Obeys.resume (i : Nat) (ht : t.Obeys K w x) : (x.resume i t).Obeys K w := by
  refine { h with threads := fun t' ht' => ?_ }
  rcases mem_or_eq_of_mem_set ht' with ht' | rfl
  · exact h.threads t' ht'
  · exact ht

theorem World.Obeys.spawn (ht : t.Obeys K w x) : (x.spawn t).Obeys K w := by
  refine { h with threads := fun t' ht' => ?_ }
  rcases mem_append.1 ht' with ht' | ht'
  · exact h.threads t' ht'
  · rw [mem_singleton.1 ht']
    exact ht

theorem World.Obeys.eraseIdx (i : Nat) : World.Obeys K w { x with threads := x.threads.eraseIdx i } :=
  { h with threads := fun t ht => h.threads t (mem_of_mem_eraseIdx ht) }

theorem World.Obeys.propose {c : C} (hc : K.command n w c) :
    World.Obeys K w { x with proposals := x.proposals ++ [⟨n, c, false⟩] } := by
  have hg : x.Extends { x with proposals := x.proposals ++ [⟨n, c, false⟩] } :=
    ⟨fun _ _ h => h, fun id p hp => ⟨p, some_concat id p hp, rfl, rfl⟩⟩
  refine ⟨h.past, fun p hp => ?_, h.requests, h.responses, fun t ht => (h.threads t ht).mono le_rfl hg⟩
  rcases mem_append.1 hp with hp | hp
  · exact h.proposals p hp
  · rw [mem_singleton.1 hp]
    exact ⟨hc, Bool.noConfusion⟩

theorem World.Obeys.call {q : String × R} (hq : ∀ m, sv.route q.1 = some m → K.request m w q.2) :
    World.Obeys K w { x with requests := x.requests ++ [q] } := by
  have ho := some_concat (l := x.requests) (b := q)
  have hg : x.Extends { x with requests := x.requests ++ [q] } := ⟨ho, fun _ p h => ⟨p, h, rfl, rfl⟩⟩
  refine ⟨h.past, h.proposals, fun q' hq' => ?_, fun y hy => ?_, fun t ht => (h.threads t ht).mono le_rfl hg⟩
  · rcases mem_append.1 hq' with hq' | hq'
    · exact h.requests q' hq'
    · rw [mem_singleton.1 hq']
      exact hq
  · obtain ⟨q', hq', hr⟩ := h.responses y hy
    exact ⟨q', ho _ _ hq', hr⟩

end

theorem World.Same.of_proposals (hs : y.state = x.state) (hp : y.past = x.past) (h : y.proposals = x.proposals) :
    x.Same y := by
  refine ⟨hs, hp, ?_⟩
  unfold World.commands
  rw [h]

theorem World.Same.propose {c : C} {threads : List (Thread N S C R A E)} :
    x.Same { x with threads := threads, proposals := x.proposals ++ [⟨n, c, false⟩] } := by
  refine ⟨rfl, rfl, ?_⟩
  ext d
  simp [World.commands]

variable [DecidableEq N]

theorem World.Obeys.enter (h : x.Obeys K w) (hn : K.known n w (x.state n)) (s : S) : (x.enter n s).Obeys K w := by
  refine ⟨fun m s' hs' => ?_, h.proposals, h.requests, h.responses, fun t ht => ?_⟩
  · rcases hs' with hs' | ⟨rfl, rfl⟩
    · exact h.past m s' hs'
    · exact hn
  · exact (h.threads t ht).mono le_rfl ⟨fun _ _ h => h, fun _ p h => ⟨p, h, rfl, rfl⟩⟩

theorem World.Obeys.applyAt (h : x.Obeys K w) {k : Nat} {p : Proposal N C} (hp : x.proposals[k]? = some p)
    (hn : K.known p.node w (x.state p.node)) (ha : K.applied p.node w p.command) :
    (x.applyAt sv k p).Obeys K w := by
  have he := h.enter hn (sv.apply p.node (x.state p.node) p.command)
  have hg : x.Extends (x.applyAt sv k p) := by
    refine ⟨fun _ _ h => h, fun id p' hp' => ?_⟩
    simp only [World.applyAt]
    by_cases hk : k = id
    · subst hk
      rw [hp, Option.some.injEq] at hp'
      subst hp'
      exact ⟨_, List.getElem?_set_self (List.getElem?_eq_some_iff.1 hp).1, rfl, rfl⟩
    · rw [getElem?_set_ne hk]
      exact ⟨p', hp', rfl, rfl⟩
  refine ⟨he.past, fun p' hp' => ?_, h.requests, h.responses, fun t ht => (h.threads t ht).mono le_rfl hg⟩
  rcases mem_or_eq_of_mem_set hp' with hp' | rfl
  · exact h.proposals p' hp'
  · exact ⟨(h.proposals p (mem_of_getElem? hp)).1, fun _ => ha⟩

variable {g : Guard N S C R A E} {L : W → World N S C R A E → Prop} (hs : K.Sound g L)
  (hserve : ∀ n w r, K.request n w r → (sv.serve n r).Obeys K n w fun w a => ∀ x, a = some x → K.response w r x)
  (hstart : ∀ n w p, sv.starts n p → p.Obeys K n w fun w a => ∀ x, a = some x → K.result n w x)

include hs hserve hstart

theorem GuardedStep.obeys (hL : L w x) (hx : x.Obeys K w) (h : GuardedStep sv g x y) :
    ∃ w', w ≤ w' ∧ L w' y ∧ y.Obeys K w' := by
  obtain ⟨h, hg⟩ := h
  -- most steps touch neither the states nor the proposals
  have hst : ∀ {z : World N S C R A E}, z.state = x.state → z.past = x.past → z.proposals = x.proposals →
      z.Obeys K w → ∃ w', w ≤ w' ∧ L w' z ∧ z.Obeys K w' :=
    fun h1 h2 h3 hz => ⟨w, le_rfl, hs.quiet (.of_proposals h1 h2 h3) hL, hz⟩
  cases h with
  | start h => exact hst rfl rfl rfl (hx.spawn (hstart _ w _ h))
  | @deliver k address r n hr hn =>
    refine hst rfl rfl rfl (hx.spawn ?_)
    refine (hserve n w r (hx.requests _ (mem_of_getElem? hr) n hn)).imp fun v a _ ha y hy => ?_
    exact ⟨_, hr, ha y hy⟩
  | die i => exact hst rfl rfl rfl (hx.eraseIdx i)
  | @other n c h =>
    obtain ⟨w', hw, hL'⟩ := hs.other hL h
    exact ⟨w', hw, hL', (hx.enter (hs.state hL n) _).mono hw⟩
  | @apply k p h hp =>
    have hmem := mem_of_getElem? h
    obtain ⟨hlt, -⟩ := List.getElem?_eq_some_iff.1 h
    have hgr : g.apply x p := hg p ⟨k, _, h, hp, getElem?_set_self hlt, rfl⟩
    obtain ⟨w', hw, hL', happ⟩ := hs.apply hL h hp (hx.proposals p hmem).1 hgr
    exact ⟨w', hw, hL', (hx.mono hw).applyAt h (K.known_mono hw (hs.state hL p.node)) happ⟩
  | @read i n o k s h hrd =>
    refine hst rfl rfl rfl (hx.resume _ ?_)
    refine hx.threads _ (mem_of_getElem? h) w le_rfl _ ?_
    rcases hrd with rfl | hrd
    · exact hs.state hL n
    · exact hx.past _ _ hrd
  | look h he =>
    obtain ⟨w', hw, hL', hsn⟩ := hs.look hL he.1 he.2
    refine ⟨w', hw, hs.quiet (x := x) (.of_proposals rfl rfl rfl) hL', (hx.mono hw).resume _ ?_⟩
    exact hx.threads _ (mem_of_getElem? h) w' hw _ hsn
  | propose h =>
    have ht := hx.threads _ (mem_of_getElem? h)
    refine ⟨w, le_rfl, hs.quiet (x := x) .propose hL, (hx.propose ht.1).resume _ ?_⟩
    exact ⟨_, getElem?_concat_length, rfl, ht.2⟩
  | refused h =>
    refine hst rfl rfl rfl (hx.resume _ ?_)
    exact (hx.threads _ (mem_of_getElem? h)).2 w le_rfl _ Outcome.noConfusion
  | applied h hp ha =>
    obtain ⟨p', hp', hn, hk⟩ := hx.threads _ (mem_of_getElem? h)
    rw [hp, Option.some.injEq] at hp'
    subst hp'
    refine hst rfl rfl rfl (hx.resume _ (hk w le_rfl _ fun _ => ?_))
    rw [← hn]
    exact (hx.proposals _ (mem_of_getElem? hp)).2 ha
  | unsure h ho =>
    obtain ⟨p, hp, hn, hk⟩ := hx.threads _ (mem_of_getElem? h)
    exact hst rfl rfl rfl (hx.resume _ (hk w le_rfl _ fun h => absurd h ho))
  | call h =>
    have ht := hx.threads _ (mem_of_getElem? h)
    refine hst rfl rfl rfl ((hx.call ht.1).resume _ ?_)
    refine ⟨_, getElem?_concat_length, fun v hv a ha => ?_⟩
    exact (ht.2 v hv a ha).imp fun v a _ => Ends.mono some_concat le_rfl
  | answered h ha =>
    obtain ⟨q, hq, hk⟩ := hx.threads _ (mem_of_getElem? h)
    refine hst rfl rfl rfl (hx.resume _ (hk w le_rfl _ ?_))
    rintro y ⟨⟩
    obtain ⟨q', hq', hr⟩ := hx.responses _ ha
    rw [hq, Option.some.injEq] at hq'
    rwa [hq']
  | unanswered h =>
    obtain ⟨q, hq, hk⟩ := hx.threads _ (mem_of_getElem? h)
    exact hst rfl rfl rfl (hx.resume _ (hk w le_rfl _ (by simp)))
  | @finish i id n a h =>
    have hk := hx.eraseIdx i
    refine hst rfl rfl rfl ⟨hk.past, hk.proposals, hk.requests, ?_, hk.threads⟩
    intro q hq
    rcases mem_append.1 hq with hq | hq
    · exact hk.responses q hq
    · rw [mem_singleton.1 hq]
      exact hx.threads _ (mem_of_getElem? h) a rfl

/-- The rule for guarded runs: if the handlers keep to the rules, everything in the world does. -/
theorem Run.obeys (hL : L w x) (hx : x.Obeys K w) (h : Run sv g x y) : ∃ w', w ≤ w' ∧ L w' y ∧ y.Obeys K w' := by
  induction h with
  | refl => exact ⟨w, le_rfl, hL, hx⟩
  | tail _ hst ih =>
    obtain ⟨v, hv, hLv, hy⟩ := ih
    obtain ⟨v', hv', hLv', hz⟩ := hst.obeys hs hserve hstart hLv hy
    exact ⟨v', hv.trans hv', hLv', hz⟩

end Steps

theorem World.Obeys.init (state : N → S) : (World.init state).Obeys K w :=
  ⟨nofun, forall_mem_nil _, forall_mem_nil _, forall_mem_nil _, forall_mem_nil _⟩

variable {m : Move N S C R A E}

section Scripts

variable [DecidableEq N] {g : Guard N S C R A E} {x : World N S C R A E}

def Move.Guarded (g : Guard N S C R A E) (x : World N S C R A E) : Move N S C R A E → Prop
  | .apply k => ∀ p, x.proposals[k]? = some p → g.apply x p
  | .go _ e => ∀ n, g.look x n e
  | .start _ _ | .deliver _ => True

/-- Every move of the script meets the condition in the world in which it is made. -/
def World.Guards (sv : Service N S C R A E) (g : Guard N S C R A E) :
    World N S C R A E → List (Move N S C R A E) → Prop
  | _, [] => True
  | x, m :: ms => m.Guarded g x ∧ (x.move sv m).Guards sv g ms

theorem World.Guards.any (x : World N S C R A E) (ms : List (Move N S C R A E)) : x.Guards sv .any ms := by
  induction ms generalizing x with
  | nil => trivial
  | cons m ms ih =>
    refine ⟨?_, ih _⟩
    cases m with
    | start | deliver => trivial
    | apply k => exact fun _ _ => trivial
    | go i e => exact fun _ => trivial

/-- A test for every move, in the world in which it is made. -/
def World.check (sv : Service N S C R A E) (ok : World N S C R A E → Move N S C R A E → Bool) :
    World N S C R A E → List (Move N S C R A E) → Bool
  | _, [] => true
  | x, m :: ms => ok x m && (x.move sv m).check sv ok ms

theorem World.Guards.of_check {ok : World N S C R A E → Move N S C R A E → Bool}
    (hok : ∀ x m, ok x m = true → m.Guarded g x) (ms : List (Move N S C R A E)) (h : x.check sv ok ms = true) :
    x.Guards sv g ms := by
  induction ms generalizing x with
  | nil => trivial
  | cons m ms ih =>
    obtain ⟨hm, hms⟩ := (Bool.and_eq_true _ _).mp h
    exact ⟨hok x m hm, ih hms⟩

omit [DecidableEq N] in
theorem World.not_applies_of_proposals {y : World N S C R A E} (h : y.proposals = x.proposals) (p : Proposal N C) :
    ¬ x.Applies p y := by
  rintro ⟨k, q, hk, hp, hq, ha⟩
  rw [h, hk, Option.some.injEq] at hq
  rw [← hq, hp] at ha
  cases ha

omit [DecidableEq N] in
theorem World.not_applies_go (i : Nat) (e : E) (p : Proposal N C) : ¬ x.Applies p (x.go i e) := by
  unfold World.go
  split
  case h_3 n o c k ht =>
    rintro ⟨j, q, hj, hp, hq, ha⟩
    have ho : (x.proposals ++ [⟨n, c, false⟩])[j]? = some p := some_concat j p hj
    simp only [ho, Option.some.injEq] at hq
    rw [← hq, hp] at ha
    cases ha
  case h_5 =>
    split <;> exact not_applies_of_proposals rfl p
  case h_6 =>
    split <;> exact not_applies_of_proposals rfl p
  all_goals exact not_applies_of_proposals rfl p

theorem World.move_guardedStep (hm : m.Allowed sv) (hg : m.Guarded g x) :
    x.move sv m = x ∨ GuardedStep sv g x (x.move sv m) := by
  have ha : m.Allowed (sv.seeing (g.look x)) := by
    cases m with
    | go i e => exact fun n => ⟨hm n, hg n⟩
    | start | deliver | apply => exact hm
  have hap : ∀ p, x.Applies p (x.move sv m) → g.apply x p := by
    intro p hp
    cases m with
    | start n q => exact absurd hp (World.not_applies_of_proposals rfl p)
    | deliver k =>
      refine absurd hp (World.not_applies_of_proposals ?_ p)
      simp only [World.move]
      split
      · split <;> rfl
      · rfl
    | go i e => exact absurd hp (World.not_applies_go i e p)
    | apply k =>
      obtain ⟨j, q, hj, hf, hq, ht⟩ := hp
      refine hg p ?_
      by_cases hk : k = j
      · rw [hk]
        exact hj
      · have hsm : (x.move sv (.apply k)).proposals[j]? = x.proposals[j]? := by
          simp only [World.move]
          split
          · split
            · rfl
            · exact getElem?_set_ne hk
          · rfl
        rw [hsm, hj, Option.some.injEq] at hq
        rw [← hq, hf] at ht
        cases ht
  exact (x.move_step ha).imp_right fun hst => ⟨hst, hap⟩

theorem Run.move (hm : m.Allowed sv) (hg : m.Guarded g x) : Run sv g x (x.move sv m) := by
  rcases World.move_guardedStep hm hg with hx | hst
  · rw [hx]
  · exact .single hst

theorem Run.play (ms : List (Move N S C R A E)) (hms : ∀ m ∈ ms, m.Allowed sv) (hg : x.Guards sv g ms) :
    Run sv g x (x.play sv ms) := by
  induction ms generalizing x with
  | nil => exact .refl
  | cons m ms ih =>
    have hm := Run.move (hms m (mem_cons_self ..)) hg.1
    exact hm.trans (ih (fun m' hm' => hms m' (mem_cons_of_mem _ hm')) hg.2)

/-- The handler at position `i`, if it waits for a proposal, is told the outcome. -/
def World.hear (x : World N S C R A E) (i : Nat) (out : Outcome) : World N S C R A E :=
  match x.threads[i]? with
  | some ⟨n, o, .waiting _ k⟩ => x.resume i ⟨n, o, .run (k out)⟩
  | _ => x

theorem Run.hear (i : Nat) {out : Outcome} (ho : out ≠ .applied) : Run sv g x (x.hear i out) := by
  unfold World.hear
  split
  · rename_i ht
    refine .single ⟨.unsure ht ho, fun p hp => ?_⟩
    exact absurd hp (World.not_applies_of_proposals rfl p)
  · exact .refl

end Scripts

end Process
