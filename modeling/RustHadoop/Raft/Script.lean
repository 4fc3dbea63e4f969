import RustHadoop.Raft.Cluster

/-!
# Runs that can be evaluated

A script is a list of moves: let a node tick, deliver a message of the trace, propose commands, ask for a read
index, restart.  `Cluster.play` runs it, leaving out the moves that are not possible or that `keep` refuses, so
that its result is always the state of a run.
-/

namespace RustHadoop

open Option Cluster

inductive Move
  | tick (i : Nat) (elapsed : Bool)
  /-- the message that is the effect at position `k` of the trace reaches its recipient -/
  | deliver (k : Nat)
  | propose (i : Nat) (requests : List (Command × Nat))
  | read (i tx : Nat)
  | restart (i : Nat)

namespace Cluster

variable (d : Deployment)

variable (c : Cluster)

/-- The call in which the effect at position `k`, a message, reaches its recipient. -/
def delivery (k : Nat) : Option (Nat × Event) :=
  match c.trace[k]? with
  | some (j, .send addr msg) => (d.resolve addr).map fun i => (i, .rpc msg (some ⟨j, k⟩))
  | some (_, .respond tx msg) => some (tx.requester, .rpc msg none)
  | _ => none

def label : Move → Option Label
  | .tick i elapsed => if i ∈ d.ids then some (.invoke i (.tick elapsed) []) else none
  | .deliver k => (c.delivery d k).bind fun x =>
      if x.1 ∈ d.ids then some (.invoke x.1 (.events [x.2]) []) else none
  | .propose i requests =>
    if i ∈ d.ids ∧ requests.length ≤ 256 ∧ (requests.map Prod.snd).Nodup ∧ ∀ r ∈ requests, r.2 ∉ c.issued then
      some (.invoke i (.events (requests.map fun r => .clientRequest r.1 r.2)) [])
    else none
  | .read i tx => if i ∈ d.ids ∧ tx ∉ c.issued then some (.invoke i (.events [.getReadIndex tx]) []) else none
  | .restart i => if i ∈ d.ids then some (.restart i) else none

variable (keep : Cluster → Label → Bool)

def move (m : Move) : Cluster :=
  match c.label d m with
  | some l => if keep c l then c.step d l else c
  | none => c

def play (ms : List Move) : Cluster := ms.foldl (fun c m => c.move d keep m) c

end Cluster

section Play

variable {d : Deployment} {keep : Cluster → Label → Bool} {ok : Cluster → Label → Prop} {c : Cluster}

private theorem delivered_of_delivery {k i : Nat} {e : Event} (h : c.delivery d k = some (i, e)) :
    ∃ msg tx, e = .rpc msg tx ∧ Delivered d c i msg tx := by
  unfold delivery at h
  split at h
  · rename_i j addr msg hk
    obtain ⟨i', hi', heq⟩ := map_eq_some_iff.1 h
    obtain ⟨rfl, rfl⟩ := Prod.mk.inj heq
    exact ⟨msg, _, rfl, addr, hk, hi'⟩
  · rename_i j tx msg hk
    obtain ⟨rfl, rfl⟩ := Prod.mk.inj (some.inj h)
    exact ⟨msg, none, rfl, j, tx, List.mem_of_getElem? hk, rfl⟩
  · cases h

private theorem filterMap_clientRequests (requests : List (Command × Nat)) :
    (requests.map fun r => Event.clientRequest r.1 r.2).filterMap Event.channel? = requests.map Prod.snd := by
  rw [List.filterMap_map]
  induction requests with
  | nil => rfl
  | cons r rs ih => simp [Event.channel?, ih]

theorem Cluster.enabled_of_label {m : Move} {l : Label} (h : c.label d m = some l) : Enabled d c l ∧ l.whole := by
  cases m with
  | tick i elapsed =>
    simp only [label, ite_none_right_eq_some, some.injEq] at h
    obtain ⟨hi, rfl⟩ := h
    exact ⟨⟨hi, Invocation.enabled_tick elapsed⟩, trivial⟩
  | deliver k =>
    simp only [label, bind_eq_some_iff, ite_none_right_eq_some, some.injEq] at h
    obtain ⟨⟨i, e⟩, hdel, hi, rfl⟩ := h
    obtain ⟨msg, tx, rfl, hm⟩ := delivered_of_delivery hdel
    exact ⟨⟨hi, Invocation.enabled_rpc hm⟩, trivial⟩
  | propose i requests =>
    simp only [label, ite_none_right_eq_some, some.injEq] at h
    obtain ⟨⟨hi, hlen, hnd, hf⟩, rfl⟩ := h
    refine ⟨⟨hi, Invocation.enabled_events (by simpa using hlen) ?_ ?_ ?_⟩, trivial⟩
    · rintro e he
      obtain ⟨r, -, rfl⟩ := List.mem_map.1 he
      rfl
    · rwa [filterMap_clientRequests]
    · rw [filterMap_clientRequests]
      rintro tx htx
      obtain ⟨r, hr, rfl⟩ := List.mem_map.1 htx
      exact hf r hr
  | read i tx =>
    simp only [label, ite_none_right_eq_some, some.injEq] at h
    obtain ⟨⟨hi, hf⟩, rfl⟩ := h
    exact ⟨⟨hi, Invocation.enabled_events (by simp) (by simp [Event.channel?]) (by simp [Event.channel?])
      (by simpa [Event.channel?] using hf)⟩, trivial⟩
  | restart i =>
    simp only [label, ite_none_right_eq_some, some.injEq] at h
    obtain ⟨hi, rfl⟩ := h
    exact ⟨hi, trivial⟩

section

variable (hok : ∀ c l, Enabled d c l → l.whole → keep c l = true → ok c l) (h : Reachable d ok c)
include hok h

private theorem Reachable.move (m : Move) : Reachable d ok (c.move d keep m) := by
  unfold Cluster.move
  split
  · rename_i l hl
    split
    · rename_i hk
      exact .step l h (hok c l (enabled_of_label hl).1 (enabled_of_label hl).2 hk)
    · exact h
  · exact h

theorem Reachable.play (ms : List Move) : Reachable d ok (c.play d keep ms) := by
  induction ms generalizing c with
  | nil => exact h
  | cons m ms ih => exact ih (h.move hok m)

end

end Play

def Event.calm : Event → Bool
  | .clientRequest command _ => !command.isMembership
  | _ => true

def Label.calm (l : Label) : Bool :=
  match l.call? with
  | some (_, .events es, _) => es.all Event.calm
  | some (_, .tick _, _) | none => true
  | some (_, .addServers _, _) | some (_, .removeServers _, _) => false

theorem Label.noMembership_of_calm {l : Label} (h : l.calm = true) : l.NoMembership := by
  intro i inv clock hc
  simp only [Label.calm, hc] at h
  cases inv with
  | tick => exact ⟨fun h => h, nofun⟩
  | events es =>
    refine ⟨fun h => h, fun command tx hin => ?_⟩
    simpa [Event.calm] using List.all_eq_true.1 h _ hin
  | addServers | removeServers => cases h

end RustHadoop
