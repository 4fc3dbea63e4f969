import RustHadoop.Raft.Handlers

/-!
# A cluster of nodes

Nodes that run the code and a network that may lose, duplicate, delay and reorder.  The trace holds everything
every node has done, in order; a request in it can be delivered to the node its address leads to any number of
times and at any later point, and a response to the node that asked.  A node is called by its own loop (ticks and
batches of events) or through the membership requests; it may crash in the middle of a call, keeping the database
writes it had made, and start again.

`Reachable d ok` are the states of the runs whose steps all satisfy `ok`.
-/

namespace RustHadoop

inductive Invocation
  | tick (elapsed : Bool)
  | events (events : List Event)
  | addServers (servers : Members)
  | removeServers (serverIds : List Nat)

def Invocation.run (n : RaftNode) : Invocation → RaftNode
  | .tick elapsed => n.tick elapsed
  | .events es => n.handleEventBatch es
  | .addServers servers => (n.handleAddServersRequest servers).1
  | .removeServers serverIds => (n.handleRemoveServersRequest serverIds).1

/-- The reply channel a client made for the event. -/
def Event.channel? : Event → Option Nat
  | .rpc _ _ => none
  | .clientRequest _ tx => some tx
  | .getLeaderInfo tx => some tx
  | .getClusterInfo tx => some tx
  | .getReadIndex tx => some tx

def Invocation.eventList : Invocation → List Event
  | .events es => es
  | _ => []

def Invocation.channels (inv : Invocation) : List Nat := inv.eventList.filterMap Event.channel?

/-- The processes of a cluster: what each is started with, what its database holds at the very beginning, and the
node an address leads to. -/
structure Deployment where
  ids : Finset Nat
  config : Nat → RaftNodeConfig
  db : Nat → Db
  resolve : String → Option Nat

abbrev Trace := List (Nat × Effect)

structure Cluster where
  node : Nat → RaftNode
  trace : Trace
  issued : List Nat

def replay (db : Db) (effects : List Effect) : Db :=
  effects.foldl (fun db e => match e with
    | .write w => w.apply db
    | _ => db) db

inductive Label
  | invoke (i : Nat) (inv : Invocation) (clock : List Nat)
  /-- a call of which only the first `done` effects happen before the process dies and is started again -/
  | crash (i : Nat) (inv : Invocation) (clock : List Nat) (done : Nat)
  /-- a restart between two calls -/
  | restart (i : Nat)

namespace Cluster

def init (d : Deployment) : Cluster := ⟨fun i => RaftNode.boot (d.config i) (d.db i), [], []⟩

def ready (c : Cluster) (i : Nat) (clock : List Nat) : RaftNode := { c.node i with out := [], clock := clock }

/-- The cluster in which node `i` is `n`, having done `n.out` in the current call. -/
def during (c : Cluster) (i : Nat) (n : RaftNode) : Cluster :=
  { c with node := Function.update c.node i n, trace := c.trace ++ n.out.map (Prod.mk i) }

def crashed (d : Deployment) (c : Cluster) (i : Nat) (effects : List Effect) : Cluster :=
  { c with
    node := Function.update c.node i (RaftNode.boot (d.config i) (replay (c.node i).db effects))
    trace := c.trace ++ effects.map (Prod.mk i) }

def issue (c : Cluster) (channels : List Nat) : Cluster := { c with issued := channels ++ c.issued }

def step (d : Deployment) (c : Cluster) : Label → Cluster
  | .invoke i inv clock => (c.during i (inv.run (c.ready i clock))).issue inv.channels
  | .crash i inv clock done => (c.crashed d i ((inv.run (c.ready i clock)).out.take done)).issue inv.channels
  | .restart i => c.crashed d i []

end Cluster

theorem forall_update {ids : Finset Nat} {nodes : Nat → RaftNode} {i : Nat} {n : RaftNode}
    {Q : Nat → RaftNode → Prop} (hi : i ∈ ids → Q i n) (ho : ∀ j ∈ ids, j ≠ i → Q j (nodes j)) :
    ∀ j ∈ ids, Q j (Function.update nodes i n j) := by
  intro j hj
  by_cases hij : j = i
  · subst hij
    rw [Function.update_self]
    exact hi hj
  · rw [Function.update_of_ne hij]
    exact ho j hj hij

/-- A message that can reach node `i` now: a request that was sent to it, with its reply channel, or the response
to a request of its own. -/
def Delivered (d : Deployment) (c : Cluster) (i : Nat) (msg : RpcMessage) : Option ReplyTx → Prop
  | some tx => ∃ addr, c.trace[tx.sentAt]? = some (tx.requester, .send addr msg) ∧ d.resolve addr = some i
  | none => ∃ j tx, (j, Effect.respond tx msg) ∈ c.trace ∧ tx.requester = i

/-- What a call may be given: at most 256 events, messages that can reach the node, fresh reply channels. -/
structure Invocation.Enabled (d : Deployment) (c : Cluster) (i : Nat) (inv : Invocation) : Prop where
  size : inv.eventList.length ≤ 256
  rpc : ∀ msg tx, Event.rpc msg tx ∈ inv.eventList → Delivered d c i msg tx
  nodup : inv.channels.Nodup
  fresh : ∀ tx ∈ inv.channels, tx ∉ c.issued

def Enabled (d : Deployment) (c : Cluster) : Label → Prop
  | .invoke i inv _ => i ∈ d.ids ∧ inv.Enabled d c i
  | .crash i inv _ _ => i ∈ d.ids ∧ inv.Enabled d c i
  | .restart i => i ∈ d.ids

inductive Reachable (d : Deployment) (ok : Cluster → Label → Prop) : Cluster → Prop
  | init : Reachable d ok (Cluster.init d)
  | step {c : Cluster} (l : Label) : Reachable d ok c → ok c l → Reachable d ok (c.step d l)

theorem Reachable.weaken {d : Deployment} {ok ok' : Cluster → Label → Prop} {c : Cluster}
    (h : ∀ c l, ok c l → ok' c l) (hr : Reachable d ok c) : Reachable d ok' c := by
  induction hr with
  | init => exact .init
  | step l _ hl ih => exact .step l ih (h _ l hl)

def Label.call? : Label → Option (Nat × Invocation × List Nat)
  | .invoke i inv clock => some (i, inv, clock)
  | .crash i inv clock _ => some (i, inv, clock)
  | .restart _ => none

def Label.whole : Label → Prop
  | .crash _ _ _ _ => False
  | _ => True

/-- The call asks node `i` for a membership change, and not only to hand over its leadership. -/
def Invocation.ChangesMembers (i : Nat) : Invocation → Prop
  | .addServers _ => True
  | .removeServers serverIds => i ∉ serverIds
  | _ => False

def Invocation.Proposes (C : Command → Prop) (inv : Invocation) : Prop :=
  ∀ command tx, Event.clientRequest command tx ∈ inv.eventList → C command

def Command.isMembership : Command → Bool
  | .membership _ => true
  | _ => false

def Command.reconfigures : Command → Bool
  | .membership (.beginJointConsensus _ _ _) => true
  | .membership (.finalizeConfiguration _ _) => true
  | _ => false

/-- No membership command comes from the step. -/
def Label.NoMembership (l : Label) : Prop :=
  ∀ i inv clock, l.call? = some (i, inv, clock) → ¬ inv.ChangesMembers i ∧ inv.Proposes fun c =>
    c.isMembership = false

/-- A database that holds at most a cluster configuration. -/
structure Db.Fresh (db : Db) : Prop where
  term : db.term = none
  vote : db.vote = none
  snapshotMeta : db.snapshotMeta = none
  snapshotData : db.snapshotData = none
  log : db.log = ∅
  configChangeState : (loadConfig db).2 = .none

/-- All nodes hold a simple configuration with the same member ids, the nodes themselves, and the peers of each are
exactly the addresses that its configuration gives the others. -/
structure FixedMembership (d : Deployment) (members : Nat → Members) (version : Nat → Nat) : Prop where
  id : ∀ i, (d.config i).id = i
  fresh : ∀ i ∈ d.ids, (d.db i).Fresh
  config : ∀ i ∈ d.ids, (d.config i).clusterConfig (d.db i) = .simple (members i) (version i)
  ids : ∀ i ∈ d.ids, ∀ j, j ∈ members i ↔ j ∈ d.ids
  peers : ∀ i ∈ d.ids, (d.config i).peers.Perm (((members i).entries.filter fun m => m.1 ≠ i).map fun m => m.2)
  resolve : ∀ i ∈ d.ids, ∀ j addr, j ≠ i → (members i).lookup j = some addr → d.resolve addr = some j

/-- The cluster in which every node has stored the same members. -/
def Deployment.ofMembers (members : Members) (appState : AppState) : Deployment where
  ids := members.keys.toFinset
  config i :=
    { id := i
      peers := (members.entries.filter fun m => m.1 ≠ i).map fun m => m.2
      clientAddress := (members.lookup i).getD ""
      appState := appState }
  db _ := { Db.empty with clusterConfig := some (.simple members 1) }
  resolve addr := (members.entries.find? fun m => m.2 = addr).map fun m => m.1

theorem Deployment.ofMembers_fixed {members : Members} {appState : AppState} (hne : members.entries ≠ [])
    (hinj : ∀ m ∈ members.entries, ∀ m' ∈ members.entries, m.2 = m'.2 → m = m') :
    FixedMembership (.ofMembers members appState) (fun _ => members) (fun _ => 1) where
  id := fun _ => rfl
  fresh := fun _ _ => ⟨rfl, rfl, rfl, rfl, rfl, rfl⟩
  config := by
    intro i _
    simp [Deployment.ofMembers, RaftNodeConfig.clusterConfig, loadConfig, hne]
  ids := by simp [Deployment.ofMembers, AList.mem_keys]
  peers := fun _ _ => .refl _
  resolve := by
    intro i _ j addr _ hj
    have hmem : (⟨j, addr⟩ : Sigma fun _ : Nat => String) ∈ members.entries := AList.mem_lookup_iff.1 hj
    cases hf : members.entries.find? fun m => m.2 = addr with
    | none => simpa using List.find?_eq_none.1 hf _ hmem
    | some m =>
      have ha : m.2 = addr := by simpa using List.find?_some hf
      have hm : m = ⟨j, addr⟩ := hinj m (List.mem_of_find?_eq_some hf) _ hmem ha
      simp [Deployment.ofMembers, hf, hm]

namespace Invocation

variable {d : Deployment} {c : Cluster} {i : Nat}

theorem enabled_tick (elapsed : Bool) : (tick elapsed).Enabled d c i :=
  ⟨by simp [eventList], nofun, by simp [channels, eventList], by simp [channels, eventList]⟩

theorem enabled_rpc {msg : RpcMessage} {tx : Option ReplyTx} (h : Delivered d c i msg tx) :
    (events [.rpc msg tx]).Enabled d c i where
  size := by simp [eventList]
  rpc := by
    intro msg' tx' h'
    simp only [eventList, List.mem_singleton, Event.rpc.injEq] at h'
    rw [h'.1, h'.2]
    exact h
  nodup := by simp [channels, eventList, List.filterMap_cons, Event.channel?]
  fresh := by simp [channels, eventList, List.filterMap_cons, Event.channel?]

theorem enabled_events {es : List Event} (hs : es.length ≤ 256) (hr : ∀ e ∈ es, e.channel?.isSome)
    (hn : (es.filterMap Event.channel?).Nodup) (hf : ∀ tx ∈ es.filterMap Event.channel?, tx ∉ c.issued) :
    (events es).Enabled d c i where
  size := hs
  rpc := fun msg tx h => by simpa [Event.channel?] using hr _ h
  nodup := hn
  fresh := hf

end Invocation

end RustHadoop
