import RustHadoop.Raft.Refine

/-!
# State machine safety

With fixed membership a node without peers is the whole cluster, so the history of `Refine` follows every step that
does not crash inside a call and does not install a snapshot over a longer log.  What is applied is committed in
the history, and two committed entries at one index are the same.
-/

namespace RustHadoop

open ReplicatedLog RaftNode

/-- A snapshot that is installed in the step reaches to the end of the log it replaces, or beyond. -/
def Label.SoundInstalls (c : Cluster) (l : Label) : Prop :=
  ∀ i inv clock, l.call? = some (i, inv, clock) → ∀ m a tx,
    TurnsTo (c.ready i clock) inv m (some (.rpc (.installSnapshot a) tx)) →
    m.lastIncludedIndex < a.lastIncludedIndex → m.lastLogIndex ≤ a.lastIncludedIndex

/-- No `InstallSnapshot` message is delivered in the step. -/
def Label.NoSnapshot (l : Label) : Prop :=
  ∀ i inv clock, l.call? = some (i, inv, clock) → ∀ a tx, Event.rpc (.installSnapshot a) tx ∉ inv.eventList

variable {l : Label}

theorem Label.NoSnapshot.soundInstalls (h : l.NoSnapshot) (c : Cluster) : l.SoundInstalls c :=
  fun i inv clock hcall _ a tx ht => absurd ht.mem (h i inv clock hcall a tx)

def Event.snapshotFree : Event → Bool
  | .rpc (.installSnapshot _) _ => false
  | _ => true

def Label.snapshotFree (l : Label) : Bool :=
  (l.call?.map fun x => x.2.1.eventList.all Event.snapshotFree).getD true

theorem Label.noSnapshot_of_snapshotFree (h : l.snapshotFree = true) : l.NoSnapshot := by
  intro i inv clock hcall a tx hin
  rw [Label.snapshotFree, hcall] at h
  cases List.all_eq_true.1 h _ hin

section Fixed

variable {d : Deployment} {members : Nat → Members} {version : Nat → Nat} {c : Cluster}

private theorem FixedMembership.alone (hd : FixedMembership d members version) {i : Nat} (hi : i ∈ d.ids)
    (hp : (d.config i).peers = []) : Quorum d {i} := by
  have ha : ∀ m ∈ (members i).entries, m.1 = i := by
    have hpr := hd.peers i hi
    rw [hp, List.nil_perm, List.map_eq_nil_iff, List.filter_eq_nil_iff] at hpr
    simpa using hpr
  have hids : d.ids = {i} := by
    refine Finset.eq_singleton_iff_unique_mem.2 ⟨hi, fun j hj => ?_⟩
    have hj' : j ∈ members i := (hd.ids i hi j).2 hj
    obtain ⟨m, hm, rfl⟩ := List.mem_map.1 (AList.mem_keys.1 hj')
    exact ha m hm
  simp [Quorum, hids]

theorem FixedMembership.simulable (hd : FixedMembership d members version) (hen : Enabled d c l)
    (hw : l.whole) (hin : l.SoundInstalls c) : l.Simulable d (fun c => c.isMembership = false) c := by
  refine ⟨hw, fun i inv clock hcall => ⟨fun n m e _ _ hn _ hp => ?_, hin i inv clock hcall⟩⟩
  have hi : i ∈ d.ids := by
    cases l with
    | invoke | crash =>
      simp only [Label.call?, Option.some.injEq, Prod.mk.injEq] at hcall
      rw [← hcall.1]
      exact hen.1
    | restart => cases hcall
  exact hd.alone hi ((hn.peers fun _ h => h).symm.trans hp)

/-- A step with fixed membership that the history follows. -/
structure SoundStep (d : Deployment) (c : Cluster) (l : Label) : Prop where
  enabled : Enabled d c l
  noMembership : l.NoMembership
  whole : l.whole
  installs : l.SoundInstalls c

def SoundCall (d : Deployment) (c : Cluster) (i : Nat) (n : RaftNode) : Prop :=
  (n.StaticCall (d.config i) (d.db i) (fun c => c.isMembership = false) ∧ n.ElectionCall d c i) ∧
    ∃ h, CallSim d h c i n

section Sound

variable {ok : Cluster → Label → Prop} (hd : FixedMembership d members version)
  (hok : ∀ c l, ok c l → SoundStep d c l)

include hd hok

section

variable (hr : Reachable d ok c)
include hr

theorem Reachable.soundSim : ∃ h, ClusterSim d h c :=
  Reachable.sim (C := fun c => c.isMembership = false) hd rfl (fun _ => Command.reconfigures_of_not_membership)
    (fun c l h => ⟨(hok c l h).enabled, (hok c l h).noMembership⟩)
    (fun c l h => hd.simulable (hok c l h).enabled (hok c l h).whole (hok c l h).installs) hr

theorem Reachable.soundStatic : StaticRun d (fun c => c.isMembership = false) c :=
  hr.static hd.quiet rfl (fun _ => Command.reconfigures_of_not_membership)
    fun c l h => ⟨(hok c l h).enabled, (hok c l h).noMembership⟩

theorem Reachable.soundElection : ElectionRun d c :=
  hr.election (C := fun c => c.isMembership = false) hd.quiet hd.selfMajority rfl
    (fun _ => Command.reconfigures_of_not_membership) fun c l h => ⟨(hok c l h).enabled, (hok c l h).noMembership⟩

theorem Reachable.soundReady {i : Nat} (hi : i ∈ d.ids) (clock : List Nat) :
    SoundCall d c i (c.ready i clock) := by
  obtain ⟨h, hc⟩ := hr.soundSim hd hok
  exact ⟨⟨(hr.soundStatic hd hok).ready hi clock, (hr.soundElection hd hok).ready hi clock⟩, h, hc.ready hi clock⟩

section

variable {l : Label} (hl : ok c l) {i : Nat} {inv : Invocation} {clock : List Nat}
  (hcall : l.call? = some (i, inv, clock)) (hi : i ∈ d.ids) (hen : inv.Enabled d c i)
include hl hcall hi hen

theorem Reachable.soundCall :
    Preserves (TurnsTo (c.ready i clock) inv) (inv.ChangesMembers i) fun _ => SoundCall d c i :=
  hr.simCall (C := fun c => c.isMembership = false) hd rfl (fun _ => Command.reconfigures_of_not_membership)
    (fun c l h => ⟨(hok c l h).enabled, (hok c l h).noMembership⟩)
    (fun c l h => hd.simulable (hok c l h).enabled (hok c l h).whole (hok c l h).installs) hl hcall hi hen

theorem Reachable.soundAct {h : Hist} {n n' : RaftNode} (hs : SoundCall d c i n) (hc : CallSim d h c i n)
    (ha : Act (TurnsTo (c.ready i clock) inv) (inv.ChangesMembers i) n n') :
    ∃ h', Extends h h' ∧ CallSim d h' c i n' :=
  hr.simAct (C := fun c => c.isMembership = false) hd rfl (fun _ => Command.reconfigures_of_not_membership)
    (fun c l h => ⟨(hok c l h).enabled, (hok c l h).noMembership⟩)
    (fun c l h => hd.simulable (hok c l h).enabled (hok c l h).whole (hok c l h).installs) hl hcall hi hen hs.1.1
      hs.1.2 hc ha

end

end

end Sound

theorem ClusterSim.applied_agree {h : Hist} (hc : ClusterSim d h c) {i j k : Nat} {e e' : LogEntry}
    (hi : (i, .applied k e) ∈ c.trace) (hj : (j, .applied k e') ∈ c.trace) : e = e' := by
  obtain ⟨hk, T, m, hT, hm, he⟩ := hc.trace _ hi
  obtain ⟨-, T', m', hT', hm', he'⟩ := hc.trace _ hj
  exact Committed.entry_agree (Quorum.inter d) hc.inv hT hT' (by omega) (by omega) he he'

/-- The runs with fixed membership in which nodes restart only between calls and no `InstallSnapshot` is
delivered. -/
def SnapshotFreeRun (d : Deployment) : Cluster → Prop :=
  Reachable d fun c l => Enabled d c l ∧ l.NoMembership ∧ l.whole ∧ l.NoSnapshot

/-- State machine safety: whatever nodes, or incarnations of one node, apply at one index is the same entry. -/
theorem state_machine_safety (hd : FixedMembership d members version) (hr : SnapshotFreeRun d c) (i j k : Nat)
    (e e' : LogEntry) (hi : (i, .applied k e) ∈ c.trace) (hj : (j, .applied k e') ∈ c.trace) : e = e' := by
  obtain ⟨h, hc⟩ := hr.soundSim hd fun c _ h => ⟨h.1, h.2.1, h.2.2.1, h.2.2.2.soundInstalls c⟩
  exact hc.applied_agree hi hj

end Fixed

/-- The first entry of node 1 is refused by node 2 at first, then taken over, committed and applied by both. -/
def trioApplied : Cluster :=
  (Cluster.init trio).play trio (fun _ l => l.calm && l.snapshotFree)
    [.tick 1 true, .deliver 3, .deliver 9, .tick 1 true, .deliver 12, .deliver 14, .tick 1 true, .deliver 15,
      .deliver 19,
      .tick 1 true, .deliver 21]

theorem state_machine_safety_trio : (1, .applied 1 ⟨1, .noOp⟩) ∈ trioApplied.trace ∧
    ∃ e, (2, .applied 1 e) ∈ trioApplied.trace ∧ e = ⟨1, .noOp⟩ := by
  obtain ⟨members, version, hd⟩ := trio_fixed
  have hr : SnapshotFreeRun trio trioApplied := by
    refine .play (fun c l he hw hk => ?_) .init _
    rw [Bool.and_eq_true] at hk
    exact ⟨he, Label.noMembership_of_calm hk.1, hw, Label.noSnapshot_of_snapshotFree hk.2⟩
  have h1 : (1, Effect.applied 1 ⟨1, .noOp⟩) ∈ trioApplied.trace := List.mem_of_getElem? (i := 20) rfl
  have h2 : (2, Effect.applied 1 ⟨1, .noOp⟩) ∈ trioApplied.trace := List.mem_of_getElem? (i := 24) rfl
  exact ⟨h1, _, h2, state_machine_safety hd hr 2 1 1 _ _ h2 h1⟩

end RustHadoop
