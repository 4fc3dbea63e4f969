import RustHadoop.Raft.Safety

/-!
# Adding and removing one server

`AddServer` and `RemoveServer`, the commands behind `add_raft_server` and `remove_raft_server`, change the peers of
a node and leave its cluster configuration as it is.  `RemoveServer` takes the id of the server for a position in
the list of peers, which every node has in another order:

* two nodes that agreed on the members still agree after `RemoveServer` exactly if they drop the same address
  (`membership_agreement_iff`); with four nodes they need not (`removeServer_disagrees`);
* a leader without peers commits alone, so the commit rule holds as long as a node without peers is a majority of
  its configuration (`commit_needs_majority`); a leader of two nodes that has removed the other one breaks it
  (`removeServer_commits_alone`).
-/

namespace RustHadoop

open ReplicatedLog RaftNode List Label

def MembershipCommand.isSingle : MembershipCommand → Bool
  | .addServer _ _ | .removeServer _ => true
  | _ => false

variable {c : MembershipCommand}

namespace RaftNode

variable (n : RaftNode)

def applyMembership (log : List MembershipCommand) : RaftNode := log.foldl applyMembershipCommand n

private theorem applyMembership_concat (log : List MembershipCommand) (c : MembershipCommand) :
    n.applyMembership (log ++ [c]) = (n.applyMembership log).applyMembershipCommand c := by
  simp [applyMembership]

/-- The members as the node with this address sees them: itself and its peers. -/
def memberSet (address : String) : Finset String := insert address n.peers.toFinset

/-- The address, other than its own, that the node drops for `RemoveServer k`. -/
def dropped (address : String) (k : Nat) : Option String := n.peers[k]?.filter (· ≠ address)

variable {n : RaftNode} {address : String}

private theorem dropped_subset (k : Nat) : (n.dropped address k).toFinset ⊆ n.memberSet address := by
  intro x hx
  obtain ⟨hk, -⟩ := Option.filter_eq_some_iff.1 (Option.mem_toFinset.1 hx)
  exact Finset.mem_insert_of_mem (mem_toFinset.2 (mem_of_getElem? hk))

private theorem peers_addServer (n : RaftNode) (id : Nat) (added : String) :
    (n.applyMembershipCommand (.addServer id added)).peers =
      if added ∈ n.peers then n.peers else n.peers ++ [added] := by
  simp only [applyMembershipCommand]
  split <;> rfl

private theorem peers_removeServer (n : RaftNode) (k : Nat) :
    (n.applyMembershipCommand (.removeServer k)).peers = n.peers.eraseIdx k := by
  simp only [applyMembershipCommand]
  split
  · rfl
  · rename_i h
    exact (eraseIdx_of_length_le (by omega)).symm

private theorem memberSet_addServer (id : Nat) (added : String) :
    (n.applyMembershipCommand (.addServer id added)).memberSet address = insert added (n.memberSet address) := by
  rw [memberSet, peers_addServer]
  split
  · rename_i h
    exact (Finset.insert_eq_of_mem (Finset.mem_insert_of_mem (mem_toFinset.2 h))).symm
  · ext x
    simp only [memberSet, toFinset_append, Finset.mem_insert, Finset.mem_union, mem_toFinset, mem_singleton]
    tauto

private theorem memberSet_removeServer (hn : n.peers.Nodup) (k : Nat) :
    (n.applyMembershipCommand (.removeServer k)).memberSet address =
      n.memberSet address \ (n.dropped address k).toFinset := by
  rw [memberSet, peers_removeServer]
  rcases Nat.lt_or_ge k n.peers.length with h | h
  · have hk : n.peers[k]? = some n.peers[k] := getElem?_eq_getElem h
    ext x
    rw [Finset.mem_sdiff, memberSet, Finset.mem_insert, Finset.mem_insert, mem_toFinset, mem_toFinset,
      ← hn.erase_getElem k h, hn.mem_erase_iff]
    simp only [dropped, Option.mem_toFinset, Option.mem_def, Option.filter_eq_some_iff, hk, Option.some.injEq,
      decide_eq_true_eq]
    by_cases hx : x = address
    · simp [hx]
    · simp [hx, eq_comm, and_comm]
  · rw [eraseIdx_of_length_le h, dropped, getElem?_eq_none h]
    simp [memberSet]

private theorem nodup_applyMembershipCommand (hn : n.peers.Nodup) (hc : c.isSingle = true) :
    (n.applyMembershipCommand c).peers.Nodup := by
  cases c with
  | addServer id added =>
    rw [peers_addServer]
    split
    · exact hn
    · rename_i h
      simpa using hn.concat h
  | removeServer k =>
    rw [peers_removeServer]
    exact hn.sublist (eraseIdx_sublist ..)
  | _ => cases hc

end RaftNode

/-- Two nodes with these addresses: after every command of the log each is a member in the eyes of the other. -/
def Remain (a b : String) (m n : RaftNode) (log : List MembershipCommand) : Prop :=
  ∀ pre, pre <+: log → a ∈ (n.applyMembership pre).memberSet b ∧ b ∈ (m.applyMembership pre).memberSet a

/-- A node that is started with the other members as peers, in any order. -/
structure StartsAmong (members : Finset String) (address : String) (n : RaftNode) : Prop where
  mem : address ∈ members
  nodup : n.peers.Nodup
  peers : n.peers.toFinset = members.erase address

section Agreement

variable {members : Finset String} {a b : String} {m n : RaftNode} {log : List MembershipCommand}

private theorem StartsAmong.memberSet (h : StartsAmong members a m) : m.memberSet a = members := by
  rw [RaftNode.memberSet, h.peers, Finset.insert_erase h.mem]

theorem StartsAmong.nodup_applyMembership (h : StartsAmong members a m) (hl : ∀ c ∈ log, c.isSingle = true) :
    (m.applyMembership log).peers.Nodup := by
  induction log using reverseRecOn with
  | nil => exact h.nodup
  | append_singleton log c ih =>
    rw [applyMembership_concat]
    exact nodup_applyMembershipCommand (ih fun c hc => hl c (mem_append_left _ hc)) (hl c (by simp))

private theorem agree_command_iff (hm : m.peers.Nodup) (hn : n.peers.Nodup) (h : m.memberSet a = n.memberSet b)
    (hc : c.isSingle = true) :
    (m.applyMembershipCommand c).memberSet a = (n.applyMembershipCommand c).memberSet b ↔
      ∀ k, c = .removeServer k → m.dropped a k = n.dropped b k := by
  cases c with
  | addServer id added => simp [memberSet_addServer, h]
  | removeServer k =>
    rw [memberSet_removeServer hm, memberSet_removeServer hn, h]
    simp only [MembershipCommand.removeServer.injEq, forall_eq']
    refine ⟨fun heq => ?_, fun heq => by rw [heq]⟩
    have hsub : (m.dropped a k).toFinset ⊆ n.memberSet b := h ▸ dropped_subset k
    have := congrArg (n.memberSet b \ ·) heq
    simp only [Finset.sdiff_sdiff_eq_self hsub, Finset.sdiff_sdiff_eq_self (dropped_subset k)] at this
    ext x
    rw [← Option.mem_def, ← Option.mem_toFinset, this, Option.mem_toFinset, Option.mem_def]
  | _ => cases hc

/-- Two nodes that remain members agree on the member set along a log exactly if every `RemoveServer` of the log
makes both drop the same address. -/
theorem membership_agreement_iff (hm : StartsAmong members a m) (hn : StartsAmong members b n)
    (hlog : ∀ c ∈ log, c.isSingle = true) :
    (∀ pre, pre <+: log → Remain a b m n pre →
        (m.applyMembership pre).memberSet a = (n.applyMembership pre).memberSet b) ↔
      ∀ pre k, pre ++ [.removeServer k] <+: log → Remain a b m n (pre ++ [.removeServer k]) →
        (m.applyMembership pre).dropped a k = (n.applyMembership pre).dropped b k := by
  have hstep : ∀ {pre c}, pre ++ [c] <+: log →
      (m.applyMembership pre).memberSet a = (n.applyMembership pre).memberSet b →
      ((m.applyMembership (pre ++ [c])).memberSet a = (n.applyMembership (pre ++ [c])).memberSet b ↔
        ∀ k, c = .removeServer k → (m.applyMembership pre).dropped a k = (n.applyMembership pre).dropped b k) := by
    intro pre c hpre h
    have hall : ∀ x ∈ pre ++ [c], x.isSingle = true := fun x hx => hlog x (hpre.subset hx)
    have hall' : ∀ x ∈ pre, x.isSingle = true := fun x hx => hall x (mem_append_left _ hx)
    rw [applyMembership_concat, applyMembership_concat]
    exact agree_command_iff (hm.nodup_applyMembership hall') (hn.nodup_applyMembership hall') h (hall c (by simp))
  have hinit : ∀ {pre c}, Remain a b m n (pre ++ [c]) → Remain a b m n pre :=
    fun h p hp => h p (hp.trans (prefix_append ..))
  constructor
  · intro hagree pre k hpre hrem
    have h := hagree pre ((prefix_append ..).trans hpre) (hinit hrem)
    exact (hstep hpre h).1 (hagree _ hpre hrem) k rfl
  · intro hdrop pre
    induction pre using reverseRecOn with
    | nil =>
      intro _ _
      exact hm.memberSet.trans hn.memberSet.symm
    | append_singleton pre c ih =>
      intro hpre hrem
      have h := ih ((prefix_append ..).trans hpre) (hinit hrem)
      refine (hstep hpre h).2 fun k hk => ?_
      subst hk
      exact hdrop pre k hpre hrem

end Agreement

def started (id : Nat) (address : String) (peers : List String) : RaftNode :=
  .boot { id := id, peers := peers, clientAddress := address, appState := .master .default } .empty

private theorem prefix_singleton_cases {α : Type} {x : α} {pre : List α} (h : pre <+: [x]) :
    pre = [] ∨ pre = [x] := by
  rcases prefix_cons_iff.1 h with rfl | ⟨t, rfl, ht⟩
  · exact .inl rfl
  · exact .inr (by rw [prefix_nil.1 ht])

/-- Four nodes, each with the others in their order: `RemoveServer 1` makes the first drop the third and the fourth
drop the second. -/
theorem removeServer_disagrees : StartsAmong {"a", "b", "c", "d"} "a" (started 1 "a" ["b", "c", "d"]) ∧
      StartsAmong {"a", "b", "c", "d"} "d" (started 4 "d" ["a", "b", "c"]) ∧
      Remain "a" "d" (started 1 "a" ["b", "c", "d"]) (started 4 "d" ["a", "b", "c"]) [.removeServer 1] ∧
      ((started 1 "a" ["b", "c", "d"]).applyMembership [.removeServer 1]).memberSet "a" = {"a", "b", "d"} ∧
      ((started 4 "d" ["a", "b", "c"]).applyMembership [.removeServer 1]).memberSet "d" = {"a", "c", "d"} := by
  refine ⟨⟨by decide, by decide, by decide⟩, ⟨by decide, by decide, by decide⟩, fun pre hpre =>
    ?_, by decide, by decide⟩
  rcases prefix_singleton_cases hpre with rfl | rfl <;> decide

/-- The first two of three nodes both drop the third. -/
theorem membership_agreement_iff_three :
    ((started 1 "a" ["b", "c"]).applyMembership [.removeServer 1]).memberSet "a" =
      ((started 2 "b" ["a", "c"]).applyMembership [.removeServer 1]).memberSet "b" := by
  have hm : StartsAmong {"a", "b", "c"} "a" (started 1 "a" ["b", "c"]) := ⟨by decide, by decide, by decide⟩
  have hn : StartsAmong {"a", "b", "c"} "b" (started 2 "b" ["a", "c"]) := ⟨by decide, by decide, by decide⟩
  have hlog : ∀ c ∈ [MembershipCommand.removeServer 1], c.isSingle = true := by simp [MembershipCommand.isSingle]
  refine (membership_agreement_iff hm hn hlog).2 ?_ _ prefix_rfl ?_
  · intro pre k hpre _
    rcases prefix_singleton_cases hpre with h | h
    · simp at h
    · obtain ⟨rfl, h⟩ := append_eq_singleton_iff.1 h |>.resolve_right (by simp)
      obtain rfl : k = 1 := by simpa using h
      decide
  · intro pre hpre
    rcases prefix_singleton_cases hpre with rfl | rfl <;> decide

def Command.isSingle : Command → Bool
  | .membership c => c.isSingle
  | _ => true

theorem Command.reconfigures_of_isSingle {c : Command} (h : c.isSingle = true) : c.reconfigures = false := by
  cases c with
  | membership c => cases c <;> first | rfl | cases h
  | _ => rfl

/-- Whenever the node that is called turns to an event without having peers, it is a majority of its
configuration. -/
def Label.HasPeers (c : Cluster) (l : Label) : Prop :=
  ∀ i inv clock, l.call? = some (i, inv, clock) → ∀ m e, TurnsTo (c.ready i clock) inv m e → m.peers = [] →
    m.clusterConfig.hasJointMajority {i} = true

/-- A step of a cluster whose members change only by `AddServer` and `RemoveServer`. -/
structure SingleStep (d : Deployment) (c : Cluster) (l : Label) : Prop where
  enabled : Enabled d c l
  keeps : l.Keeps fun c => c.isSingle = true
  whole : l.whole
  installs : l.SoundInstalls c

/-- Node `j` has the log of node `i` up to `k`, as far as both still have it. -/
def Cluster.HoldsLog (c : Cluster) (j i k : Nat) : Prop :=
  k ≤ (c.node j).lastLogIndex ∧ ∀ l ≤ k, (c.node i).lastIncludedIndex < l → (c.node j).lastIncludedIndex < l →
    (c.node j).image l = (c.node i).image l

variable {l : Label}

section Commitment

variable {d : Deployment} {members : Nat → Members} {version : Nat → Nat} {c : Cluster} {h : Hist} {i : Nat}

private theorem SingleStep.simulable (hd : FixedMembership d members version) (h : SingleStep d c l)
    (hp : l.HasPeers c) : l.Simulable d (fun c => c.isSingle = true) c := by
  refine ⟨h.whole, fun i inv clock hc => ⟨fun n m e ht hs hn _ hpr => ?_, h.installs i inv clock hc⟩⟩
  have hi : i ∈ d.ids := by
    cases l with
    | invoke | crash =>
      simp only [call?, Option.some.injEq, Prod.mk.injEq] at hc
      rw [← hc.1]
      exact h.enabled.1
    | restart => cases hc
  have hm := hp i inv clock hc m e ht (hs.2.1.symm.trans hpr)
  rw [← hs.2.2, hn.config] at hm
  exact (hd.majority hi {i}).1 hm

private theorem NodeSim.image {n : RaftNode} (hn : NodeSim d h i n) {k : Nat} (hk : n.lastIncludedIndex < k) :
    n.image k = (h.log i)[k - 1]? := by
  rw [RaftNode.image, if_pos hk, hn.entry hk]

private theorem ClusterSim.committed_held (hc : ClusterSim d h c) (hi : i ∈ d.ids) :
    ∃ A, Quorum d A ∧ ∀ j ∈ A, j ∈ d.ids ∧ c.HoldsLog j i (c.node i).commitIndex := by
  have hn := hc.node i hi
  rcases hn.settled with h0 | ⟨T, k, hcom, -, hle, ht⟩
  · refine ⟨d.ids, ?_, fun j hj => ⟨hj, by omega, fun l hl hlt => by omega⟩⟩
    have := Finset.card_pos.2 ⟨i, hi⟩
    simp only [Quorum, Finset.inter_self]
    omega
  · obtain ⟨A, hA, hh⟩ := hcom.quorum_holds (Quorum.inter d) hc.inv
    refine ⟨A ∩ d.ids, by simpa [Quorum] using hA, fun j hj => ?_⟩
    obtain ⟨hjA, hj⟩ := Finset.mem_inter.1 hj
    have hnj := hc.node j hj
    have hlen := hcom.1.le_length
    have heq : (h.log j).take (c.node i).commitIndex = (h.log i).take (c.node i).commitIndex :=
      (take_eq_of_le (hh j hjA) hle).trans ht.symm
    refine ⟨hj, ?_, fun l hl hlt hlt' => ?_⟩
    · rw [hnj.lastLogIndex]
      exact hle.trans (le_length_of_take_eq (hh j hjA) hlen)
    · rw [hnj.image hlt', hn.image hlt, getElem?_eq_of_take_eq heq (by omega)]

/-- A node calls committed only what a majority of its configuration has in its log, in every run in which a node
without peers is such a majority by itself. -/
theorem commit_needs_majority (hd : FixedMembership d members version)
    (hr : Reachable d (fun c l => SingleStep d c l ∧ l.HasPeers c) c) (hi : i ∈ d.ids) :
    ∃ A, (c.node i).clusterConfig.hasJointMajority A = true ∧ ∀ j ∈ A, c.HoldsLog j i (c.node i).commitIndex := by
  have hrec : ∀ c : Command, c.isSingle = true → c.reconfigures = false :=
    fun _ => Command.reconfigures_of_isSingle
  obtain ⟨h, hc⟩ := Reachable.sim (C := fun c => c.isSingle = true) hd rfl hrec
    (fun c l h => ⟨h.1.enabled, h.1.keeps⟩) (fun c l h => h.1.simulable hd h.2) hr
  have hs := hr.static (C := fun c => c.isSingle = true) hd.quiet rfl hrec fun c l h => ⟨h.1.enabled, h.1.keeps⟩
  obtain ⟨A, hA, hheld⟩ := hc.committed_held hi
  refine ⟨A, ?_, fun j hj => (hheld j hj).2⟩
  rw [(hs.node i hi).config]
  exact (hd.majority hi A).2 hA

end Commitment

def duo : Deployment := .ofMembers ⟨[⟨1, "a"⟩, ⟨2, "b"⟩], by simp [NodupKeys, keys]⟩ (.master .default)

private theorem duo_fixed : ∃ members version, FixedMembership duo members version :=
  ⟨_, _, Deployment.ofMembers_fixed (by simp) (by decide)⟩

def Event.isSingle : Event → Bool
  | .clientRequest command _ => command.isSingle
  | _ => true

def Label.isSingle (l : Label) : Bool :=
  match l.call? with
  | some (_, .events es, _) => es.all Event.isSingle
  | some (_, .tick _, _) | none => true
  | some (_, .addServers _, _) | some (_, .removeServers _, _) => false

private theorem Label.keeps_of_isSingle (h : l.isSingle = true) : l.Keeps fun c => c.isSingle = true := by
  intro i inv clock hc
  simp only [isSingle, hc] at h
  cases inv with
  | tick => exact ⟨fun h => h, nofun⟩
  | events es => exact ⟨fun h => h, fun command tx hin => all_eq_true.1 h _ hin⟩
  | addServers | removeServers => cases h

def Label.hasPeers (c : Cluster) (l : Label) : Bool :=
  match l.call? with
  | some (i, .events [_], _) | some (i, .tick _, _) => !(c.node i).peers.isEmpty
  | none => true
  | _ => false

private theorem Label.hasPeers_of_check {c : Cluster} (h : l.hasPeers c = true) : l.HasPeers c := by
  intro i inv clock hc m e ht hp
  have hne : (c.node i).peers ≠ [] := by
    rw [hasPeers, hc] at h
    cases inv with
    | tick => simpa using h
    | events es =>
      match es, h with
      | [_], h => simpa using h
    | addServers | removeServers => cases h
  cases inv with
  | tick =>
    cases ht
    exact absurd hp hne
  | events es =>
    rw [hasPeers, hc] at h
    match es, h, e, ht with
    | [_], _, some _, ht =>
      obtain ⟨-, rfl⟩ := ht.single
      exact absurd hp hne
  | addServers | removeServers => cases ht

/-- Node 1 leads and commits and applies `RemoveServer 0`, which takes node 2 out of its peers. -/
def duoRemoved : Cluster :=
  (Cluster.init duo).play duo (fun c l => l.isSingle && l.snapshotFree && l.hasPeers c)
    [.tick 1 true, .deliver 3, .deliver 8, .propose 1 [(.membership (.removeServer 0), 0)], .deliver 13,
      .deliver 14,
      .tick 1 false, .deliver 15, .deliver 18]

theorem commit_needs_majority_duo : (duoRemoved.node 1).commitIndex = 2 ∧
    ∃ A, (duoRemoved.node 1).clusterConfig.hasJointMajority A = true ∧ ∀ j ∈ A, duoRemoved.HoldsLog j 1 2 := by
  obtain ⟨members, version, hd⟩ := duo_fixed
  have hr : Reachable duo (fun c l => SingleStep duo c l ∧ l.HasPeers c) duoRemoved := by
    refine .play (fun c l he hw hk => ?_) .init _
    simp only [Bool.and_eq_true] at hk
    exact ⟨⟨he, keeps_of_isSingle hk.1.1, hw, (noSnapshot_of_snapshotFree hk.1.2).soundInstalls c⟩,
      hasPeers_of_check hk.2⟩
  exact ⟨rfl, commit_needs_majority hd hr (i := 1) (by decide)⟩

/-- The leader of two nodes that has taken the other out of its peers commits entry 3 at once, although every
majority of its configuration contains the other, whose log ends at 2. -/
theorem removeServer_commits_alone :
    let c := (Cluster.init duo).play duo (fun _ l => l.isSingle && l.snapshotFree)
      [.tick 1 true, .deliver 3, .deliver 8, .propose 1 [(.membership (.removeServer 0), 0)], .deliver 13,
        .deliver 14,
        .tick 1 false, .deliver 15, .deliver 18, .propose 1 [(.noOp, 1)]]
    Reachable duo (SingleStep duo) c ∧ (c.node 1).role = .leader ∧ (c.node 1).commitIndex = 3 ∧
      (∀ A, (c.node 1).clusterConfig.hasJointMajority A = true → 2 ∈ A) ∧ ¬ c.HoldsLog 2 1 3 := by
  intro c
  obtain ⟨members, version, hd⟩ := duo_fixed
  refine ⟨.play (fun c l he hw hk => ?_) .init _, rfl, rfl, fun A hA => ?_, fun h => ?_⟩
  · simp only [Bool.and_eq_true] at hk
    exact ⟨he, keeps_of_isSingle hk.1, hw, (noSnapshot_of_snapshotFree hk.2).soundInstalls c⟩
  · have hmaj : duo.ids.card / 2 < (A ∩ duo.ids).card := (hd.majority (i := 1) (by decide) A).1 hA
    by_contra h2
    have hsub : A ∩ duo.ids ⊆ {1} := by
      intro x hx
      obtain ⟨hxA, hx⟩ := Finset.mem_inter.1 hx
      have : x = 1 ∨ x = 2 := by simpa [duo, Deployment.ofMembers, AList.keys, keys] using hx
      rcases this with rfl | rfl
      · simp
      · exact absurd hxA h2
    have hcard := Finset.card_le_card hsub
    have htwo : duo.ids.card = 2 := rfl
    rw [Finset.card_singleton] at hcard
    omega
  · exact absurd h.1 (by decide +kernel)

end RustHadoop
