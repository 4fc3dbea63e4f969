import RustHadoop.Raft.Election

/-!
# The peers a node is started with

On an empty database a node takes its voting members from the addresses of its peers: an address stands for the id
that its text gives.  The members are the configured nodes under their own ids exactly if every address gives the
id of the process behind it, and then a node leads only with the votes of a majority of the configured nodes
(`configured_peers_vote_iff`).  The addresses that the chart in `deploy/helm` gives the second shard have no id in
them, so each node of that shard elects itself (`shardTwo_elects_itself`).
-/

namespace RustHadoop

open ClusterConfiguration List RaftNodeConfig

namespace RaftNodeConfig

/-- The node is started with the addresses of `peers`; the ids are those of the processes behind the addresses. -/
structure StartedWith (conf : RaftNodeConfig) (peers : List (Nat × String)) : Prop where
  addresses : conf.peers = peers.map Prod.snd
  distinct : (peers.map Prod.snd).Nodup
  ids : (conf.id :: peers.map Prod.fst).Nodup

variable (conf : RaftNodeConfig)

def configuredIds (peers : List (Nat × String)) : Finset Nat :=
  (conf.id :: peers.map Prod.fst).toFinset

/-- On an empty database the node and every peer are members under their own ids and with their own addresses. -/
def HoldsPeers (peers : List (Nat × String)) : Prop :=
  ∀ p ∈ (conf.id, conf.clientAddress) :: peers, (conf.clusterConfig .empty).allMembers.lookup p.1 = some p.2

/-- One round of the loop over the peers in `new`. -/
private def addPeer (members : Members) (peer : String) : Members :=
  match extractNodeIdFromAddress peer with
  | some peerId => members.insert peerId peer
  | none => members

private theorem initialMembers_eq :
    conf.initialMembers = (conf.peers.foldl addPeer ∅).insert conf.id conf.clientAddress := rfl

private theorem lookup_addPeer (members : Members) (peer : String) (j : Nat) : (addPeer members peer).lookup j =
      if extractNodeIdFromAddress peer = some j then some peer else members.lookup j := by
  unfold addPeer
  split
  · rename_i k hk
    by_cases hj : k = j
    · subst hj
      simp [hk]
    · rw [AList.lookup_insert_ne (Ne.symm hj), hk, if_neg fun h => hj (Option.some.inj h)]
  · rename_i hk
    simp [hk]

section

variable {peers : List String} {members : Members} {j : Nat} {addr : String}

private theorem lookup_addPeers (h : (peers.foldl addPeer members).lookup j = some addr) :
    (addr ∈ peers ∧ extractNodeIdFromAddress addr = some j) ∨ members.lookup j = some addr := by
  induction peers generalizing members with
  | nil => exact .inr h
  | cons p peers ih =>
    rcases ih h with ⟨hin, hex⟩ | h
    · exact .inl ⟨mem_cons_of_mem _ hin, hex⟩
    · rw [lookup_addPeer] at h
      split at h
      · rename_i hp
        obtain rfl := Option.some.inj h
        exact .inl ⟨mem_cons_self .., hp⟩
      · exact .inr h

private theorem lookup_addPeers_of_unique (hu : ∀ p ∈ peers, extractNodeIdFromAddress p = some j → p = addr)
    (h : (addr ∈ peers ∧ extractNodeIdFromAddress addr = some j) ∨ members.lookup j = some addr) :
    (peers.foldl addPeer members).lookup j = some addr := by
  induction peers generalizing members with
  | nil => simpa using h
  | cons p peers ih =>
    refine ih (fun q hq => hu q (mem_cons_of_mem _ hq)) ?_
    rw [lookup_addPeer]
    split
    · rename_i hp
      exact .inr (congrArg some (hu p (mem_cons_self ..) hp))
    · rename_i hp
      rcases h with ⟨hin, hex⟩ | h
      · rcases mem_cons.1 hin with rfl | hin
        · exact absurd hex hp
        · exact .inl ⟨hin, hex⟩
      · exact .inr h

end

private theorem clusterConfig_empty : conf.clusterConfig .empty = .simple conf.initialMembers 0 := rfl

variable {conf : RaftNodeConfig} {peers : List (Nat × String)}

private theorem StartedWith.holdsPeers_iff (h : conf.StartedWith peers) :
    conf.HoldsPeers peers ↔ ∀ p ∈ peers, extractNodeIdFromAddress p.2 = some p.1 := by
  have hne : ∀ p ∈ peers, p.1 ≠ conf.id := fun p hp heq =>
    (nodup_cons.1 h.ids).1 (heq ▸ mem_map_of_mem hp)
  have hl : ∀ p ∈ peers, (conf.clusterConfig .empty).allMembers.lookup p.1 =
      (conf.peers.foldl addPeer ∅).lookup p.1 := by
    intro p hp
    rw [clusterConfig_empty, allMembers, initialMembers_eq, AList.lookup_insert_ne (hne p hp)]
  constructor
  · intro hall p hp
    have hp' := hall p (mem_cons_of_mem _ hp)
    rw [hl p hp] at hp'
    rcases lookup_addPeers hp' with ⟨-, hex⟩ | hn
    · exact hex
    · simp at hn
  · intro hall p hp
    rcases mem_cons.1 hp with rfl | hp
    · rw [clusterConfig_empty, allMembers, initialMembers_eq, AList.lookup_insert]
    · rw [hl p hp]
      refine lookup_addPeers_of_unique (fun addr ha hex => ?_) (.inl ⟨?_, hall p hp⟩)
      · -- two peers with one id are one peer
        rw [h.addresses] at ha
        obtain ⟨q, hq, rfl⟩ := mem_map.1 ha
        have hf : q.1 = p.1 := Option.some.inj ((hall q hq).symm.trans hex)
        rw [inj_on_of_nodup_map (nodup_cons.1 h.ids).2 hq hp hf]
      · rw [h.addresses]
        exact mem_map_of_mem hp

private theorem StartedWith.mem_members (h : conf.StartedWith peers)
    (hall : ∀ p ∈ peers, extractNodeIdFromAddress p.2 = some p.1) (j : Nat) :
    j ∈ conf.initialMembers ↔ j ∈ conf.configuredIds peers := by
  simp only [configuredIds, mem_toFinset, mem_cons, mem_map]
  rw [initialMembers_eq, AList.mem_insert]
  refine or_congr_right ⟨fun hj => ?_, ?_⟩
  · obtain ⟨addr, ha⟩ := Option.isSome_iff_exists.1 (AList.lookup_isSome.2 hj)
    rcases lookup_addPeers ha with ⟨hin, hex⟩ | hn
    · rw [h.addresses] at hin
      obtain ⟨p, hp, rfl⟩ := mem_map.1 hin
      exact ⟨p, hp, Option.some.inj ((hall p hp).symm.trans hex)⟩
    · simp at hn
  · rintro ⟨p, hp, rfl⟩
    have hl := h.holdsPeers_iff.2 hall p (mem_cons_of_mem _ hp)
    rw [clusterConfig_empty, allMembers, initialMembers_eq] at hl
    have hne : p.1 ≠ conf.id := fun heq => (nodup_cons.1 h.ids).1 (heq ▸ mem_map_of_mem hp)
    rw [AList.lookup_insert_ne hne] at hl
    exact AList.lookup_isSome.1 (Option.isSome_of_mem hl)

end RaftNodeConfig

/-- Every node is started on an empty database. -/
structure Deployment.New (d : Deployment) : Prop where
  id : ∀ i, (d.config i).id = i
  db : ∀ i ∈ d.ids, d.db i = .empty

section New

variable {d : Deployment} {c : Cluster}

private theorem Deployment.New.quiet (hd : d.New) : d.Quiet :=
  ⟨hd.id, fun i hi => by rw [hd.db i hi]; rfl, fun i hi => by rw [hd.db i hi]; rfl⟩

private theorem Deployment.New.selfMajority (hd : d.New) : d.SelfMajority := by
  intro i hi A hA ho
  rw [hd.db i hi, clusterConfig_empty] at ho ⊢
  simp only [allMembers] at ho
  simp only [hasJointMajority, majorityOf, ho, decide_eq_true_iff]
  refine Finset.card_pos.2 ⟨i, Finset.mem_filter.2 ⟨hA, ?_⟩⟩
  rw [initialMembers_eq, AList.mem_insert]
  exact .inl (hd.id i).symm

/-- The configured peers of a node are voters, and it leads only when a majority of the configured nodes have voted
for it, exactly if every address gives the id of the process behind it. -/
theorem configured_peers_vote_iff (hd : d.New) {i : Nat} (hi : i ∈ d.ids) {peers : List (Nat × String)}
    (hp : (d.config i).StartedWith peers) :
    ((d.config i).HoldsPeers peers ∧ ∀ c, FixedRun d c → ∀ k t, c.trace[k]? = some (i, .becameLeader t) →
        ∃ A ⊆ (d.config i).configuredIds peers, (peers.length + 1) / 2 < A.card ∧
          ∀ v ∈ A, (v, .voted t i) ∈ c.trace.take k) ↔
      ∀ p ∈ peers, extractNodeIdFromAddress p.2 = some p.1 := by
  rw [hp.holdsPeers_iff, and_iff_left_iff_imp]
  intro hall c hr k t hk
  have hrun : ElectionRun d c :=
    Reachable.election (C := fun c => c.isMembership = false) hd.quiet hd.selfMajority rfl
    (fun _ => Command.reconfigures_of_not_membership) (fun _ _ h => h) hr
  obtain ⟨-, -, A, hA, hvotes⟩ := hrun.lawful k _ hk
  rw [Deployment.Elects, hd.db i hi, clusterConfig_empty, hasJointMajority,
    majorityOf_eq (hp.mem_members hall), decide_eq_true_iff, configuredIds,
    toFinset_card_of_nodup hp.ids] at hA
  refine ⟨A ∩ (d.config i).configuredIds peers, Finset.inter_subset_right, ?_, fun v hv => ?_⟩
  · simpa [configuredIds] using hA
  · exact hvotes v (Finset.mem_inter.1 hv).1

end New

def pair (addr1 addr2 : String) : Deployment where
  ids := {1, 2}
  config i :=
    { id := i
      peers := if i = 1 then [addr2] else [addr1]
      clientAddress := if i = 1 then addr1 else addr2
      appState := .master .default }
  db _ := .empty
  resolve addr := if addr = addr1 then some 1 else if addr = addr2 then some 2 else none

private theorem pair_new (addr1 addr2 : String) : (pair addr1 addr2).New := ⟨fun _ => rfl, fun _ _ => rfl⟩

theorem pair_startedWith (addr1 addr2 : String) : ((pair addr1 addr2).config 1).StartedWith [(2, addr2)] :=
  ⟨rfl, by simp, by simp [pair]⟩

/-- The first shard, with the addresses of `templates/metaserver.yaml`. -/
def shardOne : Deployment :=
  pair "http://dfs-metaserver-0.dfs-metaserver-headless:8080"
    "http://dfs-metaserver-1.dfs-metaserver-headless:8080"

theorem configured_peers_vote_iff_shardOne :
    (shardOne.config 1).HoldsPeers [(2, "http://dfs-metaserver-1.dfs-metaserver-headless:8080")] :=
  ((configured_peers_vote_iff (pair_new _ _) (by decide) (pair_startedWith _ _)).2 (by decide +kernel)).1

/-- The second shard, with the addresses of `templates/metaserver-shard2.yaml`. -/
def shardTwo : Deployment :=
  pair "http://dfs-metaserver-shard2-0.dfs-metaserver-shard2-headless:8080"
    "http://dfs-metaserver-shard2-1.dfs-metaserver-shard2-headless:8080"

/-- Node 1 of the second shard does not know node 2 as a member and leads with its own vote alone. -/
theorem shardTwo_elects_itself :
    let c := (Cluster.init shardTwo).play shardTwo (fun _ l => l.calm) [.tick 1 true]
    (shardTwo.config 1).StartedWith [(2, "http://dfs-metaserver-shard2-1.dfs-metaserver-shard2-headless:8080")] ∧
      ((shardTwo.config 1).clusterConfig .empty).allMembers.lookup 2 = none ∧
      FixedRun shardTwo c ∧ (1, .becameLeader 1) ∈ c.trace ∧ ∀ v, (v, .voted 1 1) ∈ c.trace → v = 1 := by
  intro c
  have hown : ∀ x ∈ c.trace, x.1 = 1 := by decide +kernel
  refine ⟨pair_startedWith _ _, by decide +kernel, ?_, mem_of_getElem? (i := 3) rfl, fun v hv => hown _ hv⟩
  exact .play (fun _ _ he _ hk => ⟨he, Label.noMembership_of_calm hk⟩) .init _

end RustHadoop
