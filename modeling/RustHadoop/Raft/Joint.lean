import RustHadoop.Raft.Election

/-!
# Elections while the membership changes

Runs in which nodes change their configuration through joint consensus.  A configuration takes effect on a node
when the node applies its entry, and is written to disk then, so the trace tells which configuration a node had
when it stood for election.  It applies nothing while it is a candidate, so this is also the configuration that
elects it.  A vote is still given once in a term.  Two nodes can lead in one term only if one stood with the old
members alone and the other with the new members alone, or if one was not a member of its own configuration:
`start_election` lets a node lead at once if its configuration has one member, whoever that is.

`joint_election_safety` is this statement, and `removed_leader` a run in which a node that has been removed leads
in the same term as the only member.
-/

namespace RustHadoop

open ClusterConfiguration RaftNode List

variable {config : ClusterConfiguration}

namespace RaftNode

/-- Neither the configuration in memory nor the one on disk changes, or the new one is on disk. -/
def KeepsConfig (n n' : RaftNode) : Prop :=
  (n'.clusterConfig = n.clusterConfig ∧ n'.db.clusterConfig = n.db.clusterConfig) ∨
    n'.db.clusterConfig = some n'.clusterConfig

private theorem applyMembershipCommand_keepsConfig (n : RaftNode) (c : MembershipCommand) :
    KeepsConfig n (n.applyMembershipCommand c) := by
  cases c with
  | beginJointConsensus | finalizeConfiguration => exact .inr rfl
  | addServer | removeServer =>
    simp only [applyMembershipCommand]
    split <;> exact .inl ⟨rfl, rfl⟩
  | addServers | removeServers => exact .inl ⟨rfl, rfl⟩

private theorem applyNext_keepsConfig (n : RaftNode) : KeepsConfig n n.applyNext := by
  refine applyNext_induction n (fun _ => .inl ⟨rfl, rfl⟩) (fun entry _ => ?_) fun _ _ _ _ hm _ => hm
  have ha : KeepsConfig n ({ n with lastApplied := n.lastApplied + 1 }.applyEntry entry) := by
    unfold applyEntry
    split
    · exact applyMembershipCommand_keepsConfig { n with lastApplied := n.lastApplied + 1 } _
    · unfold applyCommand
      split <;> exact .inl ⟨rfl, rfl⟩
  exact ha

/-- What every action respects: the id, the configuration on disk, and which messages are sent and returned. -/
structure OpenFrame (n n' : RaftNode) : Prop where
  id : n'.id = n.id
  config : KeepsConfig n n'
  out : ∃ es, n'.out = n.out ++ es ∧ ∀ e ∈ es, e.Routed

private theorem OpenFrame.of_eq {n n' : RaftNode} (es : List Effect) (hid : n'.id = n.id)
    (hc : n'.clusterConfig = n.clusterConfig) (hdb : n'.db.clusterConfig = n.db.clusterConfig)
    (ho : n'.out = n.out ++ es) (hes : ∀ e ∈ es, e.Routed) : OpenFrame n n' :=
  ⟨hid, .inl ⟨hc, hdb⟩, es, ho, hes⟩

private theorem OpenFrame.stepDownToFollower (n : RaftNode) (t : Nat) (hint : Option String) :
    OpenFrame n (n.stepDownToFollower t hint) := by
  refine stepDownToFollower_induction n t hint (fun _ => .of_eq _ rfl rfl rfl rfl (by simp [Effect.Routed]))
    (fun _ => .of_eq [] rfl rfl rfl (append_nil _).symm (by simp)) fun m _ _ _ es hm hes => ?_
  obtain ⟨es0, ho, hes0⟩ := hm.out
  refine ⟨hm.id, hm.config, es0 ++ es, by simp [ho], fun e he => ?_⟩
  rcases mem_append.1 he with he | he
  · exact hes0 e he
  · cases hes e he <;> trivial

private theorem Upkeep.routed {e : Effect} (h : Upkeep e) : e.Routed := by
  rcases h with ⟨_ | _⟩ | _ | _ | _ | _ <;> trivial

theorem Act.openFrame {D : RaftNode → Option Event → Prop} {M : Prop} {n n' : RaftNode} (h : Act D M n n') :
    OpenFrame n n' := by
  cases h with
  | stepDown t hint => exact .stepDownToFollower n t hint
  | apply =>
    have hc := applyNext_keepsConfig n
    obtain ⟨t, s, clock, reads, es, heq, hes, -⟩ := applyNext_eq n
    rw [heq] at hc ⊢
    exact ⟨rfl, hc, es, rfl, fun e he => by cases hes e he <;> trivial⟩
  | checkReads =>
    obtain ⟨r, es, heq, hes⟩ := Upkeep.checkReads n
    rw [heq]
    exact .of_eq es rfl rfl rfl rfl fun e he => (hes e he).routed
  | stand => rw [standForElection_eq]; exact .of_eq _ rfl rfl rfl rfl (by simp [Effect.Routed])
  | grant a => rw [grantVote_eq]; exact .of_eq _ rfl rfl rfl rfl (by simp [Effect.Routed])
  | lead =>
    obtain ⟨next, heq⟩ := takeLeadership_eq n
    rw [heq]
    exact .of_eq _ rfl rfl rfl rfl (by simp [Effect.Routed])
  | replicateAt a =>
    obtain ⟨l, st, es, heq, hes, -⟩ := appendAtSnapshot_eq n a
    rw [heq]
    exact .of_eq _ rfl rfl rfl rfl fun e he => (Upkeep.replicate hes e he).routed
  | replicateAfter a =>
    obtain ⟨l, st, es, heq, hes, -⟩ := appendAfterSnapshot_eq n a
    rw [heq]
    exact .of_eq _ rfl rfl rfl rfl fun e he => (Upkeep.replicate hes e he).routed
  | compact =>
    rw [createSnapshot_eq]
    exact .of_eq _ rfl rfl rfl (append_assoc ..) fun e he => (Upkeep.snapshot _ _ _ _ e he).routed
  | install a =>
    rw [installSnapshot_eq]
    exact .of_eq _ rfl rfl rfl (append_assoc ..) fun e he => (Upkeep.snapshot _ _ _ _ e he).routed
  | info e he =>
    refine .of_eq [e] rfl rfl rfl rfl ?_
    simp only [mem_singleton, forall_eq]
    unfold Effect.isInfo at he
    split at he <;> trivial
  | addServers servers =>
    unfold handleAddServersRequest
    repeat' split
    all_goals exact .of_eq [] rfl rfl rfl (append_nil _).symm (by simp)
  | respond msg tx m hD resp ha =>
    refine .of_eq [.respond tx resp] rfl rfl rfl rfl ?_
    simp only [mem_singleton, forall_eq]
    cases ha with
    | echo msg hm => exact hm
    | _ => rfl
  | askVote | sendAppend | sendSnapshot | sendTimeout | propose =>
    exact .of_eq [_] rfl rfl rfl rfl (by simp [Effect.Routed, RpcMessage.isRequest])
  | note | countVote | commitFollowing | commitMajority | commitAlone | matchAppend | matchSnapshot | ackAppend
  | ackSnapshot | transfer => exact .of_eq [] rfl rfl rfl (append_nil _).symm (by simp)

/-- A node is a candidate because it stands now, or because it was one: then it has the same term, and has applied
nothing if there was nothing to apply. -/
theorem Act.candidate {D : RaftNode → Option Event → Prop} {M : Prop} {n n' : RaftNode} (h : Act D M n n')
    (hc : n'.role = .candidate) : (n' = n.standForElection ∧ ∃ m event, D m event ∧ n.indices = m.indices) ∨
      (n.role = .candidate ∧ n'.currentTerm = n.currentTerm ∧
        (n.Drained → n'.Drained ∧ n'.db.clusterConfig = n.db.clusterConfig)) := by
  cases h with
  | stand m event hD hi => exact .inl ⟨rfl, m, event, hD, hi⟩
  | stepDown t hint => cases (stepDownToFollower_role n t hint).symm.trans hc
  | lead =>
    obtain ⟨next, heq⟩ := takeLeadership_eq n
    rw [heq] at hc
    cases hc
  | commitFollowing a m tx hD hr | commitMajority index hr | commitAlone m event hD hm hr =>
    cases hr.symm.trans hc
  | replicateAt a m tx hD hr =>
    obtain ⟨l, st, es, heq, -⟩ := appendAtSnapshot_eq n a
    rw [heq] at hc
    cases hr.symm.trans hc
  | replicateAfter a m tx hD hr =>
    obtain ⟨l, st, es, heq, -⟩ := appendAfterSnapshot_eq n a
    rw [heq] at hc
    cases hr.symm.trans hc
  | install a m tx hD hr =>
    rw [installSnapshot_eq] at hc
    cases hr.symm.trans hc
  | apply hlt =>
    obtain ⟨t, s, clock, reads, es, heq, -⟩ := applyNext_eq n
    rw [heq] at hc ⊢
    exact .inr ⟨hc, rfl, fun hd => absurd hlt hd.not_gt⟩
  | checkReads =>
    obtain ⟨r, es, heq, -⟩ := Upkeep.checkReads n
    rw [heq] at hc ⊢
    exact .inr ⟨hc, rfl, fun hd => ⟨hd, rfl⟩⟩
  | compact =>
    rw [createSnapshot_eq] at hc ⊢
    exact .inr ⟨hc, rfl, fun hd => ⟨hd, rfl⟩⟩
  | grant a =>
    rw [grantVote_eq] at hc ⊢
    exact .inr ⟨hc, rfl, fun hd => ⟨hd, rfl⟩⟩
  | addServers servers =>
    revert hc
    unfold handleAddServersRequest
    repeat' split
    all_goals exact fun hc => .inr ⟨hc, rfl, fun hd => ⟨hd, rfl⟩⟩
  | _ => exact .inr ⟨hc, rfl, fun hd => ⟨hd, rfl⟩⟩

end RaftNode

variable (d : Deployment)

def Deployment.configOf (tr : Trace) (v : Nat) : ClusterConfiguration :=
  (d.config v).clusterConfig (d.stored tr v)

/-- Node `v` has voted for itself in term `t` with the configuration it has now. -/
def Deployment.Stands (tr : Trace) (v t : Nat) : Prop :=
  ∃ k, tr[k]? = some (v, .voted t v) ∧ d.configOf (tr.take k) v = d.configOf tr v

/-- What elects a node now: its own vote with a majority of the configuration with which it stands, or a
configuration with one member. -/
def Deployment.ElectsNow (tr : Trace) (v : Nat) (A : Finset Nat) : Prop :=
  v ∈ A ∧ ((d.configOf tr v).hasJointMajority A = true ∨ (d.configOf tr v).allMembers.entries.length = 1) ∧
    d.Stands tr v (d.termOf tr v)

/-- The configuration of the node is the one on disk, or has no members and can elect nobody. -/
def RaftNode.ConfigStored (conf : RaftNodeConfig) (n : RaftNode) : Prop :=
  n.clusterConfig = conf.clusterConfig n.db ∨ ∃ version, n.clusterConfig = .simple ∅ version

variable {A : Finset Nat}

section Config

variable {conf : RaftNodeConfig} {db : Db} {n n' : RaftNode}

theorem RaftNodeConfig.clusterConfig_congr (conf : RaftNodeConfig) {db db' : Db}
    (h : db'.clusterConfig = db.clusterConfig) : conf.clusterConfig db' = conf.clusterConfig db := by
  simp only [RaftNodeConfig.clusterConfig, loadConfig, h]

private theorem RaftNodeConfig.clusterConfig_stored (conf : RaftNodeConfig) (h : db.clusterConfig = some config) :
    config = conf.clusterConfig db ∨ ∃ version, config = .simple ∅ version := by
  simp only [RaftNodeConfig.clusterConfig, loadConfig, h, Option.getD_some]
  cases config with
  | joint => exact .inl rfl
  | simple members version =>
    dsimp only
    split
    · rename_i he
      have hnil : members = ∅ := AList.ext (isEmpty_iff.1 he)
      exact .inr ⟨version, by rw [hnil]⟩
    · exact .inl rfl

theorem RaftNode.ConfigStored.keeps (h : n.ConfigStored conf) (hk : n.KeepsConfig n') : n'.ConfigStored conf := by
  rcases hk with ⟨hc, hdb⟩ | hk
  · rw [ConfigStored, hc, conf.clusterConfig_congr hdb]
    exact h
  · exact conf.clusterConfig_stored hk

private theorem RaftNode.ConfigStored.of_wins (h : n.ConfigStored conf)
    (hw : n.clusterConfig.hasJointMajority A = true ∨ n.clusterConfig.allMembers.entries.length = 1) :
    n.clusterConfig = conf.clusterConfig n.db := by
  rcases h with h | ⟨version, h⟩
  · exact h
  · rw [h] at hw
    rcases hw with hw | hw
    · simp [hasJointMajority, majorityOf] at hw
    · cases hw

end Config

/-- What holds in every run, whatever the nodes do to the membership. -/
structure OpenRun (d : Deployment) (c : Cluster) : Prop where
  voting : VotingRun d d.ElectsNow c
  routed : c.trace.Routed
  node : ∀ i ∈ d.ids, (c.node i).id = i ∧ (c.node i).ConfigStored (d.config i)
  stands : ∀ i ∈ d.ids, (c.node i).role = .candidate → d.Stands c.trace i (c.node i).currentTerm

structure OpenCall (d : Deployment) (c : Cluster) (i : Nat) (n : RaftNode) : Prop where
  voting : n.VotingCall d d.ElectsNow c i
  routed : (c.during i n).trace.Routed
  id : n.id = i
  config : n.ConfigStored (d.config i)
  stands : n.role = .candidate → n.Drained ∧ d.Stands (c.during i n).trace i n.currentTerm

section Runs

variable {d : Deployment} {ok : Cluster → Label → Prop} {c : Cluster} {i : Nat} {n n' : RaftNode}

theorem Trace.Routed.append {tr : Trace} (h : tr.Routed) {es : List Effect} (hes : ∀ e ∈ es, e.Routed) :
    Trace.Routed (tr ++ es.map (Prod.mk i)) := by
  intro x hx
  rcases mem_append.1 hx with hx | hx
  · exact h x hx
  · obtain ⟨e, he, rfl⟩ := mem_map.1 hx
    exact hes e he

private theorem Deployment.Stands.append {tr : Trace} {v t : Nat} (h : d.Stands tr v t) (tr' : Trace)
    (hc : d.configOf (tr ++ tr') v = d.configOf tr v) : d.Stands (tr ++ tr') v t := by
  obtain ⟨k, hk, ht⟩ := h
  have hlt : k < tr.length := (List.getElem?_eq_some_iff.1 hk).1
  refine ⟨k, by rwa [getElem?_append_left hlt], ?_⟩
  rw [take_append_of_le_length hlt.le, ht, hc]

private theorem stands_standForElection (hid : n.id = i) :
    d.Stands (c.during i n.standForElection).trace i n.standForElection.currentTerm := by
  have htr : (c.during i n.standForElection).trace = (c.during i n).trace ++
      [.write (.putTerm (n.currentTerm + 1)), .write (.putVote i), .voted (n.currentTerm + 1) i].map
        (Prod.mk i) := by
    rw [standForElection_eq]
    simp [Cluster.during, hid]
  have hw (es : List Effect) (hes : (replay (d.stored (c.during i n).trace i) es).clusterConfig =
      (d.stored (c.during i n).trace i).clusterConfig) :
      d.configOf ((c.during i n).trace ++ es.map (Prod.mk i)) i = d.configOf (c.during i n).trace i := by
    rw [Deployment.configOf, d.stored_append_same]
    exact (d.config i).clusterConfig_congr hes
  refine ⟨(c.during i n).trace.length + 2, ?_, ?_⟩
  · rw [htr, standForElection_eq]
    simp
  · rw [htr, hw _ rfl]
    simpa [take_length_add_append] using hw [.write (.putTerm (n.currentTerm + 1)), .write (.putVote i)] rfl

private theorem OpenCall.frame (h : OpenCall d c i n) (hv : n'.VotingCall d d.ElectsNow c i) (hf : n.OpenFrame n')
    (hs : n'.role = .candidate → n'.Drained ∧ (d.Stands (c.during i n').trace i n'.currentTerm ∨
      (n.role = .candidate ∧ n'.currentTerm = n.currentTerm ∧ n'.db.clusterConfig = n.db.clusterConfig))) :
    OpenCall d c i n' := by
  obtain ⟨es, ho, hes⟩ := hf.out
  refine ⟨hv, ?_, hf.id.trans h.id, h.config.keeps hf.config, fun hc => ?_⟩
  · rw [during_trace c i ho]
    exact h.routed.append hes
  · obtain ⟨hdr, hst | ⟨hr, ht, hcn⟩⟩ := hs hc
    · exact ⟨hdr, hst⟩
    · refine ⟨hdr, ?_⟩
      have heq : d.configOf (c.during i n').trace i = d.configOf (c.during i n).trace i := by
        rw [Deployment.configOf, Deployment.configOf, ← hv.node.db, ← h.voting.node.db]
        exact (d.config i).clusterConfig_congr hcn
      rw [during_trace c i ho] at heq ⊢
      rw [ht]
      exact (h.stands hr).2.append _ heq

private theorem OpenRun.call (h : OpenRun d c) {inv : Invocation} {m : RaftNode} (hm : m.Drained) (hi : i ∈ d.ids)
    (hen : inv.Enabled d c i) : Preserves (TurnsTo m inv) (inv.ChangesMembers i) fun _ n => OpenCall d c i n where
  mono := fun _ h => h
  act := by
    intro T n n' hn ha
    refine hn.frame (hn.voting.act (h.voting.messages h.routed hen) hi hn.id (fun hr hv hw => ?_) ha) ha.openFrame
      fun hc => ?_
    · have hcn := hn.config.of_wins hw
      rw [hcn, hn.voting.node.db] at hw
      refine ⟨hv, hw, ?_⟩
      rw [hn.voting.termOf]
      exact (hn.stands hr).2
    · rcases ha.candidate hc with ⟨rfl, k, event, hk, hin⟩ | ⟨hr, ht, hkp⟩
      · exact ⟨((hk.drained hm).of_indices hin).of_indices rfl, .inl (stands_standForElection hn.id)⟩
      · obtain ⟨hdr, hcn⟩ := hkp (hn.stands hr).1
        exact ⟨hdr, .inr ⟨hr, ht, hcn⟩⟩
  read := fun hl _ _ hn => hn.frame (hn.voting.registerRead _)
    ⟨rfl, .inl ⟨rfl, rfl⟩, [_], rfl, by simp [Effect.Routed]⟩ fun hc => nomatch hl.symm.trans hc
  accept := by
    intro T n requests hl hne _ _ hn
    have heq := acceptRequests_eq n requests hne
    refine hn.frame (hn.voting.acceptRequests hne) ?_ fun hc => ?_
    · rw [heq]
      refine ⟨rfl, .inl ⟨rfl, rfl⟩, _, append_assoc .., fun e he => ?_⟩
      simp only [mem_append, mem_singleton, mem_map] at he
      rcases he with rfl | ⟨r, -, rfl⟩ <;> trivial
    · rw [heq] at hc
      cases hl.symm.trans hc
  reject := by
    intro T n requests _ _ _ hn
    refine hn.frame (hn.voting.rejectRequests requests) ⟨rfl, .inl ⟨rfl, rfl⟩, _, rfl, fun e he => ?_⟩
      fun hc => ⟨(hn.stands hc).1, .inr ⟨hc, rfl, rfl⟩⟩
    obtain ⟨r, -, rfl⟩ := mem_map.1 he
    trivial

/-- Every run, with crashes at any write, follows the rule of elections under the current configuration. -/
theorem Reachable.open (hid : ∀ i, (d.config i).id = i) (hok : ∀ c l, ok c l → Enabled d c l)
    (hr : Reachable d ok c) : OpenRun d c := by
  have hb : ∀ i db, (boot (d.config i) db).id = i ∧ (boot (d.config i) db).ConfigStored (d.config i) :=
    fun i db => ⟨hid i, .inl rfl⟩
  have hf : ∀ i db, (boot (d.config i) db).role ≠ .candidate := by
    intro i db h
    cases h
  have hnd : ∀ c i (n : RaftNode), n.id = i ∧ n.ConfigStored (d.config i) → OpenRun d c → ∀ j ∈ d.ids,
      (Function.update c.node i n j).id = j ∧ (Function.update c.node i n j).ConfigStored (d.config j) :=
    fun c i n hn h => forall_update (Q := fun j m => m.id = j ∧ m.ConfigStored (d.config j)) (fun _ => hn)
      fun j hj _ => h.node j hj
  -- what the others have done since a node stood does not touch its configuration
  have hs : ∀ c i (n : RaftNode) (es : List Effect), OpenRun d c →
      (n.role = .candidate → d.Stands (c.trace ++ es.map (Prod.mk i)) i n.currentTerm) → ∀ j ∈ d.ids,
      (Function.update c.node i n j).role = .candidate →
      d.Stands (c.trace ++ es.map (Prod.mk i)) j (Function.update c.node i n j).currentTerm := by
    intro c i n es h hn
    refine forall_update
      (Q := fun j m => m.role = .candidate → d.Stands (c.trace ++ es.map (Prod.mk i)) j m.currentTerm)
      (fun _ => hn) fun j hj hij hc => (h.stands j hj hc).append _ ?_
    rw [Deployment.configOf, d.stored_append_of_ne c.trace es (Ne.symm hij)]
    rfl
  refine hr.invariant (fun c i _ _ n => OpenCall d c i n)
    ⟨.init, by simp [Trace.Routed, Cluster.init], fun i _ => hb i _, fun i _ h => absurd h (hf i _)⟩ hok
      (fun c i _ h hi => (h.node i hi).1) ?_ ?_ ?_ ?_ ?_
  · rintro c i inv clock hr h hi -
    have htr : (c.during i (c.ready i clock)).trace = c.trace := by simp [Cluster.during, Cluster.ready]
    refine ⟨h.voting.ready hi clock, ?_, (h.node i hi).1, (h.node i hi).2, fun hc => ⟨hr.drained i, ?_⟩⟩
      <;> rw [htr]
    · exact h.routed
    · exact h.stands i hi hc
  · exact fun c l i inv clock hr h _ _ hi hen => h.call (hr.drained i) hi hen
  · intro c i inv clock n _ _ h hi hn
    exact ⟨⟨(h.voting.during hn.voting).lawful, (h.voting.during hn.voting).node⟩, hn.routed,
      hnd c i n ⟨hn.id, hn.config⟩ h, hs c i n n.out h fun hc => (hn.stands hc).2⟩
  · intro c i inv clock k n _ _ h hi hn
    refine ⟨⟨(h.voting.crashed hi hn.voting k).lawful, (h.voting.crashed hi hn.voting k).node⟩, ?_,
      hnd c i _ (hb i _) h, hs c i _ _ h fun hc => absurd hc (hf i _)⟩
    refine h.routed.append fun e he => hn.routed (i, e) (mem_append_right _ (mem_map_of_mem ?_))
    exact mem_of_mem_take he
  · intro c i _ _ h hi
    exact ⟨h.voting.restart hi, by simpa [Cluster.crashed] using h.routed, hnd c i _ (hb i _) h,
      hs c i _ [] h fun hc => absurd hc (hf i _)⟩

end Runs

namespace ClusterConfiguration

/-- The sets of members of which a majority is needed. -/
def electorates : ClusterConfiguration → List (Finset Nat)
  | simple members _ => [members.keys.toFinset]
  | joint oldMembers newMembers _ => [oldMembers.keys.toFinset, newMembers.keys.toFinset]

private theorem mem_foldl_insert (es : List (Sigma fun _ : Nat => String)) (m : Members) (j : Nat) :
    j ∈ es.foldl (fun (m : Members) e => m.insert e.1 e.2) m ↔ j ∈ m ∨ j ∈ es.keys := by
  induction es generalizing m with
  | nil => simp
  | cons e es ih => rw [foldl_cons, ih, AList.mem_insert, keys_cons, mem_cons, or_assoc, or_left_comm]

theorem mem_allMembers (config : ClusterConfiguration) (j : Nat) :
    j ∈ config.allMembers ↔ ∃ S ∈ config.electorates, j ∈ S := by
  cases config with
  | simple members _ => simp [allMembers, electorates, AList.mem_keys]
  | joint oldMembers newMembers _ =>
    have hn : j ∈ newMembers.entries.keys ↔ j ∈ newMembers := AList.mem_keys.symm
    simp [allMembers, electorates, mem_foldl_insert, hn, ← AList.mem_keys]

theorem majority_of_hasJointMajority
    (h : config.hasJointMajority A = true) : ∀ S ∈ config.electorates, S.card / 2 < (A ∩ S).card := by
  have ho : ∀ members : Members, majorityOf members A = true →
      members.keys.toFinset.card / 2 < (A ∩ members.keys.toFinset).card := by
    intro members hm
    rwa [majorityOf_eq (fun j => by rw [mem_toFinset, AList.mem_keys]), decide_eq_true_iff] at hm
  cases config with
  | simple members _ => simpa [electorates] using ho members h
  | joint oldMembers newMembers _ =>
    simp only [hasJointMajority, Bool.and_eq_true] at h
    simpa [electorates] using ⟨ho oldMembers h.1, ho newMembers h.2⟩

private theorem exists_common_member {other : ClusterConfiguration} {B : Finset Nat} {members : Members}
    (hA : config.hasJointMajority A = true) (hB : other.hasJointMajority B = true)
    (hc : members.keys.toFinset ∈ config.electorates) (ho : members.keys.toFinset ∈ other.electorates) :
    ∃ j ∈ members, j ∈ A ∧ j ∈ B := by
  have hm := majority_of_hasJointMajority hA _ hc
  have hmj := majority_of_hasJointMajority hB _ ho
  obtain ⟨j, hj, hjA, hjB⟩ := exists_mem_of_majorities hm hmj
  exact ⟨j, AList.mem_keys.2 (mem_toFinset.1 hj), hjA, hjB⟩

/-- Two majorities of one configuration share a member, and so do a majority of a joint configuration and one of
its old members, of its new members or of the joint configuration; `A` and `B` may hold other ids as well. -/
theorem quorums_intersect (oldMembers newMembers : Members) (version version' : Nat) (A B : Finset Nat) :
    ((simple oldMembers version).hasJointMajority A = true →
      (simple oldMembers version').hasJointMajority B = true →
      ∃ j ∈ oldMembers, j ∈ A ∧ j ∈ B) ∧
    ((joint oldMembers newMembers version).hasJointMajority A = true →
      ((simple oldMembers version').hasJointMajority B = true → ∃ j ∈ oldMembers, j ∈ A ∧ j ∈ B) ∧
      ((simple newMembers version').hasJointMajority B = true → ∃ j ∈ newMembers, j ∈ A ∧ j ∈ B) ∧
      ((joint oldMembers newMembers version').hasJointMajority B = true →
        (∃ j ∈ oldMembers, j ∈ A ∧ j ∈ B) ∧ ∃ j ∈ newMembers, j ∈ A ∧ j ∈ B)) := by
  refine ⟨fun hA hB => ?_, fun hA => ⟨fun hB => ?_, fun hB => ?_, fun hB => ⟨?_, ?_⟩⟩⟩
  all_goals exact exists_common_member hA hB (by simp [electorates]) (by simp [electorates])

private theorem majority_of_wins {i : Nat} (hi : i ∈ A) (hmem : i ∈ config.allMembers)
    (hw : config.hasJointMajority A = true ∨ config.allMembers.entries.length = 1) :
    ∀ S ∈ config.electorates, S.Nonempty → S.card / 2 < (A ∩ S).card := by
  intro S hS hne
  rcases hw with hw | hw
  · exact majority_of_hasJointMajority hw S hS
  · have hk : config.allMembers.keys = [i] := by
      have hlen : config.allMembers.keys.length = 1 := (length_map _).trans hw
      obtain ⟨x, hx⟩ := length_eq_one_iff.1 hlen
      rw [AList.mem_keys, hx, mem_singleton] at hmem
      rw [hx, hmem]
    have ho : S = {i} := by
      refine Finset.eq_singleton_iff_nonempty_unique_mem.2 ⟨hne, fun j hj => ?_⟩
      have hj' := (config.mem_allMembers j).2 ⟨S, hS, hj⟩
      rwa [AList.mem_keys, hk, mem_singleton] at hj'
    simp [ho, hi]

end ClusterConfiguration

namespace Deployment

variable (d : Deployment) (O N : Finset Nat) (tr : Trace)

/-- At every time every node has the old members `O`, the new members `N`, or both. -/
def OneChange : Prop :=
  ∀ k, ∀ i ∈ d.ids, (d.configOf (tr.take k) i).electorates ∈ [[O], [N], [O, N]]

/-- A node that stands for election is a member of its configuration. -/
def MembersStand : Prop :=
  ∀ k i t, tr[k]? = some (i, .voted t i) → i ∈ (d.configOf (tr.take k) i).allMembers

/-- No two nodes stand in one term, one with the old members alone and the other with the new members alone. -/
def NeverApart : Prop :=
  O ≠ N → ∀ t k i m j, tr[k]? = some (i, .voted t i) → (d.configOf (tr.take k) i).electorates = [O] →
    tr[m]? = some (j, .voted t j) → (d.configOf (tr.take m) j).electorates = [N] → i = j

end Deployment

section OneChange

variable {d : Deployment} {O N : Finset Nat} {c : Cluster}

private theorem common_electorate {E F : List (Finset Nat)} (hE : E ∈ [[O], [N], [O, N]])
    (hF : F ∈ [[O], [N], [O, N]]) (hne : ∃ S ∈ E, S.Nonempty) (hne' : ∃ S ∈ F, S.Nonempty) :
    (O ≠ N ∧ E = [O] ∧ F = [N]) ∨ (O ≠ N ∧ E = [N] ∧ F = [O]) ∨ ∃ S ∈ E, S ∈ F ∧ S.Nonempty := by
  rcases eq_or_ne O N with rfl | hON
  · refine .inr (.inr ⟨O, ?_⟩)
    simp only [mem_cons, not_mem_nil, or_false] at hE hF
    rcases hE with rfl | rfl | rfl <;> rcases hF with rfl | rfl | rfl <;> simp_all
  · simp only [mem_cons, not_mem_nil, or_false] at hE hF
    rcases hE with rfl | rfl | rfl <;> rcases hF with rfl | rfl | rfl <;> simp_all

private theorem OpenRun.stood (h : OpenRun d c) {i t : Nat} (hi : (i, .becameLeader t) ∈ c.trace) :
    i ∈ d.ids ∧ ∃ k A, c.trace[k]? = some (i, .voted t i) ∧ i ∈ A ∧
      ((d.configOf (c.trace.take k) i).hasJointMajority A = true ∨
        (d.configOf (c.trace.take k) i).allMembers.entries.length = 1) ∧
      ∀ u ∈ A, (u, .voted t i) ∈ c.trace := by
  obtain ⟨p, hp, hid, rfl, A, ⟨hiA, hw, k, hk, hc⟩, hA⟩ := h.voting.lawful.of_mem hi
  have hlt : k < p.length := (List.getElem?_eq_some_iff.1 hk).1
  obtain ⟨rest, hr⟩ := hp
  refine ⟨hid, k, A, ?_, hiA, ?_, fun u hu => ?_⟩
  · rw [← hr, getElem?_append_left hlt, hk]
  · rwa [← hr, take_append_of_le_length hlt.le, hc]
  · rw [← hr]
    exact mem_append_left _ (hA u hu)

/-- In a run that changes the members from `O` to `N`, in which only members stand and no two nodes stand in one
term with the old members alone and with the new members alone, a term has at most one leader. -/
theorem joint_election_safety (hid : ∀ i, (d.config i).id = i) (hr : Reachable d (Enabled d) c)
    (hone : d.OneChange O N c.trace) (hstand : d.MembersStand c.trace) (hapart : d.NeverApart O N c.trace) :
    ∀ i j t, (i, .becameLeader t) ∈ c.trace → (j, .becameLeader t) ∈ c.trace → i = j := by
  have hrun := hr.open hid fun _ _ h => h
  intro i j t hi hj
  obtain ⟨hid, k, A, hk, hiA, hwA, hA⟩ := hrun.stood hi
  obtain ⟨hjd, m, B, hm, hjB, hwB, hB⟩ := hrun.stood hj
  have hmaj := majority_of_wins hiA (hstand k i t hk) hwA
  have hmaj' := majority_of_wins hjB (hstand m j t hm) hwB
  obtain ⟨S, hS, hiS⟩ := (mem_allMembers _ i).1 (hstand k i t hk)
  obtain ⟨S', hS', hjS'⟩ := (mem_allMembers _ j).1 (hstand m j t hm)
  rcases common_electorate (hone k i hid) (hone m j hjd) ⟨S, hS, i, hiS⟩ ⟨S', hS', j, hjS'⟩ with
    ⟨hne, hO, hN⟩ | ⟨hne, hN, hO⟩ | ⟨S, hE, hF, hne⟩
  · exact hapart hne t k i m j hk hO hm hN
  · exact (hapart hne t m j k i hm hO hk hN).symm
  · obtain ⟨v, -, hv⟩ := exists_mem_of_majorities (hmaj S hE hne) (hmaj' S hF hne)
    exact vote_unique hrun.voting.lawful (hA v hv.1) (hB v hv.2)

end OneChange

def Label.isInvoke : Label → Bool
  | .invoke _ _ _ => true
  | _ => false

/-- A run in which no process stops. -/
def Undisturbed : Cluster → Prop := Reachable d fun c l => Enabled d c l ∧ l.isInvoke = true

/-- Node 1 leads and is asked to remove nodes 2 and 3.  It commits `BeginJointConsensus` with node 2 and appends
`FinalizeConfiguration`; node 2 receives both, is elected by the joint configuration and leads in term 2. -/
def trioChanging : Cluster :=
  (((Cluster.init trio).play trio (fun _ => Label.isInvoke) [.tick 1 true, .deliver 3, .deliver 9]).step trio
    (.invoke 1 (.removeServers [2, 3]) [])).play trio (fun _ => Label.isInvoke)
    [.tick 1 false, .deliver 13, .deliver 15, .tick 1 false, .deliver 16, .deliver 20, .tick 1 false, .read 1 0,
      .deliver 29,
      .tick 2 true, .deliver 41, .deliver 42, .deliver 48]

theorem trioChanging_undisturbed : Undisturbed trio trioChanging := by
  refine .play (fun _ _ he _ hk => ⟨he, hk⟩)
    (.step _ (.play (fun _ _ he _ hk => ⟨he, hk⟩) .init _) ⟨⟨by decide, ?_⟩, rfl⟩) _
  exact ⟨by simp [Invocation.eventList], nofun, by simp [Invocation.channels, Invocation.eventList],
    by simp [Invocation.channels, Invocation.eventList]⟩

private theorem forall_take {P : Trace → Prop} {tr : Trace} (h : ∀ k ≤ tr.length, P (tr.take k)) (k : Nat) :
    P (tr.take k) := by
  rcases Nat.le_total k tr.length with hk | hk
  · exact h k hk
  · rw [take_of_length_le hk]
    simpa using h tr.length le_rfl

private theorem trioChanging_stages : ∀ k, ∀ i ∈ trio.ids,
    (trio.configOf (trioChanging.trace.take k) i).electorates ∈ [[{1, 2, 3}], [{1, 2, 3}, {1}]] :=
  forall_take (P := fun p => ∀ i ∈ trio.ids, (trio.configOf p i).electorates ∈ [[{1, 2, 3}], [{1, 2, 3}, {1}]])
    (by decide +kernel)

theorem joint_election_safety_trio :
    (1, .becameLeader 1) ∈ trioChanging.trace ∧ (2, .becameLeader 2) ∈ trioChanging.trace ∧
    ∀ i j t, (i, .becameLeader t) ∈ trioChanging.trace → (j, .becameLeader t) ∈ trioChanging.trace → i = j := by
  have hids : ∀ x ∈ trioChanging.trace, x.1 ∈ trio.ids := by decide +kernel
  have hone : trio.OneChange {1, 2, 3} {1} trioChanging.trace := by
    intro k i hi
    have h := trioChanging_stages k i hi
    simp only [mem_cons, not_mem_nil, or_false] at h ⊢
    tauto
  have hstand : trio.MembersStand trioChanging.trace := by
    intro k i t hk
    have hi : i ∈ trio.ids := hids _ (mem_of_getElem? hk)
    have hi' : i ∈ ({1, 2, 3} : Finset Nat) := by simpa [trio, Deployment.ofMembers, AList.keys, keys] using hi
    refine (mem_allMembers _ i).2 ⟨{1, 2, 3}, ?_, hi'⟩
    have h := trioChanging_stages k i hi
    simp only [mem_cons, not_mem_nil, or_false] at h
    rcases h with h | h <;> simp [h]
  have hapart : trio.NeverApart {1, 2, 3} {1} trioChanging.trace := by
    intro _ t k i m j _ _ hm hN
    have h := trioChanging_stages m j (hids _ (mem_of_getElem? hm))
    rw [hN] at h
    exact absurd h (by decide)
  have hr : Reachable trio (Enabled trio) trioChanging := trioChanging_undisturbed.weaken fun _ _ h => h.1
  refine ⟨mem_of_getElem? (i := 10) (by rfl), mem_of_getElem? (i := 54) (by rfl), ?_⟩
  exact joint_election_safety (fun _ => rfl) hr hone hstand hapart

/-- Node 2 commits `FinalizeConfiguration` and tells node 1; both hold the configuration `{1}`.  Node 3 makes them
followers in term 3, their elections time out, and each becomes leader of term 4 without asking for a vote. -/
theorem removed_leader :
    let c := trioChanging.play trio (fun _ => Label.isInvoke)
      [.tick 2 false, .deliver 56, .deliver 58, .tick 2 false, .deliver 59, .deliver 63, .tick 2 false,
        .deliver 68,
        .tick 3 true, .deliver 78, .deliver 79, .tick 1 true, .tick 2 true]
    Undisturbed trio c ∧ trio.OneChange {1, 2, 3} {1} c.trace ∧
      (1, .becameLeader 4) ∈ c.trace ∧ (2, .becameLeader 4) ∈ c.trace := by
  intro c
  refine ⟨.play (fun _ _ he _ hk => ⟨he, hk⟩) trioChanging_undisturbed _, ?_, mem_of_getElem? (i := 89) (by rfl),
    mem_of_getElem? (i := 95) (by rfl)⟩
  exact forall_take
    (P := fun p => ∀ i ∈ trio.ids, (trio.configOf p i).electorates ∈ [[{1, 2, 3}], [{1}], [{1, 2, 3}, {1}]])
    (by decide +kernel)

end RustHadoop
