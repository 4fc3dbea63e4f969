import RustHadoop.Meta.Replay
import RustHadoop.Raft.Replies
import RustHadoop.Raft.Safety

/-!
# What a snapshot holds

A leader sends a lagging peer the index of its last compaction together with its state of now (`snapshotMessage`).
The message says the truth exactly if the commands after the compaction have not changed the state
(`snapshot_faithful_iff`).  As long as only such messages arrive, every node, with whatever snapshots, restarts and
compactions it has behind it, holds the state after the commands that it counts as applied.
-/

namespace RustHadoop

open RaftNode List

def MasterState.applyLogged (s : MasterState) : Command → MasterState
  | .master c => s.applyCommand c
  | _ => s

def MasterState.applyEntries (s : MasterState) (es : List LogEntry) : MasterState :=
  es.foldl (fun s e => s.applyLogged e.command) s

variable {s : MasterState}

private theorem MasterState.Same.applyLogged {t : MasterState} (h : s.Same t) (c : Command) :
    (s.applyLogged c).Same (t.applyLogged c) := by
  cases c with
  | master c => exact h.applyCommand c
  | _ => exact h

/-- The entries have been applied somewhere, at the indices from 1 on. -/
def Trace.Applied (tr : Trace) (es : List LogEntry) : Prop :=
  ∀ k e, es[k]? = some e → ∃ j, (j, .applied (k + 1) e) ∈ tr

/-- A state that holds what the first `k` commands make of `s0`. -/
def Trace.StateAt (tr : Trace) (s0 : MasterState) (k : Nat) (s : MasterState) : Prop :=
  ∃ es, es.length = k ∧ tr.Applied es ∧ s.Same (s0.applyEntries es)

namespace Trace.StateAt

variable {tr tr' : Trace} {s0 s t : MasterState} {k : Nat}

theorem mono (h : StateAt tr s0 k s) (hsub : ∀ x ∈ tr, x ∈ tr') : StateAt tr' s0 k s := by
  obtain ⟨es, hlen, hes, hs⟩ := h
  refine ⟨es, hlen, fun k e he => ?_, hs⟩
  obtain ⟨j, hj⟩ := hes k e he
  exact ⟨j, hsub _ hj⟩

theorem same (h : StateAt tr s0 k s) (hs : t.Same s) : StateAt tr s0 k t := by
  obtain ⟨es, hlen, hes, hs'⟩ := h
  exact ⟨es, hlen, hes, hs.trans hs'⟩

theorem zero (h : s.Same s0) : StateAt tr s0 0 s := ⟨[], rfl, nofun, h⟩

private theorem succ (h : StateAt tr s0 k s) {j : Nat} {e : LogEntry} (he : (j, .applied (k + 1) e) ∈ tr) :
    StateAt tr s0 (k + 1) (s.applyLogged e.command) := by
  obtain ⟨es, rfl, hes, hs⟩ := h
  refine ⟨es ++ [e], by simp, fun m x hx => ?_, ?_⟩
  · rcases Nat.lt_or_ge m es.length with hm | hm
    · exact hes m x (by rwa [getElem?_append_left hm] at hx)
    · rw [getElem?_append_right hm, getElem?_singleton] at hx
      split at hx
      · cases hx
        have : m = es.length := by omega
        exact ⟨j, by rwa [this]⟩
      · cases hx
  · rw [MasterState.applyEntries, foldl_append]
    exact hs.applyLogged _

private theorem unique (ha : ∀ i j m e e', (i, .applied m e) ∈ tr → (j, .applied m e') ∈ tr → e = e')
    (hs : StateAt tr s0 k s) (ht : StateAt tr s0 k t) : s.Same t := by
  obtain ⟨es, hlen, hes, hs⟩ := hs
  obtain ⟨es', hl', hes', ht⟩ := ht
  have heq : es = es' := by
    refine ext_getElem (hlen.trans hl'.symm) fun m h h' => ?_
    obtain ⟨i, hi⟩ := hes m _ (getElem?_eq_getElem h)
    obtain ⟨j, hj⟩ := hes' m _ (getElem?_eq_getElem h')
    exact ha i j (m + 1) _ _ hi hj
  subst heq
  exact hs.trans ht.symm

end Trace.StateAt

/-- The state in the message is the one after the commands up to its index. -/
def Trace.Faithful (tr : Trace) (s0 : MasterState) (a : InstallSnapshotArgs) : Prop :=
  ∃ s, a.data.Shows s ∧ tr.StateAt s0 a.lastIncludedIndex s

variable {a : InstallSnapshotArgs} {D : RaftNode → Option Event → Prop} {entry : LogEntry} {M : Prop}

namespace RaftNode

structure SameState (n n' : RaftNode) : Prop where
  appState : n'.appState = n.appState
  lastApplied : n'.lastApplied = n.lastApplied
  lastIncludedIndex : n'.lastIncludedIndex = n.lastIncludedIndex
  snapshotMeta : n'.db.snapshotMeta = n.db.snapshotMeta
  snapshotData : n'.db.snapshotData = n.db.snapshotData

private theorem SameState.stepDownToFollower (n : RaftNode) (t : Nat) (hint : Option String) :
    SameState n (n.stepDownToFollower t hint) :=
  stepDownToFollower_induction n t hint (fun _ => ⟨rfl, rfl, rfl, rfl, rfl⟩) (fun _ => ⟨rfl, rfl, rfl, rfl, rfl⟩)
    fun _ _ _ _ _ hm _ => ⟨hm.1, hm.2, hm.3, hm.4, hm.5⟩

/-- Only applying, compacting and installing change the applied state or the stored snapshot. -/
theorem Act.sameState {n n' : RaftNode} (h : Act D M n n') :
    SameState n n' ∨ (n' = n.applyNext ∧ n.lastApplied < n.commitIndex) ∨ n' = n.createSnapshot ∨
      ∃ m a tx, D m (some (.rpc (.installSnapshot a) tx)) ∧
        n' = n.installSnapshot a.lastIncludedIndex a.lastIncludedTerm a.data := by
  cases h with
  | apply hlt => exact .inr (.inl ⟨rfl, hlt⟩)
  | compact => exact .inr (.inr (.inl rfl))
  | install a m tx hD => exact .inr (.inr (.inr ⟨m, a, tx, hD, rfl⟩))
  | stepDown t hint => exact .inl (.stepDownToFollower n t hint)
  | stand => rw [standForElection_eq]; exact .inl ⟨rfl, rfl, rfl, rfl, rfl⟩
  | grant a => rw [grantVote_eq]; exact .inl ⟨rfl, rfl, rfl, rfl, rfl⟩
  | lead => obtain ⟨next, h⟩ := takeLeadership_eq n; rw [h]; exact .inl ⟨rfl, rfl, rfl, rfl, rfl⟩
  | replicateAt a => obtain ⟨l, d, es, h, -⟩ :=
      appendAtSnapshot_eq n a; rw [h]; exact .inl ⟨rfl, rfl, rfl, rfl, rfl⟩
  | replicateAfter a =>
    obtain ⟨l, d, es, h, -⟩ := appendAfterSnapshot_eq n a
    rw [h]
    exact .inl ⟨rfl, rfl, rfl, rfl, rfl⟩
  | checkReads => obtain ⟨r, es, h, -⟩ := checkReadIndices_eq n; rw [h]; exact .inl ⟨rfl, rfl, rfl, rfl, rfl⟩
  | addServers servers =>
    unfold handleAddServersRequest
    repeat' split
    all_goals exact .inl ⟨rfl, rfl, rfl, rfl, rfl⟩
  | _ => exact .inl ⟨rfl, rfl, rfl, rfl, rfl⟩

private theorem applyEntry_master (n : RaftNode) (entry : LogEntry) (hs : n.appState = .master s) :
    (n.applyEntry entry).appState = .master (s.applyLogged entry.command) := by
  unfold applyEntry
  cases entry.command with
  | membership c =>
    obtain ⟨t, es, h, -⟩ := applyMembershipCommand_eq n c
    simp only [h]
    exact hs
  | master c | config c => simp only [applyCommand, hs]; rfl
  | noOp => simp only [applyCommand]; exact hs

private theorem applyNext_master (n : RaftNode) (hs : n.appState = .master s)
    (he : n.log[n.lastApplied + 1 - n.lastIncludedIndex]? = some entry) :
    n.applyNext.appState = .master (s.applyLogged entry.command) ∧
      .applied (n.lastApplied + 1) entry ∈ n.applyNext.out := by
  refine applyNext_induction (P := fun m => m.appState = .master (s.applyLogged entry.command) ∧
    .applied (n.lastApplied + 1) entry ∈ m.out) n (by simp [he]) ?_ fun _ _ _ _ hm _ =>
      ⟨hm.1, mem_append_left _ hm.2⟩
  intro entry' he'
  obtain rfl := Option.some.inj (he.symm.trans he')
  exact ⟨applyEntry_master { n with lastApplied := n.lastApplied + 1 } entry hs, by simp [emit]⟩

/-- The node holds the state after the commands that it counts as applied, and has stored the one after those of
its snapshot. -/
structure HoldsState (s0 : MasterState) (tr : Trace) (n : RaftNode) : Prop where
  state : ∃ s, n.appState = .master s ∧ tr.StateAt s0 n.lastApplied s
  stored : n.db.snapshotMeta = none ∨ n.db.snapshotMeta.isSome = true ∧ ∃ data s, n.db.snapshotData = some data ∧
    data.Shows s ∧ tr.StateAt s0 n.lastIncludedIndex s

namespace HoldsState

variable {s0 : MasterState} {tr tr' : Trace} {n n' : RaftNode}

theorem congr (h : HoldsState s0 tr n) (hs : SameState n n') (hsub : ∀ x ∈ tr, x ∈ tr') :
    HoldsState s0 tr' n' := by
  refine ⟨?_, ?_⟩
  · obtain ⟨s, ha, hst⟩ := h.state
    exact ⟨s, hs.appState.trans ha, by rw [hs.lastApplied]; exact hst.mono hsub⟩
  · rw [hs.snapshotMeta, hs.snapshotData, hs.lastIncludedIndex]
    rcases h.stored with hn | ⟨hsm, data, s, hdt, hsh, hst⟩
    · exact .inl hn
    · exact .inr ⟨hsm, data, s, hdt, hsh, hst.mono hsub⟩

private theorem applyNext (h : HoldsState s0 tr n) {i : Nat}
    (he : n.log[n.lastApplied + 1 - n.lastIncludedIndex]? = some entry) (hsub : ∀ x ∈ tr, x ∈ tr')
    (ho : ∀ e ∈ n.applyNext.out, (i, e) ∈ tr') : HoldsState s0 tr' n.applyNext := by
  obtain ⟨s, ha, hst⟩ := h.state
  obtain ⟨ha', hm⟩ := applyNext_master n ha he
  have hst' := (hst.mono hsub).succ (ho _ hm)
  have hs := h.stored
  obtain ⟨t, s', clock, reads, es, heq, -⟩ := applyNext_eq n
  rw [heq] at ha' ⊢
  refine ⟨⟨_, ha', hst'⟩, ?_⟩
  rcases hs with hn | ⟨hsm, data, s, hdt, hsh, hst⟩
  · exact .inl hn
  · exact .inr ⟨hsm, data, s, hdt, hsh, hst.mono hsub⟩

private theorem createSnapshot (h : HoldsState s0 tr n) (hsub : ∀ x ∈ tr, x ∈ tr') :
    HoldsState s0 tr' n.createSnapshot := by
  obtain ⟨s, ha, hst⟩ := h.state
  rw [createSnapshot_eq]
  refine ⟨⟨s, ha, hst.mono hsub⟩, .inr ⟨rfl, n.appState.serialize, s, rfl, ?_, hst.mono hsub⟩⟩
  rw [ha]
  exact MasterState.shows_serialize (.refl s)

private theorem installSnapshot (n : RaftNode) (ha : tr.Faithful s0 a) (hsub : ∀ x ∈ tr, x ∈ tr') :
    HoldsState s0 tr' (n.installSnapshot a.lastIncludedIndex a.lastIncludedTerm a.data) := by
  obtain ⟨s, hs, hst⟩ := ha
  obtain ⟨t, hr, hsm⟩ := hs.restore n.appState
  rw [installSnapshot_eq]
  exact ⟨⟨t, hr, (hst.mono hsub).same hsm⟩, .inr ⟨rfl, a.data, s, rfl, hs, hst.mono hsub⟩⟩

theorem boot (h : HoldsState s0 tr n) {t : Nat} (hmt : n.db.snapshotMeta.getD (0, 0) = (n.lastIncludedIndex, t))
    {conf : RaftNodeConfig} (hc : conf.appState = .master s) (hs : s.Same s0) :
    HoldsState s0 tr (boot conf n.db) := by
  have hlii : (RaftNode.boot conf n.db).lastIncludedIndex = n.lastIncludedIndex := congrArg Prod.fst hmt
  have hl : (RaftNode.boot conf n.db).lastApplied = n.lastIncludedIndex := hlii
  rcases h.stored with hn | ⟨hsm, data, s', hdt, hsh, hst⟩
  · rw [hn] at hmt
    have hz : n.lastIncludedIndex = 0 := (congrArg Prod.fst hmt).symm
    refine ⟨⟨s, ?_, by rw [hl, hz]; exact .zero hs⟩, .inl hn⟩
    simp [RaftNode.boot, RaftNode.new, loadState, hn, hc]
  · obtain ⟨t, hr, hsame⟩ := hsh.restore conf.appState
    obtain ⟨m, hm⟩ := Option.isSome_iff_exists.1 hsm
    refine ⟨⟨t, ?_, by rw [hl]; exact hst.same hsame⟩, .inr ⟨hsm, data, s', hdt, hsh, by rw [hlii]; exact hst⟩⟩
    simp [RaftNode.boot, RaftNode.new, loadState, hm, hdt, hr]

end HoldsState

end RaftNode

variable {addr : String}

section Runs

variable {d : Deployment} {members : Nat → Members} {version : Nat → Nat} {c : Cluster}
  {s0 : MasterState} {i : Nat}

/-- Every `InstallSnapshot` that is delivered in the step says the truth. -/
def Label.FaithfulInstalls (s0 : MasterState) (c : Cluster) (l : Label) : Prop :=
  ∀ i inv clock, l.call? = some (i, inv, clock) → ∀ a tx, Event.rpc (.installSnapshot a) tx ∈ inv.eventList →
    c.trace.Faithful s0 a

def FaithfulRun (d : Deployment) (s0 : MasterState) : Cluster → Prop :=
  Reachable d fun c l => SoundStep d c l ∧ l.FaithfulInstalls s0 c

/-- All nodes are started as masters with the same state. -/
def Deployment.StartsWith (d : Deployment) (s0 : MasterState) : Prop :=
  ∀ i ∈ d.ids, ∃ s, (d.config i).appState = .master s ∧ s.Same s0

private theorem RaftNode.HoldsState.act {n n' : RaftNode}
    (hi : ∀ m a tx, D m (some (.rpc (.installSnapshot a) tx)) → c.trace.Faithful s0 a) (hs : SoundCall d c i n)
    (h : HoldsState s0 (c.during i n).trace n) (ha : Act D M n n') : HoldsState s0 (c.during i n').trace n' := by
  have hsub : ∀ x ∈ (c.during i n).trace, x ∈ (c.during i n').trace := by
    obtain ⟨es, hes, -⟩ := ha.logged
    simp only [Cluster.during, hes, map_append, ← append_assoc]
    exact fun x hx => mem_append_left _ hx
  rcases ha.sameState with hsm | ⟨rfl, hlt⟩ | rfl | ⟨m, a, tx, hm, rfl⟩
  · exact h.congr hsm hsub
  · obtain ⟨hist, hc⟩ := hs.2
    obtain ⟨e, hen⟩ := hc.node.exists_next hlt
    exact h.applyNext hen hsub fun e he => mem_append_right _ (mem_map_of_mem he)
  · exact h.createSnapshot hsub
  · exact .installSnapshot n (hi m a tx hm) fun x hx => mem_append_left _ hx

private theorem RaftNode.HoldsState.frame {n n' : RaftNode} {es : List Effect}
    (h : HoldsState s0 (c.during i n).trace n)
    (hs : SameState n n') (ho : n'.out = n.out ++ es) : HoldsState s0 (c.during i n').trace n' := by
  refine h.congr hs fun x hx => ?_
  simp only [Cluster.during, ho, map_append, ← append_assoc]
  exact mem_append_left _ hx

theorem FaithfulRun.holdsState (hd : FixedMembership d members version) (hs : d.StartsWith s0)
    (hr : FaithfulRun d s0 c) : ∀ i ∈ d.ids, (c.node i).HoldsState s0 c.trace := by
  have hok : ∀ c l, SoundStep d c l ∧ l.FaithfulInstalls s0 c → SoundStep d c l := fun _ _ h => h.1
  refine hr.invariant (P := fun c => ∀ i ∈ d.ids, (c.node i).HoldsState s0 c.trace)
    (fun c i _ _ n => SoundCall d c i n ∧ n.HoldsState s0 (c.during i n).trace) ?_
      (fun c l h => h.1.enabled) ?_ ?_ ?_ ?_ ?_ ?_
  · intro i hi
    obtain ⟨s, hcn, hsm⟩ := hs i hi
    have hf := hd.fresh i hi
    have hlii := (boot_fresh (d.config i) hf).2.2.2.1
    refine ⟨⟨s, ?_, ?_⟩, .inl hf.snapshotMeta⟩
    · simp [Cluster.init, boot, new, loadState, hf.snapshotMeta, hcn]
    · rw [show ((Cluster.init d).node i).lastApplied = 0 from hlii]
      exact .zero hsm
  · exact fun c i hr _ hi => ((hr.soundStatic hd hok).node i hi).id.trans (hd.id i)
  · intro c i inv clock hr hP hi _
    refine ⟨hr.soundReady hd hok hi clock, (hP i hi).congr ⟨rfl, rfl, rfl, rfl, rfl⟩ fun x hx =>
      mem_append_left _ hx⟩
  · intro c l i inv clock hr _ hl hcl hi hen
    refine (hr.soundCall hd hok hl hcl hi hen).and (fun _ h => h) (fun hsn h ha => h.act ?_ hsn ha) ?_ ?_ ?_
    · exact fun m a tx hm => hl.2 i inv clock hcl a tx hm.mem
    · exact fun _ _ _ _ h => h.frame ⟨rfl, rfl, rfl, rfl, rfl⟩ rfl
    · intro T n requests _ hne _ _ _ h
      rw [acceptRequests_eq n requests hne]
      exact h.frame ⟨rfl, rfl, rfl, rfl, rfl⟩ (append_assoc ..)
    · exact fun _ _ _ _ h => h.frame ⟨rfl, rfl, rfl, rfl, rfl⟩ rfl
  · intro c i inv clock n _ _ hP hi h
    exact forall_update (Q := fun _ m => m.HoldsState s0 (c.during i n).trace) (fun _ => h.2) fun j hj _ =>
      (hP j hj).congr ⟨rfl, rfl, rfl, rfl, rfl⟩ fun x hx => mem_append_left _ hx
  · exact fun c i inv clock k n hl => hl.1.whole.elim
  · intro c i _ hr hP hi
    obtain ⟨s, hcn, hsm⟩ := hs i hi
    obtain ⟨h, hc⟩ := hr.soundSim hd hok
    rw [show (c.crashed d i []).trace = c.trace from append_nil _]
    exact forall_update (Q := fun _ m => m.HoldsState s0 c.trace)
      (fun _ => (hP i hi).boot (hc.node i hi).storedMeta hcn hsm) fun j hj _ => hP j hj

private theorem RaftNode.replicateTo_snapshot (n : RaftNode) (k : Nat) (peer : String)
    (h : .send addr (.installSnapshot a) ∈ (n.replicateTo k peer).out) :
    .send addr (.installSnapshot a) ∈ n.out ∨ a = n.snapshotMessage := by
  unfold replicateTo at h
  split at h
  · exact .inl h
  · split at h
    · rcases mem_append.1 h with h | h
      · exact .inl h
      · simp only [mem_singleton, Effect.send.injEq, RpcMessage.installSnapshot.injEq] at h
        exact .inr h.2
    · dsimp only at h
      split at h
      · exact .inl h
      · exact .inl (by simpa [emit] using h)

private theorem RaftNode.sendHeartbeats_snapshot (n : RaftNode)
    (h : .send addr (.installSnapshot a) ∈ n.sendHeartbeats.out) :
    .send addr (.installSnapshot a) ∈ n.out ∨ a = n.snapshotMessage := by
  unfold sendHeartbeats at h
  generalize n.combinedPeers.zipIdx = ps at h
  induction ps generalizing n with
  | nil => exact .inl h
  | cons p ps ih =>
    rcases ih (n.heartbeatPeer p.2 p.1) h with hin | ha
    · unfold heartbeatPeer at hin
      split at hin
      · exact .inl hin
      · exact replicateTo_snapshot n _ _ hin
    · obtain ⟨next, es, heq⟩ := heartbeatPeer_eq n p.2 p.1
      rw [heq] at ha
      exact .inr ha

/-- In a run in which all snapshots that arrive are faithful, each node holds the state after the commands it has
applied, and a snapshot that it sends is faithful if and only if the commands after the last compaction have not
changed it. -/
theorem snapshot_faithful_iff (hd : FixedMembership d members version) (hs : d.StartsWith s0)
    (hr : FaithfulRun d s0 c) (hi : i ∈ d.ids) :
    (∃ s, (c.node i).appState = .master s ∧ c.trace.StateAt s0 (c.node i).lastApplied s) ∧
      ∀ clock addr a, .send addr (.installSnapshot a) ∈ (c.ready i clock).sendHeartbeats.out →
        (c.trace.Faithful s0 a ↔ ∃ s, c.trace.StateAt s0 (c.node i).lastIncludedIndex s ∧
          c.trace.StateAt s0 (c.node i).lastApplied s) := by
  obtain ⟨t, happ, hst⟩ := (hr.holdsState hd hs i hi).state
  refine ⟨⟨t, happ, hst⟩, fun clock addr a ha => ?_⟩
  have hmsg : a = (c.node i).snapshotMessage :=
    (sendHeartbeats_snapshot (c.ready i clock) ha).resolve_left (not_mem_nil)
  have hdata : a.data = (AppState.master t).serialize := by
    rw [hmsg, ← happ]
    rfl
  have hlii : a.lastIncludedIndex = (c.node i).lastIncludedIndex := by rw [hmsg]; rfl
  unfold Trace.Faithful
  rw [hdata, hlii]
  constructor
  · rintro ⟨s, hshow, hlast⟩
    exact ⟨s, hlast, hst.same (MasterState.Same.symm ⟨hshow.files, hshow.records, hshow.shuffling⟩)⟩
  · rintro ⟨s, hlast, hnow⟩
    obtain ⟨h, hc⟩ := hr.soundSim hd fun _ _ h => h.1
    have hsame := Trace.StateAt.unique (fun _ _ _ _ _ => hc.applied_agree) hst hnow
    exact ⟨s, MasterState.shows_serialize hsame, hlast⟩

/-- No acknowledged write is lost: the entry of a request that was answered with `Ok` is among the commands that
make the state of every node which counts its index as applied, whatever restarts, compactions and faithful
snapshots there were. -/
theorem acknowledged_everywhere (hd : FixedMembership d members version) (hs : d.StartsWith s0)
    (hr : FaithfulRun d s0 c) {tx k j v : Nat} {e : LogEntry} (ha : (i, .accepted tx k e) ∈ c.trace)
    (hok : (j, .reply tx (.ok ())) ∈ c.trace) (hv : v ∈ d.ids) (hk : k ≤ (c.node v).lastApplied) :
    ∃ s es, (c.node v).appState = .master s ∧ es.length = (c.node v).lastApplied ∧ c.trace.Applied es ∧
      es[k - 1]? = some e ∧ s.Same (s0.applyEntries es) := by
  have hfixed : FixedRun d c := hr.weaken fun _ _ h => ⟨h.1.enabled, h.1.noMembership⟩
  have hlaw := (hfixed.replies hd).trace.lawful
  obtain ⟨_, hp, -, -, hreply⟩ := hlaw.of_mem hok
  obtain ⟨before, after, k', e', rfl, hacc, happ⟩ := hreply rfl
  obtain ⟨-, rfl, rfl⟩ := accepted_unique hlaw ha (hp.subset (mem_append_left _ hacc))
  have hin := hp.subset (mem_append_right _ happ)
  obtain ⟨h, hc⟩ := hr.soundSim hd fun _ _ h => h.1
  have hpos : 0 < k := (hc.trace _ hin).1
  obtain ⟨s, happState, es, hlen, hes, hsame⟩ := (hr.holdsState hd hs v hv).state
  have hlt : k - 1 < es.length := by omega
  obtain ⟨u, hu⟩ := hes (k - 1) _ (getElem?_eq_getElem hlt)
  rw [Nat.sub_add_cancel hpos] at hu
  exact ⟨s, es, happState, hlen, hes, by rw [getElem?_eq_getElem hlt, hc.applied_agree hu hin], hsame⟩

end Runs

def createAndDelete : List (Command × Nat) :=
  (.master (.createFile "/g" 0 0), 0) :: (range' 1 100).map fun tx => (.master (.deleteFile "/f"), tx)

/-- Node 1 commits 102 entries with node 2, creating a file, and compacts; node 3 has seen nothing. -/
def trioCompacted : Cluster :=
  (Cluster.init trio).play trio (fun _ l => l.calm && l.snapshotFree)
    [.tick 1 true, .deliver 3, .deliver 9, .propose 1 createAndDelete, .deliver 114, .deliver 116, .tick 1 false,
      .deliver 117, .deliver 121, .tick 1 false]

/-- Then one more command is committed, which adds a block to the file. -/
def trioBlock : Cluster :=
  trioCompacted.play trio (fun _ l => l.calm && l.snapshotFree)
    [.propose 1 [(.master (.allocateBlock "/g" "b" []), 101)], .deliver 433, .deliver 539]

def SnapshotData.blockCount (path : String) : SnapshotData → Nat
  | .master image => ((image.files.lookup path).map fun f => f.blocks.length).getD 0
  | _ => 0

def Command.blockFree : Command → Bool
  | .noOp | .master (.deleteFile _) | .master (.createFile _ _ _) => true
  | _ => false

def Effect.snapshotTo? : Effect → Option (String × Nat × Nat)
  | .send addr (.installSnapshot a) => some (addr, a.lastIncludedIndex, a.data.blockCount "/g")
  | _ => none

private theorem trioBlock_facts :
    ((trioBlock.ready 1 []).sendHeartbeats.out[1]?).bind Effect.snapshotTo? = some ("c", 102, 1) ∧
      (trioBlock.trace.all fun x => match x.2 with
        | .applied k e => 102 < k || e.command.blockFree
        | _ => true) = true := by
  decide +kernel

private theorem trioCompacted_facts :
    ((trioCompacted.ready 1 []).sendHeartbeats.out[1]?).bind Effect.snapshotTo? = some ("c", 102, 0) ∧
      (trioCompacted.node 1).lastIncludedIndex = (trioCompacted.node 1).lastApplied := by
  decide +kernel

private theorem Effect.of_snapshotTo? {e : Effect} {k m : Nat}
    (h : e.snapshotTo? = some (addr, k, m)) : ∃ a : InstallSnapshotArgs,
      e = .send addr (.installSnapshot a) ∧ a.lastIncludedIndex = k ∧ a.data.blockCount "/g" = m := by
  unfold Effect.snapshotTo? at h
  split at h
  · simp only [Option.some.injEq, Prod.mk.injEq] at h
    obtain ⟨rfl, rfl, rfl⟩ := h
    exact ⟨_, rfl, rfl, rfl⟩
  · cases h

private theorem trio_startsWith : trio.StartsWith .default := fun _ _ => ⟨_, rfl, .refl _⟩

private theorem faithful_of_snapshotFree {s0 : MasterState} {c : Cluster} {l : Label} (he : Enabled trio c l)
    (hw : l.whole) (hk : (l.calm && l.snapshotFree) = true) : SoundStep trio c l ∧ l.FaithfulInstalls s0 c := by
  rw [Bool.and_eq_true] at hk
  have hno := Label.noSnapshot_of_snapshotFree hk.2
  exact ⟨⟨he, Label.noMembership_of_calm hk.1, hw, hno.soundInstalls c⟩,
    fun i inv clock hc a tx hin => absurd hin (hno i inv clock hc a tx)⟩

private theorem trioCompacted_run : FaithfulRun trio .default trioCompacted :=
  .play (fun _ _ => faithful_of_snapshotFree) .init _

/-- Right after the compaction the snapshot is what it says. -/
theorem snapshot_faithful_iff_compacted :
    ∃ a, .send "c" (.installSnapshot a) ∈ (trioCompacted.ready 1 []).sendHeartbeats.out ∧
    a.lastIncludedIndex = 102 ∧ trioCompacted.trace.Faithful .default a := by
  obtain ⟨members, version, hd⟩ := trio_fixed
  obtain ⟨hsent, hlast⟩ := trioCompacted_facts
  obtain ⟨e, he, hsent⟩ := Option.bind_eq_some_iff.1 hsent
  obtain ⟨a, rfl, hi, -⟩ := Effect.of_snapshotTo? hsent
  obtain ⟨⟨s, -, hst⟩, hiff⟩ := snapshot_faithful_iff hd trio_startsWith trioCompacted_run (i := 1) (by decide)
  have hin := mem_of_getElem? he
  refine ⟨a, hin, hi, (hiff [] "c" a hin).2 ⟨s, ?_, hst⟩⟩
  rwa [hlast]

/-- Node 1 commits a command with node 2, acknowledges it and tells node 2 that it is committed. -/
def trioTold : Cluster :=
  (Cluster.init trio).play trio (fun _ l => l.calm && l.snapshotFree)
    [.tick 1 true, .deliver 3, .deliver 9, .propose 1 [(.master (.createFile "/f" 0 0), 0)], .deliver 14,
      .deliver 16,
      .tick 1 false, .deliver 17, .deliver 21, .tick 1 false, .deliver 25]

theorem acknowledged_everywhere_told : ∃ s es, (trioTold.node 2).appState = .master s ∧
    es[1]? = some ⟨1, .master (.createFile "/f" 0 0)⟩ ∧ s.Same (MasterState.applyEntries .default es) := by
  obtain ⟨members, version, hd⟩ := trio_fixed
  have hr : FaithfulRun trio .default trioTold := .play (fun _ _ => faithful_of_snapshotFree) .init _
  have hacc : trioTold.trace[13]? = some (1, .accepted 0 2 ⟨1, .master (.createFile "/f" 0 0)⟩) := rfl
  have hok : trioTold.trace[24]? = some (1, .reply 0 (.ok ())) := rfl
  obtain ⟨s, es, happ, -, -, he, hs⟩ := acknowledged_everywhere hd trio_startsWith hr (mem_of_getElem? hacc)
    (mem_of_getElem? hok) (v := 2) (by decide) (by decide +kernel)
  exact ⟨s, es, happ, he, hs⟩

private theorem blockFree_state {es : List LogEntry} (hes : ∀ e ∈ es, e.command.blockFree = true)
    (hs : ∀ f, s.files.lookup "/g" = some f → f.blocks = []) :
    ∀ f, (s.applyEntries es).files.lookup "/g" = some f → f.blocks = [] := by
  induction es generalizing s with
  | nil => exact hs
  | cons e es ih =>
    refine ih (fun x hx => hes x (mem_cons_of_mem _ hx)) fun f hf => ?_
    have he := hes e (mem_cons_self ..)
    unfold Command.blockFree at he
    split at he
    · exact hs f (by simpa [MasterState.applyLogged, *] using hf)
    · rename_i path hc
      by_cases hp : "/g" = path
      · subst hp
        simp [MasterState.applyLogged, MasterState.applyCommand, hc] at hf
      · simp only [MasterState.applyLogged, MasterState.applyCommand, hc, AList.lookup_erase_ne hp] at hf
        exact hs f hf
    · rename_i path _ _ hc
      by_cases hp : "/g" = path
      · subst hp
        simp [MasterState.applyLogged, MasterState.applyCommand, hc, AList.lookup_insert] at hf
        rw [← hf]
        rfl
      · simp only [MasterState.applyLogged, MasterState.applyCommand, hc, AList.lookup_insert_ne hp] at hf
        exact hs f hf
    · cases he

/-- A message for the commands up to 102 with a state that has seen command 103. -/
theorem snapshot_ahead_of_index : ∃ c a, FaithfulRun trio .default c ∧
    .send "c" (.installSnapshot a) ∈ (c.ready 1 []).sendHeartbeats.out ∧ ¬ c.trace.Faithful .default a := by
  obtain ⟨hsent, hfree⟩ := trioBlock_facts
  obtain ⟨e, he, hsent⟩ := Option.bind_eq_some_iff.1 hsent
  obtain ⟨a, rfl, hi, hblocks⟩ := Effect.of_snapshotTo? hsent
  refine ⟨trioBlock, a, .play (fun _ _ => faithful_of_snapshotFree) trioCompacted_run _, mem_of_getElem? he, ?_⟩
  rintro ⟨s, hshow, es, hlen, hes, hs⟩
  have hcommands : ∀ e ∈ es, e.command.blockFree = true := by
    intro e he
    obtain ⟨k, hk⟩ := getElem?_of_mem he
    obtain ⟨j, hj⟩ := hes k e hk
    have hlt : k < es.length := (List.getElem?_eq_some_iff.1 hk).1
    have := all_eq_true.1 hfree _ hj
    simp only [Bool.or_eq_true, decide_eq_true_eq] at this
    exact this.resolve_left (by omega)
  have hnone := blockFree_state hcommands (s := .default) nofun
  cases hdata : a.data with
  | master image =>
    rw [hdata] at hshow hblocks
    have hlook : image.files.lookup "/g" = (MasterState.applyEntries .default es).files.lookup "/g" :=
      (hshow.files "/g").trans (hs.files "/g")
    rw [SnapshotData.blockCount, hlook] at hblocks
    cases hf : (MasterState.applyEntries .default es).files.lookup "/g" with
    | none => simp [hf] at hblocks
    | some f => simp [hf, hnone f hf] at hblocks
  | config | legacyMaster | malformed =>
    rw [hdata] at hshow
    exact hshow

end RustHadoop
