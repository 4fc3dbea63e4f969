import RustHadoop.Raft.Convergence

/-!
# Log matching and leader completeness

Both are properties of the histories that the nodes implement (`ReplicatedLog`), read off here for the logs that
the nodes really hold, of which a beginning may have been compacted into a snapshot.

Log matching is about two nodes at one time.  Leader completeness is about two moments of one run: when a leader
counts an index as committed, and when another node leads in a later term, which may be the earlier one of the
two.  A `Timeline` collects the states that the nodes pass through, at the end of every handler.
-/

namespace RustHadoop

open ReplicatedLog RaftNode List Cluster LogEntry Invocation

section Matching

variable {d : Deployment} {h : Hist} {c : Cluster} {i j k m : Nat} {a b e e' : LogEntry}

private theorem NodeSim.image_eq_some {n : RaftNode} (hn : NodeSim d h i n) (he : n.image k = some e) :
    n.lastIncludedIndex < k ∧ (h.log i)[k - 1]? = some e := by
  unfold image at he
  split at he
  · rename_i hk
    exact ⟨hk, (hn.entry hk).symm.trans he⟩
  · cases he

private theorem ClusterSim.logs_match (hc : ClusterSim d h c) (hi : i ∈ d.ids) (hj : j ∈ d.ids)
    (he : (c.node i).image k = some e) (he' : (c.node j).image k = some e') (ht : e.term = e'.term) :
    (h.log i).take k = (h.log j).take k := by
  obtain ⟨hk, he⟩ := (hc.node i hi).image_eq_some he
  obtain ⟨-, he'⟩ := (hc.node j hj).image_eq_some he'
  have hm := (hc.inv.logConforms i).matching (hc.inv.logConforms j) he he' ht
  rwa [Nat.sub_add_cancel (by omega)] at hm

/-- Log matching: if two nodes have entries of one term at one index, then they have the same entries at all
indices up to it that neither has compacted, and the same terms there and at the ends of their snapshots. -/
theorem log_matching {members : Nat → Members} {version : Nat → Nat} (hd : FixedMembership d members version)
    (hr : SnapshotFreeRun d c) (hi : i ∈ d.ids) (hj : j ∈ d.ids) (he : (c.node i).image k = some e)
    (he' : (c.node j).image k = some e') (ht : e.term = e'.term) (hm : m ≤ k) :
    (∀ a b, (c.node i).image m = some a → (c.node j).image m = some b → a = b) ∧
      ∀ a b, (c.node i).lastIncludedIndex ≤ m → (c.node j).lastIncludedIndex ≤ m →
        (c.node i).log[m - (c.node i).lastIncludedIndex]? = some a →
        (c.node j).log[m - (c.node j).lastIncludedIndex]? = some b → a.term = b.term := by
  obtain ⟨h, hc⟩ := hr.soundSim hd fun c _ h => ⟨h.1, h.2.1, h.2.2.1, h.2.2.2.soundInstalls c⟩
  have hlogs := hc.logs_match hi hj he he' ht
  have hni := hc.node i hi
  have hnj := hc.node j hj
  constructor
  · intro a b ha hb
    obtain ⟨hlt, ha⟩ := hni.image_eq_some ha
    obtain ⟨-, hb⟩ := hnj.image_eq_some hb
    have hentry := getElem?_eq_of_take_eq hlogs (show m - 1 < k by omega)
    rw [ha, hb] at hentry
    exact Option.some.inj hentry
  · intro a b hlei hlej ha hb
    rw [(hni.term_of_entry hlei ha).2, (hnj.term_of_entry hlej hb).2, ← termAt_take term hm, hlogs,
      termAt_take term hm]

end Matching

/-- A call that finds the node as `n` leaves it as `m` at the end of one of its handlers. -/
inductive Invocation.Passes (n : RaftNode) : Invocation → RaftNode → Prop
  | event {es before after : List Event} (h : (es.filter fun e => e.clientRequest?.isNone) = before ++ after) :
      Passes n (.events es) (before.foldl handleEvent n)
  | finish (inv : Invocation) : Passes n inv (inv.run n)

/-- The nodes as they are at the ends of the handlers of a step, and after it. -/
def Label.moments (d : Deployment) (c : Cluster) (l : Label) : Set (Nat × RaftNode) :=
  {x | (∃ inv clock, l.call? = some (x.1, inv, clock) ∧ inv.Passes (c.ready x.1 clock) x.2) ∨
    x.1 ∈ d.ids ∧ x.2 = (c.step d l).node x.1}

/-- A run that has led to a cluster, with all states that its nodes have gone through. -/
inductive Timeline (d : Deployment) (ok : Cluster → Label → Prop) : Cluster → Set (Nat × RaftNode) → Prop
  | init : Timeline d ok (init d) {x | x.1 ∈ d.ids ∧ x.2 = (init d).node x.1}
  | step {c : Cluster} {S : Set (Nat × RaftNode)} (l : Label) : Timeline d ok c S → ok c l →
      Timeline d ok (c.step d l) (S ∪ l.moments d c)

variable {i : Nat}

section Timelines

variable {d : Deployment} {ok : Cluster → Label → Prop} {c : Cluster} {S : Set (Nat × RaftNode)}

private theorem Timeline.reachable (h : Timeline d ok c S) : Reachable d ok c := by
  induction h with
  | init => exact .init
  | step l _ hl ih => exact .step l ih hl

private theorem Timeline.now (h : Timeline d ok c S) (hi : i ∈ d.ids) : (i, c.node i) ∈ S := by
  cases h with
  | init => exact ⟨hi, rfl⟩
  | step l => exact .inr (.inr ⟨hi, rfl⟩)

private theorem Timeline.play {keep : Cluster → Label → Bool}
    (hok : ∀ c l, Enabled d c l → l.whole → keep c l = true → ok c l)
    (h : Timeline d ok c S) (ms : List Move) : ∃ S', S ⊆ S' ∧ Timeline d ok (c.play d keep ms) S' := by
  induction ms generalizing c S with
  | nil => exact ⟨S, subset_rfl, h⟩
  | cons m ms ih =>
    have hm : ∃ S', S ⊆ S' ∧ Timeline d ok (c.move d keep m) S' := by
      unfold move
      split
      · rename_i l hl
        obtain ⟨hen, hw⟩ := enabled_of_label hl
        split
        · rename_i hk
          exact ⟨_, Set.subset_union_left, .step l h (hok c l hen hw hk)⟩
        · exact ⟨S, subset_rfl, h⟩
      · exact ⟨S, subset_rfl, h⟩
    obtain ⟨S1, hS1, h1⟩ := hm
    obtain ⟨S2, hS2, h2⟩ := ih h1
    exact ⟨S2, hS1.trans hS2, h2⟩

end Timelines

/-- `L` is the log of the node from index 1 on: what comes after its snapshot is in its log, and the snapshot holds
the state after the rest. -/
structure RaftNode.Represents (s0 : AppState) (L : List LogEntry) (n : RaftNode) : Prop where
  log : n.log = ⟨n.lastIncludedTerm, .noOp⟩ :: L.drop n.lastIncludedIndex
  included : n.lastIncludedIndex ≤ L.length
  snapshot : n.lastIncludedIndex = 0 ∨ ∃ s, n.db.snapshotMeta = some (n.lastIncludedIndex, n.lastIncludedTerm) ∧
    n.db.snapshotData = some s.serialize ∧ s0.Reaches ((L.take n.lastIncludedIndex).map command) s

private theorem RaftNode.Represents.image {s0 : AppState} {L : List LogEntry} {n : RaftNode}
    (h : n.Represents s0 L) {k : Nat} (hk : n.lastIncludedIndex < k) : n.image k = L[k - 1]? := by
  obtain ⟨j, rfl⟩ : ∃ j, k = n.lastIncludedIndex + 1 + j := ⟨k - n.lastIncludedIndex - 1, by omega⟩
  rw [RaftNode.image, if_pos hk, h.log, show n.lastIncludedIndex + 1 + j - n.lastIncludedIndex = j + 1 by omega,
    getElem?_cons_succ, getElem?_drop]
  congr 1
  omega

def StateSim (d : Deployment) (h : Hist) (i : Nat) (n : RaftNode) : Prop :=
  n.HoldsAfter (d.config i).appState (((h.log i).take n.lastApplied).map command)

/-- What the history keeps of a node that was once in the state `n`. -/
def Remembered (d : Deployment) (h : Hist) (i : Nat) (n : RaftNode) : Prop :=
  n.role = .leader → ∃ L, n.Represents (d.config i).appState L ∧ h.lead n.currentTerm = some i ∧
    h.base n.currentTerm <+: L ∧ L <+: h.leaderLog n.currentTerm ∧ n.commitIndex ≤ L.length ∧
    Reached term (Quorum d) h n.currentTerm n.commitIndex

section States

variable {d : Deployment} {h h' : Hist} {c : Cluster} {i : Nat} {n n' : RaftNode}

private theorem NodeSim.applied_le (hn : NodeSim d h i n) : n.lastApplied ≤ (h.log i).length :=
  hn.commit.trans hn.commit_le

theorem NodeSim.take_applied (hx : Extends h h') (hinv : Inv LogEntry.term (Quorum d) h') (hn : NodeSim d h i n)
    (hn' : NodeSim d h' i n') {k : Nat} (hk : k ≤ n.commitIndex) (hk' : k ≤ n'.commitIndex) :
    (h'.log i).take k = (h.log i).take k :=
  hn.settled.take_extends (Quorum.inter d) hx hinv hn'.settled hk hk'

theorem StateSim.sameState (hs : StateSim d h i n) (hx : Extends h h') (hinv : Inv LogEntry.term (Quorum d) h')
    (hn : NodeSim d h i n) (hn' : NodeSim d h' i n') (hsm : n.SameState n') : StateSim d h' i n' := by
  have hle : n.lastApplied ≤ n'.commitIndex := by
    rw [← hsm.lastApplied]
    exact hn'.commit
  unfold StateSim
  rw [hsm.lastApplied, hn.take_applied hx hinv hn' hn.commit hle]
  exact HoldsAfter.sameState hs hsm

private theorem StateSim.act {D : RaftNode → Option Event → Prop} {M : Prop}
    (hD : ∀ m a tx, ¬ D m (some (.rpc (.installSnapshot a) tx))) (hs : StateSim d h i n) (hx : Extends h h')
    (hinv : Inv term (Quorum d) h') (hn : NodeSim d h i n) (hn' : NodeSim d h' i n')
    (ha : Act D M n n') : StateSim d h' i n' := by
  have hlen := hn.applied_le
  rcases ha.sameState with hsm | ⟨rfl, hlt⟩ | rfl | ⟨m, a, tx, hDa, -⟩
  · exact hs.sameState hx hinv hn hn' hsm
  · -- the next entry of the replica is the one that is applied
    have hc := hn.commit_le
    have hap := hn.applied
    have hls := (applyNext_fields n).2.2.1
    have he : (h.log i)[n.lastApplied]? = some (h.log i)[n.lastApplied] := getElem?_eq_getElem (by omega)
    have hlog := hn.entry (k := n.lastApplied + 1) (by omega)
    rw [Nat.add_sub_cancel, he] at hlog
    have hst := HoldsAfter.applyNext hs hlog
    have ht : (h'.log i).take (n.lastApplied + 1) = (h.log i).take (n.lastApplied + 1) :=
      hn.take_applied hx hinv hn' hlt (by rw [← hls]; exact hn'.commit)
    unfold StateSim
    rw [hls, ht, take_add_one, he, Option.toList_some, map_append]
    exact hst
  · have hls : n.createSnapshot.lastApplied = n.lastApplied := by rw [createSnapshot_eq]
    have ht : (h'.log i).take n.lastApplied = (h.log i).take n.lastApplied :=
      hn.take_applied hx hinv hn' hn.commit (by rw [← hls]; exact hn'.commit)
    unfold StateSim
    rw [hls, ht]
    refine HoldsAfter.createSnapshot hs ?_
    rw [length_map, length_take, Nat.min_eq_left hlen]
  · exact absurd hDa (hD m a tx)

private theorem StateSim.boot (hs : StateSim d h i n) (hn : NodeSim d h i n) :
    StateSim d h i (boot (d.config i) n.db) := by
  have hs' : n.HoldsAfter (d.config i).appState (((h.log i).map command).take n.lastApplied) := by
    rw [← map_take]
    exact hs
  have hle : n.lastApplied ≤ ((h.log i).map command).length := by
    rw [length_map]
    exact hn.applied_le
  have hb := (HoldsAfter.restarted hs' hle).2
  rw [← map_take] at hb
  exact hb

theorem Remembered.of_sim (hinv : Inv term (Quorum d) h) (hn : NodeSim d h i n) (hs : StateSim d h i n) :
    Remembered d h i n := by
  intro hrl
  obtain ⟨hld, hlog, -, -⟩ := hn.leader hrl
  have hi : n.lastIncludedIndex ≤ n.lastApplied := hn.applied
  refine ⟨h.log i, ⟨hn.log, hn.snapshot_le, ?_⟩, hld, ?_, ?_, hn.commit_le, ?_⟩
  · rcases hs.stored with hnn | ⟨term, s, hm, hdt, hst⟩
    · have hm := hn.storedMeta
      rw [hnn] at hm
      exact .inl (congrArg Prod.fst hm).symm
    · have ht := hn.storedMeta
      rw [hm, Option.getD_some, Prod.mk.injEq] at ht
      rw [← map_take, take_take, Nat.min_eq_left hi] at hst
      exact .inr ⟨s, by rw [hm, ht.2], hdt, hst⟩
  · rw [hlog]
    exact hinv.basePrefix _
  · rw [hlog]
  · rw [← hn.term]
    exact hn.settled.reached

private theorem Remembered.mono (hx : Extends h h') (hr : Remembered d h i n) : Remembered d h' i n := by
  intro hrl
  obtain ⟨L, hL, hld, hb, hpre, hlen, hrc⟩ := hr hrl
  refine ⟨L, hL, hx.lead _ _ hld, ?_, hpre.trans (hx.leaderLog _), hlen, hrc.mono hx le_rfl le_rfl⟩
  rw [hx.base _ (by rw [hld]; simp)]
  exact hb

end States

/-- In the middle of a call of node `i`, with all that is remembered of `S`. -/
structure PastCall (d : Deployment) (S : Set (Nat × RaftNode)) (c : Cluster) (i : Nat) (h : Hist) (n : RaftNode) :
    Prop where
  sim : CallSim d h c i n
  state : StateSim d h i n
  others : ∀ j ∈ d.ids, j ≠ i → StateSim d h j (c.node j)
  past : ∀ x ∈ S, Remembered d h x.1 x.2

section Calls

variable {d : Deployment} {members : Nat → Members} {version : Nat → Nat} {S : Set (Nat × RaftNode)} {c : Cluster}
  {i : Nat} {h h' : Hist} {n n' : RaftNode} {inv : Invocation} {clock : List Nat}

section

variable (hp : PastCall d S c i h n)
include hp

private theorem PastCall.move (hx : Extends h h') (hc : CallSim d h' c i n')
    (hs : StateSim d h' i n') : PastCall d S c i h' n' where
  sim := hc
  state := hs
  others := fun j hj hij => (hp.others j hj hij).sameState hx hc.inv (hp.sim.others j hj hij) (hc.others j hj hij)
    ⟨rfl, rfl, rfl, rfl, rfl⟩
  past := fun x hx' => (hp.past x hx').mono hx

private theorem PastCall.remember : PastCall d (insert (i, n) S) c i h n := by
  refine ⟨hp.sim, hp.state, hp.others, fun x hx => ?_⟩
  rcases hx with rfl | hx
  · exact .of_sim hp.sim.inv hp.sim.node hp.state
  · exact hp.past x hx

private theorem PastCall.mono {S' : Set (Nat × RaftNode)} (hS : S' ⊆ S) : PastCall d S' c i h n :=
  ⟨hp.sim, hp.state, hp.others, fun x hx => hp.past x (hS hx)⟩

end

private theorem soundStep_of_snapshotFree (c : Cluster) (l : Label)
    (h : Enabled d c l ∧ l.NoMembership ∧ l.whole ∧ l.NoSnapshot) : SoundStep d c l :=
  ⟨h.1, h.2.1, h.2.2.1, h.2.2.2.soundInstalls c⟩

private theorem PastCall.preserves (hd : FixedMembership d members version) (hr : SnapshotFreeRun d c) {l : Label}
    (hl : Enabled d c l ∧ l.NoMembership ∧ l.whole ∧ l.NoSnapshot) (hcl : l.call? = some (i, inv, clock))
    (hi : i ∈ d.ids) (hen : inv.Enabled d c i) (S : Set (Nat × RaftNode)) :
    Preserves (TurnsTo (c.ready i clock) inv) (inv.ChangesMembers i)
      fun _ n => SoundCall d c i n ∧ ∃ h, PastCall d S c i h n := by
  have hno : ∀ m a tx, ¬ TurnsTo (c.ready i clock) inv m (some (.rpc (.installSnapshot a) tx)) :=
    fun m a tx ht => hl.2.2.2 i inv clock hcl a tx ht.mem
  refine (hr.soundCall hd soundStep_of_snapshotFree hl hcl hi hen).and (fun _ hp => hp) ?_ ?_ ?_ ?_
  · rintro T n n' hs ⟨h, hp⟩ ha
    obtain ⟨h', hx, hc⟩ := hr.soundAct hd soundStep_of_snapshotFree hl hcl hi hen hs hp.sim ha
    exact ⟨h', hp.move hx hc (hp.state.act hno hx hc.inv hp.sim.node hc.node ha)⟩
  · rintro T n tx - - - - ⟨h, hp⟩
    have hc := hp.sim.registerRead tx
    exact ⟨h, hp.move (.refl h) hc
      (hp.state.sameState (.refl h) hc.inv hp.sim.node hc.node ⟨rfl, rfl, rfl, rfl, rfl⟩)⟩
  · rintro T n requests hrl hne - - - ⟨h, hp⟩
    obtain ⟨h', hx, hc⟩ := hp.sim.acceptRequests hrl hne
    refine ⟨h', hp.move hx hc (hp.state.sameState hx hc.inv hp.sim.node hc.node ?_)⟩
    rw [acceptRequests_eq n requests hne]
    exact ⟨rfl, rfl, rfl, rfl, rfl⟩
  · rintro T n requests - - - - ⟨h, hp⟩
    have hc := hp.sim.rejectRequests requests
    exact ⟨h, hp.move (.refl h) hc
      (hp.state.sameState (.refl h) hc.inv hp.sim.node hc.node ⟨rfl, rfl, rfl, rfl, rfl⟩)⟩

/-! The events of a batch are calls of their own. -/

private theorem RaftNode.run_event (n : RaftNode) {e : Event} (he : e.clientRequest? = none) :
    run n (.events [e]) = n.handleEvent e := by
  simp [run, handleEventBatch, he, handleClientRequests]

private theorem filter_others_clients (es : List Event) :
    ((es.filter fun e => !e.clientRequest?.isNone).filter fun e => e.clientRequest?.isNone) = [] := by
  simp [filter_filter]

private theorem RaftNode.run_batch (n : RaftNode) (es : List Event) :
    run ((es.filter fun e => e.clientRequest?.isNone).foldl handleEvent n)
      (.events (es.filter fun e => !e.clientRequest?.isNone)) = run n (.events es) := by
  have hc : (es.filter fun e => !e.clientRequest?.isNone).filterMap Event.clientRequest? =
      es.filterMap Event.clientRequest? := by
    induction es with
    | nil => rfl
    | cons e es ih => cases he : e.clientRequest? <;> simp_all
  simp only [run, handleEventBatch, filter_others_clients, hc, foldl_nil]

section

variable (hd : FixedMembership d members version) (hr : SnapshotFreeRun d c) {l : Label}
include hd hr

section

variable (hl : Enabled d c l ∧ l.NoMembership ∧ l.whole ∧ l.NoSnapshot)
include hl

private theorem PastCall.passes {es : List Event} (hc : l.call? = some (i, .events es, clock))
    (hi : i ∈ d.ids) (hen : (events es).Enabled d c i) (hs : SoundCall d c i (c.ready i clock))
    (hp : PastCall d S c i h (c.ready i clock)) {before after : List Event}
    (hes : (es.filter fun e => e.clientRequest?.isNone) = before ++ after) :
    SoundCall d c i (before.foldl handleEvent (c.ready i clock)) ∧
      ∃ h, PastCall d
        (S ∪ {x | x.1 = i ∧ ∃ done, done <+: before ∧ x.2 = done.foldl handleEvent (c.ready i clock)})
        c i h (before.foldl handleEvent (c.ready i clock)) := by
  induction before using reverseRecOn generalizing after with
  | nil =>
    refine ⟨hs, h, hp.remember.mono ?_⟩
    rintro ⟨j, m⟩ (hx | ⟨hj, done, hdn, hm⟩)
    · exact .inr hx
    · obtain rfl := prefix_nil.1 hdn
      exact .inl (Prod.ext hj hm)
  | append_singleton before e ih =>
    have hes' : (es.filter fun e => e.clientRequest?.isNone) = before ++ e :: after := by simpa using hes
    obtain ⟨hs', h', hp'⟩ := ih hes'
    have hn : e.clientRequest? = none := by
      have hin : e ∈ es.filter fun e => e.clientRequest?.isNone := by rw [hes']; simp
      simpa using (mem_filter.1 hin).2
    -- the event by itself is a call that turns to nothing else
    have hst := (PastCall.preserves hd hr hl hc hi hen _).invocation (.events [e])
      (n := before.foldl handleEvent (c.ready i clock)) ?_ ?_ (fun hM => hM) ⟨hs', h', hp'⟩
    · rw [run_event _ hn] at hst
      obtain ⟨hsound'', h'', hp''⟩ := hst
      rw [foldl_append, foldl_cons, foldl_nil]
      refine ⟨hsound'', h'', hp''.remember.mono ?_⟩
      rintro ⟨j, m⟩ (hx | ⟨hj, done, hdn, hm⟩)
      · exact .inr (.inl hx)
      · rcases prefix_concat_iff.1 hdn with rfl | hdn
        · rw [foldl_append, foldl_cons, foldl_nil] at hm
          exact .inl (Prod.ext hj hm)
        · exact .inr (.inr ⟨hj, done, hdn, hm⟩)
    · rintro m (_ | e') ht
      · cases ht
      · obtain ⟨rfl, rfl⟩ := ht.single
        exact .event hes'
    · cases he : e.channel? <;> simp [channels, eventList, he]

private theorem PastCall.run (hc : l.call? = some (i, inv, clock))
    (hi : i ∈ d.ids) (hen : inv.Enabled d c i) (hid : (c.node i).id = i) (hs : SoundCall d c i (c.ready i clock))
    (hp : PastCall d S c i h (c.ready i clock)) :
    ∃ h, PastCall d (S ∪ {x | x.1 = i ∧ inv.Passes (c.ready i clock) x.2}) c i h (inv.run (c.ready i clock)) := by
  have hM : inv.ChangesMembers (c.ready i clock).id → inv.ChangesMembers i := fun hM => by rwa [← hid]
  cases inv with
  | tick elapsed | addServers servers | removeServers serverIds =>
    obtain ⟨-, h', hp'⟩ := (PastCall.preserves hd hr hl hc hi hen S).invocation _ (fun _ _ ht => ht) hen.nodup hM
      ⟨hs, h, hp⟩
    refine ⟨h', hp'.remember.mono ?_⟩
    rintro ⟨j, m⟩ (hx | ⟨hj, hm⟩)
    · exact .inr hx
    · cases hm
      exact .inl (Prod.ext hj rfl)
  | events es =>
    obtain ⟨hs', h', hp'⟩ := PastCall.passes hd hr hl hc hi hen hs hp (append_nil _).symm
    have he := (PastCall.preserves hd hr hl hc hi hen _).invocation
      (.events (es.filter fun e => !e.clientRequest?.isNone))
      (n := (es.filter fun e => e.clientRequest?.isNone).foldl handleEvent (c.ready i clock)) ?_ ?_
      (fun hM => hM) ⟨hs', h', hp'⟩
    · rw [run_batch] at he
      obtain ⟨-, h'', hp''⟩ := he
      refine ⟨h'', hp''.remember.mono ?_⟩
      rintro ⟨j, m⟩ (hx | ⟨hj, hm⟩)
      · exact .inr (.inl hx)
      · cases hm with
        | event hes => exact .inr (.inr ⟨hj, _, ⟨_, hes.symm⟩, rfl⟩)
        | finish => exact .inl (Prod.ext hj rfl)
    · -- only the client requests are left
      intro m e ht
      cases ht with
      | event hes =>
        rw [filter_others_clients] at hes
        simp at hes
      | client hin =>
        rw [filter_others_clients]
        exact .client (mem_of_mem_filter hin)
    · have hnd := hen.nodup
      exact hnd.sublist (filter_sublist.filterMap _)

end

end

end Calls

/-- The history of a cluster, with what is remembered of the states in `S`. -/
structure TimelineSim (d : Deployment) (h : Hist) (c : Cluster) (S : Set (Nat × RaftNode)) : Prop where
  sim : ClusterSim d h c
  state : ∀ i ∈ d.ids, StateSim d h i (c.node i)
  past : ∀ x ∈ S, Remembered d h x.1 x.2

section Runs

variable {d : Deployment} {members : Nat → Members} {version : Nat → Nat} {S : Set (Nat × RaftNode)} {c : Cluster}
  {h : Hist}

private theorem TimelineSim.remembers (ht : TimelineSim d h c S) {x : Nat × RaftNode} (hx : x.1 ∈ d.ids)
    (hn : x.2 = c.node x.1) : Remembered d h x.1 x.2 := by
  rw [hn]
  exact .of_sim ht.sim.inv (ht.sim.node _ hx) (ht.state _ hx)

section

variable (hd : FixedMembership d members version)
include hd

private theorem TimelineSim.init : TimelineSim d .init (init d) {x | x.1 ∈ d.ids ∧ x.2 = (init d).node x.1} := by
  have hsim : ClusterSim d .init (Cluster.init d) :=
    ⟨Inv.init, fun i hi => NodeSim.init _ (hd.fresh i hi), by simp [Cluster.init]⟩
  have hs : ∀ i ∈ d.ids, StateSim d .init i ((Cluster.init d).node i) := by
    intro i hi
    have hm := (hd.fresh i hi).snapshotMeta
    have hb :
      ((Cluster.init d).node i).appState = (d.config i).appState ∧ ((Cluster.init d).node i).lastApplied = 0 ∧
        ((Cluster.init d).node i).lastIncludedIndex = 0 := by
      simp [Cluster.init, boot, new, loadState, hm]
    refine ⟨?_, ?_, .inl hm⟩
    · rw [hb.1, hb.2.1]
      exact .nil rfl
    · rw [hb.2.2]
      exact Nat.zero_le _
  exact ⟨hsim, hs, fun x hx => .of_sim hsim.inv (hx.2 ▸ hsim.node _ hx.1) (hx.2 ▸ hs _ hx.1)⟩

private theorem TimelineSim.restart (hr : SnapshotFreeRun d c) (ht : TimelineSim d h c S) (hi : i ∈ d.ids) :
    TimelineSim d h (c.step d (.restart i)) (S ∪ (Label.restart i).moments d c) := by
  have hsim := ht.sim.restart (hr.soundElection hd soundStep_of_snapshotFree) hi
  have hs : ∀ j ∈ d.ids, StateSim d h j ((c.crashed d i []).node j) :=
    forall_update (fun _ => (ht.state i hi).boot (ht.sim.node i hi)) fun j hj _ => ht.state j hj
  refine ⟨hsim, hs, fun x hx => ?_⟩
  rcases hx with hx | ⟨inv, clock, hc, -⟩ | ⟨hx, hn⟩
  · exact ht.past x hx
  · cases hc
  · exact TimelineSim.remembers (S := S) ⟨hsim, hs, ht.past⟩ hx hn

private theorem TimelineSim.invoke (hr : SnapshotFreeRun d c) (ht : TimelineSim d h c S) {inv : Invocation}
    {clock : List Nat} (hl : Enabled d c (.invoke i inv clock) ∧ (Label.invoke i inv clock).NoMembership ∧
      (Label.invoke i inv clock).whole ∧
      (Label.invoke i inv clock).NoSnapshot) :
    ∃ h, TimelineSim d h (c.step d (.invoke i inv clock)) (S ∪ (Label.invoke i inv clock).moments d c) := by
  obtain ⟨hi, hen⟩ := hl.1
  have hid : (c.node i).id = i := ((hr.soundStatic hd soundStep_of_snapshotFree).node i hi).id.trans (hd.id i)
  have hst : PastCall d S c i h (c.ready i clock) :=
    ⟨ht.sim.ready hi clock, HoldsAfter.sameState (ht.state i hi) ⟨rfl, rfl, rfl, rfl, rfl⟩,
      fun j hj _ => ht.state j hj, ht.past⟩
  obtain ⟨h', hp⟩ := PastCall.run hd hr hl rfl hi hen hid (hr.soundReady hd soundStep_of_snapshotFree hi clock) hst
  have hsim := hp.sim.during
  have hs : ∀ j ∈ d.ids, StateSim d h' j ((c.during i (inv.run (c.ready i clock))).node j) :=
    forall_update (fun _ => hp.state) hp.others
  refine ⟨h', ⟨hsim.inv, hsim.node, hsim.trace⟩, hs, fun x hx => ?_⟩
  rcases hx with hx | ⟨inv', clock', hc, hps⟩ | ⟨hx, hn⟩
  · exact hp.past x (.inl hx)
  · obtain ⟨rfl, rfl, rfl⟩ : i = x.1 ∧ inv = inv' ∧ clock = clock' := by simpa [Label.call?] using hc
    exact hp.past x (.inr ⟨rfl, hps⟩)
  · exact TimelineSim.remembers (S := S) ⟨hsim, hs, fun x hx => hp.past x (.inl hx)⟩ hx hn

theorem Timeline.sim (ht : Timeline d (fun c l => Enabled d c l ∧ l.NoMembership ∧ l.whole ∧ l.NoSnapshot) c S) :
    ∃ h, TimelineSim d h c S := by
  induction ht with
  | init => exact ⟨.init, TimelineSim.init hd⟩
  | @step c S l ht hl ih =>
    obtain ⟨h, hs⟩ := ih
    cases l with
    | invoke i inv clock => exact hs.invoke hd ht.reachable hl
    | crash i inv clock k => exact hl.2.2.1.elim
    | restart i => exact ⟨h, hs.restart hd ht.reachable hl.1⟩

end

private theorem Remembered.complete (hinv : Inv term (Quorum d) h) {j k : Nat} {n m : RaftNode}
    (hn : Remembered d h i n) (hm : Remembered d h j m) (hld : n.role = .leader) (hk : 0 < k)
    (hcm : k ≤ n.commitIndex) (hl' : m.role = .leader) (ht : n.currentTerm < m.currentTerm) :
    ∃ L L', n.Represents (d.config i).appState L ∧ m.Represents (d.config j).appState L' ∧ k ≤ L.length ∧
      L'.take k = L.take k := by
  obtain ⟨L, hL, hled, -, hpre, hlen, hrc⟩ := hn hld
  obtain ⟨L', hL', hled', hb', -, -, -⟩ := hm hl'
  obtain hz | ⟨T, k', hc, hT, hk'⟩ := hrc
  · omega
  have hne : h.lead n.currentTerm ≠ none := by rw [hled]; simp
  have hne' : h.lead m.currentTerm ≠ none := by rw [hled']; simp
  have hle : k ≤ k' := by omega
  -- the log of the first leader begins with what is committed
  have hf : L.take k = (h.leaderLog T).take k := by
    rw [← take_eq_of_le (hc.leaderLog_take (Quorum.inter d) hinv hT hne) hle, take_of_prefix_of_le hpre (by omega)]
  -- and so does the log with which the second one was elected
  have hs : L'.take k = (h.leaderLog T).take k := by
    have hb := leader_completeness (Quorum.inter d) hinv hc m.currentTerm (by omega) hne'
    have hlen' := le_length_of_take_eq hb hc.1.le_length
    rw [← take_eq_of_le hb hle, take_of_prefix_of_le hb' (by omega)]
  exact ⟨L, L', hL, hL', by omega, hs.trans hf.symm⟩

/-- Leader completeness: what a leader has counted as committed, a node that leads in a later term of the run has
as well, in its log or in its snapshot.  The state `m` stands for any moment of its leadership, also one before the
other leader advanced its commit index. -/
theorem later_leaders_complete (hd : FixedMembership d members version)
    (ht : Timeline d (fun c l => Enabled d c l ∧ l.NoMembership ∧ l.whole ∧ l.NoSnapshot) c S) {i j k : Nat}
    {n m : RaftNode} (hn : (i, n) ∈ S) (hm : (j, m) ∈ S) (hlead : n.role = .leader) (hk : 0 < k)
    (hcommit : k ≤ n.commitIndex) (hlead' : m.role = .leader) (hterm : n.currentTerm < m.currentTerm) :
    ∃ L L' e, n.Represents (d.config i).appState L ∧ m.Represents (d.config j).appState L' ∧ L'.take k = L.take k ∧
      L[k - 1]? = some e ∧ (n.lastIncludedIndex < k → n.image k = some e) ∧
        (m.lastIncludedIndex < k → m.image k = some e) := by
  obtain ⟨h, hsim⟩ := ht.sim hd
  obtain ⟨L, L', hL, hL', hlen, hsame⟩ :=
    (hsim.past _ hn).complete hsim.sim.inv (hsim.past _ hm) hlead hk hcommit hlead' hterm
  have hlt : k - 1 < L.length := by omega
  have hentry : L[k - 1]? = some L[k - 1] := getElem?_eq_getElem hlt
  have hentry' : L'[k - 1]? = some L[k - 1] := (getElem?_eq_of_take_eq hsame (by omega)).trans hentry
  exact ⟨L, L', L[k - 1], hL, hL', hsame, hentry, fun hlt => (hL.image hlt).trans hentry,
    fun hlt => (hL'.image hlt).trans hentry'⟩

end Runs

/-- Node 1 leads in term 1 and commits two entries with node 2. -/
def trioCommitted : Cluster :=
  (init trio).play trio (fun _ l => l.calm && l.snapshotFree)
    [.tick 1 true, .deliver 3, .deliver 9, .propose 1 [(.master (.createFile "/f" 0 0), 0)], .deliver 14,
      .deliver 16,
      .tick 1 false, .deliver 17, .deliver 21]

/-- Node 1 appends a third entry, and node 2 takes over in term 2 with the vote of node 3. -/
def trioSucceeded : Cluster :=
  trioCommitted.play trio (fun _ l => l.calm && l.snapshotFree)
    [.propose 1 [(.master (.createFile "/g" 0 0), 1)], .tick 2 true, .deliver 33, .deliver 38]

private theorem snapshotFree_of_check {c : Cluster} {l : Label} (he : Enabled trio c l) (hw : l.whole)
    (hk : (l.calm && l.snapshotFree) = true) : Enabled trio c l ∧ l.NoMembership ∧ l.whole ∧ l.NoSnapshot := by
  rw [Bool.and_eq_true] at hk
  exact ⟨he, Label.noMembership_of_calm hk.1, hw, Label.noSnapshot_of_snapshotFree hk.2⟩

/-- The two leaders have different entries at index 3 and the same ones up to index 2. -/
theorem log_matching_succeeded : (trioSucceeded.node 1).image 3 = some ⟨1, .master (.createFile "/g" 0 0)⟩ ∧
      (trioSucceeded.node 2).image 3 = some ⟨2, .noOp⟩ ∧
      ∃ a b, (trioSucceeded.node 1).image 1 = some a ∧ (trioSucceeded.node 2).image 1 = some b ∧ a = b := by
  obtain ⟨members, version, hd⟩ := trio_fixed
  have hr : SnapshotFreeRun trio trioSucceeded :=
    .play (fun _ _ => snapshotFree_of_check) (.play (fun _ _ => snapshotFree_of_check) .init _) _
  have he : (trioSucceeded.node 1).image 2 = some ⟨1, .master (.createFile "/f" 0 0)⟩ := rfl
  have he' : (trioSucceeded.node 2).image 2 = some ⟨1, .master (.createFile "/f" 0 0)⟩ := rfl
  refine ⟨rfl, rfl, _, _, rfl, rfl, ?_⟩
  exact (log_matching hd hr (i := 1) (j := 2) (by decide) (by decide) he he' rfl (show 1 ≤ 2 by decide)).1 _ _ rfl
    rfl

/-- Node 2 has the entry that node 1 had committed. -/
theorem later_leaders_complete_succeeded :
    (trioCommitted.node 1).commitIndex = 2 ∧ (trioSucceeded.node 2).role = .leader ∧
      ∃ e, (trioCommitted.node 1).image 2 = some e ∧ (trioSucceeded.node 2).image 2 = some e := by
  obtain ⟨members, version, hd⟩ := trio_fixed
  obtain ⟨S, -, hS⟩ := Timeline.play (fun _ _ => snapshotFree_of_check) .init
    [.tick 1 true, .deliver 3, .deliver 9, .propose 1 [(.master (.createFile "/f" 0 0), 0)], .deliver 14,
      .deliver 16,
      .tick 1 false, .deliver 17, .deliver 21]
  obtain ⟨S', hsub, hS'⟩ := Timeline.play (fun _ _ => snapshotFree_of_check) hS
    [.propose 1 [(.master (.createFile "/g" 0 0), 1)], .tick 2 true, .deliver 33, .deliver 38]
  obtain ⟨L, L', e, -, -, -, -, hn, hm⟩ :=
    later_leaders_complete hd hS' (i := 1) (j := 2) (n := trioCommitted.node 1)
    (m := trioSucceeded.node 2) (hsub (hS.now (by decide))) (hS'.now (by decide)) rfl (show 0 < 2 by decide)
      (le_of_eq rfl)
    rfl (by decide)
  exact ⟨rfl, rfl, e, hn (by decide), hm (by decide)⟩

end RustHadoop
