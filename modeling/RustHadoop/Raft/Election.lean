import RustHadoop.Lib.Lawful
import RustHadoop.Raft.Script
import RustHadoop.Raft.Static

/-!
# Elections

A node grants at most one vote in a term, whatever it has on disk when it crashes, and two majorities of the same
members have a node in common; so a term has at most one leader.

The argument is about the trace.  `ElectionRule` says under which circumstances a node writes its term and its
vote, marks a vote, becomes leader and answers a message.  The rule looks only at what is already in the trace, so
it also holds of a trace that a crash has cut off between two writes.
-/

namespace RustHadoop

open ClusterConfiguration List Cluster

theorem ClusterConfiguration.majorityOf_eq {members : Members} {ids : Finset Nat} (h : ∀ j, j ∈ members ↔ j ∈ ids)
    (A : Finset Nat) : majorityOf members A = decide (ids.card / 2 < (A ∩ ids).card) := by
  have hk : members.keys.toFinset = ids := by
    ext j
    rw [mem_toFinset, ← AList.mem_keys, h]
  have hc : members.entries.length = ids.card := by
    rw [← hk, toFinset_card_of_nodup members.keys_nodup]
    simp [AList.keys, keys]
  have hf : (A.filter fun id => id ∈ members) = A ∩ ids := by
    ext j
    simp [h]
  rw [majorityOf, hc, hf]

theorem exists_mem_of_majorities {S A B : Finset Nat} (hA : S.card / 2 < (A ∩ S).card)
    (hB : S.card / 2 < (B ∩ S).card) : ∃ v ∈ S, v ∈ A ∧ v ∈ B := by
  have hlt : S.card < (A ∩ S).card + (B ∩ S).card := by omega
  obtain ⟨v, hv⟩ := Finset.inter_nonempty_of_card_lt_card_add_card Finset.inter_subset_right
    Finset.inter_subset_right hlt
  simp only [Finset.mem_inter] at hv
  exact ⟨v, hv.1.2, hv.1.1, hv.2.1⟩

namespace Deployment

variable (d : Deployment)

def termOf (tr : Trace) (v : Nat) : Nat := (d.stored tr v).term.getD 0

def Answer (v t : Nat) : RpcMessage → RpcMessage → Prop
  | .requestVote _, .requestVoteResponse r => r.peerId = v ∧ r.term = t
  | .appendEntries a, .appendEntriesResponse r => r.peerId = v ∧ r.term = t ∧ (r.success = true → a.term = t)
  | .installSnapshot _, .installSnapshotResponse r => r.peerId = v ∧ r.term = t
  | .timeoutNow _, .timeoutNowResponse _ => True
  | _, _ => False

/-- When a node may write its term or its vote, vote, become leader and answer a message: it answers what was sent
to it, and grants a vote that it has marked.  `W` says which votes elect a node. -/
def VotingRule (W : Trace → Nat → Finset Nat → Prop) (tr : Trace) : Nat × Effect → Prop
  | (v, .write (.putTerm t)) => d.termOf tr v < t
  | (v, .write .deleteVote) => ∀ x, (v, .voted (d.termOf tr v) x) ∉ tr
  | (v, .write (.putVote x)) => ∀ y, (v, .voted (d.termOf tr v) y) ∈ tr → y = x
  | (v, .voted t x) => t = d.termOf tr v ∧ (d.stored tr v).vote = some x
  | (v, .becameLeader t) => v ∈ d.ids ∧ t = d.termOf tr v ∧ ∃ A, W tr v A ∧ ∀ u ∈ A, (u, .voted t v) ∈ tr
  | (v, .send _ (.requestVote a)) => a.candidateId = v
  | (v, .respond tx resp) =>
      (∃ addr msg, tr[tx.sentAt]? = some (tx.requester, .send addr msg) ∧ d.resolve addr = some v ∧
        Answer v (d.termOf tr v) msg resp) ∧
      ∀ r, resp = .requestVoteResponse r → r.voteGranted = true → (v, .voted r.term tx.requester) ∈ tr
  | _ => True

/-- A majority of the configuration a node was started with elects it. -/
def Elects (_ : Trace) (v : Nat) (A : Finset Nat) : Prop :=
  ((d.config v).clusterConfig (d.db v)).hasJointMajority A = true

/-- The rule as long as no node changes its configuration. -/
def ElectionRule : Trace → Nat × Effect → Prop := d.VotingRule d.Elects

end Deployment

def Effect.Plain : Effect → Prop
  | .write (.putTerm _) | .write .deleteVote | .write (.putVote _) => False
  | .voted _ _ | .becameLeader _ => False
  | .send _ (.requestVote _) => False
  | .respond _ _ => False
  | _ => True

variable {e : Effect} {t : Nat}

section Rule

variable {d : Deployment} {W : Trace → Nat → Finset Nat → Prop} {tr : Trace} {v : Nat}

private theorem Effect.Plain.rule (h : e.Plain) (tr : Trace) (v : Nat) : d.VotingRule W tr (v, e) := by
  cases e with
  | write w => cases w <;> first | exact False.elim h | trivial
  | send addr msg => cases msg <;> first | exact False.elim h | trivial
  | respond | voted | becameLeader => exact False.elim h
  | _ => trivial

private theorem Effect.Plain.replay {es : List Effect} (h : ∀ e ∈ es, e.Plain) (db : Db) :
    (RustHadoop.replay db es).term = db.term ∧ (RustHadoop.replay db es).vote = db.vote := by
  induction es generalizing db with
  | nil => exact ⟨rfl, rfl⟩
  | cons e es ih =>
    have hr := ih fun x hx => h x (mem_cons_of_mem _ hx)
    have he := h e (mem_cons_self ..)
    cases e with
    | write w => cases w <;> first | exact he.elim | exact hr _
    | _ => exact hr db

/-- The votes that node `v` has marked are for the term it has on disk or earlier, and a vote of that term is on
disk. -/
def VotesStored (d : Deployment) (v : Nat) (tr : Trace) : Prop :=
  ∀ t x, (v, .voted t x) ∈ tr → t ≤ d.termOf tr v ∧ (t = d.termOf tr v → (d.stored tr v).vote = some x)

private theorem VotesStored.own (h : VotesStored d v tr) (he : d.VotingRule W tr (v, e)) :
    VotesStored d v (tr ++ [(v, e)]) := by
  have hs := d.stored_append_same tr v [e]
  simp only [map_cons, map_nil] at hs
  intro t x hx
  simp only [Deployment.termOf, hs]
  simp only [mem_append, mem_singleton, Prod.mk.injEq, true_and] at hx
  rcases hx with hx | rfl
  · obtain ⟨hle, hv⟩ := h t x hx
    cases e with
    | write w =>
      cases w with
      | putTerm t' =>
        have hlt : d.termOf tr v < t' := he
        exact ⟨hle.trans hlt.le, fun ht => absurd hlt (by simp [replay, DbWrite.apply] at ht; omega)⟩
      | deleteVote => exact ⟨hle, fun ht => absurd hx (by rw [show t = d.termOf tr v from ht]; exact he x)⟩
      | putVote y =>
          exact ⟨hle, fun ht => congrArg some (he x (by rwa [show t = d.termOf tr v from ht] at hx)).symm⟩
      | _ => exact ⟨hle, hv⟩
    | _ => exact ⟨hle, hv⟩
  · exact ⟨he.1.le, fun _ => he.2⟩

theorem votesStored (h : Lawful (d.VotingRule W) tr) (v : Nat) : VotesStored d v tr := by
  refine h.induction (by simp [VotesStored]) ?_
  rintro tr ⟨u, e⟩ - ih he
  by_cases hu : u = v
  · subst hu
    exact ih.own he
  · have hs := d.stored_append_of_ne tr [e] hu
    simp only [map_cons, map_nil] at hs
    intro t x hx
    simp only [mem_append, mem_singleton, Prod.mk.injEq, Ne.symm hu, false_and, or_false] at hx
    simpa only [Deployment.termOf, hs] using ih t x hx

theorem vote_unique (h : Lawful (d.VotingRule W) tr) {x y : Nat} (hx : (v, .voted t x) ∈ tr)
    (hy : (v, .voted t y) ∈ tr) : x = y := by
  refine h.induction (P := fun tr => (v, Effect.voted t x) ∈ tr → (v, Effect.voted t y) ∈ tr → x = y)
    (by simp) ?_ hx hy
  rintro tr ⟨u, e⟩ hl ih he hx hy
  simp only [mem_append, mem_singleton, Prod.mk.injEq] at hx hy
  have hn : ∀ {x y}, (v, Effect.voted t x) ∈ tr → v = u ∧ Effect.voted t y = e → x = y := by
    clear hx hy
    rintro x y hx ⟨rfl, rfl⟩
    obtain ⟨ht, hv⟩ : t = d.termOf tr v ∧ (d.stored tr v).vote = some y := he
    have := (votesStored hl v t x hx).2 ht
    rw [hv] at this
    exact (Option.some.inj this).symm
  rcases hx with hx | hx <;> rcases hy with hy | hy
  · exact ih hx hy
  · exact hn hx hy
  · exact (hn hy hx).symm
  · have := hx.2.trans hy.2.symm
    simp only [Effect.voted.injEq, true_and] at this
    exact this

end Rule

/-- How a node stands to the trace. -/
structure ElectionNode (d : Deployment) (tr : Trace) (i : Nat) (n : RaftNode) : Prop where
  db : n.db = d.stored tr i
  term : n.db.term.getD 0 = n.currentTerm
  vote : n.db.vote = n.votedFor
  voters : n.role = .candidate → i ∈ n.voters ∧ ∀ u ∈ n.voters, (u, .voted n.currentTerm i) ∈ tr
  leader : n.role = .leader → (i, .becameLeader n.currentTerm) ∈ tr

namespace RaftNode

structure VotingCall (d : Deployment) (W : Trace → Nat → Finset Nat → Prop) (c : Cluster) (i : Nat)
    (n : RaftNode) : Prop where
  lawful : Lawful (d.VotingRule W) (c.during i n).trace
  node : ElectionNode d (c.during i n).trace i n

abbrev ElectionCall (d : Deployment) (c : Cluster) (i : Nat) (n : RaftNode) : Prop := VotingCall d d.Elects c i n

section Acts

variable {d : Deployment} {W : Trace → Nat → Finset Nat → Prop} {c : Cluster} {i : Nat} {n n' : RaftNode}

theorem during_trace (c : Cluster) (i : Nat) {n n' : RaftNode} {l : List Effect} (h : n'.out = n.out ++ l) :
    (c.during i n').trace = (c.during i n).trace ++ l.map (Prod.mk i) := by
  simp [during, h]

section

variable (h : VotingCall d W c i n)
include h

theorem VotingCall.termOf : d.termOf (c.during i n).trace i = n.currentTerm := by
  rw [Deployment.termOf, ← h.node.db, h.node.term]

private theorem VotingCall.stored (hl : Logged n n') : n'.db = d.stored (c.during i n').trace i := by
  obtain ⟨es, ho, hd⟩ := hl
  rw [during_trace c i ho, d.stored_append_same, ← h.node.db, hd]

private theorem VotingCall.frame (es : List Effect) (ho : n'.out = n.out ++ es)
    (hes : ∀ e ∈ es, e.Plain) (hl : Logged n n') (ht : n'.currentTerm = n.currentTerm)
    (hvote : n'.votedFor = n.votedFor) (hvt : n'.voters = n.voters)
    (hrl : n'.role = n.role ∨ n'.role = .follower) : VotingCall d W c i n' := by
  have htr := during_trace c i ho
  have hdb : n'.db.term = n.db.term ∧ n'.db.vote = n.db.vote := by
    obtain ⟨es', ho', hd⟩ := hl
    rw [ho', append_cancel_left_eq] at ho
    rw [hd, ho]
    exact Effect.Plain.replay hes n.db
  have hk : ∀ r, r ≠ .follower → n'.role = r → n.role = r := by
    intro r hr hn
    rcases hrl with hrl | hrl
    · rw [← hrl, hn]
    · exact absurd (hn.symm.trans hrl) hr
  refine ⟨?_, ⟨h.stored hl, by rw [hdb.1, ht]; exact h.node.term, by rw [hdb.2, hvote]; exact h.node.vote, ?_, ?_⟩⟩
  · rw [htr]
    refine h.lawful.append fun x hx tr _ => ?_
    obtain ⟨e, he, rfl⟩ := mem_map.1 hx
    exact (hes e he).rule tr i
  · intro hc
    obtain ⟨hi, hv⟩ := h.node.voters (hk _ (by simp) hc)
    rw [hvt, ht, htr]
    exact ⟨hi, fun u hu => mem_append_left _ (hv u hu)⟩
  · intro hc
    rw [ht, htr]
    exact mem_append_left _ (h.node.leader (hk _ (by simp) hc))

private theorem VotingCall.not_voted (ht : n.currentTerm < t) (x : Nat) :
    (i, .voted t x) ∉ (c.during i n).trace := by
  intro hx
  have := (votesStored h.lawful i t x hx).1
  rw [h.termOf] at this
  omega

private theorem VotingCall.putTerm (ht : n.currentTerm < t) :
    Lawful (d.VotingRule W) ((c.during i n).trace ++ [(i, .write (.putTerm t))]) ∧
      d.termOf ((c.during i n).trace ++ [(i, .write (.putTerm t))]) i = t ∧
      ∀ x, (i, .voted t x) ∉ (c.during i n).trace ++ [(i, .write (.putTerm t))] := by
  have hs := d.stored_append_same (c.during i n).trace i [.write (.putTerm t)]
  refine ⟨h.lawful.concat ?_, ?_, ?_⟩
  · show d.termOf _ i < t
    rwa [h.termOf]
  · simp only [map_cons, map_nil] at hs
    rw [Deployment.termOf, hs]
    rfl
  · intro x
    simpa using h.not_voted ht x

private theorem VotingCall.stepDown (t : Nat) (hint : Option String) :
    VotingCall d W c i (n.stepDownToFollower t hint) := by
  refine stepDownToFollower_induction n t hint (fun ht => ?_)
    (fun _ => h.frame [] (by simp) (by simp) (.of_eq rfl rfl) rfl rfl rfl (.inr rfl)) fun m _ _ _ es hm hes => ?_
  · obtain ⟨hl, htr, hno⟩ := h.putTerm ht
    refine ⟨?_, ⟨h.stored ⟨_, rfl, rfl⟩, rfl, rfl, by simp, by simp⟩⟩
    rw [during_trace c i rfl, map_cons, map_cons, map_nil, append_cons]
    refine hl.concat fun x => ?_
    rw [htr]
    exact hno x
  · refine hm.frame es rfl (fun e he => ?_) (.append rfl rfl fun e he w => ?_) rfl rfl rfl (.inl rfl)
    · cases hes e he <;> trivial
    · cases hes e he <;> simp

private theorem VotingCall.stand (hid : n.id = i) : VotingCall d W c i n.standForElection := by
  have hn := standForElection_eq n
  have hl : Logged n n.standForElection := by rw [hn]; exact ⟨_, rfl, rfl⟩
  obtain ⟨hlaw, ht, hno⟩ := h.putTerm (show n.currentTerm < n.currentTerm + 1 by omega)
  have htr : (c.during i n.standForElection).trace =
      (c.during i n).trace ++ [(i, .write (.putTerm (n.currentTerm + 1)))] ++ [(i, .write (.putVote i))] ++
        [(i, .voted (n.currentTerm + 1) i)] := by
    rw [hn]
    simp [during, hid]
  refine ⟨?_, ⟨h.stored hl, by rw [hn]; rfl, by rw [hn], ?_, by simp [hn]⟩⟩
  · have hs :=
      d.stored_append_same (c.during i n).trace i [.write (.putTerm (n.currentTerm + 1)), .write (.putVote i)]
    rw [map_cons, map_cons, map_nil, append_cons] at hs
    rw [htr]
    refine Lawful.concat (hlaw.concat ?_) ⟨?_, ?_⟩
    · intro x hx
      rw [ht] at hx
      exact absurd hx (hno x)
    · rw [Deployment.termOf, hs]
      rfl
    · rw [hs]
      rfl
  · intro _
    rw [htr, hn]
    simp [hid]

private theorem VotingCall.grant {x : Nat}
    (hv : n.votedFor = none ∨ n.votedFor = some x) : VotingCall d W c i (n.grantVote x) := by
  have hn := grantVote_eq n x
  have hl : Logged n (n.grantVote x) := by rw [hn]; exact ⟨_, rfl, rfl⟩
  have htr : (c.during i (n.grantVote x)).trace =
      (c.during i n).trace ++ [(i, .write (.putVote x))] ++ [(i, .voted n.currentTerm x)] := by
    rw [hn]
    simp [during]
  refine ⟨?_, ⟨h.stored hl, by rw [hn]; exact h.node.term, by rw [hn], ?_, ?_⟩⟩
  · have hs := d.stored_append_same (c.during i n).trace i [.write (.putVote x)]
    simp only [map_cons, map_nil] at hs
    rw [htr]
    refine Lawful.concat (h.lawful.concat ?_) ⟨?_, ?_⟩
    · intro y hy
      have hvote := (votesStored h.lawful i _ y hy).2 rfl
      rw [← h.node.db, h.node.vote] at hvote
      rcases hv with hv | hv <;> rw [hv] at hvote
      · cases hvote
      · exact (Option.some.inj hvote).symm
    · rw [Deployment.termOf, hs]
      exact h.termOf.symm
    · rw [hs]
      rfl
  · intro hc
    rw [hn] at hc
    obtain ⟨hi, hvt⟩ := h.node.voters hc
    rw [htr, append_assoc, hn]
    exact ⟨hi, fun u hu => mem_append_left _ (hvt u hu)⟩
  · intro hc
    rw [hn] at hc
    rw [htr, append_assoc, hn]
    exact mem_append_left _ (h.node.leader hc)

private theorem VotingCall.lead (hi : i ∈ d.ids) (hr : n.role = .candidate)
    (hw : W (c.during i n).trace i n.voters) : VotingCall d W c i n.takeLeadership := by
  obtain ⟨next, hn⟩ := takeLeadership_eq n
  have hl : Logged n n.takeLeadership := by rw [hn]; exact ⟨_, rfl, rfl⟩
  have htr : (c.during i n.takeLeadership).trace = (c.during i n).trace ++ [(i, .becameLeader n.currentTerm)] ++
      [(i, .write (.putLog (n.log.length + n.lastIncludedIndex) ⟨n.currentTerm, .noOp⟩))] := by
    rw [hn]
    simp [during]
  refine ⟨?_, ⟨h.stored hl, by rw [hn]; exact h.node.term, by rw [hn]; exact h.node.vote, by simp [hn], ?_⟩⟩
  · rw [htr]
    exact Lawful.concat (h.lawful.concat ⟨hi, h.termOf.symm, n.voters, hw, (h.node.voters hr).2⟩) trivial
  · intro _
    rw [htr, hn]
    simp

private theorem VotingCall.countVote {r : RequestVoteReply}
    (hv : (r.peerId, .voted r.term i) ∈ c.trace) (ht : n.currentTerm = r.term) (k : Nat) :
    VotingCall d W c i { n with votesReceived := k, voters := insert r.peerId n.voters } := by
  refine ⟨h.lawful, ⟨h.node.db, h.node.term, h.node.vote, fun hc => ?_, h.node.leader⟩⟩
  obtain ⟨hi, hvt⟩ := h.node.voters hc
  refine ⟨Finset.mem_insert_of_mem hi, fun u hu => ?_⟩
  rcases Finset.mem_insert.1 hu with rfl | hu
  · rw [ht]
    exact mem_append_left _ hv
  · exact hvt u hu

private theorem VotingCall.emit (hw : ∀ w, e ≠ .write w)
    (he : d.VotingRule W (c.during i n).trace (i, e)) : VotingCall d W c i (n.emit e) := by
  have htr : (c.during i (n.emit e)).trace = (c.during i n).trace ++ [(i, e)] := by
    simp [during, RaftNode.emit]
  refine ⟨?_, ⟨h.stored (.emit n e hw), h.node.term, h.node.vote, fun hc => ?_, fun hc => ?_⟩⟩
  · rw [htr]
    exact h.lawful.concat he
  · rw [htr]
    exact ⟨(h.node.voters hc).1, fun u hu => mem_append_left _ ((h.node.voters hc).2 u hu)⟩
  · rw [htr]
    exact mem_append_left _ (h.node.leader hc)

end

private theorem Upkeep.plain (h : Upkeep e) : e.Plain := by
  rcases h with ⟨_ | _⟩ | _ | _ | _ | _ <;> trivial

private theorem plain_of_isInfo (h : e.isInfo = true) : e.Plain := by
  cases e <;> trivial

structure ElectionMessages (d : Deployment) (c : Cluster) (i : Nat) (D : RaftNode → Option Event → Prop) :
    Prop where
  origin : ∀ m msg tx, D m (some (.rpc msg (some tx))) → Delivered d c i msg (some tx) ∧ msg.isRequest = true
  request : ∀ m a tx, D m (some (.rpc (.requestVote a) (some tx))) → a.candidateId = tx.requester
  response : ∀ m r tx, D m (some (.rpc (.requestVoteResponse r) tx)) → tx = none ∧
    (r.voteGranted = true → (r.peerId, .voted r.term i) ∈ c.trace)

variable {D : RaftNode → Option Event → Prop}

private theorem VotingCall.respond (hD : ElectionMessages d c i D)
    (h : VotingCall d W c i n) (hid : n.id = i) {m : RaftNode} {msg resp : RpcMessage} {tx : ReplyTx}
    (hm : D m (some (.rpc msg (some tx)))) (ha : n.Answers msg resp) :
    VotingCall d W c i (n.emit (.respond tx resp)) := by
  obtain ⟨⟨addr, hsn, hres⟩, hr⟩ := hD.origin m msg tx hm
  have hs' : (c.during i n).trace[tx.sentAt]? = some (tx.requester, .send addr msg) := by
    rw [during, List.getElem?_append_left (List.getElem?_eq_some_iff.1 hsn).1]
    exact hsn
  refine h.emit (by simp) ⟨⟨addr, msg, hs', hres, ?_⟩, ?_⟩
  · rw [h.termOf]
    cases ha with
    | vote a granted hv => exact ⟨hid, rfl⟩
    | append a success index hs => exact ⟨hid, rfl, fun h => (hs h).1⟩
    | snapshot a => exact ⟨hid, rfl⟩
    | timeout a r => trivial
    | echo msg hmsg =>
      rw [hmsg] at hr
      cases hr
  · rintro r rfl hg
    cases ha with
    | vote a granted hv =>
      have := mem_map_of_mem (f := Prod.mk i) (hv hg)
      rw [hD.request m a tx hm] at this
      exact mem_append_right _ this
    | echo msg hmsg => exact absurd (hD.response m r _ hm).1 (by simp)

theorem VotingCall.act {M : Prop} (hD : ElectionMessages d c i D) (hi : i ∈ d.ids) (hid : n.id = i)
    (hw : n.role = .candidate → i ∈ n.voters → n.clusterConfig.hasJointMajority n.voters = true ∨
      n.clusterConfig.allMembers.entries.length = 1 → W (c.during i n).trace i n.voters)
    (h : VotingCall d W c i n) (ha : Act D M n n') : VotingCall d W c i n' := by
  have hl := ha.logged
  cases ha with
  | note | commitFollowing | commitMajority | commitAlone | matchAppend | matchSnapshot | ackAppend | ackSnapshot
  | transfer => exact h.frame [] (by simp [recordMatch, ackReads]) (by simp) hl rfl rfl rfl (.inl rfl)
  | info e he => exact h.frame [e] rfl (by simpa using plain_of_isInfo he) hl rfl rfl rfl (.inl rfl)
  | stepDown t hint => exact h.stepDown t hint
  | stand => exact h.stand hid
  | grant a m tx hm ht hv => exact h.grant hv
  | countVote r m tx hm hr ht hg => exact h.countVote ((hD.response m r tx hm).2 hg) ht _
  | lead hr hm => exact h.lead hi hr (hw hr (h.node.voters hr).1 hm)
  | askVote addr hr => exact h.emit (by simp) hid
  | sendAppend | sendSnapshot | sendTimeout => exact h.emit (by simp) trivial
  | replicateAt a =>
    obtain ⟨l, s, es, hn, hes, -⟩ := appendAtSnapshot_eq n a
    rw [hn] at hl ⊢
    exact h.frame _ rfl (fun e he => (Upkeep.replicate hes e he).plain) hl rfl rfl rfl (.inl rfl)
  | replicateAfter a =>
    obtain ⟨l, s, es, hn, hes, -⟩ := appendAfterSnapshot_eq n a
    rw [hn] at hl ⊢
    exact h.frame _ rfl (fun e he => (Upkeep.replicate hes e he).plain) hl rfl rfl rfl (.inl rfl)
  | apply =>
    obtain ⟨t, s, clock, reads, es, hn, hes, -⟩ := applyNext_eq n
    rw [hn] at hl ⊢
    exact h.frame es rfl (fun e he => by cases hes e he <;> trivial) hl rfl rfl rfl (.inl rfl)
  | checkReads =>
    obtain ⟨r, es, hn, hes⟩ := Upkeep.checkReads n
    rw [hn] at hl ⊢
    exact h.frame es rfl (fun e he => (hes e he).plain) hl rfl rfl rfl (.inl rfl)
  | compact =>
    rw [createSnapshot_eq, append_assoc] at hl ⊢
    exact h.frame _ rfl (fun e he => (Upkeep.snapshot _ _ _ _ e he).plain) hl rfl rfl rfl (.inl rfl)
  | install a =>
    rw [installSnapshot_eq, append_assoc] at hl ⊢
    exact h.frame _ rfl (fun e he => (Upkeep.snapshot _ _ _ _ e he).plain) hl rfl rfl rfl (.inl rfl)
  | respond msg tx m hm resp hans => exact h.respond hD hid hm hans
  | propose c s o p => exact h.frame [_] rfl (by simp [Effect.Plain]) hl rfl rfl rfl (.inl rfl)
  | addServers servers =>
    refine h.frame [] ?_ (by simp) hl ?_ ?_ ?_ (.inl ?_) <;>
    · unfold handleAddServersRequest
      repeat' split
      all_goals simp

section

variable (h : VotingCall d W c i n)
include h

theorem VotingCall.registerRead (tx : Nat) : VotingCall d W c i (n.registerRead tx) :=
  h.frame [.readIndex tx n.commitIndex] rfl (by simp [Effect.Plain])
    (.append rfl rfl (by simp)) rfl rfl rfl (.inl rfl)

theorem VotingCall.acceptRequests {requests : List (Command × Nat)} (hne : requests ≠ []) :
    VotingCall d W c i (n.acceptRequests requests) := by
  have hl := Logged.acceptRequests n requests hne
  rw [acceptRequests_eq n requests hne, append_assoc] at hl ⊢
  refine h.frame _ rfl ?_ hl rfl rfl rfl (.inl rfl)
  simp only [singleton_append, mem_cons, mem_map, forall_eq_or_imp]
  exact ⟨trivial, by rintro e ⟨r, -, rfl⟩; trivial⟩

theorem VotingCall.rejectRequests (requests : List (Command × Nat)) :
    VotingCall d W c i (n.rejectRequests requests) := by
  refine h.frame _ rfl ?_ (.append rfl rfl ?_) rfl rfl rfl (.inl rfl) <;>
  · intro e he
    obtain ⟨r, -, rfl⟩ := mem_map.1 he
    simp [Effect.Plain]

end

end Acts

end RaftNode

structure VotingRun (d : Deployment) (W : Trace → Nat → Finset Nat → Prop) (c : Cluster) : Prop where
  lawful : Lawful (d.VotingRule W) c.trace
  node : ∀ i ∈ d.ids, ElectionNode d c.trace i (c.node i)

abbrev ElectionRun (d : Deployment) (c : Cluster) : Prop := VotingRun d d.Elects c

variable {inv : Invocation} {i j : Nat} {tr : Trace}

section Runs

variable {d : Deployment} {W : Trace → Nat → Finset Nat → Prop} {C : Command → Prop} {ok : Cluster → Label → Prop}
  {c : Cluster}

theorem ElectionNode.append {n : RaftNode} (h : ElectionNode d tr j n) (hij : i ≠ j)
    (es : List Effect) : ElectionNode d (tr ++ es.map (Prod.mk i)) j n where
  db := by rw [d.stored_append_of_ne tr es hij]; exact h.db
  term := h.term
  vote := h.vote
  voters := fun hc => ⟨(h.voters hc).1, fun u hu => mem_append_left _ ((h.voters hc).2 u hu)⟩
  leader := fun hl => mem_append_left _ (h.leader hl)

theorem ElectionNode.boot (conf : RaftNodeConfig) : ElectionNode d tr i (RaftNode.boot conf (d.stored tr i)) :=
  ⟨rfl, rfl, rfl, (fun h => nomatch h), (fun h => nomatch h)⟩

theorem VotingRun.init : VotingRun d W (init d) := ⟨Lawful.nil, fun _ _ => ElectionNode.boot _⟩

section

variable (h : VotingRun d W c)
include h

variable {i : Nat}

theorem VotingRun.ready (hi : i ∈ d.ids) (clock : List Nat) : (c.ready i clock).VotingCall d W c i := by
  have htr : (c.during i (c.ready i clock)).trace = c.trace := by simp [Cluster.during, Cluster.ready]
  have hn := h.node i hi
  refine ⟨by rw [htr]; exact h.lawful, ?_⟩
  rw [htr]
  exact { hn with }

variable {n : RaftNode}

theorem VotingRun.during (hn : n.VotingCall d W c i) : VotingRun d W (c.during i n) :=
  ⟨hn.lawful, forall_update (fun _ => hn.node) fun j hj hij => (h.node j hj).append (Ne.symm hij) n.out⟩

theorem VotingRun.crashed (hi : i ∈ d.ids) (hn : n.VotingCall d W c i)
    (k : Nat) : VotingRun d W (c.crashed d i (n.out.take k)) := by
  have hes : Lawful (d.VotingRule W) (c.trace ++ (n.out.take k).map (Prod.mk i)) :=
    hn.lawful.of_prefix ((prefix_append_right_inj _).2 ((List.take_prefix k n.out).map _))
  refine ⟨hes, forall_update (fun _ => ?_) fun j hj hij => (h.node j hj).append (Ne.symm hij) _⟩
  rw [(h.node i hi).db, ← d.stored_append_same]
  exact ElectionNode.boot _

theorem VotingRun.restart (hi : i ∈ d.ids) : VotingRun d W (c.crashed d i []) :=
  h.crashed hi (h.ready hi []) 0

theorem VotingRun.messages (hs : c.trace.Routed)
    (hen : inv.Enabled d c i) : RaftNode.ElectionMessages d c i (RaftNode.TurnsTo n inv) where
  origin := fun m msg tx hm => ⟨hen.rpc _ _ hm.mem, hs.isRequest (hen.rpc _ _ hm.mem)⟩
  request := by
    intro m a tx hm
    obtain ⟨addr, hsn, -⟩ := hen.rpc _ _ hm.mem
    exact h.lawful _ _ hsn
  response := by
    intro m r tx hm
    have hd := hen.rpc _ _ hm.mem
    refine ⟨?_, fun hg => ?_⟩
    · cases tx with
      | none => rfl
      | some tx => cases hs.isRequest hd
    · obtain ⟨j, tx, hr, rfl⟩ := hs.response hd rfl
      obtain ⟨p, hp, ⟨addr, msg, -, -, ha⟩, hv⟩ := h.lawful.of_mem hr
      cases msg <;> simp only [Deployment.Answer] at ha
      rw [ha.1]
      exact hp.subset (hv r rfl hg)

end

/-- A node whose configuration has one member is a majority by itself. -/
def Deployment.SelfMajority (d : Deployment) : Prop :=
  ∀ i ∈ d.ids, ∀ A, i ∈ A → ((d.config i).clusterConfig (d.db i)).allMembers.entries.length = 1 →
    ((d.config i).clusterConfig (d.db i)).hasJointMajority A = true

private theorem VotingRun.call (hself : d.SelfMajority) (hq : d.Quiet) (hnoop : C .noOp)
    (hrec : ∀ c, C c → c.reconfigures = false) (h : ElectionRun d c) (hs : StaticRun d C c)
    (n : RaftNode) (hi : i ∈ d.ids) (hen : inv.Enabled d c i) (hM : ¬ inv.ChangesMembers i) (hC : inv.Proposes C) :
    RaftNode.Preserves (RaftNode.TurnsTo n inv) (inv.ChangesMembers i)
      fun _ n => n.StaticCall (d.config i) (d.db i) C ∧ n.ElectionCall d c i := by
  refine (hs.call hnoop hrec n hen hM hC).and (fun _ h => h) ?_ (fun _ _ _ _ h => h.registerRead _)
    (fun _ hne _ _ _ h => h.acceptRequests hne) (fun _ _ _ _ h => h.rejectRequests _)
  intro T n n' hn he ha
  refine he.act (h.messages hs.routed hen) hi (hn.node.id.trans (hq.id i)) (fun _ hv hm => ?_) ha
  rw [hn.node.config] at hm
  exact hm.elim id (hself i hi _ hv)

section

variable (hq : d.Quiet) (hself : d.SelfMajority) (hnoop : C .noOp) (hrec : ∀ c, C c → c.reconfigures = false)
  (hok : ∀ c l, ok c l → Enabled d c l ∧ l.Keeps C) (h : Reachable d ok c)
include hq hself hnoop hrec hok h

theorem Reachable.election : ElectionRun d c := by
  refine h.invariant (fun c i _ _ n => n.StaticCall (d.config i) (d.db i) C ∧ n.ElectionCall d c i) VotingRun.init
    (fun c l h => (hok c l h).1) ?_ ?_ ?_ ?_ ?_ ?_
  · exact fun c i hr _ hi => ((hr.static hq hnoop hrec hok).node i hi).id.trans (hq.id i)
  · rintro c i inv clock hr h hi -
    exact ⟨(hr.static hq hnoop hrec hok).ready hi clock, h.ready hi clock⟩
  · intro c l i inv clock hr h hl hc hi hen
    obtain ⟨hM, hC⟩ := (hok c l hl).2 i inv clock hc
    exact h.call hself hq hnoop hrec (hr.static hq hnoop hrec hok) _ hi hen hM hC
  · intro c i inv clock n _ _ h hi hn
    exact ⟨(h.during hn.2).lawful, (h.during hn.2).node⟩
  · intro c i inv clock k n _ _ h hi hn
    exact ⟨(h.crashed hi hn.2 k).lawful, (h.crashed hi hn.2 k).node⟩
  · intro c i _ _ h hi
    exact h.restart hi

theorem Reachable.electionCall {l : Label} (hl : ok c l) {clock : List Nat}
    (hc : l.call? = some (i, inv, clock)) (hi : i ∈ d.ids) (hen : inv.Enabled d c i) :
    RaftNode.Preserves (RaftNode.TurnsTo (c.ready i clock) inv) (inv.ChangesMembers i)
      fun _ n => n.StaticCall (d.config i) (d.db i) C ∧ n.ElectionCall d c i := by
  obtain ⟨hM, hC⟩ := (hok c l hl).2 i inv clock hc
  exact (h.election hq hself hnoop hrec hok).call hself hq hnoop hrec (h.static hq hnoop hrec hok) _ hi hen hM hC

end

end Runs

/-- The states of a cluster whose membership nobody tries to change. -/
def FixedRun (d : Deployment) : Cluster → Prop := Reachable d fun c l => Enabled d c l ∧ l.NoMembership

section Fixed

variable {d : Deployment} {members : Nat → Members} {version : Nat → Nat} {c : Cluster}

theorem Command.reconfigures_of_not_membership {c : Command} (h : c.isMembership = false) :
    c.reconfigures = false := by
  cases c with
  | membership => cases h
  | _ => rfl

section

variable (hd : FixedMembership d members version)
include hd

theorem FixedMembership.quiet : d.Quiet :=
  ⟨hd.id, fun i hi => (hd.fresh i hi).log, fun i hi => by rw [(hd.fresh i hi).configChangeState]; rfl⟩

theorem FixedMembership.majority (hi : i ∈ d.ids) (A : Finset Nat) :
    ((d.config i).clusterConfig (d.db i)).hasJointMajority A = true ↔ d.ids.card / 2 < (A ∩ d.ids).card := by
  rw [hd.config i hi, hasJointMajority, majorityOf_eq (hd.ids i hi), decide_eq_true_iff]

theorem FixedMembership.selfMajority : d.SelfMajority := by
  intro i hi A hA ho
  rw [hd.config i hi] at ho ⊢
  simp only [allMembers] at ho
  simp only [hasJointMajority, majorityOf, ho, decide_eq_true_iff]
  refine Finset.card_pos.2 ⟨i, ?_⟩
  simpa [hA] using (hd.ids i hi i).2 hi

theorem FixedRun.static (hr : FixedRun d c) : StaticRun d (fun c => c.isMembership = false) c :=
  Reachable.static hd.quiet rfl (fun _ => Command.reconfigures_of_not_membership) (fun _ _ h => h) hr

theorem FixedRun.election (hr : FixedRun d c) : ElectionRun d c :=
  Reachable.election (C := fun c => c.isMembership = false) hd.quiet hd.selfMajority rfl
    (fun _ => Command.reconfigures_of_not_membership) (fun _ _ h => h) hr

theorem FixedMembership.leader_unique
    (h : Lawful d.ElectionRule tr) (hi : (i, .becameLeader t) ∈ tr) (hj : (j, .becameLeader t) ∈ tr) : i = j := by
  obtain ⟨p, hp, hi', -, A, hA, hvA⟩ := h.of_mem hi
  obtain ⟨q, hq, hj', -, B, hB, hvB⟩ := h.of_mem hj
  obtain ⟨v, -, hv⟩ := exists_mem_of_majorities ((hd.majority hi' A).1 hA) ((hd.majority hj' B).1 hB)
  exact vote_unique h (hp.subset (hvA v hv.1)) (hq.subset (hvB v hv.2))

end

/-- Election safety: in a run with fixed membership no two nodes become leader in the same term, and a node that is
leader has become it. -/
theorem election_safety (hd : FixedMembership d members version) (hr : FixedRun d c) :
    (∀ i j t, (i, .becameLeader t) ∈ c.trace → (j, .becameLeader t) ∈ c.trace → i = j) ∧
      ∀ i ∈ d.ids, (c.node i).role = .leader → (i, .becameLeader (c.node i).currentTerm) ∈ c.trace :=
  ⟨fun _ _ _ hi hj => hd.leader_unique (hr.election hd).lawful hi hj, fun i hi =>
    ((hr.election hd).node i hi).leader⟩

end Fixed

def trio : Deployment :=
  .ofMembers ⟨[⟨1, "a"⟩, ⟨2, "b"⟩, ⟨3, "c"⟩], by simp [NodupKeys, keys]⟩ (.master .default)

theorem trio_fixed : ∃ members version, FixedMembership trio members version :=
  ⟨_, _, Deployment.ofMembers_fixed (by simp) (by decide)⟩

/-- Node 1 stands for election, node 2 votes for it, and node 1 becomes leader. -/
def trioElected : Cluster := (init trio).play trio (fun _ l => l.calm) [.tick 1 true, .deliver 3, .deliver 9]

theorem election_safety_trio : (1, .becameLeader 1) ∈ trioElected.trace ∧
    ∀ j, (j, .becameLeader 1) ∈ trioElected.trace → j = 1 := by
  obtain ⟨members, version, hd⟩ := trio_fixed
  have hr : FixedRun trio trioElected := .play (fun _ _ he _ hk => ⟨he, Label.noMembership_of_calm hk⟩) .init _
  have h := election_safety hd hr
  have h1 : (1, Effect.becameLeader 1) ∈ trioElected.trace := mem_of_getElem? (i := 10) rfl
  exact ⟨h1, fun j hj => h.1 j 1 1 hj h1⟩

end RustHadoop
