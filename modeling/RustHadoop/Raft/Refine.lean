import RustHadoop.Lib.LeaderCompleteness
import RustHadoop.Raft.Election
import RustHadoop.Raft.LogImage

/-!
# The nodes implement the replicated log

A cluster is related to a `History`: every node's log, with what it has compacted put back, is the log of its
replica; what it has committed is settled; the messages in the trace say only what is true of the history.  Each
action of a node is matched by steps of its replica (`CallSim.act`), so every state of a run has such a history
(`Reachable.sim`).

This is for runs without crashes inside a call, without membership changes by joint consensus, and in which a
snapshot is only installed over a log that does not reach beyond it.
-/

namespace RustHadoop

open ReplicatedLog Function RaftNode List LogEntry Nat

variable {a : AppendEntriesArgs}

def Quorum (d : Deployment) (A : Finset Nat) : Prop := d.ids.card / 2 < (A ∩ d.ids).card

theorem Quorum.inter (d : Deployment) : ∀ A B, Quorum d A → Quorum d B → ∃ v, v ∈ A ∧ v ∈ B :=
  fun _ _ hA hB => (exists_mem_of_majorities hA hB).imp fun _ hv => hv.2

abbrev Hist := History Nat LogEntry

/-! ### The relation -/

section Relation

variable (d : Deployment) (h : Hist)

/-- Node `j` has the log of the leader of term `t` up to `m`, or `m` is committed anyway. -/
def Acked (t j m : Nat) : Prop := m ≤ h.ack j t ∨ Reached term (Quorum d) h t m

structure NodeSim (i : Nat) (n : RaftNode) : Prop where
  term : h.term i = n.currentTerm
  vote : h.vote i n.currentTerm = n.votedFor
  log : n.log = ⟨n.lastIncludedTerm, .noOp⟩ :: (h.log i).drop n.lastIncludedIndex
  snapshotTerm : n.lastIncludedTerm = termAt LogEntry.term (h.log i) n.lastIncludedIndex
  applied : n.lastIncludedIndex ≤ n.lastApplied
  commit : n.lastApplied ≤ n.commitIndex
  settled : Settled LogEntry.term (Quorum d) h i n.commitIndex
  stored : n.Stored
  storedMeta : n.db.snapshotMeta.getD (0, 0) = (n.lastIncludedIndex, n.lastIncludedTerm)
  candidate : n.role = .candidate → h.ballot i n.currentTerm = some (h.log i) ∧ h.lead n.currentTerm ≠ some i ∧
    ∀ u ∈ n.voters, h.vote u n.currentTerm = some i
  leader : n.role = .leader → h.lead n.currentTerm = some i ∧ h.log i = h.leaderLog n.currentTerm ∧
    h.ack i n.currentTerm = (h.log i).length ∧ n.lastLogTerm = n.currentTerm
  sized : n.matchIndex.length = n.peers.length
  acks : n.role = .leader → ∀ x ∈ n.peers.zip n.matchIndex, ∀ j, j ≠ i →
    n.clusterConfig.allMembers.lookup j = some x.1 → Acked d h n.currentTerm j x.2

/-- An `AppendEntries` message carries a part of its leader's log, up to at least what it calls committed. -/
structure AppendSim (a : AppendEntriesArgs) : Prop where
  lead : h.lead a.term ≠ none
  bound : a.prevLogIndex + a.entries.length ≤ (h.leaderLog a.term).length
  entries : a.entries = ((h.leaderLog a.term).drop a.prevLogIndex).take a.entries.length
  prevTerm : a.prevLogTerm = termAt term (h.leaderLog a.term) a.prevLogIndex
  commit : Reached term (Quorum d) h a.term a.leaderCommit
  commitLe : a.leaderCommit ≤ a.prevLogIndex + a.entries.length

/-- An `InstallSnapshot` message is about a committed part of its leader's log. -/
structure SnapshotSim (a : InstallSnapshotArgs) : Prop where
  lead : h.lead a.term ≠ none
  bound : a.lastIncludedIndex ≤ (h.leaderLog a.term).length
  term : a.lastIncludedTerm = termAt term (h.leaderLog a.term) a.lastIncludedIndex
  commit : Reached LogEntry.term (Quorum d) h a.term a.lastIncludedIndex

/-- What the history knows about something that node `i` has done. -/
def EffectSim (i : Nat) : Effect → Prop
  | .voted t x => h.vote i t = some x
  | .send _ (.requestVote a) => ∃ b, h.ballot i a.term = some b ∧ a.lastLogIndex = b.length ∧
      a.lastLogTerm = termAt term b b.length
  | .send _ (.appendEntries a) => AppendSim d h a
  | .send _ (.installSnapshot a) => SnapshotSim d h a
  | .replicated t m => m ≤ h.ack i t
  | .respond _ (.appendEntriesResponse r) => r.success = true → r.matchIndex ≤ h.ack r.peerId r.term
  | .respond _ (.installSnapshotResponse r) => Reached LogEntry.term (Quorum d) h r.term r.lastIncludedIndex
  | .applied k e => 0 < k ∧ ∃ T m, Committed LogEntry.term (Quorum d) h T m ∧ k ≤ m ∧
      (h.leaderLog T)[k - 1]? = some e
  | _ => True

/-- The history of a cluster in which node `i` is `n` in the middle of a call. -/
structure CallSim (c : Cluster) (i : Nat) (n : RaftNode) : Prop where
  inv : Inv LogEntry.term (Quorum d) h
  node : NodeSim d h i n
  others : ∀ j ∈ d.ids, j ≠ i → NodeSim d h j (c.node j)
  trace : ∀ x ∈ (c.during i n).trace, EffectSim d h x.1 x.2

end Relation

/-! ### The relation as the history grows -/

variable {k j : Nat}

section Growth

variable {d : Deployment} {h h' : Hist} {i : Nat} {n : RaftNode}

section

variable (hx : Extends h h')
include hx

private theorem Acked.mono {t m : Nat} (ha : Acked d h t j m) : Acked d h' t j m :=
  ha.imp (fun hm => hm.trans (hx.ack j t)) fun hr => hr.mono hx (le_refl t) (le_refl m)

private theorem termAt_leaderLog {t : Nat} (hk : k ≤ (h.leaderLog t).length) :
    termAt term (h'.leaderLog t) k = termAt term (h.leaderLog t) k :=
  termAt_of_prefix_of_le _ (hx.leaderLog t) hk

private theorem AppendSim.mono (ha : AppendSim d h a) : AppendSim d h' a where
  lead := hx.led ha.lead
  bound := ha.bound.trans (hx.leaderLog a.term).length_le
  entries := by
    obtain ⟨r, hr⟩ := hx.leaderLog a.term
    have hb := ha.bound
    rw [← hr, drop_append_of_le_length (by omega), take_append_of_le_length (by rw [length_drop]; omega)]
    exact ha.entries
  prevTerm := by
    rw [termAt_leaderLog hx (by have := ha.bound; omega)]
    exact ha.prevTerm
  commit := ha.commit.mono hx (le_refl _) (le_refl _)
  commitLe := ha.commitLe

private theorem SnapshotSim.mono {a : InstallSnapshotArgs} (ha : SnapshotSim d h a) : SnapshotSim d h' a where
  lead := hx.led ha.lead
  bound := ha.bound.trans (hx.leaderLog a.term).length_le
  term := by rw [termAt_leaderLog hx ha.bound]; exact ha.term
  commit := ha.commit.mono hx (le_refl _) (le_refl _)

private theorem EffectSim.mono {e : Effect} (he : EffectSim d h i e) : EffectSim d h' i e := by
  cases e with
  | voted t x => exact hx.vote i t x he
  | send addr msg =>
    cases msg with
    | requestVote a =>
      obtain ⟨b, hb, hlen, htr⟩ := he
      exact ⟨b, hx.ballot i a.term b hb, hlen, htr⟩
    | appendEntries a => exact AppendSim.mono hx he
    | installSnapshot a => exact SnapshotSim.mono hx he
    | _ => trivial
  | replicated t m => exact le_trans he (hx.ack i t)
  | respond tx msg =>
    cases msg with
    | appendEntriesResponse r => exact fun hs => (he hs).trans (hx.ack r.peerId r.term)
    | installSnapshotResponse r => exact Reached.mono hx he (le_refl _) (le_refl _)
    | _ => trivial
  | applied k e =>
    obtain ⟨hk, T, m, hc, hm, he⟩ := he
    refine ⟨hk, T, m, hc.mono hx, hm, ?_⟩
    obtain ⟨r, hr⟩ := hx.leaderLog T
    rw [← hr, List.getElem?_append_left (List.getElem?_eq_some_iff.1 he).1]
    exact he
  | _ => trivial

end

private theorem NodeSim.mono (hn : NodeSim d h j n) (hm : Moves LogEntry.term (Quorum d) i h h') (hij : j ≠ i) :
    NodeSim d h' j n where
  term := (hm.term j hij).trans hn.term
  vote := by rw [hm.vote j hij]; exact hn.vote
  log := by rw [hm.log j hij]; exact hn.log
  snapshotTerm := by rw [hm.log j hij]; exact hn.snapshotTerm
  applied := hn.applied
  commit := hn.commit
  settled := hn.settled.of_extends hm.ext (by rw [hm.log j hij])
  stored := hn.stored
  storedMeta := hn.storedMeta
  candidate := by
    intro hc
    obtain ⟨hb, hl, hv⟩ := hn.candidate hc
    rw [hm.log j hij]
    exact ⟨hm.ext.ballot j _ _ hb, fun hl' => hl (hm.lead _ j hij hl'), fun u hu => hm.ext.vote u _ j (hv u hu)⟩
  leader := by
    intro hl
    obtain ⟨hld, hlog, hack, hls⟩ := hn.leader hl
    have hll := hm.leaderLog _ j hij hld
    rw [hm.log j hij, hll]
    refine ⟨hm.ext.lead _ j hld, hlog, le_antisymm ?_ ?_, hls⟩
    · have := hm.inv.ackLe j n.currentTerm
      rw [hll, ← hlog] at this
      exact this
    · rw [← hack]
      exact hm.ext.ack j _
  sized := hn.sized
  acks := fun hl x hx k hk hlk => (hn.acks hl x hx k hk hlk).mono hm.ext

end Growth

/-! ### Reading the log -/

variable {e : LogEntry}

section Reading

variable {d : Deployment} {h : Hist} {i : Nat} {n : RaftNode}

section

variable (hn : NodeSim d h i n)
include hn

theorem NodeSim.commit_le : n.commitIndex ≤ (h.log i).length := hn.settled.le_length

theorem NodeSim.snapshot_le : n.lastIncludedIndex ≤ (h.log i).length := by
  have := hn.commit_le
  have := hn.applied
  have := hn.commit
  omega

theorem NodeSim.log_length : n.log.length = (h.log i).length - n.lastIncludedIndex + 1 := by
  rw [hn.log, length_cons, length_drop]

private theorem NodeSim.log_ne : n.log ≠ [] := by rw [hn.log]; simp

theorem NodeSim.lastLogIndex : n.lastLogIndex = (h.log i).length := by
  have := hn.snapshot_le
  rw [RaftNode.lastLogIndex, hn.log_length]
  omega

theorem NodeSim.reached_snapshot : Reached LogEntry.term (Quorum d) h n.currentTerm n.lastIncludedIndex := by
  rw [← hn.term]
  exact (hn.settled.le (hn.applied.trans hn.commit)).reached

theorem NodeSim.entry (hk : n.lastIncludedIndex < k) : n.log[k - n.lastIncludedIndex]? = (h.log i)[k - 1]? := by
  obtain ⟨j, rfl⟩ : ∃ j, k = n.lastIncludedIndex + 1 + j := ⟨k - n.lastIncludedIndex - 1, by omega⟩
  rw [hn.log, show n.lastIncludedIndex + 1 + j - n.lastIncludedIndex = j + 1 by omega, getElem?_cons_succ,
    List.getElem?_drop]
  congr 1
  omega

theorem NodeSim.term_of_entry (hk : n.lastIncludedIndex ≤ k) (he : n.log[k - n.lastIncludedIndex]? = some e) :
    k ≤ (h.log i).length ∧ e.term = termAt LogEntry.term (h.log i) k := by
  have hlen := (List.getElem?_eq_some_iff.1 he).1
  rw [hn.log_length] at hlen
  have := hn.snapshot_le
  refine ⟨by omega, ?_⟩
  rcases eq_or_lt_of_le hk with rfl | hlt
  · rw [Nat.sub_self, hn.log, getElem?_cons_zero, Option.some.injEq] at he
    rw [← he, ← hn.snapshotTerm]
  · obtain ⟨k, rfl⟩ : ∃ j, k = j + 1 := ⟨k - 1, by omega⟩
    rw [hn.entry hlt, Nat.add_sub_cancel] at he
    rw [termAt_succ _ he]

end

private theorem getLast?_drop_term {G : List LogEntry} {s t : Nat} (hs : s ≤ G.length) (ht : t = termAt term G s) :
    ((((⟨t, .noOp⟩ : LogEntry) :: G.drop s).getLast?).map term).getD 0 = termAt term G G.length := by
  rcases eq_or_lt_of_le hs with heq | hlt
  · rw [drop_of_length_le heq.ge, ht, heq]
    rfl
  · obtain ⟨G', e, rfl⟩ : ∃ G' e, G = G' ++ [e] :=
      ⟨G.dropLast, G.getLast (by rintro rfl; simp at hlt), (dropLast_append_getLast _).symm⟩
    have he : (G' ++ [e])[G'.length]? = some e := by simp
    rw [length_append, length_singleton, termAt_succ _ he, drop_append_of_le_length (by simp at hlt; omega)]
    rw [← cons_append, getLast?_append]
    rfl

theorem NodeSim.lastLogTerm (hn : NodeSim d h i n) :
    n.lastLogTerm = termAt LogEntry.term (h.log i) (h.log i).length := by
  rw [RaftNode.lastLogTerm, hn.log]
  exact getLast?_drop_term hn.snapshot_le hn.snapshotTerm

end Reading

/-! ### Actions that change little -/

variable {b : List LogEntry} {tx : ReplyTx}

section Acts

variable {d : Deployment} {c : Cluster} {h h' : Hist} {i : Nat} {n n' : RaftNode}

/-- How an action is matched: the replica moves, the node is related to it again, and what the node did is true. -/
theorem CallSim.move (hc : CallSim d h c i n) (hm : Moves LogEntry.term (Quorum d) i h h') (hn : NodeSim d h' i n')
    (es : List Effect) (ho : n'.out = n.out ++ es) (hes : ∀ e ∈ es, EffectSim d h' i e) : CallSim d h' c i n' where
  inv := hm.inv
  node := hn
  others := fun j hj hij => (hc.others j hj hij).mono hm hij
  trace := by
    rw [during_trace c i ho]
    intro x hx
    rcases mem_append.1 hx with hx | hx
    · exact (hc.trace x hx).mono hm.ext
    · obtain ⟨e, he, rfl⟩ := mem_map.1 hx
      exact hes e he

theorem CallSim.same (hc : CallSim d h c i n) (hn : NodeSim d h i n') (es : List Effect)
    (ho : n'.out = n.out ++ es) (hes : ∀ e ∈ es, EffectSim d h i e) : CallSim d h c i n' :=
  hc.move (.refl hc.inv i) hn es ho hes

/-- The fields that the relation looks at. -/
def RaftNode.simFields (n : RaftNode) :=
  (n.currentTerm, n.votedFor, n.log, n.lastIncludedIndex, n.lastIncludedTerm, n.lastApplied,
    n.commitIndex, n.db.log,
    n.db.snapshotMeta, n.role, n.voters, n.peers, n.matchIndex, n.clusterConfig)

private theorem NodeSim.congr (hn : NodeSim d h i n) (hsm : n'.simFields = n.simFields) : NodeSim d h i n' := by
  simp only [simFields, Prod.mk.injEq] at hsm
  obtain ⟨htr, hvt, hlog, hlii, hlit, happ, hcm, hdb, hmt, hrole, hv, hpr, hm, hcn⟩ := hsm
  constructor
  · rw [htr]; exact hn.term
  · rw [htr, hvt]; exact hn.vote
  · rw [hlog, hlii, hlit]; exact hn.log
  · rw [hlii, hlit]; exact hn.snapshotTerm
  · rw [hlii, happ]; exact hn.applied
  · rw [happ, hcm]; exact hn.commit
  · rw [hcm]; exact hn.settled
  · intro k
    rw [hdb, hn.stored k]
    unfold image
    rw [hlii, hlog]
  · rw [hmt, hlii, hlit]; exact hn.storedMeta
  · rw [hrole, htr, hv]; exact hn.candidate
  · rw [hrole, htr]
    unfold RaftNode.lastLogTerm
    rw [hlog]
    exact hn.leader
  · rw [hm, hpr]; exact hn.sized
  · rw [hrole, hpr, hm, hcn, htr]; exact hn.acks

theorem CallSim.alike (hc : CallSim d h c i n) (hsm : n'.simFields = n.simFields) (es : List Effect)
    (ho : n'.out = n.out ++ es) (hes : ∀ e ∈ es, EffectSim d h i e) : CallSim d h c i n' :=
  hc.same (hc.node.congr hsm) es ho hes

theorem CallSim.emit (hc : CallSim d h c i n) {e : Effect} (he : EffectSim d h i e) : CallSim d h c i (n.emit e) :=
  hc.alike rfl [e] rfl (forall_mem_singleton.2 he)

def Effect.Silent : Effect → Prop
  | .voted _ _ | .send _ (.requestVote _) | .send _ (.appendEntries _) | .send _ (.installSnapshot _) => False
  | .replicated _ _ | .applied _ _ => False
  | .respond _ (.appendEntriesResponse _) | .respond _ (.installSnapshotResponse _) => False
  | _ => True

theorem Effect.Silent.sim {e : Effect} (he : e.Silent) : EffectSim d h i e := by
  cases e with
  | send addr msg | respond tx msg => cases msg <;> first | exact False.elim he | trivial
  | voted | replicated | applied => exact False.elim he
  | _ => trivial

/-! ### Terms and elections -/

section

variable (hc : CallSim d h c i n)
include hc

private theorem CallSim.stepDown (t : Nat) (hint : Option String) :
    ∃ h', Extends h h' ∧ CallSim d h' c i (n.stepDownToFollower t hint) := by
  have hn := hc.node
  refine stepDownToFollower_induction (P := fun m => ∃ h', Extends h h' ∧ CallSim d h' c i m) n t hint
    (fun ht => ?_) (fun _ => ⟨h, .refl h, hc.same ?_ [] (by simp) (by simp)⟩) ?_
  · have hm : Moves LogEntry.term (Quorum d) i h { h with term := update h.term i t } :=
      .observe (Quorum.inter d) hc.inv (by rw [hn.term]; exact ht.le)
    have hnn : h.vote i t = none := by
      cases hv : h.vote i t with
      | none => rfl
      | some x =>
        have := hc.inv.voteTerm i t x hv
        rw [hn.term] at this
        omega
    refine ⟨_, hm.ext, hc.move hm ?_ _ rfl (fun e he => Effect.Silent.sim ?_)⟩
    · exact { hn with
        term := by simp, vote := hnn, settled := hm.settled _ hn.settled, candidate := by simp, leader := by simp
        acks := by simp }
    · simp only [mem_cons, not_mem_nil, or_false] at he
      rcases he with rfl | rfl <;> trivial
  · exact { hn with candidate := by simp, leader := by simp, acks := by simp }
  · rintro m addr replies reads es ⟨h', hx, hd⟩ hes
    refine ⟨h', hx, hd.alike rfl es rfl fun e he => ?_⟩
    exact Effect.Silent.sim (by cases hes e he <;> trivial)

private theorem CallSim.stand (hid : n.id = i) : ∃ h', Extends h h' ∧ CallSim d h' c i n.standForElection := by
  have hn := hc.node
  have hm := Moves.stand (Quorum.inter d) hc.inv (v := i) (t := n.currentTerm + 1) (by rw [hn.term]; omega)
  rw [standForElection_eq, hid]
  refine ⟨_, hm.ext, hc.move hm ?_ _ rfl ?_⟩
  · refine { hn with
      term := by simp, vote := set₂_same .., settled := hm.settled _ hn.settled, leader := by simp, acks := by simp
      candidate := fun _ => ⟨set₂_same .., ?_, ?_⟩ }
    · intro hl
      have : n.currentTerm + 1 ≤ h.term i := hc.inv.leadTerm _ i hl
      rw [hn.term] at this
      omega
    · simp
  · simp only [mem_cons, not_mem_nil, or_false, forall_eq_or_imp, forall_eq]
    exact ⟨trivial, trivial, set₂_same ..⟩

private theorem CallSim.grant {x : Nat} (hv : n.votedFor = none ∨ n.votedFor = some x)
    (hb : h.ballot x n.currentTerm = some b)
    (hup : UpToDate LogEntry.term b (h.log i)) : ∃ h', Extends h h' ∧ CallSim d h' c i (n.grantVote x) := by
  have hn := hc.node
  have hm := Moves.grant (Quorum.inter d) hc.inv (v := i) (c := x) (b := b) (by rwa [hn.term, hn.vote])
    (by rwa [hn.term]) hup
  rw [hn.term] at hm
  rw [grantVote_eq]
  refine ⟨_, hm.ext, hc.move hm ?_ _ rfl ?_⟩
  · refine { hn with vote := set₂_same .., settled := hm.settled _ hn.settled, candidate := fun hr => ?_ }
    obtain ⟨hbal, hl, hvt⟩ := hn.candidate hr
    exact ⟨hbal, hl, fun u hu => hm.ext.vote u _ i (hvt u hu)⟩
  · simp only [mem_cons, not_mem_nil, or_false, forall_eq_or_imp, forall_eq]
    exact ⟨trivial, set₂_same ..⟩

private theorem CallSim.countVote {r : RequestVoteReply} (hv : (r.peerId, .voted r.term i) ∈ c.trace)
    (ht : n.currentTerm = r.term) (k : Nat) :
    CallSim d h c i { n with votesReceived := k, voters := insert r.peerId n.voters } := by
  have hn := hc.node
  have hvote : h.vote r.peerId r.term = some i := hc.trace _ (mem_append_left _ hv)
  refine hc.same ?_ [] (by simp) (by simp)
  refine { hn with candidate := fun hr => ?_ }
  obtain ⟨hb, hl, hvt⟩ := hn.candidate hr
  refine ⟨hb, hl, fun u hu => ?_⟩
  rcases Finset.mem_insert.1 hu with rfl | hu
  · show h.vote r.peerId n.currentTerm = some i
    rw [ht]
    exact hvote
  · exact hvt u hu

private theorem CallSim.lead (hrole : n.role = .candidate) (hq : Quorum d n.voters) :
    ∃ h', Extends h h' ∧ CallSim d h' c i n.takeLeadership := by
  have hn := hc.node
  obtain ⟨hb, hne, hv⟩ := hn.candidate hrole
  have hld : h.lead n.currentTerm = none := by
    cases hl : h.lead n.currentTerm with
    | none => rfl
    | some l => exact absurd (by rw [hl, hc.inv.leader_unique (Quorum.inter d) hl hq hv]) hne
  have hm := Moves.elect (Quorum.inter d) hc.inv (v := i) (e := ⟨n.currentTerm, .noOp⟩) (A := n.voters)
    (by rwa [hn.term]) (by rwa [hn.term]) hq (by rwa [hn.term]) hn.term.symm
  rw [hn.term] at hm
  obtain ⟨next, hnx⟩ := takeLeadership_eq n
  have hst := hn.stored.takeLeadership hn.log_ne
  have hset := hm.settled _ hn.settled
  rw [hnx] at hst ⊢
  refine ⟨_, hm.ext, hc.move hm ?_ _ rfl ?_⟩
  · refine ⟨hn.term, hn.vote, ?_, ?_, hn.applied, hn.commit, hset, hst, hn.storedMeta, by simp,
      fun _ => ⟨by simp, by simp, by simp, by simp [lastLogTerm]⟩, by simp, ?_⟩
    · simp only [update_self]
      rw [drop_append_of_le_length hn.snapshot_le, hn.log]
      rfl
    · simp only [update_self]
      rw [termAt_append_left _ _ hn.snapshot_le]
      exact hn.snapshotTerm
    · -- what the new leader assumes about the others is its own snapshot
      intro _ x hx j _ _
      have hx2 : x.2 = n.lastIncludedIndex := eq_of_mem_replicate (of_mem_zip hx).2
      exact .inr (hn.reached_snapshot.mono hm.ext (le_refl _) hx2.le)
  · simp only [mem_cons, not_mem_nil, or_false, forall_eq_or_imp, forall_eq]
    exact ⟨trivial, trivial⟩

private theorem CallSim.askVote (hrole : n.role = .candidate) (addr : String) :
    CallSim d h c i (n.emit (.send addr (.requestVote n.voteRequest))) := by
  have hn := hc.node
  refine hc.emit ?_
  exact ⟨h.log i, (hn.candidate hrole).1, hn.lastLogIndex, hn.lastLogTerm⟩

/-! ### Replication -/

theorem CallSim.sendAppend (hrole : n.role = .leader) {prev : Nat} (he : n.log[prev]? = some e) (addr : String) :
    CallSim d h c i (n.emit (.send addr (.appendEntries (n.appendMessage prev e)))) := by
  have hn := hc.node
  obtain ⟨hld, hlog, -, -⟩ := hn.leader hrole
  obtain ⟨hle, htr⟩ := hn.term_of_entry (k := prev + n.lastIncludedIndex) (by omega) (by rwa [Nat.add_sub_cancel])
  have het : n.log.drop (prev + 1) = (h.log i).drop (prev + n.lastIncludedIndex) := by
    rw [hn.log, drop_succ_cons, drop_drop, add_comm]
  refine hc.emit ?_
  refine ⟨?_, ?_, ?_, ?_, ?_, ?_⟩ <;> simp only [appendMessage, het, ← hlog]
  · rw [hld]
    simp
  · rw [length_drop]
    omega
  · rw [take_length]
  · exact htr
  · rw [← hn.term]
    exact hn.settled.reached
  · have := hn.commit_le
    rw [length_drop]
    omega

private theorem CallSim.sendSnapshot (hrole : n.role = .leader) (addr : String) :
    CallSim d h c i (n.emit (.send addr (.installSnapshot n.snapshotMessage))) := by
  have hn := hc.node
  obtain ⟨hld, hlog, -, -⟩ := hn.leader hrole
  refine hc.emit ?_
  refine ⟨?_, ?_, ?_, ?_⟩ <;> simp only [snapshotMessage, ← hlog]
  · rw [hld]
    simp
  · exact hn.snapshot_le
  · exact hn.snapshotTerm
  · exact hn.reached_snapshot

end

section

variable (hi : Inv term (Quorum d) h) (ha : AppendSim d h a) (hp : a.prevLogIndex ≤ (h.log i).length)
  (ht : termAt term (h.log i) a.prevLogIndex = a.prevLogTerm)
include hi ha hp ht

private theorem AppendSim.take_prev : (h.log i).take a.prevLogIndex = (h.leaderLog a.term).take a.prevLogIndex :=
  (hi.logConforms i).matching_termAt (hi.leaderConforms a.term) hp (by have := ha.bound; omega)
    (ht.trans ha.prevTerm)

private theorem AppendSim.take_all :
    (h.leaderLog a.term).take (a.prevLogIndex + a.entries.length) = (h.log i).take a.prevLogIndex ++
    a.entries := by
  rw [take_add, ha.take_prev hi hp ht, ← ha.entries]

end

private theorem NodeSim.agrees (hn : NodeSim d h i n) (hi : Inv LogEntry.term (Quorum d) h)
    (ha : AppendSim d h a) (hle : n.lastIncludedIndex ≤ a.prevLogIndex) :
    Agrees n.log (a.prevLogIndex + 1 - n.lastIncludedIndex) a.entries := by
  intro j e e' he he' ht
  have hm : (h.log i)[a.prevLogIndex + j]? = some e := by
    have := hn.entry (k := a.prevLogIndex + j + 1) (by omega)
    rw [Nat.add_sub_cancel] at this
    rw [← this, ← he]
    congr 1
    omega
  have hth : (h.leaderLog a.term)[a.prevLogIndex + j]? = some e' := by
    have hj := (List.getElem?_eq_some_iff.1 he').1
    rw [ha.entries, getElem?_take_of_lt hj, getElem?_drop] at he'
    exact he'
  have hsm := (hi.logConforms i).matching (hi.leaderConforms a.term) hm hth ht
  have := getElem?_eq_of_take_eq hsm (lt_succ_self _)
  rw [hm, hth] at this
  exact Option.some.inj this

theorem overwrite_drop {dummy : LogEntry} {G es : List LogEntry} {s p : Nat} (hs : s ≤ p) (hp : p ≤ G.length) :
    overwrite ((dummy :: G.drop s).take (p + 1 - s) ++ es) (dummy :: G.drop s) =
      dummy :: (overwrite (G.take p ++ es) G).drop s := by
  have htk : (dummy :: G.drop s).take (p + 1 - s) ++ es = dummy :: (G.take p ++ es).drop s := by
    rw [show p + 1 - s = p - s + 1 by omega, take_succ_cons, drop_append_of_le_length (by simp; omega), drop_take]
    rfl
  have hsm : (G.take p ++ es).take s = G.take s := by
    rw [take_append_of_le_length (by simp; omega), take_take, min_eq_left hs]
  have hiff : dummy :: (G.take p ++ es).drop s <+: dummy :: G.drop s ↔ G.take p ++ es <+: G := by
    rw [prefix_cons_inj]
    constructor
    · rintro ⟨r, hr⟩
      refine ⟨r, ?_⟩
      rw [← take_append_drop s (G.take p ++ es), hsm, append_assoc, hr, take_append_drop]
    · rintro ⟨r, hr⟩
      refine ⟨r, ?_⟩
      conv_rhs => rw [← hr]
      rw [drop_append_of_le_length (show s ≤ (G.take p ++ es).length by simp; omega)]
  rw [htk]
  by_cases hpre : G.take p ++ es <+: G
  · rw [overwrite_eq_self (hiff.2 hpre), overwrite_eq_self hpre]
  · rw [overwrite_eq_of_not fun hp => hpre (hiff.1 hp), overwrite_eq_of_not hpre]

section

variable (hc : CallSim d h c i n)
include hc

section

variable (ha : AppendSim d h a) (hrole : n.role = .follower) (hat : a.term = n.currentTerm)
include ha hrole hat

/-- Taking over entries: the replica accepts the leader's log up to their end. -/
theorem CallSim.replicate (hle : n.lastIncludedIndex ≤ a.prevLogIndex)
    (hp : a.prevLogIndex ≤ (h.log i).length) (ht : termAt LogEntry.term (h.log i) a.prevLogIndex = a.prevLogTerm)
    {l : List LogEntry} {s : AList fun _ : Nat => LogEntry} {es : List Effect} {P : LogEntry → Prop}
    (hn' : n' = n.withLog l s (es ++ [n.replicatedMark a])) (hes : ∀ e ∈ es, LogWrite P e)
    (hlog : n'.log = overwrite (n.log.take (a.prevLogIndex + 1 - n.lastIncludedIndex) ++ a.entries) n.log)
    (hst : n'.Stored) : ∃ h', Extends h h' ∧ CallSim d h' c i n' := by
  have hn := hc.node
  have htr : h.term i = a.term := hn.term.trans hat.symm
  have hm := Moves.accept (Quorum.inter d) hc.inv (v := i) (m := a.prevLogIndex + a.entries.length)
    (by rw [htr]; exact ha.lead) (by rw [htr]; exact ha.bound)
  rw [htr, ha.take_all hc.inv hp ht] at hm
  rw [hn.log, overwrite_drop hle hp] at hlog
  subst hn'
  refine ⟨_, hm.ext, hc.move hm ?_ _ rfl ?_⟩
  · refine ⟨hn.term, hn.vote, ?_, ?_, hn.applied, hn.commit, hm.settled _ hn.settled, hst, hn.storedMeta, ?_, ?_,
      hn.sized, ?_⟩
    · simp only [update_self]
      exact hlog
    · simp only [update_self]
      refine hn.snapshotTerm.trans (termAt_overwrite _ ?_).symm
      rw [take_append_of_le_length (by simp; omega), take_take, min_eq_left hle]
      exact take_prefix _ _
    all_goals exact fun hr => absurd (hr.symm.trans hrole) (by simp)
  · intro e he
    rcases mem_append.1 he with he | he
    · exact Effect.Silent.sim (by cases hes e he <;> trivial)
    · rw [mem_singleton.1 he]
      show a.prevLogIndex + a.entries.length ≤ set₂ h.ack i a.term _ i n.currentTerm
      rw [← hat, set₂_same]
      exact le_max_right ..

private theorem CallSim.replicateAt (hi : a.prevLogIndex = n.lastIncludedIndex)
    (hp : a.prevLogTerm = n.lastIncludedTerm) : ∃ h', Extends h h' ∧ CallSim d h' c i (n.appendAtSnapshot a) := by
  have hn := hc.node
  have hf : n.log.head? = some ⟨n.lastIncludedTerm, .noOp⟩ := by rw [hn.log]; rfl
  obtain ⟨hlog, hst⟩ := appendAtSnapshot_log hn.stored hf hi hp.symm
  rw [mergedLog_eq_overwrite (by rw [hn.log, List.length_cons]; omega) (hn.agrees hc.inv ha (by omega))] at hlog
  obtain ⟨l, s, es, heq, hes, -⟩ := appendAtSnapshot_eq n a
  refine hc.replicate ha hrole hat (by omega) (by rw [hi]; exact hn.snapshot_le) ?_ heq hes hlog hst
  rw [hi, hp]
  exact hn.snapshotTerm.symm

private theorem CallSim.replicateAfter (hi : n.lastIncludedIndex < a.prevLogIndex)
    (he : n.log[a.prevLogIndex - n.lastIncludedIndex]? = some e) (hp : e.term = a.prevLogTerm) :
    ∃ h', Extends h h' ∧ CallSim d h' c i (n.appendAfterSnapshot a) := by
  have hn := hc.node
  obtain ⟨hle, htr⟩ := hn.term_of_entry hi.le he
  have hq := (List.getElem?_eq_some_iff.1 he).1
  obtain ⟨hlog, hst⟩ := appendAfterSnapshot_log hn.stored hi hq
  rw [mergedLog_eq_overwrite (by omega) (hn.agrees hc.inv ha hi.le)] at hlog
  obtain ⟨l, s, es, heq, hes, -⟩ := appendAfterSnapshot_eq n a
  exact hc.replicate ha hrole hat hi.le hle (htr.symm.trans hp) heq hes hlog hst

end

/-! ### Committing and applying -/

private theorem CallSim.commitTo (hk : n.commitIndex ≤ k)
    (hs : Settled LogEntry.term (Quorum d) h i k) : CallSim d h c i { n with commitIndex := k } := by
  have hn := hc.node
  refine hc.same ?_ [] (by simp) (by simp)
  exact { hn with commit := hn.commit.trans hk, settled := hs }

private theorem CallSim.commitFollowing (ha : AppendSim d h a)
    (hat : a.term = n.currentTerm) (hr : n.replicatedMark a ∈ n.out) (hlt : n.commitIndex < a.leaderCommit) :
    CallSim d h c i { n with commitIndex := min a.leaderCommit n.lastLogIndex } := by
  have hn := hc.node
  have htr : h.term i = a.term := hn.term.trans hat.symm
  have hack : a.prevLogIndex + a.entries.length ≤ h.ack i a.term := by
    rw [hat]
    exact hc.trace (i, n.replicatedMark a) (mem_append_right _ (mem_map_of_mem hr))
  -- the message went up to the end of the leader's log, so what it calls committed is among what was taken over
  have hh : ∀ k, k ≤ a.leaderCommit → (h.log i).take k = (h.leaderLog a.term).take k := by
    intro k hk
    refine hc.inv.held i a.term k ((hk.trans ha.commitLe).trans hack) ?_
    rw [htr]
    intro t h1 h2
    omega
  have hcm := hn.commit_le
  refine hc.commitTo (by rw [hn.lastLogIndex]; omega) ?_
  refine Reached.settled (Quorum.inter d) hc.inv ?_ (by rw [htr]; exact ha.lead) ?_
  · rw [htr]
    exact ha.commit.mono (.refl h) (le_refl _) (min_le_left ..)
  · rw [htr]
    exact hh _ (min_le_left ..)

/-- A leader commits an entry of its term that a quorum has. -/
theorem CallSim.commitOwn (hrole : n.role = .leader) (hk : n.commitIndex < k)
    (hle : k ≤ (h.log i).length) (htr : termAt LogEntry.term (h.log i) k = n.currentTerm)
    (hq : Reached LogEntry.term (Quorum d) h n.currentTerm k ∨
      ∃ A, Quorum d A ∧ ∀ v ∈ A, k ≤ h.ack v n.currentTerm) : CallSim d h c i { n with commitIndex := k } := by
  have hn := hc.node
  obtain ⟨hld, hlog, -, -⟩ := hn.leader hrole
  refine hc.commitTo hk.le ?_
  have hled : h.lead (h.term i) ≠ none := by rw [hn.term, hld]; simp
  have hsl : (h.log i).take k = (h.leaderLog (h.term i)).take k := by rw [hn.term, ← hlog]
  refine Reached.settled (Quorum.inter d) hc.inv ?_ hled hsl
  rw [hn.term]
  rcases hq with hr | ⟨A, hA, hack⟩
  · exact hr
  · obtain ⟨k, rfl⟩ : ∃ j, k = j + 1 := ⟨k - 1, by omega⟩
    have he : (h.log i)[k]? = some (h.log i)[k] := getElem?_eq_getElem (by omega)
    rw [termAt_succ _ he] at htr
    refine .inr ⟨n.currentTerm, k + 1, ⟨⟨by omega, _, ?_, htr⟩, A, hA, hack⟩, le_refl _, le_refl _⟩
    rw [← hlog]
    exact he

end

private theorem NodeSim.acksFor (hn : NodeSim d h i n) (hid : n.id = i) (hrole : n.role = .leader)
    (hj : j ∈ n.acksFor k) : k ≤ h.ack j n.currentTerm ∨ Reached LogEntry.term (Quorum d) h n.currentTerm k := by
  simp only [RaftNode.acksFor, RaftNode.serverMatchIndices, mem_toFinset, mem_map, mem_filter,
    mem_cons, mem_filterMap, decide_eq_true_eq] at hj
  obtain ⟨⟨j', m⟩, ⟨hmem, hkm⟩, rfl⟩ := hj
  rcases hmem with heq | ⟨mem, hmem, ho⟩
  · simp only [Prod.mk.injEq] at heq
    obtain ⟨rfl, rfl⟩ := heq
    left
    rw [hid, (hn.leader hrole).2.2.1, ← hn.lastLogIndex]
    exact hkm
  · split at ho
    · rename_i hne
      simp only [Option.map_eq_some_iff, Option.bind_eq_some_iff, Prod.mk.injEq] at ho
      obtain ⟨m', ⟨p, hp, hm⟩, rfl, rfl⟩ := ho
      have hpr : n.peers[p]? = some mem.2 := by
        obtain ⟨hlt, hpeq, -⟩ := findIdx?_eq_some_iff_getElem.1 hp
        rw [getElem?_eq_getElem hlt]
        simpa using hpeq
      have hz : (mem.2, m') ∈ n.peers.zip n.matchIndex := by
        refine mem_of_getElem? (i := p) ?_
        rw [getElem?_zip_eq_some]
        exact ⟨hpr, hm⟩
      rw [hid] at hne
      have hlk : n.clusterConfig.allMembers.lookup mem.1 = some mem.2 := AList.mem_lookup_iff.2 hmem
      rcases hn.acks hrole _ hz mem.1 hne hlk with ha | ha
      · exact .inl (hkm.trans ha)
      · exact .inr (ha.mono (.refl h) (le_refl _) hkm)
    · cases ho

private theorem CallSim.commitMajority (hc : CallSim d h c i n) (hid : n.id = i) (hrole : n.role = .leader)
    (hk : n.commitIndex < k) (hq : Quorum d (n.acksFor k))
    (he : n.log[k - n.lastIncludedIndex]? = some e) (ht : e.term = n.currentTerm) :
    CallSim d h c i { n with commitIndex := k } := by
  have hn := hc.node
  have := hn.applied
  have := hn.commit
  obtain ⟨hle, htr⟩ := hn.term_of_entry (by omega) he
  refine hc.commitOwn hrole hk hle (htr.symm.trans ht) ?_
  by_cases hr : Reached LogEntry.term (Quorum d) h n.currentTerm k
  · exact .inl hr
  · exact .inr ⟨n.acksFor k, hq, fun v hv => (hn.acksFor hid hrole hv).resolve_right hr⟩

private theorem CallSim.commitAlone (hc : CallSim d h c i n) (hrole : n.role = .leader) (hq : Quorum d {i})
    (hk : n.commitIndex < n.lastLogIndex) : CallSim d h c i { n with commitIndex := n.lastLogIndex } := by
  have hn := hc.node
  obtain ⟨-, -, hack, hls⟩ := hn.leader hrole
  refine hc.commitOwn hrole hk (by rw [hn.lastLogIndex]) ?_ (.inr ⟨{i}, hq, ?_⟩)
  · rw [hn.lastLogIndex, ← hn.lastLogTerm]
    exact hls
  · simp [hack, hn.lastLogIndex]

theorem NodeSim.exists_next (hn : NodeSim d h i n) (hlt : n.lastApplied < n.commitIndex) :
    ∃ e, n.log[n.lastApplied + 1 - n.lastIncludedIndex]? = some e := by
  have hlen : n.lastApplied < (h.log i).length := hlt.trans_le hn.settled.le_length
  exact ⟨_, (hn.entry (lt_succ_of_le hn.applied)).trans (getElem?_eq_getElem hlen)⟩

section

variable (hc : CallSim d h c i n)
include hc

private theorem CallSim.apply (hlt : n.lastApplied < n.commitIndex)
    (hrec : ∀ e ∈ n.log, e.command.reconfigures = false) : CallSim d h c i n.applyNext := by
  have hn := hc.node
  have het : ∀ e, n.log[n.lastApplied + 1 - n.lastIncludedIndex]? = some e → e.command.reconfigures = false :=
    fun e he => hrec e (mem_of_getElem? he)
  have hmt := applyNext_matches n hn.sized het
  obtain ⟨t, s, clock, reads, es, heq, hes, hcn, -⟩ := applyNext_eq n
  obtain ⟨hcc, -⟩ := hcn het
  rw [heq] at hmt ⊢
  refine hc.same ?_ es rfl fun e he => ?_
  · refine { hn with
      applied := hn.applied.trans (le_succ _), commit := hlt, sized := hmt.1
      acks := fun hrole x hx j hj hlk => ?_ }
    rcases hmt.2 x hx with hx | hx
    · refine hn.acks hrole x hx j hj ?_
      rw [← hlk]
      exact congrArg (fun c => AList.lookup j (ClusterConfiguration.allMembers c)) hcc.symm
    · exact .inr (by rw [hx]; exact hn.reached_snapshot)
  · cases hes e he with
    | config | changeState | read | reply => exact Effect.Silent.sim trivial
    | applied e hlog =>
      have happ := hn.applied
      rw [hn.entry (by omega)] at hlog
      obtain ⟨T, m, hcm, hm, hlog⟩ := hn.settled.entry (by omega) hlog
      exact ⟨by omega, T, m, hcm, by omega, hlog⟩

private theorem CallSim.recordMatch {p m : Nat}
    (hm : ∀ addr, n.peers[p]? = some addr → ∀ j, j ≠ i → n.clusterConfig.allMembers.lookup j = some addr →
      Acked d h n.currentTerm j m) : CallSim d h c i (n.recordMatch p m) := by
  have hn := hc.node
  refine hc.same ?_ [] (by simp [RaftNode.recordMatch]) (by simp)
  refine { hn with sized := ?_, acks := fun hrole x hx j hj hlk => ?_ }
  · simpa [RaftNode.recordMatch] using hn.sized
  · obtain ⟨q, hq⟩ := getElem?_of_mem hx
    obtain ⟨h1, h2⟩ := getElem?_zip_eq_some.1 hq
    simp only [RaftNode.recordMatch, getElem?_set] at h1 h2
    split at h2
    · rename_i hpq
      subst hpq
      split at h2
      · rw [← Option.some.inj h2]
        exact hm x.1 h1 j hj hlk
      · cases h2
    · exact hn.acks hrole x (mem_of_getElem? (getElem?_zip_eq_some.2 ⟨h1, h2⟩)) j hj hlk

/-! ### Snapshots -/

theorem CallSim.compact (hlt : n.lastIncludedIndex < n.lastApplied) : CallSim d h c i n.createSnapshot := by
  have hn := hc.node
  have happ := hn.commit.trans hn.commit_le
  have hst := hn.stored.createSnapshot hn.applied
  have hlen := hn.log_length
  have hg :
    n.log[n.lastApplied - n.lastIncludedIndex]? = some
      (n.log.get ⟨n.lastApplied - n.lastIncludedIndex, by omega⟩) :=
    getElem?_eq_getElem (by omega)
  obtain ⟨-, htr⟩ := hn.term_of_entry hn.applied hg
  have hsn : n.snapshotTerm = termAt term (h.log i) n.lastApplied := by
    rw [snapshotTerm, if_pos hn.applied, hg]
    exact htr
  have hlog : n.log.drop (n.lastApplied - n.lastIncludedIndex + 1) = (h.log i).drop n.lastApplied := by
    rw [hn.log, drop_succ_cons, drop_drop]
    congr 1
    omega
  have heq := createSnapshot_eq n
  rw [append_assoc] at heq
  rw [heq] at hst ⊢
  refine hc.same ?_ _ rfl ?_
  · refine ⟨hn.term, hn.vote, ?_, hsn, le_refl _, hn.commit, hn.settled, hst, rfl, hn.candidate, fun hrole => ?_,
      hn.sized, hn.acks⟩
    · rw [hlog]
    · obtain ⟨h1, h2, h3, h4⟩ := hn.leader hrole
      refine ⟨h1, h2, h3, ?_⟩
      rw [hn.lastLogTerm] at h4
      simp only [lastLogTerm, hlog]
      exact (getLast?_drop_term happ hsn).trans h4
  · intro e he
    refine Effect.Silent.sim ?_
    simp only [mem_append, mem_cons, not_mem_nil, or_false, mem_map] at he
    rcases he with (rfl | rfl) | ⟨k, -, rfl⟩ <;> trivial

private theorem CallSim.install {a : InstallSnapshotArgs} (ha : SnapshotSim d h a)
    (hrole : n.role = .follower) (hat : a.term = n.currentTerm) (hlog : n.lastLogIndex ≤ a.lastIncludedIndex) :
    ∃ h', Extends h h' ∧ CallSim d h' c i (n.installSnapshot a.lastIncludedIndex a.lastIncludedTerm a.data) := by
  have hn := hc.node
  have htr : h.term i = a.term := hn.term.trans hat.symm
  have hm := Moves.accept (Quorum.inter d) hc.inv (v := i) (m := a.lastIncludedIndex) (by rw [htr]; exact ha.lead)
    (by rw [htr]; exact ha.bound)
  rw [htr] at hm
  have hlen : ((h.leaderLog a.term).take a.lastIncludedIndex).length = a.lastIncludedIndex := by
    rw [length_take]
    exact min_eq_left ha.bound
  have ho : overwrite ((h.leaderLog a.term).take a.lastIncludedIndex) (h.log i) =
      (h.leaderLog a.term).take a.lastIncludedIndex := by
    by_cases hp : (h.leaderLog a.term).take a.lastIncludedIndex <+: h.log i
    · rw [overwrite_eq_self hp]
      refine (hp.eq_of_length_le ?_).symm
      rw [hlen, ← hn.lastLogIndex]
      exact hlog
    · exact overwrite_eq_of_not hp
  rw [ho] at hm
  have hst := hn.stored.installSnapshot a.lastIncludedTerm a.data hlog
  have heq := installSnapshot_eq n a.lastIncludedIndex a.lastIncludedTerm a.data
  rw [append_assoc] at heq
  rw [heq] at hst ⊢
  refine ⟨_, hm.ext, hc.move hm ?_ _ rfl ?_⟩
  · refine ⟨hn.term, hn.vote, ?_, ?_, le_refl _, le_refl _, ?_, hst, rfl, ?_, ?_, hn.sized, ?_⟩
    · simp only [update_self]
      rw [drop_of_length_le (by omega)]
    · simp only [update_self]
      rw [termAt_take _ (le_refl _)]
      exact ha.term
    · refine Reached.settled (Quorum.inter d) hm.inv ?_ ?_ ?_
      · show Reached _ _ _ (h.term i) _
        rw [htr]
        exact ha.commit.mono hm.ext (le_refl _) (le_refl _)
      · show h.lead (h.term i) ≠ none
        rw [htr]
        exact ha.lead
      · show (update h.log i _ i).take _ = (h.leaderLog (h.term i)).take _
        rw [htr, update_self, take_take, min_self]
    all_goals exact fun hr => absurd (hr.symm.trans hrole) (by simp)
  · intro e he
    refine Effect.Silent.sim ?_
    simp only [mem_append, mem_cons, not_mem_nil, or_false, mem_map] at he
    rcases he with (rfl | rfl) | ⟨k, -, rfl⟩ <;> trivial

/-! ### Answers and client requests -/

private theorem CallSim.respond (hid : n.id = i) {msg resp : RpcMessage}
    (hmsg : msg.isRequest = true) (ha : n.Answers msg resp) : CallSim d h c i (n.emit (.respond tx resp)) := by
  have hn := hc.node
  refine hc.emit ?_
  cases ha with
  | vote | timeout => trivial
  | append a success index hs =>
    intro hsc
    rw [hid]
    exact hc.trace (i, _) (mem_append_right _ (mem_map_of_mem (hs hsc).2))
  | snapshot a => exact hn.reached_snapshot
  | echo msg hm =>
    rw [hm] at hmsg
    cases hmsg

theorem CallSim.acceptRequests (hrole : n.role = .leader) {requests : List (Command × Nat)}
    (hne : requests ≠ []) : ∃ h', Extends h h' ∧ CallSim d h' c i (n.acceptRequests requests) := by
  have hn := hc.node
  obtain ⟨hld, hlog, hack, -⟩ := hn.leader hrole
  have hst := hn.stored.acceptRequests hn.log_ne hne
  obtain ⟨h', hm, htr, hv, hl, hl', hll, ha'⟩ := Moves.append_all (Quorum.inter d)
    (requests.map fun r => (⟨n.currentTerm, r.1⟩ : LogEntry)) hc.inv (v := i) (by rw [hn.term]; exact hld)
    (by rw [hn.term]; exact hlog) (by rw [hn.term]; exact hack) (by
      intro e he
      obtain ⟨r, -, rfl⟩ := mem_map.1 he
      exact hn.term.symm)
  rw [hn.term] at htr hll ha'
  have heq := acceptRequests_eq n requests hne
  rw [batchEntries_eq, indexed_snd, append_assoc] at heq
  rw [heq] at hst ⊢
  refine ⟨h', hm.ext, hc.move hm ?_ _ rfl ?_⟩
  · refine ⟨htr, ?_, ?_, ?_, hn.applied, hn.commit, hm.settled _ hn.settled, hst.1, hn.storedMeta, ?_, fun _ => ?_,
      hn.sized, fun _ x hx j hj hlk => (hn.acks hrole x hx j hj hlk).mono hm.ext⟩
    · rw [hv]
      exact hn.vote
    · rw [hl', drop_append_of_le_length hn.snapshot_le, hn.log]
      rfl
    · rw [hl', termAt_append_left _ _ hn.snapshot_le]
      exact hn.snapshotTerm
    · exact fun hr => absurd (hrole.symm.trans hr) (by simp)
    · refine ⟨by rw [hl]; exact hld, hl'.trans hll.symm, by rw [hl']; exact ha', ?_⟩
      obtain ⟨rs, r, rfl⟩ : ∃ rs r, requests = rs ++ [r] :=
        ⟨requests.dropLast, requests.getLast hne, (dropLast_append_getLast _).symm⟩
      simp only [lastLogTerm, map_append, map_cons, map_nil]
      rw [← append_assoc, getLast?_append]
      rfl
  · intro e he
    refine Effect.Silent.sim ?_
    simp only [mem_append, mem_singleton, mem_map] at he
    rcases he with rfl | ⟨r, -, rfl⟩ <;> trivial

theorem CallSim.registerRead (tx : Nat) : CallSim d h c i (n.registerRead tx) := by
  refine hc.alike rfl [.readIndex tx n.commitIndex] rfl (forall_mem_singleton.2 ?_)
  trivial

theorem CallSim.rejectRequests (requests : List (Command × Nat)) :
    CallSim d h c i (n.rejectRequests requests) := by
  refine hc.alike rfl _ rfl fun e he => ?_
  obtain ⟨r, -, rfl⟩ := mem_map.1 he
  exact Effect.Silent.sim trivial

end

end Acts

/-! ### Every action -/

/-- What a call must not do: commit alone without being a quorum, or install a snapshot over a log that reaches
beyond it. -/
structure Benign (d : Deployment) (i : Nat) (C : Command → Prop) (D : RaftNode → Option Event → Prop) : Prop where
  alone : ∀ n m e, D m e → n.SameMembers m → NodeStatic (d.config i) (d.db i) C n → n.role = .leader →
    n.peers = [] →
    Quorum d {i}
  install : ∀ m a tx, D m (some (.rpc (.installSnapshot a) tx)) → m.lastIncludedIndex < a.lastIncludedIndex →
    m.lastLogIndex ≤ a.lastIncludedIndex

variable {r : AppendEntriesReply}

section Act

variable {d : Deployment} {members : Nat → Members} {version : Nat → Nat} {C : Command → Prop}
  {D : RaftNode → Option Event → Prop} {c : Cluster} {h : Hist} {i : Nat} {n n' : RaftNode}

section

variable (hc : CallSim d h c i n) (hs : StaticRun d C c) {msg : RpcMessage} {tx : Option ReplyTx}
  (hd : Delivered d c i msg tx)
include hc hs hd

private theorem CallSim.request (hm : msg.isRequest = true) :
    ∃ j addr, (j, .send addr msg) ∈ c.trace ∧ EffectSim d h j (.send addr msg) := by
  obtain ⟨k, j, addr, hk, -⟩ := hs.request hd hm
  have hin := mem_of_getElem? hk
  exact ⟨j, addr, hin, hc.trace _ (mem_append_left _ hin)⟩

private theorem CallSim.response (hm : msg.isRequest = false) :
    ∃ j tx, (j, .respond tx msg) ∈ c.trace ∧ tx.requester = i ∧ EffectSim d h j (.respond tx msg) := by
  obtain ⟨j, tx, hin, hreq⟩ := hs.routed.response hd hm
  exact ⟨j, tx, hin, hreq, hc.trace _ (mem_append_left _ hin)⟩

end

section

variable (hd : FixedMembership d members version) (hi : i ∈ d.ids) (hs : StaticRun d C c)
  (hlaw : Lawful d.ElectionRule c.trace)
include hd hi hs hlaw

theorem responder_ne (hr : (j, .respond tx (.appendEntriesResponse r)) ∈ c.trace) (hreq : tx.requester = i) :
    r.peerId = j ∧ j ≠ i := by
  obtain ⟨p, hp, ⟨addr, msg, hsn, hres, hans⟩, -⟩ := hlaw.of_mem hr
  cases msg <;> simp only [Deployment.Answer] at hans
  refine ⟨hans.1, ?_⟩
  obtain ⟨⟨k, hk, hlk⟩, -⟩ := hs.trace _ (hp.subset (mem_of_getElem? hsn))
  rw [hreq, hd.id i] at hk
  rw [hreq, hd.config i hi] at hlk
  rw [hd.resolve i hi k addr hk hlk, Option.some.injEq] at hres
  rwa [← hres]

private theorem CallSim.matchAppend (hn : NodeStatic (d.config i) (d.db i) C n) (hc : CallSim d h c i n)
    {tx : Option ReplyTx} (hdel : Delivered d c i (.appendEntriesResponse r) tx)
    (ht : r.term = n.currentTerm) (hsc : r.success = true) {p : Nat} (hp : n.peerIndex r.peerId = some p) :
    CallSim d h c i (n.recordMatch p r.matchIndex) := by
  obtain ⟨j, tx, hin, hreq, hsim⟩ := hc.response hs hdel rfl
  obtain ⟨hpr, hne⟩ := responder_ne hd hi hs hlaw hin hreq
  refine hc.recordMatch fun addr har k hk hlk => .inl ?_
  have hcn : n.clusterConfig.allMembers = members i := by rw [hn.config, hd.config i hi]; rfl
  simp only [peerIndex, Option.bind_eq_some_iff, hcn] at hp
  obtain ⟨addr', hl', hf⟩ := hp
  obtain ⟨hlt, hpeq, -⟩ := findIdx?_eq_some_iff_getElem.1 hf
  rw [getElem?_eq_getElem hlt, Option.some.injEq] at har
  have ha' : addr = addr' := by rw [← har]; simpa using hpeq
  subst ha'
  rw [hcn] at hlk
  -- the addresses of the members lead to different nodes
  have h1 := hd.resolve i hi k addr hk hlk
  have h2 := hd.resolve i hi r.peerId addr (by rw [hpr]; exact hne) hl'
  rw [h1, Option.some.injEq] at h2
  rw [h2, ← ht]
  exact hsim hsc

end

private theorem RaftNode.logIsUpToDate.upToDate {a : RequestVoteArgs} (hn : NodeSim d h i n)
    (hup : n.logIsUpToDate a = true) (hlen : a.lastLogIndex = b.length)
    (htr : a.lastLogTerm = termAt term b b.length) : UpToDate term b (h.log i) := by
  simp only [logIsUpToDate, Bool.or_eq_true, Bool.and_eq_true, decide_eq_true_eq] at hup
  rw [hn.lastLogTerm, hn.lastLogIndex, htr, hlen] at hup
  exact hup

/-- Every action of a node is matched by its replica. -/
theorem CallSim.act (hd : FixedMembership d members version) (hi : i ∈ d.ids) (hs : StaticRun d C c)
    (hrec : ∀ c, C c → c.reconfigures = false) (he : ElectionRun d c)
    (hD : ∀ m msg tx, D m (some (.rpc msg tx)) → Delivered d c i msg tx) (hmsg : ElectionMessages d c i D)
    (hben : Benign d i C D) (hn : NodeStatic (d.config i) (d.db i) C n) (hel : n.ElectionCall d c i)
    (hc : CallSim d h c i n) (ha : Act D False n n') : ∃ h', Extends h h' ∧ CallSim d h' c i n' := by
  have hid : n.id = i := hn.id.trans (hd.id i)
  have hmaj : ∀ A, n.clusterConfig.hasJointMajority A = true → Quorum d A := by
    intro A hA
    rw [hn.config] at hA
    exact (hd.majority hi A).1 hA
  have hap : ∀ m a tx, D m (some (.rpc (.appendEntries a) tx)) → AppendSim d h a := by
    intro m a tx hm
    obtain ⟨j, addr, -, hsim⟩ := hc.request hs (hD m _ tx hm) rfl
    exact hsim
  cases ha with
  | note | transfer | ackAppend | ackSnapshot =>
    exact ⟨h, .refl h, hc.alike rfl [] (by simp [ackReads]) (by simp)⟩
  | info e he =>
    refine ⟨h, .refl h, hc.emit ?_⟩
    cases e <;> trivial
  | stepDown t hint => exact hc.stepDown t hint
  | stand => exact hc.stand hid
  | grant a m tx hm ht hv hup =>
    obtain ⟨k, j, addr, hk, -⟩ := hs.request (hD m _ tx hm) rfl
    obtain ⟨b, hb, hlen, htr⟩ : EffectSim d h j (.send addr (.requestVote a)) :=
      hc.trace _ (mem_append_left _ (mem_of_getElem? hk))
    have hcn : a.candidateId = j := he.lawful _ _ hk
    rw [← hcn, ht] at hb
    exact hc.grant hv hb (logIsUpToDate.upToDate hc.node hup hlen htr)
  | countVote r m tx hm hrole ht hg => exact ⟨h, .refl h, hc.countVote ((hmsg.response m r tx hm).2 hg) ht _⟩
  | lead hrole hm =>
    refine hc.lead hrole (hmaj _ ?_)
    rcases hm with hm | hm
    · exact hm
    · rw [hn.config] at hm ⊢
      exact hd.selfMajority i hi _ (hel.node.voters hrole).1 hm
  | askVote addr hp hrole => exact ⟨h, .refl h, hc.askVote hrole addr⟩
  | sendAppend peer hp prev e hrole he => exact ⟨h, .refl h, hc.sendAppend hrole he _⟩
  | sendSnapshot peer hp hrole => exact ⟨h, .refl h, hc.sendSnapshot hrole _⟩
  | sendTimeout target addr =>
    exact ⟨h, .refl h, hc.emit trivial⟩
  | replicateAt a m tx hm hrole ht hli hp => exact hc.replicateAt (hap m a tx hm) hrole ht hli hp
  | replicateAfter a m tx hm hrole ht hli e he hp => exact hc.replicateAfter (hap m a tx hm) hrole ht hli he hp
  | commitFollowing a m tx hm hrole ht hr hlt => exact ⟨h, .refl h, hc.commitFollowing (hap m a tx hm) ht hr hlt⟩
  | commitMajority index hrole hlt hm e he ht =>
      exact ⟨h, .refl h, hc.commitMajority hid hrole hlt (hmaj _ hm) he ht⟩
  | commitAlone m event hm hsm hrole hp hlt =>
    exact ⟨h, .refl h, hc.commitAlone hrole (hben.alone n m event hm hsm hn hrole hp) hlt⟩
  | apply hlt => exact ⟨h, .refl h, hc.apply hlt fun e he => hrec _ (hn.log e he)⟩
  | matchAppend r m tx hm hrole ht hsc p hp =>
    exact ⟨h, .refl h, hc.matchAppend hd hi hs he.lawful hn (hD m _ tx hm) ht hsc hp⟩
  | matchSnapshot r m tx hm hrole ht p =>
    obtain ⟨j, tx, -, -, hsim⟩ := hc.response hs (hD m _ tx hm) rfl
    exact ⟨h, .refl h, hc.recordMatch fun addr har k hk hlk => .inr (by rw [← ht]; exact hsim)⟩
  | checkReads =>
    obtain ⟨r, es, heq, hes⟩ := checkReadIndices_eq n
    rw [heq]
    refine ⟨h, .refl h, hc.alike rfl es rfl fun e he => ?_⟩
    obtain ⟨x, -, -, -, rfl⟩ := hes e he
    exact Effect.Silent.sim trivial
  | compact hlt => exact ⟨h, .refl h, hc.compact hlt⟩
  | install a m tx hm hrole ht hlt hst =>
    obtain ⟨j, addr, -, hsim⟩ := hc.request hs (hD m _ tx hm) rfl
    obtain ⟨hlog, hlii, -⟩ := stepDownToFollower_log m a.term none
    have hlog' : n.log = m.log := by rw [hst]; exact hlog
    have hl' : n.lastIncludedIndex = m.lastIncludedIndex := by rw [hst]; exact hlii
    refine hc.install hsim hrole ht ?_
    have := hben.install m a tx hm (by rwa [← hl'])
    rwa [lastLogIndex, hlog', hl']
  | respond msg tx m hm resp hans => exact ⟨h, .refl h, hc.respond hid (hmsg.origin m msg tx hm).2 hans⟩
  | propose c s o p hrole hact =>
    rw [hn.inactive] at hact
    simp at hact
  | addServers servers hM => exact hM.elim

end Act

/-! ### Whole runs -/

structure ClusterSim (d : Deployment) (h : Hist) (c : Cluster) : Prop where
  inv : Inv term (Quorum d) h
  node : ∀ i ∈ d.ids, NodeSim d h i (c.node i)
  trace : ∀ x ∈ c.trace, EffectSim d h x.1 x.2

section Runs

variable {d : Deployment} {members : Nat → Members} {version : Nat → Nat} {C : Command → Prop}
  {ok : Cluster → Label → Prop} {c : Cluster} {h : Hist} {i : Nat} {n : RaftNode} {db : Db}

theorem RaftNode.boot_fresh (conf : RaftNodeConfig) (hdb : db.Fresh) :
    (boot conf db).currentTerm = 0 ∧ (boot conf db).votedFor = none ∧
      (boot conf db).log = [⟨0, .noOp⟩] ∧ (boot conf db).lastIncludedIndex = 0 ∧
      (boot conf db).lastIncludedTerm = 0 := by
  have he : (∅ : AList fun _ : Nat => LogEntry).entries = [] := rfl
  simp [boot, new, loadState, hdb.snapshotMeta, hdb.log, hdb.term, hdb.vote, he, loadLog]

theorem NodeSim.init (conf : RaftNodeConfig) (hdb : db.Fresh) : NodeSim d History.init i (boot conf db) := by
  obtain ⟨htr, hv, hlog, hlii, hlit⟩ := boot_fresh conf hdb
  refine ⟨htr.symm, hv.symm, ?_, ?_, le_refl _, le_refl _, .inl hlii, ?_, ?_, by rintro ⟨⟩,
    by rintro ⟨⟩, ?_, by rintro ⟨⟩⟩
  · rw [hlog, hlit, hlii]
    rfl
  · rw [hlit, hlii]
    rfl
  · intro k
    rw [image, hlog, hlii, show (boot conf db).db = db from rfl, hdb.log]
    split
    · rw [getElem?_eq_none (by simp; omega)]
      rfl
    · rfl
  · rw [hlii, hlit, show (boot conf db).db = db from rfl, hdb.snapshotMeta]
    rfl
  · simp [boot]

private theorem NodeSim.restart (hn : NodeSim d h i n) (htr : n.db.term.getD 0 = n.currentTerm)
    (hv : n.db.vote = n.votedFor) (conf : RaftNodeConfig) : NodeSim d h i (boot conf n.db) := by
  obtain ⟨hlog, hlii, hlit⟩ := hn.stored.boot hn.log hn.storedMeta conf
  have hct : (boot conf n.db).currentTerm = n.currentTerm := htr
  have hcm : (boot conf n.db).commitIndex = n.lastIncludedIndex := hlii
  refine ⟨hn.term.trans hct.symm, ?_, ?_, ?_, le_refl _, le_refl _, ?_, ?_, ?_, by rintro ⟨⟩,
    by rintro ⟨⟩, ?_, by rintro ⟨⟩⟩
  · rw [hct, hn.vote]
    exact hv.symm
  · rw [hlog, hlii, hlit]
    exact hn.log
  · rw [hlii, hlit]
    exact hn.snapshotTerm
  · rw [hcm]
    exact hn.settled.le (hn.applied.trans hn.commit)
  · intro k
    rw [image, hlog, hlii]
    exact hn.stored k
  · rw [hlii, hlit]
    exact hn.storedMeta
  · simp [boot]

theorem ClusterSim.ready (hc : ClusterSim d h c) (hi : i ∈ d.ids) (clock : List Nat) :
    CallSim d h c i (c.ready i clock) := by
  refine ⟨hc.inv, (hc.node i hi).congr rfl, fun j hj _ => hc.node j hj, ?_⟩
  simpa [Cluster.during, Cluster.ready] using hc.trace

theorem CallSim.during (hc : CallSim d h c i n) : ClusterSim d h (c.during i n) :=
  ⟨hc.inv, forall_update (fun _ => hc.node) hc.others, hc.trace⟩

theorem ClusterSim.restart (hc : ClusterSim d h c) (he : ElectionRun d c) (hi : i ∈ d.ids) :
    ClusterSim d h (c.crashed d i []) := by
  refine ⟨hc.inv, forall_update (fun _ => ?_) fun j hj _ =>
    hc.node j hj, by simpa [Cluster.crashed] using hc.trace⟩
  exact (hc.node i hi).restart (he.node i hi).term (he.node i hi).vote _

/-- The step only does what the history can follow. -/
structure Label.Simulable (d : Deployment) (C : Command → Prop) (c : Cluster) (l : Label) : Prop where
  whole : l.whole
  benign : ∀ i inv clock, l.call? = some (i, inv, clock) → Benign d i C (TurnsTo (c.ready i clock) inv)

section

variable (hd : FixedMembership d members version) (hnoop : C .noOp) (hrec : ∀ c, C c → c.reconfigures = false)
  (hok : ∀ c l, ok c l → Enabled d c l ∧ l.Keeps C) (hsim : ∀ c l, ok c l → l.Simulable d C c)
include hd hnoop hrec hok hsim

section

variable (hr : Reachable d ok c) {l : Label} (hl : ok c l) {inv : Invocation} {clock : List Nat}
  (hcall : l.call? = some (i, inv, clock)) (hi : i ∈ d.ids) (hen : inv.Enabled d c i)
include hr hl hcall hi hen

theorem Reachable.simAct
    {n n' : RaftNode} (hst : n.StaticCall (d.config i) (d.db i) C) (hel : n.ElectionCall d c i)
    (hc : CallSim d h c i n) (ha : Act (TurnsTo (c.ready i clock) inv) (inv.ChangesMembers i) n n') :
    ∃ h', Extends h h' ∧ CallSim d h' c i n' := by
  have hs := hr.static hd.quiet hnoop hrec hok
  have he := hr.election hd.quiet hd.selfMajority hnoop hrec hok
  rw [eq_false ((hok c l hl).2 i inv clock hcall).1] at ha
  exact hc.act hd hi hs hrec he (fun m msg tx hm => hen.rpc _ _ hm.mem) (he.messages hs.routed hen)
    ((hsim c l hl).benign i inv clock hcall) hst.node hel ha

theorem Reachable.simCall : Preserves (TurnsTo (c.ready i clock) inv) (inv.ChangesMembers i) fun _ n =>
      (n.StaticCall (d.config i) (d.db i) C ∧ n.ElectionCall d c i) ∧ ∃ h, CallSim d h c i n := by
  refine (hr.electionCall hd.quiet hd.selfMajority hnoop hrec hok hl hcall hi hen).and (fun _ h => h) ?_
    (fun _ _ _ _ ⟨h, hc⟩ => ⟨h, hc.registerRead _⟩) ?_ (fun _ _ _ _ ⟨h, hc⟩ => ⟨h, hc.rejectRequests _⟩)
  · rintro T n n' ⟨hst, hel⟩ ⟨h, hc⟩ ha
    obtain ⟨h', -, hc'⟩ := hr.simAct hd hnoop hrec hok hsim hl hcall hi hen hst hel hc ha
    exact ⟨h', hc'⟩
  · rintro T n requests hrole hne - - - ⟨h, hc⟩
    obtain ⟨h', -, hc'⟩ := hc.acceptRequests hrole hne
    exact ⟨h', hc'⟩

end

theorem Reachable.sim (h : Reachable d ok c) : ∃ h, ClusterSim d h c := by
  refine Reachable.invariant (P := fun c => ∃ h, ClusterSim d h c) (fun c i _ _ n =>
    (n.StaticCall (d.config i) (d.db i) C ∧ n.ElectionCall d c i) ∧ ∃ h, CallSim d h c i n) ?_
    (fun c l h => (hok c l h).1) ?_ ?_ ?_ ?_ ?_ ?_ h
  · exact ⟨.init, Inv.init, fun i hi => NodeSim.init _ (hd.fresh i hi), by simp [Cluster.init]⟩
  · exact fun c i hr _ hi => ((hr.static hd.quiet hnoop hrec hok).node i hi).id.trans (hd.id i)
  · rintro c i inv clock hr ⟨h, hc⟩ hi -
    exact ⟨⟨(hr.static hd.quiet hnoop hrec hok).ready hi clock,
      (hr.election hd.quiet hd.selfMajority hnoop hrec hok).ready hi clock⟩, h, hc.ready hi clock⟩
  · exact fun c l i inv clock hr _ hl hcall hi hen => hr.simCall hd hnoop hrec hok hsim hl hcall hi hen
  · rintro c i inv clock n - - - hi ⟨-, h, hc⟩
    exact ⟨h, hc.during.inv, hc.during.node, hc.during.trace⟩
  · intro c i inv clock k n hl
    exact (hsim c _ hl).whole.elim
  · rintro c i - hr ⟨h, hc⟩ hi
    exact ⟨h, hc.restart (hr.election hd.quiet hd.selfMajority hnoop hrec hok) hi⟩

end

end Runs

end RustHadoop
