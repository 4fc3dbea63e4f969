import RustHadoop.Lib.Lawful
import RustHadoop.Raft.LogImage

/-!
# What a restart finds

A node that is started again reads its term, vote, snapshot and log from the database and its peers from its
command line, and applies the entries after the snapshot again once it learns that they are committed.  It comes
back as it was if

* every snapshot it installed reached at least as far as its log: `install_snapshot` removes the stored entries
  up to the snapshot only, so that those after it, gone from memory, come back;
* it wrote no snapshot after it had applied a membership command: the snapshot does not hold the peers;
* no `AppendEntries` contradicted an entry that it had applied.

`restart_refines` says this for every sequence of calls with any messages in them.
-/

namespace RustHadoop

open List

variable {a : AppendEntriesArgs} {M : Prop} {tx : Option ReplyTx} {es : List LogEntry} {m : RaftNode} {e : Event}

namespace RaftNode

/-- The entries `es`, from position `q` on, have the terms of those among the first `K` entries of `l` that stand
there. -/
def AgreesBelow (K : Nat) (l : List LogEntry) (q : Nat) (es : List LogEntry) : Prop :=
  ∀ j mine e, q + j < K → l[q + j]? = some mine → es[j]? = some e → mine.term = e.term

section Merging

variable {K : Nat} {x : LogEntry} {ents : List LogEntry}

section

variable {l : List LogEntry} {q : Nat}

private theorem AgreesBelow.tail (h : AgreesBelow K l q (x :: ents)) : AgreesBelow K l (q + 1) ents := by
  intro j mine e hlt hm he
  refine h (j + 1) mine e (by omega) ?_ (by simpa using he)
  rwa [← Nat.add_assoc, Nat.add_right_comm]

private theorem agreesBelow_of_le (h : K ≤ q) : AgreesBelow K l q ents := by
  intro j mine e hlt
  omega

private theorem AgreesBelow.keeps_take (h : AgreesBelow K l q ents) : l.take K <+: mergedLog l q ents := by
  have hk : l.take K <+: keptLog l q ents := by
    induction ents generalizing q with
    | nil => exact take_prefix K l
    | cons x ents ih =>
      cases hm : l[q]? with
      | none =>
        rw [keptLog_of_length_le (getElem?_eq_none_iff.1 hm)]
        exact take_prefix K l
      | some mine =>
        rw [keptLog_cons_of_some hm]
        split
        · exact ih h.tail
        · rename_i hne
          -- a conflict lies beyond what is agreed on
          refine take_prefix_take_left (Nat.le_of_not_lt fun hlt => ?_)
          exact hne (h 0 mine x hlt hm rfl)
  exact hk.trans (prefix_append _ _)

end

end Merging

def otherAddresses (id : Nat) (config : ClusterConfiguration) : List String :=
  (config.allMembers.entries.filter fun m => m.1 ≠ id).map fun m => m.2

def peersAfter (id : Nat) (peers : List String) (entry : LogEntry) : List String :=
  match entry.command with
  | .membership (.beginJointConsensus oldMembers newMembers version) =>
    otherAddresses id (.joint oldMembers newMembers version)
  | .membership (.finalizeConfiguration newMembers version) => otherAddresses id (.simple newMembers version)
  | .membership (.addServer _ serverAddress) => if serverAddress ∈ peers then peers else peers ++ [serverAddress]
  | .membership (.removeServer serverId) => if serverId < peers.length then peers.eraseIdx serverId else peers
  | _ => peers

private theorem foldl_peersAfter_of_not_membership {id : Nat}
    (h : ∀ e ∈ es, e.command.isMembership = false) (peers : List String) :
    es.foldl (peersAfter id) peers = peers := by
  induction es generalizing peers with
  | nil => rfl
  | cons e es ih =>
    have he : peersAfter id peers e = peers := by
      have := h e (mem_cons_self ..)
      unfold peersAfter
      split <;> simp_all [Command.isMembership]
    rw [foldl_cons, he]
    exact ih (fun x hx => h x (mem_cons_of_mem _ hx)) peers

variable (n : RaftNode)

theorem applyEntry_peers (entry : LogEntry) : (n.applyEntry entry).peers = peersAfter n.id n.peers entry := by
  obtain ⟨term, command⟩ := entry
  cases command with
  | membership c =>
    cases c with
    | beginJointConsensus | finalizeConfiguration | addServers | removeServers => rfl
    | addServer id addr | removeServer id =>
      simp only [applyEntry, applyMembershipCommand, peersAfter]
      split <;> rfl
  | noOp => rfl
  | master | config =>
    simp only [applyEntry, applyCommand, peersAfter]
    split <;> rfl

theorem applyNext_of_entry {entry : LogEntry} (he : n.log[n.lastApplied + 1 - n.lastIncludedIndex]? = some entry) :
    n.applyNext.peers = peersAfter n.id n.peers entry ∧ .applied (n.lastApplied + 1) entry ∈ n.applyNext.out := by
  refine applyNext_induction (P := fun m => m.peers = peersAfter n.id n.peers entry ∧
    .applied (n.lastApplied + 1) entry ∈ m.out) n (by simp [he]) ?_ fun _ _ _ _ hm _ =>
      ⟨hm.1, mem_append_left _ hm.2⟩
  intro entry' he'
  obtain rfl := Option.some.inj (he.symm.trans he')
  exact ⟨applyEntry_peers { n with lastApplied := n.lastApplied + 1 } entry, by simp [emit]⟩

private theorem applyNext_of_none (he : n.log[n.lastApplied + 1 - n.lastIncludedIndex]? = none) :
    n.applyNext.peers = n.peers :=
  applyNext_induction (P := fun m => m.peers = n.peers) n (fun _ => rfl) (by simp [he]) fun _ _ _ _ hm _ => hm

private theorem iterate_applyNext_peers (k : Nat) (n : RaftNode) (hle : n.lastIncludedIndex ≤ n.lastApplied) :
    (applyNext^[k] n).peers =
      ((n.log.drop (n.lastApplied + 1 - n.lastIncludedIndex)).take k).foldl (peersAfter n.id) n.peers := by
  induction k generalizing n with
  | zero => rfl
  | succ k ih =>
    have hf := applyNext_fields n
    have hih := ih n.applyNext (by omega)
    rw [hf.1, hf.2.1, hf.2.2.1, hf.2.2.2.1,
      show n.lastApplied + 1 + 1 - n.lastIncludedIndex = n.lastApplied + 1 - n.lastIncludedIndex + 1
        by omega] at hih
    rw [Function.iterate_succ_apply, hih]
    cases he : n.log[n.lastApplied + 1 - n.lastIncludedIndex]? with
    | none =>
      have hlen := getElem?_eq_none_iff.1 he
      rw [applyNext_of_none n he, drop_eq_nil_of_le hlen, drop_eq_nil_of_le (by omega)]
      simp
    | some entry =>
      obtain ⟨hlt, hg⟩ := List.getElem?_eq_some_iff.1 he
      rw [(applyNext_of_entry n he).1, drop_eq_getElem_cons hlt, take_succ_cons, foldl_cons, hg]

def appliedEntries : List LogEntry := n.log.tail.take (n.lastApplied - n.lastIncludedIndex)

def Ballot : Prop := n.db.term.getD 0 = n.currentTerm ∧ n.db.vote = n.votedFor

/-- The node is on disk, and its peers are those that it was started with, led through the entries it has applied
since the snapshot; `done` is what the process did before the current call. -/
structure Restartable (conf : RaftNodeConfig) (done : List Effect) (n : RaftNode) : Prop where
  id : n.id = conf.id
  ballot : n.Ballot
  snapshot : n.db.snapshotMeta.getD (0, 0) = (n.lastIncludedIndex, n.lastIncludedTerm)
  head : n.log.head? = some ⟨n.lastIncludedTerm, .noOp⟩
  stored : n.Stored
  included : n.lastIncludedIndex ≤ n.lastApplied
  applied : n.lastApplied ≤ n.lastLogIndex
  committed : n.commitIndex ≤ n.lastLogIndex
  peers : n.peers = n.appliedEntries.foldl (peersAfter conf.id) conf.peers
  marked : ∀ e ∈ n.appliedEntries, ∃ k, .applied k e ∈ done ++ n.out

/-- No membership command is applied before a snapshot is written. -/
def SnapshotRule (p : List Effect) : Effect → Prop
  | .write (.putSnapshotMeta _ _) => ∀ k e, .applied k e ∈ p → e.command.isMembership = false
  | _ => True

/-- What `Restartable` reads besides the log, the term, the vote and the effects. -/
def core : Nat × Option (Nat × Nat) × Nat × Nat × Nat × Nat × List String :=
  (n.id, n.db.snapshotMeta, n.lastIncludedIndex, n.lastIncludedTerm, n.lastApplied, n.commitIndex, n.peers)

variable {D : RaftNode → Option Event → Prop}

namespace Restartable

variable {conf : RaftNodeConfig} {done : List Effect} {n n' : RaftNode}

section

variable (h : Restartable conf done n)
include h

theorem log_eq : ∃ tail, n.log = ⟨n.lastIncludedTerm, .noOp⟩ :: tail := by
  have := h.head
  cases hl : n.log with
  | nil => rw [hl] at this; cases this
  | cons e tail => rw [hl] at this; exact ⟨tail, by rw [Option.some.inj this]⟩

theorem log_pos : 0 < n.log.length := by
  obtain ⟨tail, ht⟩ := h.log_eq
  simp [ht]

private theorem applied_le : n.lastApplied - n.lastIncludedIndex ≤ n.log.tail.length := by
  have := h.applied
  unfold lastLogIndex at this
  rw [length_tail]
  omega

theorem grow (hkp : n.log.take (n.lastApplied - n.lastIncludedIndex + 1) <+: n'.log)
    (hc : n.commitIndex ≤ n'.lastLogIndex) (hst : n'.Stored) (hcr : n'.core = n.core) (hb : n'.Ballot)
    (ho : n.out <+: n'.out) : Restartable conf done n' := by
  simp only [core, Prod.mk.injEq] at hcr
  obtain ⟨hid, hm, hlii, hlit, hla, hci, hp⟩ := hcr
  have hpos := h.log_pos
  have hlen : n.lastApplied - n.lastIncludedIndex + 1 ≤ n.log.length := by
    have := h.applied_le
    rw [length_tail] at this
    omega
  have hl' := hkp.length_le
  rw [length_take, Nat.min_eq_left hlen] at hl'
  have hen : n'.appliedEntries = n.appliedEntries := by
    have := congrArg tail (prefix_iff_eq_take.1 hkp)
    rw [length_take, Nat.min_eq_left hlen, tail_take_eq_take_tail, tail_take_eq_take_tail,
      Nat.add_sub_cancel] at this
    unfold appliedEntries
    rw [hla, hlii]
    exact this.symm
  refine ⟨hid.trans h.id, hb,
    by rw [hm, hlii, hlit]; exact h.snapshot, ?_, hst, by rw [hlii, hla]; exact h.included, ?_,
    by rwa [hci], by rw [hp, hen]; exact h.peers, ?_⟩
  · rw [hlit, ← h.head]
    obtain ⟨r, hr⟩ := hkp
    rw [← hr]
    cases hl : n.log with
    | nil => rw [hl] at hpos; exact absurd hpos (by simp)
    | cons => simp
  · have := h.included
    rw [hla]
    unfold lastLogIndex
    rw [hlii]
    omega
  · rw [hen]
    intro e he
    obtain ⟨k, hk⟩ := h.marked e he
    refine ⟨k, ?_⟩
    rcases mem_append.1 hk with hk | hk
    · exact mem_append_left _ hk
    · exact mem_append_right _ (ho.subset hk)

theorem frame (hl : n'.log = n.log) (hdb : n'.db.log = n.db.log) (hc : n'.core = n.core)
    (hb : n'.Ballot) (ho : n.out <+: n'.out) : Restartable conf done n' := by
  have hlii : n'.lastIncludedIndex = n.lastIncludedIndex := congrArg (fun c => c.2.2.1) hc
  refine h.grow (by rw [hl]; exact take_prefix _ _) ?_ (fun k => ?_) hc hb ho
  · rw [lastLogIndex, hl, hlii]
    exact h.committed
  · rw [hdb, image, hl, hlii]
    exact h.stored k

private theorem append (hl : n'.log = n.log ++ es) (hst : n'.Stored)
    (hc : n'.core = n.core) (hb : n'.Ballot) (ho : n.out <+: n'.out) : Restartable conf done n' := by
  have hlii : n'.lastIncludedIndex = n.lastIncludedIndex := congrArg (fun c => c.2.2.1) hc
  refine h.grow (by rw [hl]; exact (List.take_prefix _ _).trans (prefix_append _ _)) ?_ hst hc hb ho
  have := h.committed
  have hpos := h.log_pos
  rw [lastLogIndex, hl, hlii, length_append]
  unfold lastLogIndex at this
  omega

private theorem commit {k : Nat} (hk : k ≤ n.lastLogIndex) : Restartable conf done { n with commitIndex := k } :=
  { h with committed := hk }

private theorem stepDownToFollower (t : Nat) (hint : Option String) :
    Restartable conf done (n.stepDownToFollower t hint) :=
  stepDownToFollower_induction n t hint (fun _ => h.frame rfl rfl rfl ⟨rfl, rfl⟩ ⟨_, rfl⟩)
    (fun _ => h.frame rfl rfl rfl h.ballot prefix_rfl) fun _ _ _ _ _ hm _ =>
      hm.frame rfl rfl rfl hm.ballot ⟨_, rfl⟩

private theorem applyNext (hlt : n.lastApplied < n.commitIndex) : Restartable conf done n.applyNext := by
  have hc := h.committed
  have hi := h.included
  have hpos := h.log_pos
  unfold lastLogIndex at hc
  have hg :
      n.log.tail[n.lastApplied - n.lastIncludedIndex]? = n.log[n.lastApplied + 1 - n.lastIncludedIndex]? := by
    rw [getElem?_tail]
    congr 1
    omega
  obtain ⟨entry, hen⟩ : ∃ e, n.log[n.lastApplied + 1 - n.lastIncludedIndex]? = some e :=
    ⟨_, getElem?_eq_getElem (by omega)⟩
  have het : (n.log.tail).take (n.lastApplied + 1 - n.lastIncludedIndex) = n.appliedEntries ++ [entry] := by
    rw [show n.lastApplied + 1 - n.lastIncludedIndex = n.lastApplied - n.lastIncludedIndex + 1
      by omega, take_add_one,
      hg, hen]
    rfl
  obtain ⟨hp, hmr⟩ := applyNext_of_entry n hen
  obtain ⟨t, s, clock, reads, es, heq, -⟩ := applyNext_eq n
  have hp' : n.applyNext.peers = (n.appliedEntries ++ [entry]).foldl (peersAfter conf.id) conf.peers := by
    rw [hp, foldl_append, ← h.peers, h.id]
    rfl
  have hm : ∀ e ∈ n.appliedEntries ++ [entry], ∃ k, .applied k e ∈ done ++ n.applyNext.out := by
    intro e he
    rcases mem_append.1 he with he | he
    · obtain ⟨k, hk⟩ := h.marked e he
      refine ⟨k, ?_⟩
      rw [heq]
      simp only [withApplied, withTracking, ← append_assoc]
      exact mem_append_left _ hk
    · rw [mem_singleton.1 he]
      exact ⟨_, mem_append_right _ hmr⟩
  rw [← het] at hp' hm
  rw [heq] at hp' hm ⊢
  refine { h with included := Nat.le_succ_of_le hi, applied := ?_, peers := hp', marked := hm }
  · show n.lastApplied + 1 ≤ n.lastLogIndex
    exact hlt.trans_le h.committed

private theorem peers_of_rule {i t : Nat} {rest : List Effect}
    (hr : Lawful SnapshotRule (done ++ (n.out ++ .write (.putSnapshotMeta i t) :: rest))) :
    n.peers = conf.peers := by
  have hno : ∀ k e, .applied k e ∈ done ++ n.out → e.command.isMembership = false := by
    have := hr (done ++ n.out).length (.write (.putSnapshotMeta i t)) (by simp [← append_assoc])
    rwa [← append_assoc, take_left] at this
  rw [h.peers]
  refine foldl_peersAfter_of_not_membership (fun e he => ?_) _
  obtain ⟨k, hk⟩ := h.marked e he
  exact hno k e hk

private theorem createSnapshot (hr : Lawful SnapshotRule (done ++ n.createSnapshot.out)) :
    Restartable conf done n.createSnapshot := by
  have hst := h.stored.createSnapshot h.included
  rw [createSnapshot_eq] at hst hr ⊢
  refine ⟨h.id, h.ballot, rfl, rfl, hst, le_rfl, Nat.le_add_left _ _, ?_, ?_, ?_⟩
  · have hc := h.committed
    have ha := h.applied
    have hi := h.included
    unfold lastLogIndex at *
    simp only [length_cons, length_drop]
    omega
  · refine (h.peers_of_rule (by simpa using hr)).trans ?_
    simp [appliedEntries]
  · simp [appliedEntries]

private theorem installSnapshot {i t : Nat} {data : SnapshotData} (hle : n.lastLogIndex ≤ i)
    (hr : Lawful SnapshotRule (done ++ (n.installSnapshot i t data).out)) :
    Restartable conf done (n.installSnapshot i t data) := by
  have hst := h.stored.installSnapshot t data hle
  rw [installSnapshot_eq] at hst hr ⊢
  refine ⟨h.id, h.ballot, rfl, rfl, hst, le_rfl, Nat.le_add_left _ _, Nat.le_add_left _ _, ?_, ?_⟩
  · refine (h.peers_of_rule (by simpa using hr)).trans ?_
    simp [appliedEntries]
  · simp [appliedEntries]

end

/-- The events of a call, without `AppendEntries`, of which the snapshots are safe to install. -/
def Quiet (D : RaftNode → Option Event → Prop) : Prop :=
  (∀ m a tx, ¬ D m (some (.rpc (.appendEntries a) tx))) ∧
    ∀ m a tx, D m (some (.rpc (.installSnapshot a) tx)) → m.currentTerm ≤ a.term →
      m.lastIncludedIndex < a.lastIncludedIndex → m.lastLogIndex ≤ a.lastIncludedIndex

private theorem le_of_stepDownToFollower {t : Nat} {hint : Option String}
    (h : t = (m.stepDownToFollower t hint).currentTerm) : m.currentTerm ≤ t := by
  by_contra hlt
  have ht : t < (m.stepDownToFollower t hint).currentTerm :=
    stepDownToFollower_induction (P := fun n => t < n.currentTerm) m t hint (fun _ => by omega)
      (fun _ => Nat.lt_of_not_le hlt) fun _ _ _ _ _ hn _ => hn
  omega

private theorem act (hD : Quiet D) (h : Restartable conf done n)
    (ha : Act D M n n') (hr : Lawful SnapshotRule (done ++ n'.out)) : Restartable conf done n' := by
  cases ha with
  | stepDown t hint => exact h.stepDownToFollower t hint
  | apply hlt => exact h.applyNext hlt
  | checkReads =>
    obtain ⟨r, es, heq, -⟩ := checkReadIndices_eq n
    rw [heq]
    exact h.frame rfl rfl rfl h.ballot ⟨es, rfl⟩
  | stand => rw [standForElection_eq]; exact h.frame rfl rfl rfl ⟨rfl, rfl⟩ ⟨_, rfl⟩
  | grant a => rw [grantVote_eq]; exact h.frame rfl rfl rfl ⟨h.ballot.1, rfl⟩ ⟨_, rfl⟩
  | lead =>
    have hst := h.stored.takeLeadership (length_pos_iff.1 h.log_pos)
    obtain ⟨next, heq⟩ := takeLeadership_eq n
    rw [heq] at hst ⊢
    exact h.append rfl hst rfl h.ballot ⟨_, rfl⟩
  | propose command state others progress =>
    have hst : (n.appendMembership command).Stored := by
      have := (h.stored.with_nil.append [⟨n.currentTerm, .membership command⟩] n [] (length_pos_iff.1 h.log_pos))
      intro k
      refine Eq.trans ?_ (this k)
      simp [appendMembership, saveLogEntry, put, DbWrite.apply, lastLogIndex, indexed, Nat.add_comm]
    exact h.append rfl hst rfl h.ballot ⟨_, rfl⟩
  | commitMajority index hrl hc hm e he =>
    refine h.commit ?_
    have := (List.getElem?_eq_some_iff.1 he).1
    unfold lastLogIndex
    omega
  | commitAlone => exact h.commit le_rfl
  | compact => exact h.createSnapshot hr
  | install a m tx hin hrl ht hi hm =>
    refine h.installSnapshot ?_ hr
    have hl := stepDownToFollower_log m a.term none
    have hlii : n.lastIncludedIndex = m.lastIncludedIndex := by rw [hm]; exact hl.2.1
    have htr : n.currentTerm = (m.stepDownToFollower a.term none).currentTerm := by rw [hm]
    have hle := hD.2 m a tx hin (le_of_stepDownToFollower (ht.trans htr)) (by omega)
    rw [lastLogIndex, hm]
    show (m.stepDownToFollower a.term none).log.length - 1 +
      (m.stepDownToFollower a.term none).lastIncludedIndex ≤ _
    rwa [hl.1, hl.2.1]
  | replicateAt a m tx hin | replicateAfter a m tx hin | commitFollowing a m tx hin =>
    exact absurd hin (hD.1 m a tx)
  | addServers servers =>
    unfold handleAddServersRequest
    repeat' split
    all_goals exact h.frame rfl rfl rfl h.ballot prefix_rfl
  | info | askVote | sendAppend | sendSnapshot | sendTimeout | respond =>
      exact h.frame rfl rfl rfl h.ballot ⟨_, rfl⟩
  | note | countVote | matchAppend | matchSnapshot | ackAppend | ackSnapshot | transfer =>
    exact h.frame rfl rfl rfl h.ballot prefix_rfl

end Restartable

theorem Acts.out_mono {n n' : RaftNode} (h : Acts D M n n') : n.out <+: n'.out := by
  induction h with
  | refl => exact prefix_rfl
  | tail _ ha ih =>
    obtain ⟨es, ho, -⟩ := ha.logged
    exact ih.trans ⟨es, ho.symm⟩

private theorem handleEvent_out_mono (hc : e.clientRequest? = none) : n.out <+: (n.handleEvent e).out := by
  cases e with
  | rpc msg tx =>
      exact Acts.out_mono (handleRpcEvent_steps (D := fun _ _ => True) (M := True) n msg tx trivial).1.acts
  | clientRequest => cases hc
  | getLeaderInfo | getClusterInfo => exact ⟨_, rfl⟩
  | getReadIndex tx =>
    rcases handleGetReadIndex_moves (D := fun _ _ => True) (M := True) n tx with ⟨-, h⟩ | h
    · exact .trans ⟨_, rfl⟩ h.acts.out_mono
    · exact h.acts.out_mono

theorem foldl_handleEvent_out_mono (es : List Event) (n : RaftNode) (hc : ∀ e ∈ es, e.clientRequest? = none) :
    n.out <+: (es.foldl handleEvent n).out := by
  induction es generalizing n with
  | nil => exact prefix_rfl
  | cons e es ih =>
    exact (handleEvent_out_mono n (hc e (mem_cons_self ..))).trans (ih _ fun x hx => hc x (mem_cons_of_mem _ hx))

private theorem handleClientRequests_out_mono (requests : List (Command × Nat)) :
    n.out <+: (n.handleClientRequests requests).out := by
  rcases handleClientRequests_moves (D := fun _ _ => True) (M := True) n requests (fun _ => ⟨none, trivial⟩) with
    h | ⟨-, hne, h⟩ | ⟨-, h⟩
  · rw [h]
  · refine .trans ?_ h.acts.out_mono
    rw [acceptRequests_eq n requests hne]
    exact ⟨_, (append_assoc ..).symm⟩
  · rw [h]
    exact ⟨_, rfl⟩

/-- A message that agrees with what the node holds: a snapshot reaches as far as the log, and entries contradict
none that has been applied. -/
def SoundEvent (m : RaftNode) : Event → Prop
  | .rpc (.installSnapshot a) _ =>
    m.currentTerm ≤ a.term → m.lastIncludedIndex < a.lastIncludedIndex → m.lastLogIndex ≤ a.lastIncludedIndex
  | .rpc (.appendEntries a) _ =>
    m.currentTerm ≤ a.term → m.lastIncludedIndex ≤ a.prevLogIndex →
      AgreesBelow (m.lastApplied - m.lastIncludedIndex + 1) m.log
        (a.prevLogIndex + 1 - m.lastIncludedIndex) a.entries
  | _ => True

namespace Restartable

variable {conf : RaftNodeConfig} {done : List Effect} {n n' : RaftNode}

theorem acts (hD : Quiet D) (h : Restartable conf done n)
    (ha : Acts D M n n') (hr : Lawful SnapshotRule (done ++ n'.out)) : Restartable conf done n' := by
  induction ha with
  | refl => exact h
  | tail _ ha ih =>
    have ho := Acts.out_mono (.single ha)
    exact (ih (hr.of_prefix ((prefix_append_right_inj done).2 ho))).act hD ha hr

private theorem quiet_none : Quiet fun _ e => e = none := ⟨by simp, by simp⟩

section

variable (h : Restartable conf done n)
include h

section

variable (hset : n.Settled)
include hset

private theorem replicateEntries
    (ha : n.lastIncludedIndex ≤ a.prevLogIndex → AgreesBelow (n.lastApplied - n.lastIncludedIndex + 1) n.log
      (a.prevLogIndex + 1 - n.lastIncludedIndex) a.entries) :
    Restartable conf done (n.replicateEntries a).1 ∧ (n.replicateEntries a).1.Settled := by
  have hpos := h.log_pos
  have hK : n.lastApplied - n.lastIncludedIndex + 1 ≤ n.log.length := by
    have := h.applied_le
    rw [length_tail] at this
    omega
  have hc : ∀ l : List LogEntry, n.log.take (n.lastApplied - n.lastIncludedIndex + 1) <+: l →
      n.commitIndex ≤ l.length - 1 + n.lastIncludedIndex := by
    intro l hl
    have := hl.length_le
    rw [length_take, Nat.min_eq_left hK] at this
    have hs : n.commitIndex = n.lastApplied := hset
    have := h.included
    omega
  unfold RaftNode.replicateEntries
  split
  · exact ⟨h, hset⟩
  · split
    · rename_i hi
      split
      · rename_i ht
        obtain ⟨hlog, hst⟩ := appendAtSnapshot_log h.stored h.head hi ht.symm
        have hk := (ha hi.ge).keeps_take
        rw [← hlog] at hk
        obtain ⟨l, s, es, heq, -⟩ := appendAtSnapshot_eq n a
        rw [heq] at hk hst ⊢
        exact ⟨h.grow hk (hc l hk) hst rfl h.ballot ⟨_, rfl⟩, hset⟩
      · exact ⟨h, hset⟩
    · rename_i hlt hne
      split
      · rename_i e he
        split
        · have hi : n.lastIncludedIndex < a.prevLogIndex := by omega
          obtain ⟨hlog, hst⟩ := appendAfterSnapshot_log h.stored hi (List.getElem?_eq_some_iff.1 he).1
          have hk := (ha hi.le).keeps_take
          rw [← hlog] at hk
          obtain ⟨l, s, es, heq, -⟩ := appendAfterSnapshot_eq n a
          rw [heq] at hk hst ⊢
          exact ⟨h.grow hk (hc l hk) hst rfl h.ballot ⟨_, rfl⟩, hset⟩
        · exact ⟨h, hset⟩
      · exact ⟨h, hset⟩

private theorem followCommit (k : Nat) (hr : Lawful SnapshotRule (done ++ (n.followCommit k).out)) :
    Restartable conf done (n.followCommit k) ∧ (n.followCommit k).Settled := by
  unfold RaftNode.followCommit at hr ⊢
  split at hr
  · rename_i hlt
    rw [if_pos hlt]
    refine ⟨(h.commit (Nat.min_le_right ..)).acts (M := False) quiet_none (Acts.applyLogs _) hr,
      settled_applyLogs ?_⟩
    show n.lastApplied ≤ min k n.lastLogIndex
    exact le_min (hset.ge.trans hlt.le) h.applied
  · rename_i hlt
    rw [if_neg hlt]
    exact ⟨h, hset⟩

private theorem handleAppendEntries (ha : n.SoundEvent (.rpc (.appendEntries a) tx))
    (hr : Lawful SnapshotRule (done ++ (n.handleAppendEntries a).1.out)) :
    Restartable conf done (n.handleAppendEntries a).1 ∧ (n.handleAppendEntries a).1.Settled := by
  unfold RaftNode.handleAppendEntries at hr ⊢
  by_cases ht : n.currentTerm ≤ a.term
  · rw [if_pos ht] at hr ⊢
    dsimp only at hr ⊢
    have hdw : Restartable conf done
        { n.stepDownToFollower a.term (some a.leaderAddress) with currentLeader := some a.leaderId } :=
      (h.stepDownToFollower a.term (some a.leaderAddress)).frame rfl rfl rfl
        (h.stepDownToFollower _ _).ballot prefix_rfl
    have hl := stepDownToFollower_log n a.term (some a.leaderAddress)
    obtain ⟨hrep, hsr⟩ :=
      hdw.replicateEntries (a := a) (hset.of_indices (stepDownToFollower_indices n a.term _)) (by
      intro hle
      have := ha ht (by rwa [hl.2.1] at hle)
      rwa [← hl.1, ← hl.2.1, ← hl.2.2.2] at this)
    split at hr
    · rename_i hs
      rw [if_pos hs]
      exact hrep.followCommit hsr _ hr
    · rename_i hs
      rw [if_neg hs]
      exact ⟨hrep, hsr⟩
  · rw [if_neg ht]
    exact ⟨h, hset⟩

private theorem handleEvent (hc : e.clientRequest? = none)
    (he : n.SoundEvent e) (hr : Lawful SnapshotRule (done ++ (n.handleEvent e).out)) :
    Restartable conf done (n.handleEvent e) ∧ (n.handleEvent e).Settled := by
  have hem : ∀ {m : RaftNode} (e : Effect), Restartable conf done m → Restartable conf done (m.emit e) :=
    fun _ hm => hm.frame rfl rfl rfl hm.ballot ⟨_, rfl⟩
  cases e with
  | clientRequest => cases hc
  | getLeaderInfo | getClusterInfo => exact ⟨hem _ h, hset⟩
  | getReadIndex tx =>
    rcases handleGetReadIndex_moves (D := fun _ e => e = none) (M := False) n tx with ⟨-, hmv⟩ | hmv
    · have hrd : Restartable conf done (n.registerRead tx) := h.frame rfl rfl rfl h.ballot ⟨_, rfl⟩
      exact ⟨hrd.acts quiet_none hmv.acts hr, hmv.settled hset⟩
    · exact ⟨h.acts quiet_none hmv.acts hr, hmv.settled hset⟩
  | rpc msg tx =>
    by_cases hae : ∃ a, msg = .appendEntries a
    · obtain ⟨a, rfl⟩ := hae
      cases tx with
      | none => exact h.handleAppendEntries hset he hr
      | some tx =>
        have hr' : Lawful SnapshotRule (done ++ (n.handleAppendEntries a).1.out) :=
          hr.of_prefix ((prefix_append_right_inj done).2 ⟨[_], rfl⟩)
        obtain ⟨h1, h2⟩ := h.handleAppendEntries hset he hr'
        exact ⟨hem _ h1, h2⟩
    · have hq : Quiet fun m e => m = n ∧ e = some (.rpc msg tx) := by
        refine ⟨?_, ?_⟩
        · rintro m a tx' ⟨-, heq⟩
          cases heq
          exact hae ⟨a, rfl⟩
        · rintro m a tx' ⟨rfl, heq⟩
          cases heq
          exact he
      obtain ⟨hs, hst⟩ :=
        handleRpcEvent_steps (M := False) n msg tx (D := fun m e => m = n ∧ e = some (.rpc msg tx)) ⟨rfl, rfl⟩
      exact ⟨h.acts hq hs.acts hr, hst (fun a ha => hae ⟨a, ha⟩) hset⟩

private theorem handleClientRequests (requests : List (Command × Nat))
    (hr : Lawful SnapshotRule (done ++ (n.handleClientRequests requests).out)) :
    Restartable conf done (n.handleClientRequests requests) ∧ (n.handleClientRequests requests).Settled := by
  rcases handleClientRequests_moves (D := fun _ e => e = none) (M := False) n requests (fun _ => ⟨none, rfl⟩) with
    heq | ⟨-, hne, hm⟩ | ⟨-, heq⟩
  · rw [heq]
    exact ⟨h, hset⟩
  · obtain ⟨hst, hl⟩ := h.stored.acceptRequests (length_pos_iff.1 h.log_pos) hne
    have ha : Restartable conf done (n.acceptRequests requests) ∧ (n.acceptRequests requests).Settled := by
      rw [acceptRequests_eq n requests hne] at hst hl ⊢
      exact ⟨h.append hl hst rfl h.ballot ⟨_, (append_assoc ..).symm⟩, hset⟩
    exact ⟨ha.1.acts quiet_none hm.acts hr, hm.settled ha.2⟩
  · rw [heq]
    exact ⟨h.frame rfl rfl rfl h.ballot ⟨_, rfl⟩, hset⟩

end

end

private theorem events (es : List Event) (h : Restartable conf done n) (hset : n.Settled)
    (hc : ∀ e ∈ es, e.clientRequest? = none)
    (hs : ∀ before e after, es = before ++ e :: after → (before.foldl RaftNode.handleEvent n).SoundEvent e)
    (hr : Lawful SnapshotRule (done ++ (es.foldl RaftNode.handleEvent n).out)) :
    Restartable conf done (es.foldl RaftNode.handleEvent n) ∧ (es.foldl RaftNode.handleEvent n).Settled := by
  induction es generalizing n with
  | nil => exact ⟨h, hset⟩
  | cons e es ih =>
    have hrs : ∀ x ∈ es, x.clientRequest? = none := fun x hx => hc x (mem_cons_of_mem _ hx)
    obtain ⟨h1, h2⟩ := h.handleEvent hset (hc e (mem_cons_self ..)) (hs [] e es rfl)
      (hr.of_prefix ((prefix_append_right_inj done).2 (foldl_handleEvent_out_mono es _ hrs)))
    exact ih h1 h2 hrs (fun before x after heq => hs (e :: before) x after (by rw [heq]; rfl)) hr

private theorem invocation (h : Restartable conf done n) (hset : n.Settled) {inv : Invocation}
    (hs : ∀ m e, TurnsTo n inv m (some e) → m.SoundEvent e) (hr : Lawful SnapshotRule (done ++ (inv.run n).out)) :
    Restartable conf done (inv.run n) ∧ (inv.run n).Settled := by
  cases inv with
  | tick elapsed =>
    have hm := Moves.tick (D := fun _ e => e = none) (M := False) n elapsed rfl
    exact ⟨h.acts quiet_none hm.acts hr, hm.settled hset⟩
  | events es =>
    have hc : ∀ e ∈ es.filter fun e => e.clientRequest?.isNone, e.clientRequest? = none :=
      fun e he => by simpa using (mem_filter.1 he).2
    obtain ⟨h1, h2⟩ := h.events _ hset hc (fun before e after heq => hs _ e (.event heq))
      (hr.of_prefix ((prefix_append_right_inj done).2 (handleClientRequests_out_mono _ _)))
    exact h1.handleClientRequests h2 _ hr
  | addServers servers =>
    refine ⟨h.act (M := True) quiet_none (.addServers n servers trivial) hr, ?_⟩
    show (n.handleAddServersRequest servers).1.Settled
    unfold handleAddServersRequest
    repeat' split
    all_goals exact hset
  | removeServers serverIds =>
    have hm := Moves.handleRemoveServersRequest (D := fun _ e => e = none) (M := True) n serverIds fun _ => trivial
    exact ⟨h.acts quiet_none hm.acts hr, hm.settled hset⟩

end Restartable

def ready (clock : List Nat) : RaftNode := { n with out := [], clock := clock }

/-- A node after a sequence of calls and restarts, from its first start on an empty database; `done` is what it has
done since it was started last. -/
inductive NodeRun (conf : RaftNodeConfig) (ok : List Effect → RaftNode → Invocation → Prop) :
    List Effect → RaftNode → Prop
  | start : NodeRun conf ok [] (boot conf .empty)
  | call {done : List Effect} {n : RaftNode} (inv : Invocation) (clock : List Nat) : NodeRun conf ok done n →
      ok done (n.ready clock) inv →
        NodeRun conf ok (done ++ (inv.run (n.ready clock)).out) (inv.run (n.ready clock))
  | restart {done : List Effect} {n : RaftNode} : NodeRun conf ok done n → NodeRun conf ok [] (boot conf n.db)

/-- A call whose messages agree with what the node holds, and which writes no snapshot after a membership
command. -/
structure SoundInvocation (done : List Effect) (n : RaftNode) (inv : Invocation) : Prop where
  events : ∀ m e, TurnsTo n inv m (some e) → m.SoundEvent e
  snapshots : Lawful SnapshotRule (done ++ (inv.run n).out)

/-- A node that is started again on the same database is as it was, and so are its peers when it has applied the
entries up to the old commit index. -/
structure RestartAgrees (conf : RaftNodeConfig) (n : RaftNode) : Prop where
  currentTerm : (boot conf n.db).currentTerm = n.currentTerm
  votedFor : (boot conf n.db).votedFor = n.votedFor
  lastIncludedIndex : (boot conf n.db).lastIncludedIndex = n.lastIncludedIndex
  lastIncludedTerm : (boot conf n.db).lastIncludedTerm = n.lastIncludedTerm
  log : (boot conf n.db).log = n.log
  peers : ({ boot conf n.db with commitIndex := n.commitIndex }.applyLogs).peers.toFinset = n.peers.toFinset

variable {conf : RaftNodeConfig} {done : List Effect} {n : RaftNode}

private theorem Restartable.agrees (h : Restartable conf done n) (hset : n.Settled) : RestartAgrees conf n := by
  obtain ⟨tail, ht⟩ := h.log_eq
  obtain ⟨hl, hlii, hlit⟩ := h.stored.boot ht h.snapshot conf
  refine ⟨h.ballot.1, h.ballot.2, hlii, hlit, hl, ?_⟩
  have hp := iterate_applyNext_peers (n.commitIndex - (boot conf n.db).lastApplied)
    { boot conf n.db with commitIndex := n.commitIndex } le_rfl
  have hla : (boot conf n.db).lastApplied = n.lastIncludedIndex := hlii
  have ho : (boot conf n.db).lastApplied + 1 - (boot conf n.db).lastIncludedIndex = 1 := by omega
  have hset : n.commitIndex = n.lastApplied := hset
  have hr :
    ((boot conf n.db).log.drop ((boot conf n.db).lastApplied + 1 - (boot conf n.db).lastIncludedIndex)).take
      (n.commitIndex - (boot conf n.db).lastApplied) = n.appliedEntries := by
    rw [ho, hl, hla, drop_one, hset]
    rfl
  refine congrArg toFinset (hp.trans ?_)
  rw [h.peers, ← hr]
  rfl

private theorem Restartable.boot (h : Restartable conf done n) : Restartable conf [] (boot conf n.db) := by
  obtain ⟨tail, ht⟩ := h.log_eq
  obtain ⟨hlog, hl, hlit⟩ := h.stored.boot ht h.snapshot conf
  have hz : (RaftNode.boot conf n.db).lastApplied - (RaftNode.boot conf n.db).lastIncludedIndex = 0 :=
    Nat.sub_self _
  have hnil : (RaftNode.boot conf n.db).appliedEntries = [] := by rw [appliedEntries, hz, take_zero]
  refine ⟨rfl, ⟨rfl, rfl⟩, ?_, rfl, fun k => ?_, le_rfl, Nat.le_add_left _ _, Nat.le_add_left _ _, ?_, ?_⟩
  · rw [hl, hlit]
    exact h.snapshot
  · rw [image, hlog, hl]
    exact h.stored k
  · rw [hnil]
    rfl
  · rw [hnil]
    exact fun e he => absurd he not_mem_nil

private theorem restartable_empty : Restartable conf [] (boot conf .empty) := by
  refine ⟨rfl, ⟨rfl, rfl⟩, rfl, rfl, fun k => ?_, le_rfl, le_rfl, le_rfl, rfl, nofun⟩
  show none = if 0 < k then ([⟨0, .noOp⟩] : List LogEntry)[k - 0]? else none
  split
  · rw [getElem?_eq_none (by simp; omega)]
  · rfl

private theorem Restartable.ready (h : Restartable conf done n) (clock : List Nat) :
    Restartable conf (done ++ n.out) (n.ready clock) := by
  refine { h with marked := fun e he => ?_ }
  obtain ⟨k, hk⟩ := h.marked e he
  exact ⟨k, mem_append_left _ hk⟩

theorem NodeRun.restartable (hr : NodeRun conf SoundInvocation done n) :
    (∀ clock, Restartable conf done (n.ready clock)) ∧ n.Settled := by
  induction hr with
  | start => exact ⟨restartable_empty.ready, rfl⟩
  | call inv clock _ hok ih =>
    obtain ⟨h1, h2⟩ := (ih.1 clock).invocation (n := RaftNode.ready _ clock) ih.2 hok.events hok.snapshots
    exact ⟨h1.ready, h2⟩
  | restart _ ih => exact ⟨(ih.1 []).boot.ready, rfl⟩

/-- A node whose messages agree with what it holds, and which has written no snapshot after applying a membership
command, is the same after a restart. -/
theorem restart_refines (hr : NodeRun conf SoundInvocation done n) : RestartAgrees conf n := by
  obtain ⟨h, hset⟩ := hr.restartable
  obtain ⟨h1, h2, h3, h4, h5, h6⟩ := (h []).agrees hset
  exact ⟨h1, h2, h3, h4, h5, h6⟩

def follower : RaftNodeConfig := ⟨3, ["a", "b"], "c", .master .default⟩

def firstEntries (commands : List Command) : Invocation :=
  .events [.rpc (.appendEntries ⟨1, 1, 0, 0, commands.map fun c => ⟨1, c⟩, commands.length, "a"⟩) none]

/-- The leader sends a snapshot of its state up to index `k`. -/
def sendSnapshot (k : Nat) : Invocation :=
  .events [.rpc (.installSnapshot ⟨1, 1, k, 1, (AppState.master .default).serialize⟩) none]

def after (conf : RaftNodeConfig) (invs : List Invocation) : RaftNode :=
  invs.foldl (fun n inv => inv.run (n.ready [])) (boot conf .empty)

private theorem NodeRun.after (conf : RaftNodeConfig) (invs : List Invocation) :
    ∃ done, NodeRun conf (fun _ _ _ => True) done (RaftNode.after conf invs) := by
  unfold RaftNode.after
  have hr : ∀ (n : RaftNode) (done : List Effect), NodeRun conf (fun _ _ _ => True) done n →
      ∃ done, NodeRun conf (fun _ _ _ => True) done (invs.foldl (fun n inv => inv.run (n.ready [])) n) := by
    induction invs with
    | nil => exact fun n done h => ⟨done, h⟩
    | cons inv invs ih => exact fun n done h => ih _ _ (h.call inv [] trivial)
  exact hr _ [] .start

theorem soundEvent_of_le (h : m.lastApplied ≤ a.prevLogIndex) : m.SoundEvent (.rpc (.appendEntries a) tx) :=
  fun _ hle => agreesBelow_of_le (by omega)

def writesSnapshot : Effect → Bool
  | .write (.putSnapshotMeta _ _) => true
  | _ => false

theorem lawful_of_not_writesSnapshot {es : List Effect} (h : ∀ e ∈ es, writesSnapshot e = false) :
    Lawful SnapshotRule es := by
  refine Lawful.append (l := []) .nil fun e he p _ => ?_
  have := h e he
  unfold writesSnapshot at this
  unfold SnapshotRule
  split at this
  · cases this
  · trivial

def followerOfFour : RaftNode :=
  (firstEntries [.membership (.addServer 4 "d"), .noOp]).run ((boot follower .empty).ready [])

theorem restart_refines_follower :
    followerOfFour.peers = ["a", "b", "d"] ∧ RestartAgrees follower followerOfFour := by
  have hrule : Lawful SnapshotRule ([] ++ followerOfFour.out) := lawful_of_not_writesSnapshot (by decide +kernel)
  refine ⟨rfl, restart_refines (.call _ [] .start ⟨fun m e ht => ?_, hrule⟩)⟩
  obtain ⟨rfl, rfl⟩ := ht.single
  exact soundEvent_of_le (Nat.zero_le 0)

/-- A snapshot that ends before the log does: the entry after it comes back.  A snapshot after `AddServer`: the new
peer is lost. -/
theorem restart_differs :
    (∃ done n, NodeRun follower (fun _ _ _ => True) done n ∧ n.log.length = 1 ∧
      (boot follower n.db).log.length = 2) ∧
    ∃ done n, NodeRun follower (fun _ _ _ => True) done n ∧ n.peers.toFinset = {"a", "b", "d"} ∧
      ({ boot follower n.db with commitIndex := n.commitIndex }.applyLogs).peers.toFinset = {"a", "b"} := by
  obtain ⟨done, h⟩ := NodeRun.after follower [firstEntries [.noOp, .noOp, .noOp], sendSnapshot 2]
  obtain ⟨done', h'⟩ := NodeRun.after follower [firstEntries [.membership (.addServer 4 "d")], sendSnapshot 1]
  exact ⟨⟨done, _, h, rfl, rfl⟩, done', _, h', rfl, rfl⟩

end RaftNode

end RustHadoop
