import RustHadoop.Raft.Replies

/-!
# A batch that the database refuses

When the write of a batch fails, `handle_event_batch` cuts the log back and fails the requests of the batch.
Nothing of the requests is left, and each has one answer for all time (`failed_batch_leaves_no_trace`).
-/

namespace RustHadoop

open List Event Effect

def Effect.RepliesTo (tx : Nat) : Effect → Bool
  | .reply tx' _ => tx' == tx
  | _ => false

namespace RaftNode

variable (n : RaftNode)

/-- The requests when `save_log_entries_batch` fails: the entries were in the log already and are taken out
again. -/
def refuseRequests (requests : List (Command × Nat)) : RaftNode :=
  let appended := { n with log := n.log ++ (n.batchEntries requests).map Prod.snd }
  { appended with
    log := appended.log.take n.log.length
    out := appended.out ++ requests.map fun r => .reply r.2 (.error none) }

variable (events : List Event)

/-- The state of `handle_event_batch` just before the client requests. -/
def beforeClients : RaftNode :=
  (events.filter fun e => e.clientRequest?.isNone).foldl handleEvent n

/-- `handle_event_batch` when the database takes no batch. -/
def handleEventBatchRefused : RaftNode :=
  let requests := events.filterMap clientRequest?
  let n := n.beforeClients events
  if requests.isEmpty then n
  else if n.role = .leader then n.refuseRequests requests
  else n.rejectRequests requests

private theorem beforeClients_eq :
    n.beforeClients events = Invocation.run n (.events (events.filter fun e => e.clientRequest?.isNone)) := by
  have hn : (events.filter fun e => e.clientRequest?.isNone).filterMap clientRequest? = [] := by
    simp [filterMap_eq_nil_iff]
  simp only [Invocation.run, handleEventBatch, hn, filter_filter, Bool.and_self]
  rfl

private theorem refuseRequests_eq (requests : List (Command × Nat)) :
    n.refuseRequests requests = { n with out := n.out ++ requests.map fun r => .reply r.2 (.error none) } := by
  simp [refuseRequests]

/-- A channel that the node does not keep and to which it has answered `answers`; `T` are unused channels. -/
structure Answered (tx : Nat) (answers : List Effect) (T : Finset Nat) (n : RaftNode) : Prop where
  used : tx ∉ T
  idle : ∀ k, n.pendingReplies.lookup k ≠ some tx
  out : n.out.filter (RepliesTo tx) = answers

namespace Answered

variable {tx : Nat} {answers es : List Effect} {T : Finset Nat} {n n' : RaftNode}

section

variable (h : Answered tx answers T n)
include h

private theorem of_kept (ho : n'.out = n.out ++ es)
    (hes : ∀ tx' r, .reply tx' r ∈ es → ∃ k, n.pendingReplies.lookup k = some tx')
    (hp : ∀ k tx', n'.pendingReplies.lookup k = some tx' → n.pendingReplies.lookup k = some tx') :
    Answered tx answers T n' := by
  refine ⟨h.used, fun k hk => h.idle k (hp k tx hk), ?_⟩
  rw [ho, filter_append, h.out, filter_eq_nil_iff.2, append_nil]
  intro e he ht
  cases e with
  | reply tx' r =>
    obtain ⟨k, hk⟩ := hes tx' r he
    exact h.idle k (eq_of_beq ht ▸ hk)
  | _ => cases ht

private theorem of_mute (ho : n'.out = n.out ++ es) (hes : ∀ e ∈ es, e.Mute)
    (hp : n'.pendingReplies = n.pendingReplies) : Answered tx answers T n' :=
  h.of_kept ho (fun _ _ hr => (hes _ hr).elim) fun _ _ hk => hp ▸ hk

private theorem append {requests : List (Command × Nat)} (hint : Option String) (hn : ∀ r ∈ requests, r.2 ≠ tx) :
    Answered tx answers ∅ { n with out := n.out ++ requests.map fun r => .reply r.2 (.error hint) } := by
  refine ⟨Finset.notMem_empty tx, h.idle, ?_⟩
  rw [filter_append, h.out, filter_eq_nil_iff.2, append_nil]
  intro e he ht
  obtain ⟨r, hr, rfl⟩ := mem_map.1 he
  exact hn r hr (eq_of_beq ht)

private theorem stepDown (t : Nat) (hint : Option String) :
    Answered tx answers T (n.stepDownToFollower t hint) := by
  obtain ⟨es, ho, hes, hpn⟩ := n.demoted_effects t
  have hdm : Answered tx answers T (n.demoted t) := h.of_mute ho hes hpn
  by_cases hrl : n.role = .leader
  · obtain ⟨addr, heq⟩ := stepDownToFollower_of_leader n t hint hrl
    rw [heq]
    refine hdm.of_kept rfl (fun tx' r hr => ?_) fun k tx' hk => ?_
    · simp only [drained, mem_append, mem_map, reply.injEq, reduceCtorEq, and_false, exists_false, or_false] at hr
      obtain ⟨p, hp, rfl, -⟩ := hr
      exact ⟨p.1, hpn ▸ AList.mem_lookup_iff.2 hp⟩
    · cases hk
  · obtain ⟨addr, heq⟩ := stepDownToFollower_of_not_leader n t hint hrl
    rw [heq]
    exact ⟨hdm.used, hdm.idle, hdm.out⟩

private theorem applyNext : Answered tx answers T n.applyNext := by
  obtain ⟨es, ho, hes, -, hp, -⟩ := applyNext_replies n
  rw [append_assoc] at ho
  refine h.of_kept ho (fun tx' r hr => ?_) fun k tx' hk => ?_
  · rcases mem_append.1 hr with hr | hr
    · exact (hes _ hr).elim
    · obtain ⟨tx'', hkp, heq⟩ := mem_answer hr
      cases heq
      exact ⟨_, hkp⟩
  · rw [hp] at hk
    by_cases hkey : k = n.lastApplied + 1
    · subst hkey
      simp at hk
    · rwa [AList.lookup_erase_ne hkey] at hk

private theorem act {D : RaftNode → Option Event → Prop} {M : Prop} (ha : Act D M n n') :
    Answered tx answers T n' := by
  rcases ha.pending with hk | ⟨t, hint, rfl⟩ | rfl | ⟨rfl, -⟩ | ⟨-, addr, rfl⟩
  · obtain ⟨es, ho, hes⟩ := hk.effects
    exact h.of_mute ho hes hk.pending
  · exact h.stepDown t hint
  · exact h.applyNext
  · rw [standForElection_eq]
    exact h.of_mute rfl (by simp [Mute]) rfl
  · refine h.of_kept rfl (fun tx' r hr => ?_) fun k tx' hk => hk
    cases mem_singleton.1 hr

end

theorem preserves (tx : Nat) (answers : List Effect) : Preserves (fun _ _ => True) True (Answered tx answers) where
  mono hT h := ⟨fun htx => h.used (hT htx), h.idle, h.out⟩
  act h ha := h.act ha
  read {T n tx'} _ _ _ h := by
    have hrd : Answered tx answers T (n.registerRead tx') := h.of_mute rfl (by simp [Mute]) rfl
    exact ⟨fun htx => h.used (Finset.mem_of_mem_erase htx), hrd.idle, hrd.out⟩
  accept {T n requests} _ hne _ hT h := by
    refine ⟨Finset.notMem_empty tx, fun k hk => ?_, ?_⟩
    · rcases n.lookup_acceptRequests hne hk with ⟨r, hr, -, rfl⟩ | ho
      · obtain ⟨r', hr', heq⟩ := n.channel_of_accepted hr
        exact h.used (heq ▸ (hT r' hr').2)
      · exact h.idle k ho
    · simp [acceptRequests_eq n requests hne, filter_append, h.out, filter_map, RepliesTo, Function.comp_def]
  reject _ _ hT h := h.append _ fun r hr heq => h.used (heq ▸ hT r hr)

variable {events : List Event}

section

variable (h : Answered tx answers ∅ n)
include h

private theorem run {inv : Invocation} (hnd : inv.channels.Nodup) (hn : tx ∉ inv.channels) :
    Answered tx answers ∅ (inv.run n) :=
  (preserves tx answers).invocation inv (fun _ _ _ => trivial) hnd (fun _ => trivial)
    ⟨fun htx => hn (mem_toFinset.1 htx), h.idle, h.out⟩

private theorem beforeClients (hnd : (events.filterMap channel?).Nodup)
    (hn : tx ∉ (events.filter fun e => e.clientRequest?.isNone).filterMap channel?) :
    Answered tx answers ∅ (n.beforeClients events) := by
  rw [beforeClients_eq]
  exact h.run (hnd.sublist (filter_sublist.filterMap _)) hn

private theorem refused (hnd : (events.filterMap channel?).Nodup)
    (hn : tx ∉ events.filterMap channel?) : Answered tx answers ∅ (n.handleEventBatchRefused events) := by
  have hb : Answered tx answers ∅ (n.beforeClients events) :=
    h.beforeClients hnd fun htx => hn ((filter_sublist.filterMap _).subset htx)
  have ho : ∀ r ∈ events.filterMap clientRequest?, r.2 ≠ tx := by
    rintro r hr rfl
    have hch := mem_map_of_mem (f := Prod.snd) hr
    rw [channels_of_clients] at hch
    exact hn ((filter_sublist.filterMap _).subset hch)
  unfold handleEventBatchRefused
  dsimp only
  split_ifs
  · exact hb
  · rw [refuseRequests_eq]
    exact hb.append none ho
  · exact hb.append _ ho

end

end Answered

/-- The calls of a node after a batch, with or without a database that takes batches, and its restarts; none has
one of the channels `txs` of the batch. -/
inductive Later (txs : List Nat) (n : RaftNode) : RaftNode → Prop
  | refl : Later txs n n
  | call {m : RaftNode} (inv : Invocation) (clock : List Nat) (hm : Later txs n m) (hnd : inv.channels.Nodup)
      (hnew : ∀ tx ∈ txs, tx ∉ inv.channels) : Later txs n (inv.run { m with clock := clock })
  | refused {m : RaftNode} (es : List Event) (clock : List Nat) (hm : Later txs n m)
      (hnd : (es.filterMap channel?).Nodup)
      (hnew : ∀ tx ∈ txs, tx ∉ es.filterMap channel?) :
        Later txs n ({ m with clock := clock }.handleEventBatchRefused es)
  | restart {m : RaftNode} (config : RaftNodeConfig) (hm : Later txs n m) :
      Later txs n { boot config m.db with out := m.out }

private theorem Later.answered {txs : List Nat} {n m : RaftNode} (h : Later txs n m) {tx : Nat} (htx : tx ∈ txs)
    {answers : List Effect} (hn : Answered tx answers ∅ n) : Answered tx answers ∅ m := by
  induction h with
  | refl => exact hn
  | @call m inv clock _ hnd hnew ih =>
    have hm : Answered tx answers ∅ { m with clock := clock } := ⟨ih.used, ih.idle, ih.out⟩
    exact hm.run hnd (hnew tx htx)
  | @refused m es clock _ hnd hnew ih =>
    have hm : Answered tx answers ∅ { m with clock := clock } := ⟨ih.used, ih.idle, ih.out⟩
    exact hm.refused hnd (hnew tx htx)
  | @restart m config _ ih =>
    have he : (boot config m.db).pendingReplies = ∅ := rfl
    refine ⟨ih.used, fun k hk => ?_, ih.out⟩
    replace hk : (boot config m.db).pendingReplies.lookup k = some tx := hk
    rw [he] at hk
    cases hk

private theorem filter_failures {txs : List Nat} (hnd : txs.Nodup) {tx : Nat} (htx : tx ∈ txs) :
    (txs.map fun tx => reply tx (.error none)).filter (RepliesTo tx) = [.reply tx (.error none)] := by
  have hb : (RepliesTo tx ∘ fun tx => reply tx (.error none)) = (· == tx) := rfl
  rw [filter_map, hb, filter_beq, count_eq_one_of_mem hnd htx]
  rfl

/-- A batch that the database refuses changes nothing but the answers, and each of its requests has for ever the
one answer that it failed. -/
theorem failed_batch_leaves_no_trace {n before : RaftNode} {events : List Event}
    (hnd : (events.filterMap channel?).Nodup)
    (hout : n.out = []) (hfree : ∀ tx ∈ events.filterMap channel?, ∀ k, n.pendingReplies.lookup k ≠ some tx)
    (hbefore : n.beforeClients events = before) (hlead : before.role = .leader) :
    n.handleEventBatchRefused events = { before with
        out := before.out ++ (events.filterMap clientRequest?).map fun r => .reply r.2 (.error none) } ∧
      ∀ r ∈ events.filterMap clientRequest?, ∀ m,
        Later (events.filterMap channel?) (n.handleEventBatchRefused events) m →
          m.out.filter (RepliesTo r.2) = [.reply r.2 (.error none)] := by
  have heq : n.handleEventBatchRefused events = { before with
      out := before.out ++ (events.filterMap clientRequest?).map fun r => .reply r.2 (.error none) } := by
    unfold handleEventBatchRefused
    dsimp only
    rw [hbefore]
    split_ifs with hempty
    · rw [isEmpty_iff.1 hempty, map_nil, append_nil]
    · exact refuseRequests_eq _ _
  refine ⟨heq, fun r hr m hm => ?_⟩
  -- no event of the batch has the channel of another
  have hsplit :=
    ((filter_append_perm (fun e : Event => e.clientRequest?.isNone) events).filterMap channel?).nodup_iff.2 hnd
  rw [filterMap_append, ← channels_of_clients] at hsplit
  obtain ⟨-, hclients, hdisjoint⟩ := nodup_append.1 hsplit
  have htx : r.2 ∈ (events.filterMap clientRequest?).map Prod.snd := mem_map_of_mem hr
  have hch : r.2 ∈ events.filterMap channel? := by
    rw [channels_of_clients] at htx
    exact (filter_sublist.filterMap _).subset htx
  have hnone : Answered r.2 [] ∅ before := by
    rw [← hbefore]
    exact Answered.beforeClients ⟨Finset.notMem_empty _, hfree r.2 hch, by rw [hout]; rfl⟩ hnd
      fun hother => hdisjoint _ hother _ htx rfl
  have hone := filter_failures hclients htx
  rw [map_map] at hone
  refine (hm.answered hch ⟨Finset.notMem_empty _, ?_, ?_⟩).out
  · rw [heq]
    exact hnone.idle
  · rw [heq, filter_append, hnone.out, nil_append]
    exact hone

def trioLeader : RaftNode := trioElected.ready 1 []

def threeEvents : List Event := [.clientRequest .noOp 1, .getLeaderInfo 2, .clientRequest .noOp 3]

theorem failed_batch_leaves_no_trace_three :
    (trioLeader.handleEventBatchRefused threeEvents).log = trioLeader.log ∧
      (trioLeader.handleEventBatchRefused threeEvents).db = trioLeader.db ∧
      ∀ m, Later [1, 2, 3] (trioLeader.handleEventBatchRefused threeEvents) m →
        m.out.filter (RepliesTo 3) = [.reply 3 (.error none)] := by
  have hlead : (trioLeader.beforeClients threeEvents).role = .leader := rfl
  have hnd : (threeEvents.filterMap channel?).Nodup := by decide
  have h := failed_batch_leaves_no_trace (n := trioLeader) hnd rfl (fun _ _ _ h => by cases h) rfl hlead
  refine ⟨?_, ?_, h.2 (.noOp, 3) (.tail _ (.head _))⟩
  · rw [h.1]
    rfl
  · rw [h.1]
    rfl

end RaftNode

end RustHadoop
