import RustHadoop.Raft.Election

/-!
# Replies to clients

A leader keeps the reply channels of accepted requests under the indices of their entries and answers when it
applies those indices.  The rule of the trace (`ReplyRule`): a channel is answered once, by the node that accepted
its request, and with `Ok` only after the entry of the request itself has been applied.  Nodes follow it because
the channels are answered and forgotten whenever a leader steps down, before its log can change (`PendingOk`).
-/

namespace RustHadoop

open RaftNode List Cluster Effect

/-- Not a word to the client of a request, and no order to stand for election. -/
def Effect.Mute : Effect → Prop
  | .reply _ _ | .accepted _ _ _ => False
  | .send _ (.timeoutNow _) => False
  | _ => True

def Trace.Replied (tr : Trace) (tx : Nat) : Prop := ∃ j r, (j, .reply tx r) ∈ tr

def Trace.Accepted (tr : Trace) (tx : Nat) : Prop := ∃ j k e, (j, .accepted tx k e) ∈ tr

/-- A word to the client with the channel. -/
def Effect.Tells (tx : Nat) : Effect → Prop
  | .reply tx' _ | .accepted tx' _ _ => tx' = tx
  | _ => False

/-- When a node may accept a request, reply to one and send `TimeoutNow`. -/
def ReplyRule (tr : Trace) : Nat × Effect → Prop
  | (_, .accepted tx _ _) => ¬ tr.Accepted tx ∧ ¬ tr.Replied tx
  | (i, .reply tx r) => ¬ tr.Replied tx ∧ (∀ j k e, (j, .accepted tx k e) ∈ tr → j = i) ∧
      (r = .ok () → ∃ before after k e, tr = before ++ after ∧ (i, .accepted tx k e) ∈ before ∧
        (i, .applied k e) ∈ after)
  | (i, .send _ (.timeoutNow a)) => (i, .becameLeader a.term) ∈ tr
  | _ => True

variable {e : Effect} {rs : List ((Nat × LogEntry) × Nat)} {tx k : Nat} {l : List Effect} {txs : List Nat}

section Rule

variable {tr : Trace} {i j : Nat}

private theorem Effect.Mute.rule (h : e.Mute) (tr : Trace) (i : Nat) : ReplyRule tr (i, e) := by
  cases e with
  | send addr msg => cases msg <;> first | exact False.elim h | trivial
  | reply | accepted => exact False.elim h
  | _ => trivial

private theorem Effect.Mute.not_tells (h : e.Mute) (tx : Nat) : ¬ e.Tells tx := by
  cases e with
  | reply | accepted => exact False.elim h
  | _ => exact id

theorem Trace.Replied.append (h : Trace.Replied (tr ++ l.map (Prod.mk i)) tx) :
    tr.Replied tx ∨ ∃ r, .reply tx r ∈ l := by
  obtain ⟨j, r, h⟩ := h
  rcases mem_append.1 h with h | h
  · exact .inl ⟨j, r, h⟩
  · obtain ⟨e, he, heq⟩ := mem_map.1 h
    cases heq
    exact .inr ⟨r, he⟩

private theorem Trace.Accepted.append (h : Trace.Accepted (tr ++ l.map (Prod.mk i)) tx) :
    tr.Accepted tx ∨ ∃ k e, .accepted tx k e ∈ l := by
  obtain ⟨j, k, e, h⟩ := h
  rcases mem_append.1 h with h | h
  · exact .inl ⟨j, k, e, h⟩
  · obtain ⟨x, hx, heq⟩ := mem_map.1 h
    cases heq
    exact .inr ⟨k, e, hx⟩

section

variable (h : Lawful ReplyRule tr)
include h

theorem accepted_unique {k' : Nat} {e e' : LogEntry} (hi : (i, .accepted tx k e) ∈ tr)
    (hj : (j, .accepted tx k' e') ∈ tr) : i = j ∧ k = k' ∧ e = e' := by
  obtain ⟨p, hp⟩ := getElem?_of_mem hi
  obtain ⟨q, hq⟩ := getElem?_of_mem hj
  have hpq :=
    h.index_unique (P := fun x => ∃ j k e, x = (j, .accepted tx k e)) ?_ hp hq ⟨_, _, _, rfl⟩ ⟨_, _, _, rfl⟩
  · rw [hpq, hq, Option.some.injEq, Prod.mk.injEq, accepted.injEq] at hp
    exact ⟨hp.1.symm, hp.2.2.1.symm, hp.2.2.2.symm⟩
  · rintro pre _ ⟨j, k, e, rfl⟩ hok _ hy ⟨j', k', e', rfl⟩
    exact hok.1 ⟨j', k', e', hy⟩

private theorem reply_unique {p q : Nat} {r r' : Except (Option String) Unit}
    (hp : tr[p]? = some (i, .reply tx r)) (hq : tr[q]? = some (j, .reply tx r')) : p = q := by
  refine h.index_unique (P := fun x => ∃ j r, x = (j, .reply tx r)) ?_ hp hq ⟨_, _, rfl⟩ ⟨_, _, rfl⟩
  rintro pre _ ⟨j, r, rfl⟩ hok _ hy ⟨j', r', rfl⟩
  exact hok.1 ⟨j', r', hy⟩

private theorem Lawful.appendErrors (hint : Option String) (hnd : txs.Nodup)
    (hf : ∀ tx ∈ txs, ¬ tr.Replied tx) (ho : ∀ tx ∈ txs, ∀ j k e, (j, .accepted tx k e) ∈ tr → j = i) :
    Lawful ReplyRule (tr ++ (txs.map fun tx => reply tx (.error hint)).map (Prod.mk i)) := by
  induction txs generalizing tr with
  | nil => simpa using h
  | cons tx txs ih =>
    obtain ⟨hn, hnd⟩ := nodup_cons.1 hnd
    rw [map_cons, map_cons, append_cons]
    refine ih (h.concat ?_) hnd ?_ ?_
    · exact ⟨hf tx (mem_cons_self ..), ho tx (mem_cons_self ..), nofun⟩
    · rintro tx' htx' hrep
      rcases Trace.Replied.append (l := [.reply tx (.error hint)]) hrep with hrep | ⟨r, hr⟩
      · exact hf tx' (mem_cons_of_mem _ htx') hrep
      · simp only [mem_singleton, reply.injEq] at hr
        exact hn (hr.1 ▸ htx')
    · intro tx' htx' j k e hin
      refine ho tx' (mem_cons_of_mem _ htx') j k e ?_
      simpa using hin

private theorem Lawful.appendAccepted (hnd : (rs.map Prod.snd).Nodup)
    (hf : ∀ r ∈ rs, ¬ tr.Accepted r.2 ∧ ¬ tr.Replied r.2) :
    Lawful ReplyRule (tr ++ (rs.map fun r => accepted r.2 r.1.1 r.1.2).map (Prod.mk i)) := by
  induction rs generalizing tr with
  | nil => simpa using h
  | cons r rs ih =>
    rw [map_cons, nodup_cons] at hnd
    rw [map_cons, map_cons, append_cons]
    refine ih (h.concat (hf r (mem_cons_self ..))) hnd.2 fun r' hr' => ⟨fun ha => ?_, fun hr => ?_⟩
    · rcases Trace.Accepted.append (l := [.accepted r.2 r.1.1 r.1.2]) ha with ha | ⟨k, e, he⟩
      · exact (hf r' (mem_cons_of_mem _ hr')).1 ha
      · simp only [mem_singleton, accepted.injEq] at he
        exact hnd.1 (he.1 ▸ mem_map_of_mem hr')
    · rcases Trace.Replied.append (l := [.accepted r.2 r.1.1 r.1.2]) hr with hr | ⟨x, hx⟩
      · exact (hf r' (mem_cons_of_mem _ hr')).2 hr
      · simp at hx

end

end Rule

variable {es : List Effect} {requests : List (Command × Nat)} {D : RaftNode → Option Event → Prop}
  {n : RaftNode} {M : Prop}

namespace RaftNode

/-- What an action leaves alone for the waiting requests: as long as the node leads, the entries after the applied
ones stay where they are. -/
structure KeepsPending (n n' : RaftNode) : Prop where
  effects : ∃ es, n'.out = n.out ++ es ∧ ∀ e ∈ es, e.Mute
  pending : n'.pendingReplies = n.pendingReplies
  role : n.role = .leader → n'.role = .leader
  applied : n.role = .leader → n'.lastApplied = n.lastApplied
  log : n.role = .leader → ∀ k e, n.lastApplied < k → n.log[k - n.lastIncludedIndex]? = some e →
    n'.log[k - n'.lastIncludedIndex]? = some e

section

variable {n n' : RaftNode}

private theorem KeepsPending.of_log_eq (hr : n'.role = n.role) (ho : ∃ es, n'.out = n.out ++ es ∧ ∀ e ∈ es, e.Mute)
    (hp : n'.pendingReplies = n.pendingReplies) (ha : n'.lastApplied = n.lastApplied) (hl : n'.log = n.log)
    (hlii : n'.lastIncludedIndex = n.lastIncludedIndex) : KeepsPending n n' := by
  refine ⟨ho, hp, fun h => hr.trans h, fun _ => ha, fun _ k e _ he => ?_⟩
  rwa [hl, hlii]

private theorem KeepsPending.of_not_leader (hr : n.role ≠ .leader)
    (ho : ∃ es, n'.out = n.out ++ es ∧ ∀ e ∈ es, e.Mute)
    (hp : n'.pendingReplies = n.pendingReplies) : KeepsPending n n' :=
  ⟨ho, hp, fun h => absurd h hr, fun h => absurd h hr, fun h => absurd h hr⟩

private theorem Upkeep.mute (h : Upkeep e) : e.Mute := by
  rcases h with ⟨_ | _⟩ | _ | _ | _ | _ <;> trivial

private theorem KeepsPending.createSnapshot (n : RaftNode) (h : n.lastIncludedIndex < n.lastApplied) :
    KeepsPending n n.createSnapshot := by
  rw [createSnapshot_eq]
  refine ⟨⟨_, append_assoc .., fun e he => (Upkeep.snapshot _ _ _ _ e he).mute⟩, rfl, fun h => h, fun _ =>
    rfl, fun _ k e hk he => ?_⟩
  obtain ⟨m, rfl⟩ : ∃ m, k = n.lastApplied + 1 + m := ⟨k - (n.lastApplied + 1), by omega⟩
  rw [show n.lastApplied + 1 + m - n.lastApplied = m + 1 by omega, getElem?_cons_succ, getElem?_drop]
  rwa [show n.lastApplied - n.lastIncludedIndex + 1 + m = n.lastApplied + 1 + m - n.lastIncludedIndex by omega]

end

theorem Act.pending {n' : RaftNode} (h : Act D M n n') :
    KeepsPending n n' ∨ (∃ t hint, n' = n.stepDownToFollower t hint) ∨ n' = n.applyNext ∨
      (n' = n.standForElection ∧ n.role = .leader ∧ ∃ m a tx, D m (some (.rpc (.timeoutNow a) tx)) ∧
        a.term = n.currentTerm) ∨
      (n.role = .leader ∧ ∃ addr, n' = n.emit (.send addr (.timeoutNow ⟨n.currentTerm, n.id⟩))) := by
  cases h with
  | stepDown t hint => exact .inr (.inl ⟨t, hint, rfl⟩)
  | apply => exact .inr (.inr (.inl rfl))
  | stand _ _ _ _ hst =>
    by_cases hr : n.role = .leader
    · exact .inr (.inr (.inr (.inl ⟨rfl, hr, hst.resolve_left (absurd hr)⟩)))
    · rw [standForElection_eq]
      refine .inl (.of_not_leader hr ⟨_, rfl, ?_⟩ rfl)
      simp [Mute]
  | sendTimeout target addr hr => exact .inr (.inr (.inr (.inr ⟨hr, addr, rfl⟩)))
  | grant a =>
    rw [grantVote_eq]
    exact .inl (.of_log_eq rfl ⟨_, rfl, by simp [Mute]⟩ rfl rfl rfl rfl)
  | lead hr =>
    obtain ⟨next, h⟩ := takeLeadership_eq n
    rw [h]
    exact .inl (.of_not_leader (by rw [hr]; nofun) ⟨_, rfl, by simp [Mute]⟩ rfl)
  | replicateAt a m tx hD hr =>
    obtain ⟨l, d, es, h, hes, -⟩ := appendAtSnapshot_eq n a
    rw [h]
    exact .inl (.of_not_leader (by rw [hr]; nofun) ⟨_, rfl, fun e he => (Upkeep.replicate hes e he).mute⟩ rfl)
  | replicateAfter a m tx hD hr =>
    obtain ⟨l, d, es, h, hes, -⟩ := appendAfterSnapshot_eq n a
    rw [h]
    exact .inl (.of_not_leader (by rw [hr]; nofun) ⟨_, rfl, fun e he => (Upkeep.replicate hes e he).mute⟩ rfl)
  | install a m tx hD hr =>
    rw [installSnapshot_eq]
    exact .inl
      (.of_not_leader (by rw [hr]; nofun)
        ⟨_, append_assoc .., fun e he => (Upkeep.snapshot _ _ _ _ e he).mute⟩ rfl)
  | compact h => exact .inl (.createSnapshot n h)
  | checkReads =>
    obtain ⟨r, es, h, hes⟩ := Upkeep.checkReads n
    rw [h]
    exact .inl (.of_log_eq rfl ⟨es, rfl, fun e he => (hes e he).mute⟩ rfl rfl rfl rfl)
  | propose c s o p =>
    refine .inl ⟨⟨[_], rfl, by simp [Mute]⟩, rfl, fun h => h, fun _ => rfl, fun _ k e _ he => ?_⟩
    exact (List.getElem?_append_left (List.getElem?_eq_some_iff.1 he).1).trans he
  | addServers servers =>
    unfold handleAddServersRequest
    repeat' split
    all_goals exact .inl (.of_log_eq rfl ⟨[], (append_nil _).symm, by simp⟩ rfl rfl rfl rfl)
  | info e he =>
    refine .inl (.of_log_eq rfl ⟨[e], rfl, ?_⟩ rfl rfl rfl rfl)
    simp only [mem_singleton, forall_eq]
    cases e <;> trivial
  | askVote | sendAppend | sendSnapshot | respond =>
    exact .inl (.of_log_eq rfl ⟨[_], rfl, by simp [Mute]⟩ rfl rfl rfl rfl)
  | note | countVote | commitFollowing | commitMajority | commitAlone | matchAppend | matchSnapshot | ackAppend
  | ackSnapshot | transfer => exact .inl (.of_log_eq rfl ⟨[], (append_nil _).symm, by simp⟩ rfl rfl rfl rfl)

theorem applyNext_replies (n : RaftNode) : ∃ es,
    n.applyNext.out = n.out ++ es ++ n.answer (n.lastApplied + 1) ∧ (∀ e ∈ es, e.Mute) ∧
    (∀ e, n.log[n.lastApplied + 1 - n.lastIncludedIndex]? = some e → .applied (n.lastApplied + 1) e ∈ es) ∧
    n.applyNext.pendingReplies = n.pendingReplies.erase (n.lastApplied + 1) ∧ n.applyNext.role = n.role := by
  obtain ⟨t, s, clock, reads, es, heq, hes, -, -, es', rfl, hno, ha⟩ := applyNext_eq n
  rw [heq]
  refine ⟨es', (append_assoc ..).symm, fun e he => ?_, ha, rfl, rfl⟩
  cases hes e (mem_append_left _ he) with
  | reply tx => exact absurd rfl (hno _ he tx _)
  | _ => trivial

private theorem acceptedRequests_channels (n : RaftNode) (requests : List (Command × Nat)) :
    (n.acceptedRequests requests).map Prod.snd = requests.map Prod.snd := by
  unfold acceptedRequests
  rw [map_snd_zip]
  simp [batchEntries]

variable {r : (Nat × LogEntry) × Nat}

theorem channel_of_accepted (n : RaftNode) (hr : r ∈ n.acceptedRequests requests) :
    ∃ r' ∈ requests, r'.2 = r.2 := by
  rw [← mem_map, ← acceptedRequests_channels n]
  exact mem_map_of_mem hr

theorem lookup_acceptRequests (n : RaftNode) (hne : requests ≠ [])
    (h : (n.acceptRequests requests).pendingReplies.lookup k = some tx) :
    (∃ r ∈ n.acceptedRequests requests, r.1.1 = k ∧ r.2 = tx) ∨ n.pendingReplies.lookup k = some tx := by
  have hf : (((n.acceptedRequests requests).map fun r => (r.1.1, r.2)).foldl (fun p r => p.insert r.1 r.2)
      n.pendingReplies).lookup k = some tx := by
    rw [foldl_map, ← h, acceptRequests_eq n requests hne]
  refine (lookup_foldl_insert hf).imp_left fun hn => ?_
  obtain ⟨r, hr, heq⟩ := mem_map.1 hn
  exact ⟨r, hr, Prod.mk.inj heq⟩

private theorem acceptedRequests_log (n : RaftNode) (hr : r ∈ n.acceptedRequests requests) :
    (n.log ++ (n.batchEntries requests).map Prod.snd)[r.1.1 - n.lastIncludedIndex]? = some r.1.2 := by
  have hin : r.1 ∈ n.batchEntries requests := (of_mem_zip hr).1
  unfold batchEntries at hin ⊢
  obtain ⟨⟨request, j⟩, hj, hr⟩ := mem_map.1 hin
  have hg := mk_mem_zipIdx_iff_getElem?.1 hj
  rw [← hr, show n.lastIncludedIndex + n.log.length + j - n.lastIncludedIndex = n.log.length + j by omega,
    getElem?_append_right (by omega), Nat.add_sub_cancel_left]
  simp [hg]

theorem demoted_effects (n : RaftNode) (t : Nat) : ∃ es, (n.demoted t).out = n.out ++ es ∧ (∀ e ∈ es, e.Mute) ∧
    (n.demoted t).pendingReplies = n.pendingReplies := by
  rcases Nat.lt_or_ge n.currentTerm t with ht | ht
  · rw [demoted_of_lt n t ht]
    exact ⟨_, rfl, by simp [Mute], rfl⟩
  · rw [demoted_of_le n t ht]
    exact ⟨[], by simp, by simp, rfl⟩

private theorem stepDownToFollower_replies (n : RaftNode) (t : Nat) (hint : Option String)
    (hi : n.role ≠ .leader → n.pendingReplies = ∅) :
    (n.stepDownToFollower t hint).pendingReplies = ∅ ∧ ∃ before after, (n.stepDownToFollower t hint).out =
        n.out ++ before ++ (n.pendingReplies.entries.map Sigma.snd).map (fun tx => .reply tx (.error hint)) ++
          after ∧
      (∀ e ∈ before, e.Mute) ∧ ∀ e ∈ after, e.Mute := by
  obtain ⟨before, ho, hm, hp⟩ := n.demoted_effects t
  by_cases hr : n.role = .leader
  · obtain ⟨addr, h⟩ := stepDownToFollower_of_leader n t hint hr
    rw [h]
    refine ⟨rfl, before, n.pendingReadIndices.map fun r =>
      .replyRead r.replyTx (.error hint) n.lastApplied, ?_, hm, ?_⟩
    · simp [drained, ho]
    · simp [Mute]
  · obtain ⟨addr, h⟩ := stepDownToFollower_of_not_leader n t hint hr
    rw [h]
    have he := hi hr
    refine ⟨hp.trans he, before, [], ?_, hm, by simp⟩
    rw [he]
    simpa using ho

end RaftNode

/-- Only a leader has waiting requests.  Each was accepted here and not answered, and if its index is still to be
applied then with its own entry. -/
structure PendingOk (tr : Trace) (i : Nat) (n : RaftNode) : Prop where
  idle : n.role ≠ .leader → n.pendingReplies = ∅
  waiting : ∀ k tx, n.pendingReplies.lookup k = some tx → ¬ tr.Replied tx ∧ ∃ e, (i, .accepted tx k e) ∈ tr ∧
    (n.lastApplied < k → n.log[k - n.lastIncludedIndex]? = some e)

theorem PendingOk.empty {tr : Trace} {i : Nat} (h : n.pendingReplies = ∅) : PendingOk tr i n := by
  refine ⟨fun _ => h, fun k tx htx => ?_⟩
  rw [h] at htx
  cases htx

/-- A lawful trace in which only channels of `issued` occur, and none of the unused ones `T`. -/
structure ReplyTrace (issued : List Nat) (T : Finset Nat) (tr : Trace) : Prop where
  lawful : Lawful ReplyRule tr
  unused : ∀ tx ∈ T, tx ∈ issued ∧ ¬ tr.Accepted tx ∧ ¬ tr.Replied tx
  issued : ∀ tx, tr.Accepted tx ∨ tr.Replied tx → tx ∈ issued

variable {a : TimeoutNowArgs}

namespace ReplyTrace

variable {issued : List Nat} {T T' : Finset Nat} {tr : Trace} {i : Nat}

private theorem replied_mute (hes : ∀ e ∈ es, e.Mute) : Trace.Replied (tr ++ es.map (Prod.mk i)) tx ↔
    tr.Replied tx := by
  refine ⟨fun h => h.append.resolve_right ?_, fun ⟨j, r, h⟩ => ⟨j, r, mem_append_left _ h⟩⟩
  rintro ⟨r, hr⟩
  exact hes _ hr

section

variable (h : ReplyTrace issued T tr)
include h

theorem extend (hl : Lawful ReplyRule (tr ++ es.map (Prod.mk i))) (hT : T' ⊆ T)
    (hes : ∀ e ∈ es, ∀ tx, e.Tells tx → tx ∈ issued ∧ tx ∉ T') :
    ReplyTrace issued T' (tr ++ es.map (Prod.mk i)) := by
  have hacc : ∀ tx, Trace.Accepted (tr ++ es.map (Prod.mk i)) tx → tr.Accepted tx ∨ (tx ∈ issued ∧ tx ∉ T') :=
    fun tx htx => htx.append.imp_right fun ⟨k, e, he⟩ => hes _ he tx rfl
  have hrep : ∀ tx, Trace.Replied (tr ++ es.map (Prod.mk i)) tx → tr.Replied tx ∨ (tx ∈ issued ∧ tx ∉ T') :=
    fun tx htx => htx.append.imp_right fun ⟨r, hr⟩ => hes _ hr tx rfl
  refine ⟨hl, fun tx htx => ?_, fun tx htx => ?_⟩
  · obtain ⟨h1, h2, h3⟩ := h.unused tx (hT htx)
    exact ⟨h1, fun ha => (hacc tx ha).elim h2 fun hn => hn.2 htx, fun hr =>
      (hrep tx hr).elim h3 fun hn => hn.2 htx⟩
  · rcases htx with htx | htx
    · exact (hacc tx htx).elim (fun h' => h.issued tx (.inl h')) And.left
    · exact (hrep tx htx).elim (fun h' => h.issued tx (.inr h')) And.left

private theorem concat (hr : ReplyRule tr (i, e))
    (he : ∀ tx, e.Tells tx → tx ∈ issued ∧ tx ∉ T) : ReplyTrace issued T (tr ++ [(i, e)]) := by
  have hl : Lawful ReplyRule (tr ++ [e].map (Prod.mk i)) := h.lawful.concat hr
  exact h.extend hl (Finset.Subset.refl T) (forall_mem_singleton.2 he)

theorem mute (hes : ∀ e ∈ es, e.Mute) : ReplyTrace issued T (tr ++ es.map (Prod.mk i)) := by
  refine h.extend (h.lawful.append fun x hx p _ => ?_) (Finset.Subset.refl T) fun e he tx ht => ?_
  · obtain ⟨e, he, rfl⟩ := mem_map.1 hx
    exact (hes e he).rule p i
  · exact absurd ht ((hes e he).not_tells tx)

private theorem timeout {addr : String} (ha : (i, .becameLeader a.term) ∈ tr) :
    ReplyTrace issued T (tr ++ [(i, .send addr (.timeoutNow a))]) :=
  h.concat ha fun _ ht => ht.elim

private theorem errors (hint : Option String) (hnd : txs.Nodup)
    (hf : ∀ tx ∈ txs, ¬ tr.Replied tx) (ho : ∀ tx ∈ txs, ∀ j k e, (j, .accepted tx k e) ∈ tr → j = i)
    (hi : ∀ tx ∈ txs, tx ∈ issued) (hT : ∀ tx ∈ T', tx ∈ T ∧ tx ∉ txs) :
    ReplyTrace issued T' (tr ++ (txs.map fun tx => reply tx (.error hint)).map (Prod.mk i)) := by
  refine h.extend (h.lawful.appendErrors hint hnd hf ho) (fun tx htx => (hT tx htx).1) fun e he tx ht => ?_
  obtain ⟨tx', htx', rfl⟩ := mem_map.1 he
  obtain rfl : tx' = tx := ht
  exact ⟨hi tx' htx', fun hin => (hT tx' hin).2 htx'⟩

end

private theorem ok {after : Trace} {e : LogEntry} (h : ReplyTrace issued T (tr ++ after))
    (ha : (i, .accepted tx k e) ∈ tr) (happ : (i, .applied k e) ∈ after)
    (hrep : ¬ Trace.Replied (tr ++ after) tx) :
    ReplyTrace issued T (tr ++ after ++ [(i, .reply tx (.ok ()))]) := by
  have hin : Trace.Accepted (tr ++ after) tx := ⟨i, k, e, mem_append_left _ ha⟩
  have hr : ReplyRule (tr ++ after) (i, .reply tx (.ok ())) :=
    ⟨hrep, fun j k' e' hj => (accepted_unique h.lawful hj (mem_append_left _ ha)).1,
      fun _ => ⟨tr, after, k, e, rfl, ha, happ⟩⟩
  refine h.concat hr ?_
  rintro _ rfl
  exact ⟨h.issued tx (.inl hin), fun htx => (h.unused tx htx).2.1 hin⟩

private theorem accept (h : ReplyTrace issued T tr) (hnd : (rs.map Prod.snd).Nodup) (hT : ∀ r ∈ rs, r.2 ∈ T) :
    ReplyTrace issued ∅ (tr ++ (rs.map fun r => accepted r.2 r.1.1 r.1.2).map (Prod.mk i)) := by
  refine h.extend (h.lawful.appendAccepted hnd fun r hr => (h.unused _ (hT r hr)).2) (Finset.empty_subset T)
    fun e he tx ht => ?_
  obtain ⟨r, hr, rfl⟩ := mem_map.1 he
  obtain rfl : r.2 = tx := ht
  exact ⟨(h.unused _ (hT r hr)).1, Finset.notMem_empty _⟩

private theorem mono (h : ReplyTrace issued T tr) (hT : T' ⊆ T) : ReplyTrace issued T' tr :=
  ⟨h.lawful, fun tx htx => h.unused tx (hT htx), h.issued⟩

end ReplyTrace

/-- What holds of the replies in a call of node `i`; the channels `T` are unused. -/
structure RepliesCall (c : Cluster) (i : Nat) (inv : Invocation) (T : Finset Nat) (n : RaftNode) : Prop where
  trace : ReplyTrace (inv.channels ++ c.issued) T (c.during i n).trace
  node : PendingOk (c.during i n).trace i n

namespace RepliesCall

variable {c : Cluster} {i : Nat} {inv : Invocation} {T : Finset Nat} {n n' : RaftNode}

section

variable (h : RepliesCall c i inv T n)
include h

private theorem keeps (hk : n.KeepsPending n') : RepliesCall c i inv T n' := by
  obtain ⟨es, ho, hes⟩ := hk.effects
  have htr := during_trace c i ho
  refine ⟨by rw [htr]; exact h.trace.mute hes, fun hr => ?_, fun k tx htx => ?_⟩
  · rw [hk.pending]
    exact h.node.idle fun hl => hr (hk.role hl)
  · rw [hk.pending] at htx
    have hld : n.role = .leader := by
      by_contra hne
      rw [h.node.idle hne] at htx
      cases htx
    obtain ⟨hrep, e, ha, hlog⟩ := h.node.waiting k tx htx
    rw [htr, ReplyTrace.replied_mute hes, hk.applied hld]
    exact ⟨hrep, e, mem_append_left _ ha, fun hlt => hk.log hld k e hlt (hlog hlt)⟩

theorem stepDown (t : Nat) (hint : Option String) : RepliesCall c i inv T (n.stepDownToFollower t hint) := by
  obtain ⟨hp, before, after, ho, hb, ha⟩ := stepDownToFollower_replies n t hint h.node.idle
  have htr : (c.during i (n.stepDownToFollower t hint)).trace = (c.during i n).trace ++ before.map (Prod.mk i) ++
      ((n.pendingReplies.entries.map Sigma.snd).map fun tx => reply tx (.error hint)).map (Prod.mk i) ++
      after.map (Prod.mk i) := by
    simp [during, ho]
  have hw : ∀ tx ∈ n.pendingReplies.entries.map Sigma.snd, ∃ k e, n.pendingReplies.lookup k = some tx ∧
      ¬ Trace.Replied (c.during i n).trace tx ∧ (i, .accepted tx k e) ∈ (c.during i n).trace := by
    intro tx htx
    obtain ⟨⟨k, tx'⟩, hmem, rfl⟩ := mem_map.1 htx
    have hl := AList.mem_lookup_iff.2 hmem
    obtain ⟨hr, e, hacc, -⟩ := h.node.waiting k tx' hl
    exact ⟨k, e, hl, hr, hacc⟩
  have hn : (n.pendingReplies.entries.map Sigma.snd).Nodup := by
    refine Nodup.map_on ?_ (NodupKeys.nodup n.pendingReplies.nodupKeys)
    rintro ⟨k, tx⟩ hx ⟨k', tx'⟩ hy heq
    obtain rfl : tx = tx' := heq
    obtain ⟨-, e, hacc, -⟩ := h.node.waiting k tx (AList.mem_lookup_iff.2 hx)
    obtain ⟨-, e', ha', -⟩ := h.node.waiting k' tx (AList.mem_lookup_iff.2 hy)
    rw [(accepted_unique h.trace.lawful hacc ha').2.1]
  refine ⟨?_, .empty hp⟩
  rw [htr]
  refine ReplyTrace.mute ((h.trace.mute hb).errors hint hn ?_ ?_ ?_ ?_) ha
  · intro tx htx
    obtain ⟨k, e, -, hr, -⟩ := hw tx htx
    rwa [ReplyTrace.replied_mute hb]
  · intro tx htx j k e hin
    obtain ⟨k', e', -, -, hacc⟩ := hw tx htx
    exact (accepted_unique (h.trace.mute hb).lawful hin (mem_append_left _ hacc)).1
  · intro tx htx
    obtain ⟨k, e, -, -, hacc⟩ := hw tx htx
    exact h.trace.issued tx (.inl ⟨i, k, e, hacc⟩)
  · intro tx htx
    refine ⟨htx, fun hin => ?_⟩
    obtain ⟨k, e, -, -, hacc⟩ := hw tx hin
    exact (h.trace.unused tx htx).2.1 ⟨i, k, e, hacc⟩

private theorem applyNext : RepliesCall c i inv T n.applyNext := by
  obtain ⟨es, ho, hes, happ, hp, hrl⟩ := applyNext_replies n
  obtain ⟨hl', hi, hl, -⟩ := applyNext_fields n
  have htr : (c.during i n.applyNext).trace = (c.during i n).trace ++ es.map (Prod.mk i) ++
      (n.answer (n.lastApplied + 1)).map (Prod.mk i) := by
    simp [during, ho]
  have hm := h.trace.mute (i := i) hes
  have ht : ReplyTrace (inv.channels ++ c.issued) T (c.during i n.applyNext).trace := by
    rw [htr, answer]
    cases htx : n.pendingReplies.lookup (n.lastApplied + 1) with
    | none => simpa using hm
    | some tx =>
      obtain ⟨hrep, e, ha, hlog⟩ := h.node.waiting _ tx htx
      refine hm.ok ha (mem_map_of_mem (happ e (hlog (Nat.lt_succ_self _)))) ?_
      rwa [ReplyTrace.replied_mute hes]
  refine ⟨ht, fun hr' => ?_, fun k tx htx => ?_⟩
  · rw [hp, h.node.idle (hrl ▸ hr')]
    rfl
  · rw [hp] at htx
    have hk : k ≠ n.lastApplied + 1 := by
      rintro rfl
      simp at htx
    rw [AList.lookup_erase_ne hk] at htx
    obtain ⟨hrep, e, ha, hlog⟩ := h.node.waiting k tx htx
    refine ⟨fun hr => ?_, e, by rw [htr, append_assoc]; exact mem_append_left _ ha, fun hlt => ?_⟩
    · rw [htr] at hr
      rcases hr.append with hr | ⟨r, hr⟩
      · exact hrep ((ReplyTrace.replied_mute hes).1 hr)
      · -- another index waits with another channel
        obtain ⟨tx', htx', heq⟩ := mem_answer hr
        cases heq
        obtain ⟨-, e', ha', -⟩ := h.node.waiting _ tx htx'
        exact hk (accepted_unique h.trace.lawful ha ha').2.1
    · rw [hl] at hlt
      rw [hl', hi]
      exact hlog (Nat.lt_of_succ_lt hlt)

theorem act (hs : ∀ m a tx, D m (some (.rpc (.timeoutNow a) tx)) → a.term = n.currentTerm → n.role ≠ .leader)
    (hl : n.role = .leader → (i, .becameLeader n.currentTerm) ∈ (c.during i n).trace) (ha : Act D M n n') :
    RepliesCall c i inv T n' := by
  rcases ha.pending with hk | ⟨t, hint, rfl⟩ | rfl | ⟨-, hrl, m, a, tx, hm, ht⟩ | ⟨hrl, addr, rfl⟩
  · exact h.keeps hk
  · exact h.stepDown t hint
  · exact h.applyNext
  · exact absurd hrl (hs m a tx hm ht)
  · have ho : (n.emit (.send addr (.timeoutNow ⟨n.currentTerm, n.id⟩))).out =
        n.out ++ [.send addr (.timeoutNow ⟨n.currentTerm, n.id⟩)] := rfl
    have htr := during_trace c i ho
    refine ⟨by rw [htr]; exact h.trace.timeout (hl hrl), h.node.idle, fun k tx htx => ?_⟩
    obtain ⟨hrep, e, hacc, hlog⟩ := h.node.waiting k tx htx
    refine ⟨?_, e, by rw [htr]; exact mem_append_left _ hacc, hlog⟩
    rw [htr]
    rintro hr
    rcases hr.append with hr | ⟨r, hr⟩
    · exact hrep hr
    · simp at hr

private theorem reject (hrl : n.role ≠ .leader) (hnd : (requests.map Prod.snd).Nodup)
    (hT : ∀ r ∈ requests, r.2 ∈ T) : RepliesCall c i inv ∅ (n.rejectRequests requests) := by
  have hu : ∀ tx ∈ requests.map Prod.snd, tx ∈ T := by
    intro tx htx
    obtain ⟨r, hr, rfl⟩ := mem_map.1 htx
    exact hT r hr
  refine ⟨?_, .empty (h.node.idle hrl)⟩
  have hn : ∀ tx ∈ (∅ : Finset Nat), tx ∈ T ∧ tx ∉ requests.map Prod.snd := by simp
  have := h.trace.errors (i := i) n.currentLeaderAddress hnd (fun tx htx => (h.trace.unused tx (hu tx htx)).2.2)
    (fun tx htx j k e hin => absurd ⟨j, k, e, hin⟩ (h.trace.unused tx (hu tx htx)).2.1)
    (fun tx htx => (h.trace.unused tx (hu tx htx)).1) hn
  simpa [rejectRequests, during, map_map, Function.comp_def] using this

private theorem accept (hrl : n.role = .leader)
    (hne : requests ≠ []) (hnd : (requests.map Prod.snd).Nodup) (hT : ∀ r ∈ requests, r.2 ∈ T) :
    RepliesCall c i inv ∅ (n.acceptRequests requests) := by
  have hrs : ∀ r ∈ n.acceptedRequests requests, r.2 ∈ T := by
    intro r hr
    obtain ⟨r', hr', heq⟩ := n.channel_of_accepted hr
    exact heq ▸ hT r' hr'
  have hm : ∀ e ∈ [write (.batchLog (n.batchEntries requests))], e.Mute := by simp [Mute]
  have heq := acceptRequests_eq n requests hne
  have htr : (c.during i (n.acceptRequests requests)).trace = (c.during i n).trace ++
      [write (.batchLog (n.batchEntries requests))].map (Prod.mk i) ++
      ((n.acceptedRequests requests).map fun r => accepted r.2 r.1.1 r.1.2).map (Prod.mk i) := by
    simp [during, heq]
  have hrep : ∀ tx, Trace.Replied (c.during i (n.acceptRequests requests)).trace tx →
      Trace.Replied (c.during i n).trace tx := by
    intro tx hr
    rw [htr] at hr
    rcases hr.append with hr | ⟨x, hx⟩
    · exact (ReplyTrace.replied_mute hm).1 hr
    · simp at hx
  refine ⟨?_, fun hrl' => absurd (by rwa [heq]) hrl', fun k tx htx => ?_⟩
  · rw [htr]
    exact (h.trace.mute hm).accept (by rwa [acceptedRequests_channels]) hrs
  · rcases n.lookup_acceptRequests hne htx with ⟨r, hr, rfl, rfl⟩ | ho
    · refine ⟨fun hr' => (h.trace.unused _ (hrs r hr)).2.2 (hrep _ hr'), r.1.2, ?_, fun _ => ?_⟩
      · rw [htr]
        exact mem_append_right _ (mem_map_of_mem (mem_map.2 ⟨r, hr, rfl⟩))
      · rw [heq]
        exact n.acceptedRequests_log hr
    · obtain ⟨hf, e, ha, hl⟩ := h.node.waiting k tx ho
      refine ⟨fun hr' => hf (hrep _ hr'), e, ?_, fun hlt => ?_⟩
      · rw [htr, append_assoc]
        exact mem_append_left _ ha
      · rw [heq] at hlt ⊢
        have := hl hlt
        exact (List.getElem?_append_left (List.getElem?_eq_some_iff.1 this).1).trans this

end

end RepliesCall

structure RepliesRun (d : Deployment) (c : Cluster) : Prop where
  trace : ReplyTrace c.issued ∅ c.trace
  node : ∀ i ∈ d.ids, PendingOk c.trace i (c.node i)

section Runs

variable {d : Deployment} {members : Nat → Members} {version : Nat → Nat} {c : Cluster} {i : Nat}

private theorem PendingOk.append {tr : Trace} {j : Nat} (h : PendingOk tr j n) (hij : i ≠ j)
    (hl : Lawful ReplyRule (tr ++ es.map (Prod.mk i))) : PendingOk (tr ++ es.map (Prod.mk i)) j n := by
  refine ⟨h.idle, fun k tx htx => ?_⟩
  obtain ⟨hrep, e, ha, hlog⟩ := h.waiting k tx htx
  refine ⟨fun hr => ?_, e, mem_append_left _ ha, hlog⟩
  rcases hr.append with hr | ⟨r, hr⟩
  · exact hrep hr
  · -- node `i` would answer a request that node `j` has accepted
    obtain ⟨q, hq⟩ := getElem?_of_mem (mem_map_of_mem (f := Prod.mk i) hr)
    have hrl := hl (tr.length + q) (i, .reply tx r) (by rw [getElem?_append_right (by omega)]; simpa using hq)
    refine hij (hrl.2.1 j k e ?_).symm
    rw [take_append, take_of_length_le (Nat.le_add_right ..)]
    exact mem_append_left _ ha

/-- `TimeoutNow` comes from the leader of its term, which is another node. -/
private theorem not_leader_of_timeout (hd : FixedMembership d members version) (hi : i ∈ d.ids) (hr : FixedRun d c)
    (hrun : RepliesRun d c) (he : n.ElectionCall d c i) {tx : Option ReplyTx}
    (hdel : Delivered d c i (.timeoutNow a) tx) (ht : a.term = n.currentTerm) : n.role ≠ .leader := by
  intro hrl
  obtain ⟨k, j, addr, hk, hres⟩ := (hr.static hd).request hdel rfl
  have hin := mem_of_getElem? hk
  obtain ⟨p, hp, hld⟩ := hrun.trace.lawful.of_mem hin
  have hij : i = j := by
    refine hd.leader_unique he.lawful (he.node.leader hrl) (mem_append_left _ (hp.subset ?_))
    rw [← ht]
    exact hld
  subst hij
  obtain ⟨⟨m, hm, hl⟩, -⟩ := (hr.static hd).trace _ hin
  rw [hd.id i] at hm
  rw [hd.config i hi] at hl
  rw [hd.resolve i hi m addr hm hl, Option.some.injEq] at hres
  exact hm hres

theorem FixedRun.replies (hd : FixedMembership d members version) (hr : FixedRun d c) : RepliesRun d c := by
  refine Reachable.invariant (P := RepliesRun d) (fun c i inv T n =>
    (n.StaticCall (d.config i) (d.db i) (fun c => c.isMembership = false) ∧ n.ElectionCall d c i) ∧
      RepliesCall c i inv T n) ?_ (fun c l h => h.1) ?_ ?_ ?_ ?_ ?_ ?_ hr
  · refine ⟨⟨Lawful.nil, by simp, ?_⟩, fun i _ => .empty rfl⟩
    simp [init, Trace.Accepted, Trace.Replied]
  · exact fun c i hr _ hi => ((FixedRun.static hd hr).node i hi).id.trans (hd.id i)
  · intro c i inv clock hr hP hi hen
    refine ⟨⟨(FixedRun.static hd hr).ready hi clock, (FixedRun.election hd hr).ready hi clock⟩, ?_, ?_⟩
    · refine ⟨by simpa [during, ready] using hP.trace.lawful, fun tx htx => ?_, fun tx htx => ?_⟩
      · have hn := hen.fresh tx (mem_toFinset.1 htx)
        simp only [during, ready, map_nil, append_nil]
        exact ⟨mem_append_left _ (mem_toFinset.1 htx), fun h => hn (hP.trace.issued tx (.inl h)),
          fun h => hn (hP.trace.issued tx (.inr h))⟩
      · simp only [during, ready, map_nil, append_nil] at htx
        exact mem_append_right _ (hP.trace.issued tx htx)
    · have := hP.node i hi
      exact ⟨this.idle, by simpa [during, ready] using this.waiting⟩
  · intro c l i inv clock hr hP hl hc hi hen
    refine (hr.electionCall (C := fun c => c.isMembership = false) hd.quiet hd.selfMajority rfl
      (fun _ => Command.reconfigures_of_not_membership) (fun _ _ h => h) hl hc hi hen).and
      (fun hT h => ⟨h.trace.mono hT, h.node⟩) ?_ ?_ ?_ ?_
    · intro T n n' hst h ha
      refine h.act (fun m a tx hm ht => ?_) hst.2.node.leader ha
      exact not_leader_of_timeout hd hi hr hP hst.2 (hen.rpc _ _ hm.mem) ht
    · intro T n tx _ _ _ _ h
      have hk : n.KeepsPending (n.registerRead tx) :=
        ⟨⟨[_], rfl, by simp [Mute]⟩, rfl, fun h => h, fun _ => rfl, fun _ _ _ _ h => h⟩
      have := h.keeps hk
      exact ⟨this.trace.mono (Finset.erase_subset ..), this.node⟩
    · exact fun hrl hne hnd hT _ h => h.accept hrl hne hnd fun r hr => (hT r hr).2
    · exact fun hrl hnd hT _ h => h.reject hrl hnd hT
  · rintro c i inv clock n - - hP hi ⟨-, h⟩
    exact ⟨h.trace, forall_update (fun _ => h.node) fun j hj hij =>
      (hP.node j hj).append (Ne.symm hij) h.trace.lawful⟩
  · rintro c i inv clock k n - - hP hi ⟨-, h⟩
    have hb : c.trace ++ (n.out.take k).map (Prod.mk i) <+: c.trace ++ n.out.map (Prod.mk i) :=
      (prefix_append_right_inj _).2 ((List.take_prefix k _).map _)
    have hlaw : Lawful ReplyRule (c.trace ++ (n.out.take k).map (Prod.mk i)) := h.trace.lawful.of_prefix hb
    refine ⟨⟨hlaw, by simp, fun tx htx => h.trace.issued tx ?_⟩,
      forall_update (fun _ => .empty rfl) fun j hj hij => (hP.node j hj).append (Ne.symm hij) hlaw⟩
    rcases htx with ⟨j, m, e, hin⟩ | ⟨j, r, hin⟩
    · exact .inl ⟨j, m, e, hb.subset hin⟩
    · exact .inr ⟨j, r, hb.subset hin⟩
  · intro c i _ _ hP hi
    have htr : (c.crashed d i []).trace = c.trace := List.append_nil _
    refine ⟨htr ▸ hP.trace, ?_⟩
    rw [htr]
    exact forall_update (fun _ => .empty rfl) fun j hj _ => hP.node j hj

/-- A reply to an accepted request is the only one, and if it says `Ok` then the node that accepted the request has
applied the entry made for it, after accepting and before replying. -/
theorem client_replies_truthful (hd : FixedMembership d members version) (hr : FixedRun d c) (tx k : Nat)
    (e : LogEntry) (ha : (i, .accepted tx k e) ∈ c.trace) :
    (∀ (p q j j' : Nat) (r r' : Except (Option String) Unit),
      c.trace[p]? = some (j, .reply tx r) → c.trace[q]? = some (j', .reply tx r') → p = q) ∧
      ∀ p j : Nat, c.trace[p]? = some (j, .reply tx (.ok ())) → j = i ∧ ∃ a q : Nat, a < q ∧ q < p ∧
        c.trace[a]? = some (i, .accepted tx k e) ∧ c.trace[q]? = some (i, .applied k e) := by
  have hlaw := (hr.replies hd).trace.lawful
  refine ⟨fun p q j j' r r' hp hq => reply_unique hlaw hp hq, fun p j hp => ?_⟩
  obtain ⟨-, -, hok⟩ := hlaw p _ hp
  obtain ⟨before, after, k', e', htake, hacc, happ⟩ := hok rfl
  have hpre : before ++ after <+: c.trace := htake ▸ take_prefix p c.trace
  obtain ⟨rfl, rfl, rfl⟩ := accepted_unique hlaw (hpre.subset (mem_append_left _ hacc)) ha
  obtain ⟨a, hain⟩ := getElem?_of_mem hacc
  obtain ⟨q, hq⟩ := getElem?_of_mem happ
  have hlen : before.length + after.length ≤ p := by
    rw [← length_append, ← htake, length_take]
    exact Nat.min_le_left ..
  have halt := (List.getElem?_eq_some_iff.1 hain).1
  have hqlt := (List.getElem?_eq_some_iff.1 hq).1
  obtain ⟨rest, hrest⟩ := hpre
  refine ⟨rfl, a, before.length + q, by omega, by omega, ?_, ?_⟩
  · rw [← hrest, append_assoc, getElem?_append_left halt, hain]
  · rw [← hrest, append_assoc, getElem?_append_right (Nat.le_add_right ..), Nat.add_sub_cancel_left,
      getElem?_append_left hqlt, hq]

end Runs

/-- Node 1 accepts a request, replicates its entry to node 2, applies it and replies. -/
def trioReplied : Cluster :=
  (init trio).play trio (fun _ l => l.calm)
    [.tick 1 true, .deliver 3, .deliver 9, .propose 1 [(.noOp, 0)], .deliver 14, .deliver 16, .tick 1 false,
      .deliver 17,
      .deliver 21]

theorem client_replies_truthful_trio : (1, .reply 0 (.ok ())) ∈ trioReplied.trace ∧
    (1, .applied 2 ⟨1, .noOp⟩) ∈ trioReplied.trace := by
  obtain ⟨members, version, hd⟩ := trio_fixed
  have hr : FixedRun trio trioReplied := .play (fun _ _ he _ hk => ⟨he, Label.noMembership_of_calm hk⟩) .init _
  have hacc : (1, accepted 0 2 ⟨1, .noOp⟩) ∈ trioReplied.trace := mem_of_getElem? (i := 13) rfl
  have hrep : trioReplied.trace[24]? = some (1, .reply 0 (.ok ())) := rfl
  obtain ⟨-, a, q, -, -, -, hq⟩ := (client_replies_truthful hd hr 0 2 _ hacc).2 24 1 hrep
  exact ⟨mem_of_getElem? hrep, mem_of_getElem? hq⟩

end RustHadoop
