import RustHadoop.Raft.Cluster

/-!
# What each function of a node leaves alone

For every function that loops or branches, one lemma that gives its result as an update of the fields it may change
(`withLog`, `withTracking`, `withApplied`) and says which effects it adds.  Everything else about a function's
frame follows from it.
-/

namespace RustHadoop

open List DbWrite

variable {ents : List LogEntry} {k : Nat} {es : List Effect}

namespace RaftNode

variable (n : RaftNode)

/-- Another log, in memory and on disk, after more effects. -/
def withLog (log : List LogEntry) (stored : AList fun _ : Nat => LogEntry) (effects : List Effect) :
    RaftNode :=
  { n with log := log, db := { n.db with log := stored }, out := n.out ++ effects }

@[simp] theorem withLog_withLog (l l' : List LogEntry) (d d' : AList fun _ : Nat => LogEntry)
    (es es' : List Effect) : (n.withLog l d es).withLog l' d' es' = n.withLog l' d' (es ++ es') := by
  simp [withLog]

@[simp] theorem withLog_self : n.withLog n.log n.db.log [] = n := by
  simp [withLog]

/-- The fields that a membership command can change. -/
structure Tracking where
  peers : List String
  nextIndex : List Nat
  matchIndex : List Nat
  clusterConfig : ClusterConfiguration
  configChangeState : ConfigChangeState
  storedConfig : Option ClusterConfiguration
  storedState : Option ConfigChangeState

def tracking : Tracking where
  peers := n.peers
  nextIndex := n.nextIndex
  matchIndex := n.matchIndex
  clusterConfig := n.clusterConfig
  configChangeState := n.configChangeState
  storedConfig := n.db.clusterConfig
  storedState := n.db.configChangeState

def withTracking (t : Tracking) (effects : List Effect) : RaftNode :=
  { n with
    peers := t.peers
    nextIndex := t.nextIndex
    matchIndex := t.matchIndex
    clusterConfig := t.clusterConfig
    configChangeState := t.configChangeState
    db := { n.db with clusterConfig := t.storedConfig, configChangeState := t.storedState }
    out := n.out ++ effects }

@[simp] theorem withTracking_self : n.withTracking n.tracking [] = n := by
  simp [withTracking, tracking]

/-- The node after applying its next entry, with what that may change. -/
def withApplied (t : Tracking) (s : AppState) (clock : List Nat) (reads : List ReadIndexRequest)
    (replies : AList fun _ : Nat => Nat) (effects : List Effect) : RaftNode :=
  { n.withTracking t effects with
    lastApplied := n.lastApplied + 1
    appState := s
    clock := clock
    pendingReadIndices := reads
    pendingReplies := replies }

/-- `n'` has done more than `n`, and the database has changed accordingly. -/
def Logged (n n' : RaftNode) : Prop := ∃ es, n'.out = n.out ++ es ∧ n'.db = replay n.db es

private theorem Logged.refl : Logged n n := ⟨[], by simp, rfl⟩

theorem Logged.trans {n n' n'' : RaftNode} (h : Logged n n') (h' : Logged n' n'') : Logged n n'' := by
  obtain ⟨es, ho, hd⟩ := h
  obtain ⟨es', ho', hd'⟩ := h'
  refine ⟨es ++ es', by rw [ho', ho, append_assoc], ?_⟩
  rw [hd', hd]
  simp [replay]

theorem Logged.of_eq {n n' : RaftNode} (ho : n'.out = n.out) (hd : n'.db = n.db) : Logged n n' :=
  ⟨[], by simp [ho], by simp [hd, replay]⟩

theorem Logged.put (n : RaftNode) (w : DbWrite) : Logged n (n.put w) := ⟨[.write w], rfl, rfl⟩

theorem Logged.emit (n : RaftNode) (e : Effect) (h : ∀ w, e ≠ .write w) : Logged n (n.emit e) := by
  refine ⟨[e], rfl, ?_⟩
  cases e with
  | write w => exact absurd rfl (h w)
  | _ => rfl

theorem Logged.append {n n' : RaftNode} (ho : n'.out = n.out ++ es) (hd : n'.db = n.db)
    (h : ∀ e ∈ es, ∀ w, e ≠ .write w) : Logged n n' := by
  refine ⟨es, ho, ?_⟩
  rw [hd]
  clear ho hd
  induction es with
  | nil => rfl
  | cons e es ih =>
    have he := h e (mem_cons_self ..)
    have := ih fun x hx => h x (mem_cons_of_mem _ hx)
    cases e with
    | write w => exact absurd rfl (he w)
    | _ => exact this

private theorem deleteLogEntriesLoop_eq (fuel : Nat) (n : RaftNode) (k : Nat) :
    ∃ d es, deleteLogEntriesLoop fuel n k = n.withLog n.log d es ∧ (n.withLog n.log d es).db = replay n.db es ∧
      ∀ e ∈ es, ∃ i, e = .write (.deleteLog i) := by
  induction fuel generalizing n k with
  | zero => exact ⟨n.db.log, [], by simp [deleteLogEntriesLoop], rfl, by simp⟩
  | succ fuel ih =>
    unfold deleteLogEntriesLoop
    split
    · obtain ⟨d, es, h, hdb, hes⟩ := ih (n.put (.deleteLog k)) (k + 1)
      refine ⟨d, .write (.deleteLog k) :: es, ?_, hdb, ?_⟩
      · rw [h]
        simp [put, apply, withLog]
      · intro e he
        rcases mem_cons.1 he with rfl | he
        · exact ⟨k, rfl⟩
        · exact hes e he
    · exact ⟨n.db.log, [], by simp, rfl, by simp⟩

theorem truncate_eq (l : List LogEntry) (k : Nat) :
    ∃ d es, { n with log := l }.deleteLogEntriesFrom k = n.withLog l d es ∧
      (n.withLog l d es).db = replay n.db es ∧
      ∀ e ∈ es, ∃ i, e = .write (.deleteLog i) := by
  obtain ⟨d, es, h, hdb, hes⟩ := deleteLogEntriesLoop_eq n.db.log.entries.length { n with log := l } k
  exact ⟨d, es, h, hdb, hes⟩

theorem deleteLogRange_eq (k m : Nat) :
    n.deleteLogRange k m = n.withLog n.log ((range' k m).foldl (fun l i => l.erase i) n.db.log)
      ((range' k m).map fun i => .write (.deleteLog i)) := by
  unfold deleteLogRange
  generalize range' k m = is
  induction is generalizing n with
  | nil => simp
  | cons i is ih =>
    simp only [foldl_cons, ih]
    simp [put, apply, withLog]

/-- Changes of stored log entries, the new ones all satisfying `P`. -/
inductive LogWrite (P : LogEntry → Prop) : Effect → Prop
  | delete (i : Nat) : LogWrite P (.write (.deleteLog i))
  | batch (es : List (Nat × LogEntry)) (h : ∀ e ∈ es, P e.2) : LogWrite P (.write (.batchLog es))

/-- `n'` is `n` with another log, of entries of `n` and others that satisfy `P`, and the database has changed as
the effects say. -/
def Relogged (P : LogEntry → Prop) (n n' : RaftNode) : Prop :=
  ∃ l d es, n' = n.withLog l d es ∧ n'.db = replay n.db es ∧ (∀ e ∈ es, LogWrite P e) ∧ ∀ e ∈ l, e ∈ n.log ∨ P e

section Relogged

variable {P : LogEntry → Prop} {n m n' : RaftNode} {batch : List (Nat × LogEntry)} {l : List LogEntry}
  {x : LogEntry}

namespace Relogged

private theorem setLog (h : ∀ e ∈ l, e ∈ n.log ∨ P e) : Relogged P n { n with log := l } :=
  ⟨l, n.db.log, [], by simp [withLog], rfl, by simp, h⟩

theorem refl : Relogged P n n := setLog fun _ => .inl

theorem trans (h : Relogged P n m) (h' : Relogged P m n') : Relogged P n n' := by
  obtain ⟨l, d, es, rfl, hdb, hes, hl⟩ := h
  obtain ⟨l', d', es', rfl, hdb', hes', hl'⟩ := h'
  refine ⟨l', d', es ++ es', withLog_withLog .., ?_, fun e he => (mem_append.1 he).elim (hes e) (hes' e), ?_⟩
  · rw [hdb', hdb]
    simp [replay]
  · exact fun e he => (hl' e he).elim (hl e) .inr

private theorem logged (h : Relogged P n n') : Logged n n' := by
  obtain ⟨l, d, es, rfl, hdb, -⟩ := h
  exact ⟨es, rfl, hdb⟩

theorem truncate (k : Nat) (h : ∀ e ∈ l, e ∈ n.log) :
    Relogged P n ({ n with log := l }.deleteLogEntriesFrom k) := by
  obtain ⟨d, es, heq, hdb, hes⟩ := truncate_eq n l k
  rw [heq]
  refine ⟨l, d, es, rfl, hdb, fun e he => ?_, fun e he => .inl (h e he)⟩
  obtain ⟨i, rfl⟩ := hes e he
  exact .delete i

private theorem append (hx : P x) : Relogged P n { n with log := n.log ++ [x] } :=
  setLog fun e he => (mem_append.1 he).imp_right fun he => by rwa [mem_singleton.1 he]

private theorem save (hb : ∀ b ∈ batch, P b.2) : Relogged P n (n.saveLogEntriesBatch batch) := by
  unfold saveLogEntriesBatch
  split
  · exact refl
  · refine ⟨n.log, _, [.write (.batchLog batch)], rfl, rfl, ?_, fun _ => .inl⟩
    simp only [mem_singleton, forall_eq]
    exact .batch batch hb

end Relogged

private theorem forall_concat (hb : ∀ b ∈ batch, P b.2) (hx : P x) : ∀ b ∈ batch ++ [(k, x)], P b.2 := by
  simp only [forall_mem_append, forall_mem_singleton]
  exact ⟨hb, hx⟩

private theorem mergeEntries_relogged (n : RaftNode) (k : Nat) (hb : ∀ b ∈ batch, P b.2) (hen : ∀ e ∈ ents, P e) :
    Relogged P n (n.mergeEntries batch k ents).1 ∧ ∀ b ∈ (n.mergeEntries batch k ents).2, P b.2 := by
  induction ents generalizing n batch k with
  | nil => exact ⟨.refl, hb⟩
  | cons x ents ih =>
    obtain ⟨hx, hen⟩ := forall_mem_cons.1 hen
    unfold mergeEntries
    split
    · split
      · exact ih n (k + 1) hb hen
      · obtain ⟨h, hb'⟩ := ih _ (k + 1) (forall_concat hb hx) hen
        exact ⟨((Relogged.truncate k fun e he => mem_of_mem_take he).trans (.append hx)).trans h, hb'⟩
    · obtain ⟨h, hb'⟩ := ih _ (k + 1) (forall_concat hb hx) hen
      exact ⟨(Relogged.append hx).trans h, hb'⟩

private theorem appendMissing_relogged (n : RaftNode) (k : Nat) (hb : ∀ b ∈ batch, P b.2) (he : ∀ e ∈ ents, P e) :
    Relogged P n (n.appendMissing batch k ents).1 ∧ ∀ b ∈ (n.appendMissing batch k ents).2, P b.2 := by
  induction ents generalizing n batch k with
  | nil => exact ⟨.refl, hb⟩
  | cons x ents ih =>
    obtain ⟨hx, he⟩ := forall_mem_cons.1 he
    unfold appendMissing
    split
    · obtain ⟨h, hb'⟩ := ih _ (k + 1) (forall_concat hb hx) he
      exact ⟨(Relogged.append hx).trans h, hb'⟩
    · exact ih n (k + 1) hb he

theorem truncateConflict_relogged (n : RaftNode) (k : Nat) (ents : List LogEntry) :
    Relogged P n (n.truncateConflict k ents) := by
  induction ents generalizing k with
  | nil => exact .refl
  | cons x ents ih =>
    unfold truncateConflict
    split
    · split
      · exact ih (k + 1)
      · exact .truncate k fun e he => mem_of_mem_take he
    · exact .refl

private theorem truncateAtSnapshot_relogged (n : RaftNode) (t : Nat) : Relogged P n (n.truncateAtSnapshot t) := by
  unfold truncateAtSnapshot
  split
  · split
    · exact .refl
    · exact .truncate _ (by simp)
  · exact .refl

/-- The mark that a node sets when it has taken over the entries of a message. -/
def replicatedMark (n : RaftNode) (a : AppendEntriesArgs) : Effect :=
  .replicated n.currentTerm (a.prevLogIndex + a.entries.length)

private theorem appendAtSnapshot_relogged (n : RaftNode) (a : AppendEntriesArgs) :
    ∃ m, Relogged (· ∈ a.entries) n m ∧ n.appendAtSnapshot a = m.emit (n.replicatedMark a) := by
  have h1 := truncateAtSnapshot_relogged (P := (· ∈ a.entries)) n a.prevLogTerm
  obtain ⟨h2, hb⟩ :=
    mergeEntries_relogged (P := (· ∈ a.entries)) (n.truncateAtSnapshot a.prevLogTerm) (a.prevLogIndex + 1)
    (forall_mem_nil _) fun _ he => he
  exact ⟨_, (h1.trans h2).trans (.save hb), rfl⟩

private theorem appendAfterSnapshot_relogged (n : RaftNode) (a : AppendEntriesArgs) :
    ∃ m, Relogged (· ∈ a.entries) n m ∧ n.appendAfterSnapshot a = m.emit (n.replicatedMark a) := by
  have h1 := truncateConflict_relogged (P := (· ∈ a.entries)) n (a.prevLogIndex + 1) a.entries
  obtain ⟨h2, hb⟩ :=
    appendMissing_relogged (P := (· ∈ a.entries)) (n.truncateConflict (a.prevLogIndex + 1) a.entries)
    (a.prevLogIndex + 1) (forall_mem_nil _) fun _ he => he
  exact ⟨_, (h1.trans h2).trans (.save hb), rfl⟩

private theorem Relogged.emit (h : Relogged P n m) (e : Effect) : ∃ l d es, m.emit e = n.withLog l d (es ++ [e]) ∧
    (∀ e ∈ es, LogWrite P e) ∧ ∀ e ∈ l, e ∈ n.log ∨ P e := by
  obtain ⟨l, d, es, rfl, -, hes, hl⟩ := h
  exact ⟨l, d, es, by simp [withLog, RaftNode.emit], hes, hl⟩

section

variable (n : RaftNode) (a : AppendEntriesArgs)

theorem appendAtSnapshot_eq : ∃ l d es, n.appendAtSnapshot a = n.withLog l d (es ++ [n.replicatedMark a]) ∧
      (∀ e ∈ es, LogWrite (· ∈ a.entries) e) ∧ ∀ e ∈ l, e ∈ n.log ∨ e ∈ a.entries := by
  obtain ⟨m, h, heq⟩ := appendAtSnapshot_relogged n a
  rw [heq]
  exact h.emit _

theorem appendAfterSnapshot_eq : ∃ l d es, n.appendAfterSnapshot a = n.withLog l d (es ++ [n.replicatedMark a]) ∧
      (∀ e ∈ es, LogWrite (· ∈ a.entries) e) ∧ ∀ e ∈ l, e ∈ n.log ∨ e ∈ a.entries := by
  obtain ⟨m, h, heq⟩ := appendAfterSnapshot_relogged n a
  rw [heq]
  exact h.emit _

theorem Logged.appendAtSnapshot : Logged n (n.appendAtSnapshot a) := by
  obtain ⟨m, h, heq⟩ := appendAtSnapshot_relogged n a
  rw [heq]
  exact h.logged.trans (.emit _ _ (by simp [replicatedMark]))

theorem Logged.appendAfterSnapshot : Logged n (n.appendAfterSnapshot a) := by
  obtain ⟨m, h, heq⟩ := appendAfterSnapshot_relogged n a
  rw [heq]
  exact h.logged.trans (.emit _ _ (by simp [replicatedMark]))

end

end Relogged

/-- What applying the next entry of `n` can do. -/
inductive ApplyEffect (n : RaftNode) : Effect → Prop
  | config (c : ClusterConfiguration) (e : LogEntry) (h : n.log[n.lastApplied + 1 - n.lastIncludedIndex]? = some e)
      (hr : e.command.reconfigures = true) : ApplyEffect n (.write (.putClusterConfig c))
  | changeState (s : ConfigChangeState) (e : LogEntry)
      (h : n.log[n.lastApplied + 1 - n.lastIncludedIndex]? = some e)
      (hr : e.command.reconfigures = true) : ApplyEffect n (.write (.putConfigChangeState s))
  | applied (e : LogEntry) (h : n.log[n.lastApplied + 1 - n.lastIncludedIndex]? = some e) :
      ApplyEffect n (.applied (n.lastApplied + 1) e)
  | read (r : ReadIndexRequest) (hr : r ∈ n.pendingReadIndices) (hc : r.majorityConfirmed = true)
      (hle : r.readIndex ≤ n.lastApplied + 1) :
      ApplyEffect n (.replyRead r.replyTx (.ok r.readIndex) (n.lastApplied + 1))
  | reply (tx : Nat) (h : n.pendingReplies.lookup (n.lastApplied + 1) = some tx) :
      ApplyEffect n (.reply tx (.ok ()))

def Tracking.SameConfig (t : Tracking) : Prop :=
  t.clusterConfig = n.clusterConfig ∧ t.configChangeState = n.configChangeState ∧
    t.storedConfig = n.db.clusterConfig ∧ t.storedState = n.db.configChangeState

theorem Tracking.SameConfig.refl : Tracking.SameConfig n n.tracking := ⟨rfl, rfl, rfl, rfl⟩

theorem checkReadIndices_eq : ∃ r es, n.checkReadIndices = { n with pendingReadIndices := r, out := n.out ++ es } ∧
      ∀ e ∈ es, ∃ x ∈ n.pendingReadIndices, x.majorityConfirmed = true ∧ x.readIndex ≤ n.lastApplied ∧
        e = .replyRead x.replyTx (.ok x.readIndex) n.lastApplied := by
  refine ⟨_, _, rfl, ?_⟩
  intro e he
  simp only [mem_map, mem_reverse, mem_filter, Bool.and_eq_true, decide_eq_true_eq] at he
  obtain ⟨x, ⟨hx, hc, hle⟩, rfl⟩ := he
  exact ⟨x, hx, hc, hle, rfl⟩

theorem applyMembershipCommand_eq (c : MembershipCommand) :
    ∃ t es, n.applyMembershipCommand c = n.withTracking t es ∧
      (Command.reconfigures (.membership c) = false → es = [] ∧ Tracking.SameConfig n t) ∧
      ∀ e ∈ es, (∃ c, e = .write (.putClusterConfig c)) ∨ ∃ s, e = .write (.putConfigChangeState s) := by
  have hs : ∀ m : RaftNode, m.saveConfig = m.withTracking
      { m.tracking with storedConfig := some m.clusterConfig, storedState := some m.configChangeState }
      [.write (.putClusterConfig m.clusterConfig), .write (.putConfigChangeState m.configChangeState)] := by
    intro m
    simp [saveConfig, put, apply, withTracking, tracking]
  cases c with
  | beginJointConsensus o m v | finalizeConfiguration m v =>
    refine ⟨_, _, hs _, by simp [Command.reconfigures], ?_⟩
    simp
  | addServer k addr =>
    refine ⟨(n.applyMembershipCommand (.addServer k addr)).tracking, [], ?_, fun _ => ⟨rfl, ?_⟩, by simp⟩
    · simp only [applyMembershipCommand]
      split <;> simp [withTracking, tracking]
    · simp only [applyMembershipCommand, tracking]
      split <;> exact ⟨rfl, rfl, rfl, rfl⟩
  | removeServer k =>
    refine ⟨(n.applyMembershipCommand (.removeServer k)).tracking, [], ?_, fun _ => ⟨rfl, ?_⟩, by simp⟩
    · simp only [applyMembershipCommand]
      split <;> simp [withTracking, tracking]
    · simp only [applyMembershipCommand, tracking]
      split <;> exact ⟨rfl, rfl, rfl, rfl⟩
  | addServers _ | removeServers _ =>
    exact ⟨n.tracking, [], by simp [applyMembershipCommand], fun _ => ⟨rfl, .refl n⟩, by simp⟩

theorem applyEntry_eq (entry : LogEntry) :
    ∃ t s clock es, n.applyEntry entry = { n.withTracking t es with appState := s, clock := clock } ∧
      (entry.command.reconfigures = false → es = [] ∧ Tracking.SameConfig n t) ∧
      (entry.command.isMembership = false → t = n.tracking) ∧
      ∀ e ∈ es, (∃ c, e = .write (.putClusterConfig c)) ∨ ∃ s, e = .write (.putConfigChangeState s) := by
  unfold applyEntry
  split
  · rename_i c hc
    obtain ⟨t, es, h, hr, hes⟩ := applyMembershipCommand_eq n c
    exact ⟨t, n.appState, n.clock, es, h, by rw [hc]; exact hr, by simp [hc, Command.isMembership], hes⟩
  · refine ⟨n.tracking, (n.applyCommand entry.command).appState, (n.applyCommand entry.command).clock, [], ?_,
      fun _ => ⟨rfl, .refl n⟩, fun _ => rfl, by simp⟩
    unfold applyCommand
    split <;> simp [withTracking, tracking]

def answer (k : Nat) : List Effect := (n.pendingReplies.lookup k).toList.map fun tx => .reply tx (.ok ())

theorem mem_answer {n : RaftNode} {e : Effect} (h : e ∈ n.answer k) :
    ∃ tx, n.pendingReplies.lookup k = some tx ∧ e = .reply tx (.ok ()) := by
  obtain ⟨tx, htx, rfl⟩ := mem_map.1 h
  exact ⟨tx, Option.mem_toList.1 htx, rfl⟩

private theorem replyApplied_eq : n.replyApplied =
      { n with pendingReplies := n.pendingReplies.erase n.lastApplied, out := n.out ++
        n.answer n.lastApplied } := by
  unfold replyApplied answer
  split
  · rename_i tx htx
    simp [emit, htx]
  · rename_i htx
    have he : n.pendingReplies.erase n.lastApplied = n.pendingReplies := by
      rw [AList.ext_iff]
      exact kerase_of_notMem_keys (AList.lookup_eq_none.1 htx)
    simp [htx, he]

/-- The answers to those who wait for an entry. -/
inductive Answer : Effect → Prop
  | reply (tx : Nat) : Answer (.reply tx (.ok ()))
  | read (tx k m : Nat) : Answer (.replyRead tx (.ok k) m)

/-- Applying the next entry, if there is one, and then answering. -/
theorem applyNext_induction {P : RaftNode → Prop} (n : RaftNode)
    (hn : n.log[n.lastApplied + 1 - n.lastIncludedIndex]? = none → P { n with lastApplied := n.lastApplied + 1 })
    (hs : ∀ entry, n.log[n.lastApplied + 1 - n.lastIncludedIndex]? = some entry →
      P (({ n with lastApplied := n.lastApplied + 1 }.applyEntry entry).emit (.applied (n.lastApplied + 1) entry)))
    (ha : ∀ m reads replies es, P m → (∀ e ∈ es, Answer e) →
      P { m with pendingReadIndices := reads, pendingReplies := replies, out := m.out ++ es }) :
        P n.applyNext := by
  have hr : ∀ m, P m → P m.checkReadIndices := by
    intro m hm
    obtain ⟨reads, es, h, hes⟩ := checkReadIndices_eq m
    rw [h]
    refine ha m reads m.pendingReplies es hm fun e he => ?_
    obtain ⟨x, -, -, -, rfl⟩ := hes e he
    exact .read _ _ _
  have hrp : ∀ m, P m → P m.replyApplied := by
    intro m hm
    rw [replyApplied_eq]
    refine ha m m.pendingReadIndices _ _ hm fun e he => ?_
    obtain ⟨tx, -, rfl⟩ := mem_answer he
    exact .reply tx
  unfold applyNext
  refine hrp _ ?_
  dsimp only
  split
  · rename_i entry hen
    exact hr _ (hs entry hen)
  · rename_i hen
    exact hn hen

theorem applyNext_eq : ∃ t s clock reads es,
      n.applyNext = n.withApplied t s clock reads (n.pendingReplies.erase (n.lastApplied + 1)) es ∧
      (∀ e ∈ es, ApplyEffect n e) ∧
      ((∀ e, n.log[n.lastApplied + 1 - n.lastIncludedIndex]? = some e → e.command.reconfigures = false) →
        Tracking.SameConfig n t) ∧
      ((∀ e, n.log[n.lastApplied + 1 - n.lastIncludedIndex]? = some e → e.command.isMembership = false) →
        t = n.tracking) ∧
      ∃ es', es = es' ++ n.answer (n.lastApplied + 1) ∧ (∀ e ∈ es', ∀ tx r, e ≠ .reply tx r) ∧
        ∀ e, n.log[n.lastApplied + 1 - n.lastIncludedIndex]? = some e → .applied (n.lastApplied + 1) e ∈ es' := by
  have ha : ∀ e ∈ n.answer (n.lastApplied + 1), ApplyEffect n e := by
    intro e he
    obtain ⟨tx, htx, rfl⟩ := mem_answer he
    exact .reply tx htx
  unfold applyNext
  rw [replyApplied_eq]
  dsimp only
  split
  · rename_i entry hen
    have hen : n.log[n.lastApplied + 1 - n.lastIncludedIndex]? = some entry := hen
    obtain ⟨t, s, clock, es1, h1, hr1, hm1, hes1⟩ :=
      applyEntry_eq { n with lastApplied := n.lastApplied + 1 } entry
    rw [h1]
    obtain ⟨reads, es2, h2, hes2⟩ := checkReadIndices_eq
      ({ withTracking { n with lastApplied := n.lastApplied + 1 } t es1 with appState := s, clock := clock }.emit
        (.applied (n.lastApplied + 1) entry))
    rw [h2]
    refine ⟨t, s, clock, reads, _, ?_, ?_, fun hr => (hr1 (hr entry hen)).2, fun hm => hm1 (hm entry hen),
      es1 ++ [.applied (n.lastApplied + 1) entry] ++ es2, rfl, ?_, ?_⟩
    · simp [withApplied, withTracking, emit, answer]
    · intro e he
      simp only [mem_append, mem_singleton] at he
      rcases he with ((he | rfl) | he) | he
      · have hrec : entry.command.reconfigures = true := by
          by_contra hne
          rw [(hr1 (by simpa using hne)).1] at he
          simp at he
        rcases hes1 e he with ⟨c, rfl⟩ | ⟨c, rfl⟩
        · exact .config c entry hen hrec
        · exact .changeState c entry hen hrec
      · exact .applied entry hen
      · obtain ⟨x, hx, hc, hle, rfl⟩ := hes2 e he
        exact .read x hx hc hle
      · exact ha e he
    · rintro e he tx r rfl
      simp only [mem_append, mem_singleton, reduceCtorEq, or_false] at he
      rcases he with he | he
      · simpa using hes1 _ he
      · simpa using hes2 _ he
    · intro e he
      simp [Option.some.inj (hen.symm.trans he)]
  · rename_i hn
    exact ⟨n.tracking, n.appState, n.clock, n.pendingReadIndices, _,
      by simp [withApplied, withTracking, tracking, answer],
      ha, fun _ => .refl n, fun _ => rfl, [], rfl, by simp, fun e he => absurd (hn.symm.trans he) (by simp)⟩

theorem applyNext_fields : n.applyNext.log = n.log ∧ n.applyNext.lastIncludedIndex = n.lastIncludedIndex ∧
      n.applyNext.lastApplied = n.lastApplied + 1 ∧ n.applyNext.id = n.id ∧
        n.applyNext.commitIndex = n.commitIndex := by
  obtain ⟨t, s, clock, reads, es, h, -⟩ := applyNext_eq n
  rw [h]
  exact ⟨rfl, rfl, rfl, rfl, rfl⟩

/-- The peers with their match indices after an entry that does not replace the configuration: some are dropped,
and a new one starts at the snapshot. -/
def KeepsMatches (n n' : RaftNode) : Prop :=
  n'.matchIndex.length = n'.peers.length ∧
    ∀ x ∈ n'.peers.zip n'.matchIndex, x ∈ n.peers.zip n.matchIndex ∨ x.2 = n.lastIncludedIndex

private theorem mem_zip_eraseIdx {α β : Type*} {l : List α} {m : List β} {x : α × β}
    (hx : x ∈ (l.eraseIdx k).zip (m.eraseIdx k)) : x ∈ l.zip m := by
  obtain ⟨p, hp⟩ := getElem?_of_mem hx
  rw [getElem?_zip_eq_some, getElem?_eraseIdx, getElem?_eraseIdx] at hp
  split at hp
  · exact mem_of_getElem? (getElem?_zip_eq_some.2 hp)
  · exact mem_of_getElem? (getElem?_zip_eq_some.2 hp)

private theorem applyEntry_matches (entry : LogEntry) (hs : n.matchIndex.length = n.peers.length)
    (hr : entry.command.reconfigures = false) : KeepsMatches n (n.applyEntry entry) := by
  have hsl : KeepsMatches n n := ⟨hs, fun _ => .inl⟩
  unfold applyEntry
  split
  · rename_i c hc
    rw [hc] at hr
    cases c with
    | beginJointConsensus | finalizeConfiguration => cases hr
    | addServer k addr =>
      simp only [applyMembershipCommand]
      split
      · exact hsl
      · refine ⟨by simp [hs], fun x hx => ?_⟩
        rw [zip_append hs.symm] at hx
        rcases mem_append.1 hx with hx | hx
        · exact .inl hx
        · simp only [zip_cons_cons, zip_nil_right, mem_singleton] at hx
          exact .inr (by rw [hx])
    | removeServer k =>
      simp only [applyMembershipCommand]
      split
      · rename_i hk
        refine ⟨?_, fun x hx => .inl (mem_zip_eraseIdx hx)⟩
        rw [length_eraseIdx_of_lt (by omega), length_eraseIdx_of_lt hk, hs]
      · exact hsl
    | addServers | removeServers => exact hsl
  · unfold applyCommand
    split <;> exact hsl

theorem applyNext_matches (hs : n.matchIndex.length = n.peers.length)
    (hr : ∀ e, n.log[n.lastApplied + 1 - n.lastIncludedIndex]? = some e → e.command.reconfigures = false) :
    KeepsMatches n n.applyNext :=
  applyNext_induction n (fun _ => ⟨hs, fun _ => .inl⟩)
    (fun entry he => applyEntry_matches { n with lastApplied := n.lastApplied + 1 } entry hs (hr entry he))
    fun _ _ _ _ hm _ => hm

/-- What a node does to its log and its snapshot, and answers to reads. -/
inductive Upkeep : Effect → Prop
  | log {P : LogEntry → Prop} {e : Effect} (h : LogWrite P e) : Upkeep e
  | replicated (t k : Nat) : Upkeep (.replicated t k)
  | snapshotMeta (i t : Nat) : Upkeep (.write (.putSnapshotMeta i t))
  | snapshotData (data : SnapshotData) : Upkeep (.write (.putSnapshotData data))
  | read (tx : Nat) (r : Except (Option String) Nat) (k : Nat) : Upkeep (.replyRead tx r k)

theorem Upkeep.replicate {P : LogEntry → Prop} (hes : ∀ e ∈ es, LogWrite P e) {t : Nat} :
    ∀ e ∈ es ++ [.replicated t k], Upkeep e := by
  intro e he
  rcases mem_append.1 he with he | he
  · exact .log (hes e he)
  · rw [mem_singleton.1 he]
    exact .replicated t k

theorem Upkeep.snapshot (i t : Nat) (data : SnapshotData) (is : List Nat) :
    ∀ e ∈ [.write (.putSnapshotMeta i t), .write (.putSnapshotData data)] ++ is.map fun i => .write (.deleteLog i),
      Upkeep e := by
  simp only [mem_append, mem_cons, not_mem_nil, or_false, mem_map]
  rintro e ((rfl | rfl) | ⟨i, -, rfl⟩)
  · exact .snapshotMeta i t
  · exact .snapshotData data
  · exact .log (.delete (P := fun _ => True) i)

theorem Upkeep.checkReads :
    ∃ r es, n.checkReadIndices = { n with pendingReadIndices := r, out := n.out ++ es } ∧ ∀ e ∈ es, Upkeep e := by
  obtain ⟨r, es, h, hes⟩ := checkReadIndices_eq n
  refine ⟨r, es, h, fun e he => ?_⟩
  obtain ⟨x, -, -, -, rfl⟩ := hes e he
  exact .read _ _ _

def drained (hint : Option String) : List Effect :=
  n.pendingReplies.entries.map (fun p => .reply p.2 (.error hint)) ++
    n.pendingReadIndices.map fun r => .replyRead r.replyTx (.error hint) n.lastApplied

def demoted (t : Nat) : RaftNode := { n with role := .follower }.observeTerm t

section

variable (n : RaftNode) (t : Nat)

theorem demoted_of_lt (h : n.currentTerm < t) : n.demoted t = { n with
      role := .follower
      currentTerm := t
      votedFor := none
      db := { n.db with term := some t, vote := none }
      out := n.out ++ [.write (.putTerm t), .write .deleteVote] } := by
  simp [demoted, observeTerm, h, saveTerm, saveVote, put, apply]

theorem demoted_of_le (h : t ≤ n.currentTerm) : n.demoted t = { n with role := .follower } := by
  simp [demoted, observeTerm, Nat.not_lt.2 h]

theorem stepDownToFollower_of_leader (hint : Option String) (h : n.role = .leader) :
    ∃ addr, n.stepDownToFollower t hint = { n.demoted t with
      currentLeaderAddress := addr
      pendingReplies := ∅
      pendingReadIndices := []
      out := (n.demoted t).out ++ n.drained hint } := by
  refine ⟨(n.stepDownToFollower t hint).currentLeaderAddress, ?_⟩
  rcases Nat.lt_or_ge n.currentTerm t with ht | ht
  · simp only [demoted_of_lt n t ht]
    cases hint <;>
      simp [stepDownToFollower, h, drainPending, drained, observeTerm, ht, saveTerm, saveVote, put, apply]
  · simp only [demoted_of_le n t ht]
    cases hint <;> simp [stepDownToFollower, h, drainPending, drained, observeTerm, Nat.not_lt.2 ht]

theorem stepDownToFollower_of_not_leader (hint : Option String) (h : n.role ≠ .leader) :
    ∃ addr, n.stepDownToFollower t hint = { n.demoted t with currentLeaderAddress := addr } := by
  refine ⟨(n.stepDownToFollower t hint).currentLeaderAddress, ?_⟩
  cases hint <;> simp [stepDownToFollower, h, demoted]

end

/-- The answers to those who wait when a leader steps down. -/
inductive Refusal : Effect → Prop
  | reply (tx : Nat) (hint : Option String) : Refusal (.reply tx (.error hint))
  | read (tx : Nat) (hint : Option String) (k : Nat) : Refusal (.replyRead tx (.error hint) k)

section

variable (n : RaftNode)

/-- Stepping down is becoming a follower, and then refusing what waits. -/
theorem stepDownToFollower_induction {P : RaftNode → Prop} (t : Nat) (hint : Option String)
    (hlt : n.currentTerm < t → P { n with
      role := .follower
      currentTerm := t
      votedFor := none
      db := { n.db with term := some t, vote := none }
      out := n.out ++ [.write (.putTerm t), .write .deleteVote] })
    (hle : t ≤ n.currentTerm → P { n with role := .follower })
    (hdr : ∀ m addr replies reads es, P m → (∀ e ∈ es, Refusal e) → P { m with
      currentLeaderAddress := addr, pendingReplies := replies, pendingReadIndices := reads, out := m.out ++ es }) :
    P (n.stepDownToFollower t hint) := by
  have hd : P (n.demoted t) := by
    rcases Nat.lt_or_ge n.currentTerm t with ht | ht
    · rw [demoted_of_lt n t ht]
      exact hlt ht
    · rw [demoted_of_le n t ht]
      exact hle ht
  by_cases hl : n.role = .leader
  · obtain ⟨addr, hs⟩ := stepDownToFollower_of_leader n t hint hl
    rw [hs]
    refine hdr _ addr _ _ _ hd fun e he => ?_
    simp only [drained, mem_append, mem_map] at he
    rcases he with ⟨p, -, rfl⟩ | ⟨r, -, rfl⟩
    · exact .reply _ _
    · exact .read _ _ _
  · obtain ⟨addr, hs⟩ := stepDownToFollower_of_not_leader n t hint hl
    rw [hs]
    simpa using hdr _ addr (n.demoted t).pendingReplies (n.demoted t).pendingReadIndices [] hd (by simp)

theorem standForElection_eq : n.standForElection = { n with
      role := .candidate
      currentTerm := n.currentTerm + 1
      votedFor := some n.id
      votesReceived := 1
      voters := {n.id}
      db := { n.db with term := some (n.currentTerm + 1), vote := some n.id }
      out := n.out ++ [.write (.putTerm (n.currentTerm + 1)), .write (.putVote n.id),
        .voted (n.currentTerm + 1) n.id] } := by
  simp [standForElection, saveTerm, saveVote, put, emit, apply]

theorem grantVote_eq (c : Nat) : n.grantVote c = { n with
      votedFor := some c
      db := { n.db with vote := some c }
      out := n.out ++ [.write (.putVote c), .voted n.currentTerm c] } := by
  simp [grantVote, saveVote, put, emit, apply]

theorem takeLeadership_eq : ∃ next, n.takeLeadership = { n with
      role := .leader
      currentLeader := some n.id
      currentLeaderAddress := some n.clientAddress
      log := n.log ++ [⟨n.currentTerm, .noOp⟩]
      nextIndex := next
      matchIndex := replicate n.peers.length n.lastIncludedIndex
      db := { n.db with log := n.db.log.insert (n.log.length + n.lastIncludedIndex) ⟨n.currentTerm, .noOp⟩ }
      out := n.out ++ [.becameLeader n.currentTerm,
        .write (.putLog (n.log.length + n.lastIncludedIndex) ⟨n.currentTerm, .noOp⟩)] } := by
  refine ⟨replicate n.peers.length (n.log.length + 1 + n.lastIncludedIndex), ?_⟩
  simp [takeLeadership, saveLogEntry, put, emit, apply, lastLogIndex]

theorem createSnapshot_eq : n.createSnapshot = { n with
      lastIncludedTerm := n.snapshotTerm
      log := ⟨n.snapshotTerm, .noOp⟩ :: n.log.drop (n.lastApplied - n.lastIncludedIndex + 1)
      lastIncludedIndex := n.lastApplied
      db := { n.db with
        snapshotMeta := some (n.lastApplied, n.snapshotTerm)
        snapshotData := some n.appState.serialize
        log := (range' (n.lastIncludedIndex + 1) (n.lastApplied - n.lastIncludedIndex)).foldl
          (fun l i => l.erase i) n.db.log }
      out := n.out ++ [.write (.putSnapshotMeta n.lastApplied n.snapshotTerm),
        .write (.putSnapshotData n.appState.serialize)] ++
        (range' (n.lastIncludedIndex + 1) (n.lastApplied - n.lastIncludedIndex)).map
          fun i => .write (.deleteLog i) } := by
  simp [createSnapshot, deleteLogRange_eq, put, apply, withLog]

theorem installSnapshot_eq (i t : Nat) (data : SnapshotData) : n.installSnapshot i t data = { n with
      lastIncludedIndex := i
      lastIncludedTerm := t
      log := [⟨t, .noOp⟩]
      commitIndex := i
      lastApplied := i
      appState := data.restore n.appState
      db := { n.db with
        snapshotMeta := some (i, t)
        snapshotData := some data
        log := (range' (n.lastIncludedIndex + 1) (i - n.lastIncludedIndex)).foldl (fun l i => l.erase i) n.db.log }
      out := n.out ++ [.write (.putSnapshotMeta i t), .write (.putSnapshotData data)] ++
        (range' (n.lastIncludedIndex + 1) (i - n.lastIncludedIndex)).map fun i => .write (.deleteLog i) } := by
  simp [installSnapshot, deleteLogRange_eq, put, apply, withLog]

end

def acceptedRequests (requests : List (Command × Nat)) : List ((Nat × LogEntry) × Nat) :=
  (n.batchEntries requests).zip (requests.map Prod.snd)

section

variable (n : RaftNode)

theorem acceptRequests_eq (requests : List (Command × Nat)) (h : requests ≠ []) :
    n.acceptRequests requests = { n with
      log := n.log ++ (n.batchEntries requests).map Prod.snd
      pendingReplies := (n.acceptedRequests requests).foldl (fun p r => p.insert r.1.1 r.2) n.pendingReplies
      db := { n.db with log := (n.batchEntries requests).foldl (fun l e => l.insert e.1 e.2) n.db.log }
      out := n.out ++ [.write (.batchLog (n.batchEntries requests))] ++
        (n.acceptedRequests requests).map fun r => .accepted r.2 r.1.1 r.1.2 } := by
  have hne : (n.batchEntries requests).isEmpty = false := by
    cases requests with
    | nil => exact absurd rfl h
    | cons r rs => simp [batchEntries]
  simp [acceptRequests, saveLogEntriesBatch, hne, put, apply, acceptedRequests]

private theorem replicateTo_eq (i : Nat) (peer : String) :
    ∃ next es, n.replicateTo i peer = { n with nextIndex := next, out := n.out ++ es } := by
  unfold replicateTo
  split
  · exact ⟨n.nextIndex, [], by simp⟩
  · split
    · exact ⟨n.nextIndex, [.send peer (.installSnapshot n.snapshotMessage)], rfl⟩
    · dsimp only
      split
      · exact ⟨_, [], by simp; rfl⟩
      · exact ⟨n.nextIndex, _, rfl⟩

theorem heartbeatPeer_eq (rank : Nat) (peer : Nat × String × Bool) :
    ∃ next es, n.heartbeatPeer rank peer = { n with nextIndex := next, out := n.out ++ es } := by
  unfold heartbeatPeer
  split
  · exact ⟨n.nextIndex, [], by simp⟩
  · exact replicateTo_eq n _ _

theorem sendHeartbeats_eq : ∃ next es, n.sendHeartbeats = { n with nextIndex := next, out := n.out ++ es } := by
  unfold sendHeartbeats
  generalize n.combinedPeers.zipIdx = ps
  induction ps generalizing n with
  | nil => exact ⟨n.nextIndex, [], by simp⟩
  | cons p ps ih =>
    obtain ⟨next1, es1, h1⟩ := heartbeatPeer_eq n p.2 p.1
    obtain ⟨next2, es2, h2⟩ := ih (n.heartbeatPeer p.2 p.1)
    refine ⟨next2, es1 ++ es2, ?_⟩
    rw [foldl_cons, h2, h1]
    simp

theorem applyLogs_frame :
    n.applyLogs.id = n.id ∧ n.applyLogs.role = n.role ∧ n.applyLogs.currentTerm = n.currentTerm ∧
      ∃ es, n.applyLogs.out = n.out ++ es := by
  unfold applyLogs
  generalize n.commitIndex - n.lastApplied = k
  induction k generalizing n with
  | zero => exact ⟨rfl, rfl, rfl, [], by simp⟩
  | succ k ih =>
    obtain ⟨t, s, clock, reads, es, h, -⟩ := applyNext_eq n
    obtain ⟨h1, h2, h3, es', h4⟩ := ih n.applyNext
    rw [Function.iterate_succ_apply, h1, h2, h3, h4, h]
    exact ⟨rfl, rfl, rfl, es ++ es', by simp [withApplied, withTracking]⟩

@[simp] theorem stepDownToFollower_role (n : RaftNode) (t : Nat) (hint : Option String) :
    (n.stepDownToFollower t hint).role = .follower :=
  stepDownToFollower_induction (P := fun m => m.role = .follower) n t hint (fun _ => rfl) (fun _ => rfl)
    fun _ _ _ _ _ hm _ => hm

theorem stepDownToFollower_currentTerm (t : Nat) (hint : Option String) (h : n.currentTerm ≤ t) :
    (n.stepDownToFollower t hint).currentTerm = t :=
  stepDownToFollower_induction (P := fun m => m.currentTerm = t) n t hint (fun _ => rfl)
    (fun ht => Nat.le_antisymm h ht)
    fun _ _ _ _ _ hm _ => hm

theorem stepDownToFollower_log (t : Nat) (hint : Option String) : (n.stepDownToFollower t hint).log = n.log ∧
      (n.stepDownToFollower t hint).lastIncludedIndex = n.lastIncludedIndex ∧
      (n.stepDownToFollower t hint).commitIndex = n.commitIndex ∧
      (n.stepDownToFollower t hint).lastApplied = n.lastApplied :=
  stepDownToFollower_induction (P := fun m => m.log = n.log ∧ m.lastIncludedIndex = n.lastIncludedIndex ∧
    m.commitIndex = n.commitIndex ∧ m.lastApplied = n.lastApplied) n t hint (fun _ => ⟨rfl, rfl, rfl, rfl⟩)
    (fun _ => ⟨rfl, rfl, rfl, rfl⟩) fun _ _ _ _ _ hm _ => hm

private theorem Logged.deleteLogRange (k m : Nat) : Logged n (n.deleteLogRange k m) := by
  unfold RaftNode.deleteLogRange
  generalize range' k m = is
  induction is generalizing n with
  | nil => exact .refl n
  | cons i is ih => exact (Logged.put n _).trans (ih _)

theorem Logged.applyNext : Logged n n.applyNext := by
  have hs : ∀ m : RaftNode, Logged m m.saveConfig := fun m => (Logged.put m _).trans (Logged.put _ _)
  have hen : ∀ (m : RaftNode) (e : LogEntry), Logged m (m.applyEntry e) := by
    intro m e
    unfold RaftNode.applyEntry
    split
    · unfold applyMembershipCommand
      split
      · exact .trans (.of_eq rfl rfl) (hs _)
      · exact .trans (.of_eq rfl rfl) (hs _)
      · split <;> exact .refl m
      · split <;> exact .refl m
      · exact .refl m
      · exact .refl m
    · unfold RaftNode.applyCommand
      split <;> exact .refl m
  refine applyNext_induction n (fun _ => .of_eq rfl rfl) (fun entry _ => ?_) fun m _ _ es hm hes => ?_
  · exact .trans (.of_eq rfl rfl) ((hen { n with lastApplied := n.lastApplied + 1 } entry).trans
      (.emit _ _ (by simp)))
  · exact hm.trans (.append rfl rfl fun e he w => by cases hes e he <;> simp)

theorem Logged.stepDownToFollower (t : Nat) (hint : Option String) : Logged n (n.stepDownToFollower t hint) := by
  refine stepDownToFollower_induction n t hint (fun _ => ⟨[.write (.putTerm t), .write .deleteVote], rfl, rfl⟩)
    (fun _ => .of_eq rfl rfl) fun m _ _ _ es hm hes => hm.trans (.append rfl rfl fun e he w => ?_)
  cases hes e he <;> simp

theorem Logged.createSnapshot : Logged n n.createSnapshot :=
  (((Logged.put n _).trans (Logged.put _ _)).trans (Logged.deleteLogRange _ _ _)).trans (.of_eq rfl rfl)

theorem Logged.installSnapshot (i t : Nat) (data : SnapshotData) : Logged n (n.installSnapshot i t data) := by
  refine Logged.trans ?_ ((Logged.deleteLogRange
    { (n.put (.putSnapshotMeta i t)).put (.putSnapshotData data) with appState := data.restore n.appState }
    (n.lastIncludedIndex + 1) (i - n.lastIncludedIndex)).trans (.of_eq rfl rfl))
  exact ((Logged.put n _).trans (Logged.put _ _)).trans (.of_eq rfl rfl)

theorem Logged.acceptRequests (requests : List (Command × Nat)) (h : requests ≠ []) :
    Logged n (n.acceptRequests requests) := by
  rw [acceptRequests_eq n requests h]
  refine .trans (.put n (.batchLog (n.batchEntries requests))) (.append rfl rfl fun e he w => ?_)
  obtain ⟨r, -, rfl⟩ := mem_map.1 he
  simp

end

end RaftNode

end RustHadoop
