import RustHadoop.Raft.Restart

/-!
# Crashes between two writes

`create_snapshot` and the truncation of the log in `AppendEntries` make several writes, and the process can die
between any two of them.

* `create_snapshot` writes the index of the new snapshot before its data.  A process that dies in between comes
  back with the new index and the old data, unless the commands between the two snapshots changed nothing.
* `delete_log_entries_from` deletes upwards.  A process that dies before the last deletion leaves entries behind
  a gap; once new entries have filled the gap, the next start reads them again.

`crash_recovers_iff` says that these are the only crash points that matter, and `crash_brings_back` gives one run
of each kind.
-/

namespace RustHadoop

open RaftNode List

/-- The entries after index `i` up to the first that is missing are `l`. -/
def Db.Loads (db : Db) (i : Nat) (l : List LogEntry) : Prop :=
  (∀ j e, l[j]? = some e → db.log.lookup (i + 1 + j) = some e) ∧ db.log.lookup (i + 1 + l.length) = none

/-- Nothing is stored from index `i` on. -/
def Db.EndsBefore (db : Db) (i : Nat) : Prop := ∀ k, i ≤ k → db.log.lookup k = none

section Loading

variable {db : Db} {i : Nat} {l : List LogEntry}

private theorem loadLog_spec (db : Db) (fuel k : Nat) :
    (∀ j e, (loadLog db fuel k)[j]? = some e → db.log.lookup (k + j) = some e) ∧
      (loadLog db fuel k).length ≤ fuel ∧
      ((loadLog db fuel k).length < fuel → db.log.lookup (k + (loadLog db fuel k).length) = none) := by
  induction fuel generalizing k with
  | zero => simp [loadLog]
  | succ fuel ih =>
    cases hk : db.log.lookup k with
    | none =>
      have hl : loadLog db (fuel + 1) k = [] := by simp only [loadLog, hk]
      rw [hl]
      exact ⟨by simp, Nat.zero_le _, fun _ => hk⟩
    | some x =>
      have hl : loadLog db (fuel + 1) k = x :: loadLog db fuel (k + 1) := by simp only [loadLog, hk]
      rw [hl]
      obtain ⟨h1, h2, h3⟩ := ih (k + 1)
      refine ⟨fun j e hj => ?_, Nat.succ_le_succ h2, fun hlt => ?_⟩
      · cases j with
        | zero => rwa [← Option.some.inj hj]
        | succ j =>
          rw [← h1 j e hj]
          congr 1
          omega
      · rw [← h3 (Nat.lt_of_succ_lt_succ hlt), length_cons]
        congr 1
        omega

private theorem lookup_eq_none_of_full (db : Db) (k : Nat)
    (h : ∀ j < db.log.entries.length, (db.log.lookup (k + j)).isSome = true) :
    db.log.lookup (k + db.log.entries.length) = none := by
  by_contra hne
  have hsub : range' k (db.log.entries.length + 1) ⊆ db.log.keys := by
    intro x hx
    rw [mem_range'_1] at hx
    rw [← AList.mem_keys, ← AList.lookup_isSome]
    rcases Nat.lt_or_ge x (k + db.log.entries.length) with hlt | hge
    · have := h (x - k) (by omega)
      rwa [show k + (x - k) = x by omega] at this
    · rw [show x = k + db.log.entries.length by omega]
      exact Option.isSome_iff_ne_none.2 hne
  have := (subperm_of_subset nodup_range' hsub).length_le
  simp [AList.keys, keys] at this

private theorem Db.Loads.unique {l' : List LogEntry} (h : db.Loads i l) (h' : db.Loads i l') : l = l' := by
  have hle : ∀ {l l' : List LogEntry}, db.Loads i l → db.Loads i l' → l'.length ≤ l.length := by
    intro l l' h h'
    by_contra hlt
    have := h'.1 l.length _ (getElem?_eq_getElem (by omega))
    rw [h.2] at this
    cases this
  refine ext_getElem (Nat.le_antisymm (hle h' h) (hle h h')) fun j hj hj' => ?_
  have h1 := h.1 j _ (getElem?_eq_getElem hj)
  have h2 := h'.1 j _ (getElem?_eq_getElem hj')
  exact Option.some.inj (h1.symm.trans h2)

private theorem loads_loadLog (db : Db) (i : Nat) : db.Loads i (loadLog db db.log.entries.length (i + 1)) := by
  obtain ⟨h1, h2, h3⟩ := loadLog_spec db db.log.entries.length (i + 1)
  refine ⟨h1, ?_⟩
  rcases Nat.lt_or_ge (loadLog db db.log.entries.length (i + 1)).length db.log.entries.length with hlt | hge
  · exact h3 hlt
  · have hlen : (loadLog db db.log.entries.length (i + 1)).length = db.log.entries.length := Nat.le_antisymm h2 hge
    rw [hlen]
    refine lookup_eq_none_of_full db (i + 1) fun j hj => ?_
    rw [h1 j _ (getElem?_eq_getElem (by omega))]
    rfl

private theorem Db.Loads.eq_loadLog (h : db.Loads i l) : loadLog db db.log.entries.length (i + 1) = l :=
  (loads_loadLog db i).unique h

theorem Db.Loads.boot (h : db.Loads i l) {t : Nat} (hmeta : db.snapshotMeta.getD (0, 0) = (i, t))
    (conf : RaftNodeConfig) : (boot conf db).log = ⟨t, .noOp⟩ :: l := by
  simp [RaftNode.boot, RaftNode.new, loadState, hmeta, h.eq_loadLog]

end Loading

theorem lookup_foldl_indexed (es : List LogEntry) (first : Nat) (l : AList fun _ : Nat => LogEntry) (k : Nat) :
    ((indexed first es).foldl (fun l e => l.insert e.1 e.2) l).lookup k =
      if first ≤ k then (es[k - first]?).or (l.lookup k) else l.lookup k := by
  induction es generalizing first l with
  | nil => simp [indexed]
  | cons e es ih =>
    rw [indexed_cons, foldl_cons, ih]
    rcases Nat.lt_trichotomy k first with hk | rfl | hk
    · rw [if_neg (by omega), if_neg (by omega), AList.lookup_insert_ne (by omega)]
    · rw [if_neg (by omega), if_pos le_rfl, AList.lookup_insert]
      simp
    · rw [if_pos (by omega), if_pos hk.le, AList.lookup_insert_ne (by omega),
        show k - first = k - (first + 1) + 1 by omega, getElem?_cons_succ]

def RaftNode.extend (n : RaftNode) (es : List LogEntry) : RaftNode :=
  { n with log := n.log ++ es }.saveLogEntriesBatch (indexed (n.lastIncludedIndex + n.log.length) es)

section Extending

variable {db : Db} {i t : Nat} {l : List LogEntry} {conf : RaftNodeConfig}

private theorem RaftNode.extend_db (n : RaftNode) (es : List LogEntry) : (n.extend es).db = { n.db with
      log := (indexed (n.lastIncludedIndex + n.log.length) es).foldl (fun l e => l.insert e.1 e.2) n.db.log } := by
  unfold extend saveLogEntriesBatch
  split
  · rename_i he
    rw [isEmpty_iff.1 he]
    rfl
  · rfl

section

variable (h : db.Loads i l) (hmeta : db.snapshotMeta.getD (0, 0) = (i, t))
include h hmeta

private theorem lookup_extend (es : List LogEntry) (k : Nat) : ((boot conf db).extend es).db.log.lookup k =
      if i + 1 + l.length ≤ k then (es[k - (i + 1 + l.length)]?).or (db.log.lookup k) else db.log.lookup k := by
  have hlen : (boot conf db).lastIncludedIndex + (boot conf db).log.length = i + 1 + l.length := by
    have hl : (boot conf db).lastIncludedIndex = i := by
      simp [boot, new, loadState, hmeta]
    rw [hl, h.boot hmeta conf, length_cons]
    omega
  rw [extend_db, hlen, lookup_foldl_indexed]
  rfl

theorem extend_iff_endsBefore : (∀ es, (boot conf ((boot conf db).extend es).db).log = (boot conf db).log ++ es) ↔
      db.EndsBefore (i + 1 + l.length) := by
  have hm' : ∀ es, ((boot conf db).extend es).db.snapshotMeta.getD (0, 0) = (i, t) := by
    intro es
    rw [extend_db]
    exact hmeta
  constructor
  · intro ha k hk
    by_contra hne
    -- fill the gap between the log and the entry that is stored behind it
    have hlog := ha (replicate (k - (i + 1 + l.length)) ⟨0, .noOp⟩)
    rw [h.boot hmeta conf, (loads_loadLog _ i).boot (hm' _) conf, cons_append] at hlog
    have hl := loads_loadLog ((boot conf db).extend (replicate (k - (i + 1 + l.length)) ⟨0, .noOp⟩)).db i
    rw [tail_eq_of_cons_eq hlog] at hl
    have hn := hl.2
    rw [lookup_extend h hmeta, length_append, length_replicate,
      show i + 1 + (l.length + (k - (i + 1 + l.length))) = k by omega, if_pos hk,
      getElem?_eq_none (by simp)] at hn
    exact hne hn
  · intro he es
    have hl : ((boot conf db).extend es).db.Loads i (l ++ es) := by
      refine ⟨fun j e hj => ?_, ?_⟩
      · rw [lookup_extend h hmeta]
        split
        · rw [getElem?_append_right (by omega), show j - l.length = i + 1 + j - (i + 1 + l.length) by omega] at hj
          rw [hj]
          rfl
        · rw [getElem?_append_left (by omega)] at hj
          exact h.1 j e hj
      · rw [lookup_extend h hmeta, length_append, if_pos (by omega), getElem?_eq_none (by omega)]
        exact he _ (by omega)
    rw [hl.boot (hm' es) conf, h.boot hmeta conf]
    rfl

end

end Extending

theorem AppState.serialize_restore (s old : AppState) : (s.serialize.restore old).serialize = s.serialize := by
  cases s <;> rfl

private theorem replay_deletes (db : Db) (is : List Nat) :
    replay db
      (is.map fun i => .write (.deleteLog i)) = { db with log := is.foldl (fun l i => l.erase i) db.log } := by
  induction is generalizing db with
  | nil => rfl
  | cons i is ih =>
    rw [map_cons, foldl_cons]
    exact ih (DbWrite.apply db (.deleteLog i))

variable {logs : List (List LogEntry)} {a : AppendEntriesArgs} {l : List LogEntry} {p : Nat} {db : Db}

namespace RaftNode

/-- Cut the log off before `index` and go on with `entries`: what `AppendEntries` does at a conflict. -/
def overwriteFrom (n : RaftNode) (index : Nat) (entries : List LogEntry) : RaftNode :=
  let n := { n with log := n.log.take (index - n.lastIncludedIndex) }.deleteLogEntriesFrom index
  { n with log := n.log ++ entries }.saveLogEntriesBatch (indexed index entries)

def snapshotWrites (n : RaftNode) : List Effect := (n.ready []).createSnapshot.out

def overwriteWrites (n : RaftNode) (index : Nat) (entries : List LogEntry) : List Effect :=
  ((n.ready []).overwriteFrom index entries).out

/-- A node whose database holds its log and its snapshot; `S k` is the state after the first `k` commands, as it is
serialized. -/
structure Consistent (conf : RaftNodeConfig) (S : Nat → SnapshotData) (n : RaftNode) : Prop where
  snapshot : n.db.snapshotMeta.getD (0, 0) = (n.lastIncludedIndex, n.lastIncludedTerm)
  data : n.db.snapshotMeta = none → n.db.snapshotData = none
  head : n.log.head? = some ⟨n.lastIncludedTerm, .noOp⟩
  stored : n.Stored
  included : n.lastIncludedIndex ≤ n.lastApplied
  applied : n.lastApplied ≤ n.lastLogIndex
  restored : (boot conf n.db).appState.serialize = S n.lastIncludedIndex
  current : n.appState.serialize = S n.lastApplied

/-- A process that is started on the database has the state of its snapshot and one of these logs, and whatever is
appended then, it has the same log and nothing else after another start. -/
structure Recovers (conf : RaftNodeConfig) (S : Nat → SnapshotData) (logs : List (List LogEntry)) (db : Db) :
    Prop where
  state : (boot conf db).appState.serialize = S (boot conf db).lastIncludedIndex
  log : (boot conf db).log ∈ logs
  appends : ∀ es, (boot conf ((boot conf db).extend es).db).log = (boot conf db).log ++ es

variable {conf : RaftNodeConfig} {S : Nat → SnapshotData} {n : RaftNode}

private theorem snapshotWrites_eq (n : RaftNode) :
    n.snapshotWrites = .write (.putSnapshotMeta n.lastApplied n.snapshotTerm) ::
    .write (.putSnapshotData n.appState.serialize) ::
    (range' (n.lastIncludedIndex + 1) (n.lastApplied - n.lastIncludedIndex)).map fun i =>
    .write (.deleteLog i) := by
  rw [snapshotWrites, createSnapshot_eq]
  rfl

variable {db : Db}

private theorem Stored.loads (h : n.Stored) {i : Nat} (hi : n.lastIncludedIndex ≤ i) (hle : i ≤ n.lastLogIndex)
    (hdb : ∀ k, i < k → db.log.lookup k = n.db.log.lookup k) (hpos : 0 < n.log.length) :
    db.Loads i (n.log.drop (i - n.lastIncludedIndex + 1)) ∧ db.EndsBefore (n.lastLogIndex + 1) := by
  have him : ∀ k, i < k → db.log.lookup k = n.log[k - n.lastIncludedIndex]? := by
    intro k hk
    rw [hdb k hk, h k, image, if_pos (by omega)]
  unfold lastLogIndex at hle ⊢
  refine ⟨⟨fun j e hj => ?_, ?_⟩, fun k hk => ?_⟩
  · rw [him _ (by omega), ← hj, getElem?_drop]
    congr 1
    omega
  · rw [him _ (by omega), length_drop]
    exact getElem?_eq_none (by omega)
  · rw [him k (by omega)]
    exact getElem?_eq_none (by omega)

section

variable (h : Consistent conf S n)
include h

private theorem Consistent.log_pos : 0 < n.log.length := by
  have := h.head
  cases hl : n.log with
  | nil => rw [hl] at this; cases this
  | cons => simp

private theorem Consistent.log_eq : n.log = ⟨n.lastIncludedTerm, .noOp⟩ :: n.log.drop 1 := by
  have := h.head
  cases hl : n.log with
  | nil => rw [hl] at this; cases this
  | cons e tail => rw [hl] at this; rw [Option.some.inj this]; rfl

private theorem Consistent.snapshot_log (hmeta : db.snapshotMeta = some (n.lastApplied, n.snapshotTerm))
    (hdb : ∀ k, n.lastApplied < k → db.log.lookup k = n.db.log.lookup k) :
    (boot conf db).lastIncludedIndex = n.lastApplied ∧ (boot conf db).log = n.createSnapshot.log ∧
      ∀ es, (boot conf ((boot conf db).extend es).db).log = (boot conf db).log ++ es := by
  obtain ⟨hl, he⟩ := h.stored.loads h.included h.applied hdb h.log_pos
  have hm' : db.snapshotMeta.getD (0, 0) = (n.lastApplied, n.snapshotTerm) := by rw [hmeta]; rfl
  refine ⟨by simp [boot, new, loadState, hm'], ?_, (extend_iff_endsBefore hl hm').2 ?_⟩
  · rw [hl.boot hm' conf, createSnapshot_eq]
  · have hpos := h.log_pos
    have hi := h.included
    have ha := h.applied
    unfold lastLogIndex at he ha
    rw [length_drop]
    exact fun k hk => he k (by omega)

private theorem Consistent.recovers (hmem : n.log ∈ logs) : Recovers conf S logs n.db := by
  have hle := h.included.trans h.applied
  obtain ⟨hl, he⟩ := h.stored.loads le_rfl hle (fun _ _ => rfl) h.log_pos
  have hlog : (boot conf n.db).log = n.log := by
    rw [hl.boot h.snapshot conf, Nat.sub_self]
    exact h.log_eq.symm
  have hlii : (boot conf n.db).lastIncludedIndex = n.lastIncludedIndex := by
    simp [boot, new, loadState, h.snapshot]
  refine ⟨by rw [hlii]; exact h.restored, by rwa [hlog], (extend_iff_endsBefore hl h.snapshot).2 ?_⟩
  have hpos := h.log_pos
  unfold lastLogIndex at he
  rw [Nat.sub_self, length_drop]
  exact fun k hk => he k (by omega)

private theorem Consistent.restored_of_meta {pos : Nat × Nat}
    (hmeta : db.snapshotMeta = some pos) (hdt : db.snapshotData = n.db.snapshotData) :
    (boot conf db).appState.serialize = S n.lastIncludedIndex := by
  have hn := h.data
  rw [← h.restored]
  simp only [boot, new, loadState, hmeta, hdt]
  cases hm : n.db.snapshotMeta with
  | none => rw [hn hm]
  | some _ => cases n.db.snapshotData <;> rfl

private theorem snapshot_recovers_iff (k : Nat) :
    Recovers conf S [n.log, n.createSnapshot.log] (replay n.db (n.snapshotWrites.take k)) ↔
      (k = 1 → S n.lastApplied = S n.lastIncludedIndex) := by
  rw [snapshotWrites_eq]
  match k with
  | 0 => exact iff_of_true (h.recovers (mem_cons_self ..)) nofun
  | 1 =>
    -- the index without the data
    obtain ⟨db, hdb, hmeta, hdt, hl⟩ :
      ∃ db, replay n.db [.write (.putSnapshotMeta n.lastApplied n.snapshotTerm)] = db ∧
        db.snapshotMeta = some (n.lastApplied, n.snapshotTerm) ∧ db.snapshotData = n.db.snapshotData ∧
        ∀ k, n.lastApplied < k → db.log.lookup k = n.db.log.lookup k := ⟨_, rfl, rfl, rfl, fun _ _ => rfl⟩
    rw [take_succ_cons, take_zero, hdb]
    obtain ⟨hlii, hlog, ha⟩ := h.snapshot_log hmeta hl
    have hs := h.restored_of_meta hmeta hdt
    constructor
    · intro hr _
      rw [← hs, hr.state, hlii]
    · intro heq
      exact ⟨by rw [hs, hlii, heq rfl], by rw [hlog]; simp, ha⟩
  | k + 2 =>
    refine iff_of_true ?_ (by omega)
    rw [take_succ_cons, take_succ_cons, ← map_take]
    obtain ⟨db, hdb, hmeta, hdt, hl⟩ : ∃ db, replay n.db (.write (.putSnapshotMeta n.lastApplied n.snapshotTerm) ::
        .write (.putSnapshotData n.appState.serialize) ::
        ((range' (n.lastIncludedIndex + 1) (n.lastApplied - n.lastIncludedIndex)).take k).map
          fun i => .write (.deleteLog i)) = db ∧ db.snapshotMeta = some (n.lastApplied, n.snapshotTerm) ∧
        db.snapshotData = some n.appState.serialize ∧
        ∀ k, n.lastApplied < k → db.log.lookup k = n.db.log.lookup k := by
      refine ⟨_, replay_deletes _ _, rfl, rfl, fun j hj => ?_⟩
      show (foldl _ n.db.log _).lookup j = _
      rw [lookup_foldl_erase, if_neg]
      intro hmem
      have := mem_of_mem_take hmem
      rw [mem_range'_1] at this
      have := h.included
      omega
    rw [hdb]
    obtain ⟨hlii, hlog, ha⟩ := h.snapshot_log hmeta hl
    refine ⟨?_, by rw [hlog]; simp, ha⟩
    rw [hlii, ← h.current]
    simp only [boot, new, loadState, hmeta, hdt]
    exact AppState.serialize_restore _ _

end

variable {index : Nat}

private theorem overwriteWrites_eq (h : n.Stored) (hi : n.lastIncludedIndex < index) (entries : List LogEntry) :
    n.overwriteWrites index
      entries = ((range' index (n.lastLogIndex + 1 - index)).map fun i => .write (.deleteLog i)) ++
      if entries.isEmpty then [] else [.write (.batchLog (indexed index entries))] := by
  have ho : ({ n.ready [] with log := n.log.take (index - n.lastIncludedIndex) }.deleteLogEntriesFrom index).out =
      (range' index (n.lastLogIndex + 1 - index)).map fun i => .write (.deleteLog i) := by
    rw [h.deleteLogEntriesFrom hi (m := { n.ready [] with log := n.log.take _ }) rfl, deleteLogRange_eq]
    rfl
  have he : (indexed index entries).isEmpty = entries.isEmpty := by
    cases entries <;> simp [indexed]
  unfold overwriteWrites overwriteFrom saveLogEntriesBatch
  dsimp only
  rw [he]
  split
  · rw [append_nil]
    exact ho
  · exact congrArg (· ++ [_]) ho

section

variable (h : Consistent conf S n)
include h

private theorem Consistent.same_state (hmeta : db.snapshotMeta = n.db.snapshotMeta)
    (hdt : db.snapshotData = n.db.snapshotData) :
    (boot conf db).appState.serialize = S (boot conf db).lastIncludedIndex := by
  have hl : (boot conf db).lastIncludedIndex = n.lastIncludedIndex := by
    simp [boot, new, loadState, hmeta, h.snapshot]
  rw [hl, ← h.restored]
  simp only [boot, new, loadState, hmeta, hdt]

section

variable (hi : n.lastIncludedIndex < index)
include hi

private theorem Consistent.loads_cut (hle : index ≤ n.lastLogIndex)
    (hf : ∀ j < index, db.log.lookup j = n.db.log.lookup j)
    (hl : ∀ j ≤ l.length, db.log.lookup (index + j) = l[j]?) :
    ∃ front, n.log.take (index - n.lastIncludedIndex) = ⟨n.lastIncludedTerm, .noOp⟩ :: front ∧
      n.lastIncludedIndex + 1 + front.length = index ∧ db.Loads n.lastIncludedIndex (front ++ l) := by
  unfold lastLogIndex at hle
  obtain ⟨k, rfl⟩ : ∃ k, index = n.lastIncludedIndex + 1 + k := Nat.exists_eq_add_of_le hi
  have hlen : ((n.log.drop 1).take k).length = k := by
    rw [length_take, length_drop]
    omega
  refine ⟨(n.log.drop 1).take k, ?_, by rw [hlen], fun j e hj => ?_, ?_⟩
  · rw [h.log_eq, show n.lastIncludedIndex + 1 + k - n.lastIncludedIndex = k + 1 by omega, take_succ_cons]
    rfl
  · rcases Nat.lt_or_ge j k with hlt | hge
    · rw [getElem?_append_left (by omega), getElem?_take_of_lt hlt, getElem?_drop] at hj
      rw [hf _ (by omega), h.stored, image, if_pos (by omega), ← hj]
      congr 1
      omega
    · rw [getElem?_append_right (by omega), hlen] at hj
      rw [← hj, ← hl _ (List.getElem?_eq_some_iff.1 hj).1.le]
      congr 1
      omega
  · rw [length_append, hlen, ← Nat.add_assoc, hl _ le_rfl]
    exact getElem?_eq_none le_rfl

private theorem Consistent.recovers_of_cut (hle : index ≤ n.lastLogIndex)
    (hmeta : db.snapshotMeta = n.db.snapshotMeta) (hdt : db.snapshotData = n.db.snapshotData)
    (hl : ∀ j, db.log.lookup j = if index ≤ j then l[j - index]? else n.db.log.lookup j)
    (hmem : n.log.take (index - n.lastIncludedIndex) ++ l ∈ logs) : Recovers conf S logs db := by
  have hm' : db.snapshotMeta.getD (0, 0) = (n.lastIncludedIndex, n.lastIncludedTerm) :=
    by rw [hmeta]; exact h.snapshot
  obtain ⟨front, ht, hlen, hld⟩ := h.loads_cut hi hle (fun j hj => by rw [hl, if_neg (by omega)])
    fun j _ => by rw [hl, if_pos (by omega), Nat.add_sub_cancel_left]
  refine ⟨h.same_state hmeta hdt, ?_, (extend_iff_endsBefore hld hm').2 fun k hk => ?_⟩
  · rwa [hld.boot hm' conf, ← cons_append, ← ht]
  · rw [List.length_append] at hk
    rw [hl, if_pos (by omega)]
    exact List.getElem?_eq_none (by omega)

private theorem Consistent.not_recovers_of_gap {k : Nat} (hpos : 0 < k) (hk : index + k ≤ n.lastLogIndex)
    (hmeta : db.snapshotMeta = n.db.snapshotMeta)
    (hl : ∀ j, db.log.lookup j = if index ≤ j ∧ j < index + k then none else n.db.log.lookup j) :
    ¬ Recovers conf S logs db := by
  have hm' : db.snapshotMeta.getD (0, 0) = (n.lastIncludedIndex, n.lastIncludedTerm) :=
    by rw [hmeta]; exact h.snapshot
  obtain ⟨front, -, hlen, hld⟩ := h.loads_cut (l := []) hi (by omega) (fun j hj => by rw [hl, if_neg (by omega)])
    fun j hj => by rw [hl, if_pos (by simp at hj; omega)]; rfl
  intro hr
  have he := (extend_iff_endsBefore hld hm').1 hr.appends (index + k) (by rw [append_nil]; omega)
  unfold lastLogIndex at hk
  rw [hl, if_neg (by omega), h.stored, image, if_pos (by omega), List.getElem?_eq_none_iff] at he
  omega

end

end

/-- The first of the entries, laid on the log from position `q` on, that contradicts it is the one at position
`p`. -/
def ConflictAt (l : List LogEntry) (q : Nat) (entries : List LogEntry) (p : Nat) : Prop :=
  (∀ j < p, ∃ mine e, l[q + j]? = some mine ∧ entries[j]? = some e ∧ mine.term = e.term) ∧
    ∃ mine e, l[q + p]? = some mine ∧ entries[p]? = some e ∧ mine.term ≠ e.term

private theorem conflict_skips (n : RaftNode) {entries : List LogEntry} (hi : n.lastIncludedIndex < index)
    (h : ConflictAt n.log (index - n.lastIncludedIndex) entries p) :
    ∃ mine e, n.log[index + p - n.lastIncludedIndex]? = some mine ∧ entries.drop p = e :: entries.drop (p + 1) ∧
      mine.term ≠ e.term ∧ n.mergeEntries [] index entries = n.mergeEntries [] (index + p) (entries.drop p) ∧
      n.truncateConflict index entries = n.truncateConflict (index + p) (entries.drop p) := by
  have hdr : ∀ {j e}, entries[j]? = some e → entries.drop j = e :: entries.drop (j + 1) := by
    intro j e he
    obtain ⟨hlt, rfl⟩ := List.getElem?_eq_some_iff.1 he
    exact drop_eq_getElem_cons hlt
  have hin : ∀ j, index - n.lastIncludedIndex + j = index + j - n.lastIncludedIndex := fun j => by omega
  have hs : ∀ j ≤ p, n.mergeEntries [] index entries = n.mergeEntries [] (index + j) (entries.drop j) ∧
      n.truncateConflict index entries = n.truncateConflict (index + j) (entries.drop j) := by
    intro j
    induction j with
    | zero => exact fun _ => ⟨rfl, rfl⟩
    | succ j ih =>
      intro hj
      obtain ⟨mine, e, hm, he, ht⟩ := h.1 j hj
      obtain ⟨hmr, htr⟩ := ih (by omega)
      rw [hin] at hm
      rw [hmr, htr, hdr he]
      simp only [mergeEntries, truncateConflict, hm, if_pos ht]
      exact ⟨rfl, rfl⟩
  obtain ⟨mine, e, hm, he, hne⟩ := h.2
  exact ⟨mine, e, hin p ▸ hm, hdr he, hne, hs p le_rfl⟩

/-- An `AppendEntries` that is taken over and contradicts the log overwrites it from the first conflict on, whether
it starts at the snapshot point or behind it. -/
theorem replicateEntries_conflict (n : RaftNode) (hhead : n.log.head? = some ⟨n.lastIncludedTerm, .noOp⟩)
    (hok : (n.replicateEntries a).2.1 = true)
    (h : ConflictAt n.log (a.prevLogIndex + 1 - n.lastIncludedIndex) a.entries p) :
    (n.replicateEntries a).1 = (n.overwriteFrom (a.prevLogIndex + 1 + p) (a.entries.drop p)).emit
      (.replicated n.currentTerm (a.prevLogIndex + a.entries.length)) := by
  have hle : ¬ a.prevLogIndex < n.lastIncludedIndex := fun hlt => by simp [replicateEntries, hlt] at hok
  obtain ⟨mine, e, hm, hdrop, hne, hmerge, htrunc⟩ := conflict_skips n (by omega) h
  have hlt := (List.getElem?_eq_some_iff.1 hm).1
  obtain ⟨s, es, heq, -⟩ :=
    truncate_eq n (n.log.take (a.prevLogIndex + 1 + p - n.lastIncludedIndex)) (a.prevLogIndex + 1 + p)
  unfold replicateEntries at hok ⊢
  unfold overwriteFrom
  split_ifs at hok ⊢ with hat hterm
  · unfold appendAtSnapshot
    rw [truncateAtSnapshot_of_head hhead hterm.symm]
    dsimp only
    rw [hmerge, hdrop]
    simp only [mergeEntries, hm, if_neg hne, heq]
    rw [mergeEntries_at_end, indexed_cons]
    · simp [withLog]
    · simp only [withLog]
      omega
    · simp [withLog]
      omega
  · split at hok
    · split_ifs at hok ⊢
      unfold appendAfterSnapshot
      dsimp only
      rw [htrunc, hdrop]
      simp only [truncateConflict, hm, if_neg hne]
      rw [← hdrop, heq,
        appendMissing_past p a.entries _ [] (a.prevLogIndex + 1) (by simp only [withLog]; omega)
          (by simp [withLog]; omega)]
      rfl
    · cases hok

private theorem overwrite_recovers_iff (h : Consistent conf S n) (hi : n.lastIncludedIndex < index)
    (hle : index ≤ n.lastLogIndex) (entries : List LogEntry) (k : Nat) :
    Recovers conf S
      [n.log, n.log.take (index - n.lastIncludedIndex), n.log.take (index - n.lastIncludedIndex) ++ entries]
        (replay n.db ((n.overwriteWrites index entries).take k)) ↔ k = 0 ∨ n.lastLogIndex + 1 - index ≤ k := by
  rw [overwriteWrites_eq h.stored hi]
  have hdel : ∀ m j, ((range' index m).foldl (fun l i => l.erase i) n.db.log).lookup j =
      if index ≤ j ∧ j < index + m then none else n.db.log.lookup j := by
    intro m j
    rw [lookup_foldl_erase]
    simp only [mem_range'_1]
  have hn : ∀ j, n.lastLogIndex < j → n.db.log.lookup j = none := by
    intro j hj
    unfold lastLogIndex at hj
    rw [h.stored, image]
    split
    · exact getElem?_eq_none (by omega)
    · rfl
  have hc : ∀ j, ((range' index (n.lastLogIndex + 1 - index)).foldl (fun l i => l.erase i) n.db.log).lookup j =
      if index ≤ j then none else n.db.log.lookup j := by
    intro j
    rw [hdel]
    by_cases hj : index ≤ j
    · rw [if_pos hj]
      split
      · rfl
      · exact hn j (by omega)
    · rw [if_neg hj, if_neg (fun h => hj h.1)]
  rcases Nat.lt_or_ge k (n.lastLogIndex + 1 - index) with hk | hk
  · rw [take_append_of_le_length (by simp; omega), ← map_take, take_range'_of_length_ge hk.le, replay_deletes]
    rcases Nat.eq_zero_or_pos k with rfl | hpos
    · exact iff_of_true (h.recovers (mem_cons_self ..)) (.inl rfl)
    · exact iff_of_false (h.not_recovers_of_gap hi hpos (by omega) rfl (hdel k)) (by omega)
  · refine iff_of_true ?_ (.inr hk)
    rw [take_append, length_map, length_range', ← map_take, take_range'_of_length_le hk, replay_append,
      replay_deletes]
    rcases Nat.eq_zero_or_pos (k - (n.lastLogIndex + 1 - index)) with hz | hpos
    · rw [hz, take_zero]
      exact h.recovers_of_cut (l := []) hi hle rfl rfl (fun j => by simpa [replay] using hc j) (by simp)
    · split
      · rw [take_nil]
        exact h.recovers_of_cut (l := []) hi hle rfl rfl (fun j => by simpa [replay] using hc j) (by simp)
      · rw [take_of_length_le (l := [_]) (Nat.succ_le_of_lt hpos)]
        refine h.recovers_of_cut (l := entries) hi hle rfl rfl (fun j => ?_) (by simp)
        refine (lookup_foldl_indexed entries index _ j).trans ?_
        rw [hc]
        split <;> simp

/-- A process that dies after the first `k` writes of `create_snapshot`, or of the truncation and the append that
follows it, comes back in a state that a node can be in exactly if it has not written the index of a snapshot
without its data, which holds other commands, and has not deleted a part of what it was deleting. -/
theorem crash_recovers_iff (h : Consistent conf S n) (k : Nat) :
    (Recovers conf S [n.log, n.createSnapshot.log] (replay n.db (n.snapshotWrites.take k)) ↔
      (k = 1 → S n.lastApplied = S n.lastIncludedIndex)) ∧
    ∀ index entries, n.lastIncludedIndex < index → index ≤ n.lastLogIndex → (Recovers conf S
          [n.log, n.log.take (index - n.lastIncludedIndex), n.log.take (index - n.lastIncludedIndex) ++ entries]
          (replay n.db ((n.overwriteWrites index entries).take k)) ↔
        k = 0 ∨ n.lastLogIndex + 1 - index ≤ k) :=
  ⟨snapshot_recovers_iff h k, fun _ entries hi hle => overwrite_recovers_iff h hi hle entries k⟩

def holdsFile (n : RaftNode) (path : String) : Bool :=
  match n.appState with
  | .master s => path ∈ s.files
  | _ => false

def fileFollower : RaftNode :=
  (firstEntries [.master (.createFile "/f" 0 0)]).run ((boot follower .empty).ready [])

private theorem fileFollower_run : NodeRun follower SoundInvocation ([] ++ fileFollower.out) fileFollower := by
  have hr : Lawful SnapshotRule ([] ++ fileFollower.out) := lawful_of_not_writesSnapshot (by decide +kernel)
  refine .call _ [] .start ⟨fun m e ht => ?_, hr⟩
  obtain ⟨rfl, rfl⟩ := ht.single
  exact soundEvent_of_le (Nat.zero_le 0)

def fileStates (k : Nat) : SnapshotData :=
  if k = 0 then (boot follower .empty).appState.serialize else fileFollower.appState.serialize

private theorem fileFollower_consistent : Consistent follower fileStates fileFollower := by
  have h := fileFollower_run.restartable.1 []
  exact ⟨h.snapshot, fun _ => rfl, h.head, h.stored, h.included, h.applied, rfl, rfl⟩

def snapshotHolds (path : String) : SnapshotData → Bool
  | .master image => path ∈ image.files
  | _ => false

private theorem fileStates_ne : fileStates 1 ≠ fileStates 0 := by
  intro h
  have hh := congrArg (snapshotHolds "/f") h
  exact absurd hh (by decide +kernel)

/-- A crash after the first write of `create_snapshot`, and one after the only deletion of a truncation. -/
theorem crash_recovers_iff_follower :
    ¬ Recovers follower fileStates [fileFollower.log, fileFollower.createSnapshot.log]
      (replay fileFollower.db (fileFollower.snapshotWrites.take 1)) ∧
    Recovers follower fileStates
      [fileFollower.log, fileFollower.log.take 1, fileFollower.log.take 1 ++ [⟨2, .noOp⟩]]
      (replay fileFollower.db ((fileFollower.overwriteWrites 1 [⟨2, .noOp⟩]).take 1)) := by
  have h := crash_recovers_iff fileFollower_consistent 1
  refine ⟨fun hrec => fileStates_ne (h.1.1 hrec rfl), (h.2 1 [⟨2, .noOp⟩] ?_ ?_).2 (.inr ?_)⟩
  all_goals decide +kernel

/-- A new leader, node 2 in term 2, replaces the whole log. -/
def newLeader : Invocation := .events [.rpc (.appendEntries ⟨2, 2, 0, 0, [⟨2, .noOp⟩], 0, "b"⟩) none]

def longFollower : RaftNode :=
  after follower [.events [.rpc (.appendEntries ⟨1, 1, 0, 0, [⟨1, .noOp⟩, ⟨1, .noOp⟩, ⟨1, .noOp⟩], 0, "a"⟩) none]]

theorem replicateEntries_conflict_long : (longFollower.replicateEntries ⟨2, 2, 0, 0, [⟨2, .noOp⟩], 0, "b"⟩).1 =
    (longFollower.overwriteFrom 1 [⟨2, .noOp⟩]).emit (.replicated 1 1) :=
  replicateEntries_conflict longFollower rfl rfl (p := 0) ⟨by simp, _, _, rfl, rfl, by decide⟩

/-- A crash after the first write of `create_snapshot`: the file is gone, and will not be created again.  A crash
after the first deletion, when term and vote have been written: the other two entries are back after the second
start. -/
theorem crash_brings_back : (fileFollower.holdsFile "/f" = true ∧
      (boot follower (replay fileFollower.db (fileFollower.snapshotWrites.take 1))).lastApplied = 1 ∧
      (boot follower (replay fileFollower.db (fileFollower.snapshotWrites.take 1))).holdsFile "/f" = false) ∧
    let crashed := boot follower (replay longFollower.db ((newLeader.run (longFollower.ready [])).out.take 3))
    let again := newLeader.run (crashed.ready [])
    crashed.log.map LogEntry.term = [0] ∧ again.log.map LogEntry.term = [0, 2] ∧
      (boot follower again.db).log.map LogEntry.term = [0, 2, 1, 1] := by
  decide +kernel

end RaftNode

end RustHadoop
