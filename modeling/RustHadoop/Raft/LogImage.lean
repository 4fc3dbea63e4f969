import RustHadoop.Lib.ReplicatedLog
import RustHadoop.Raft.Static

/-!
# The log in memory and on disk

Between two calls the stored entries are exactly those of the log in memory (`Stored`), so a restart finds the same
log. For the two branches of `AppendEntries` this comes with what they compute: the log is overwritten with the
prefix that the message describes, unless it already starts with it.  Both walk through the entries comparing terms
only, which comes to the same because entries at one position with one term are equal (`Agrees`).
-/

namespace RustHadoop

open List

open ReplicatedLog (overwrite prefix_overwrite)

variable {α : Type*} {a : AppendEntriesArgs} {first : LogEntry} {index q : Nat}

namespace RaftNode

def image (n : RaftNode) (k : Nat) : Option LogEntry :=
  if n.lastIncludedIndex < k then n.log[k - n.lastIncludedIndex]? else none

/-- The database with some more entries written is the image of the log. -/
def StoredWith (n : RaftNode) (batch : List (Nat × LogEntry)) : Prop :=
  ∀ k, (batch.foldl (fun l e => l.insert e.1 e.2) n.db.log).lookup k = n.image k

def Stored (n : RaftNode) : Prop := ∀ k, n.db.log.lookup k = n.image k

/-- Entries of `es` from position `q` on and entries of `l` there agree if their terms do. -/
def Agrees (l : List LogEntry) (q : Nat) (es : List LogEntry) : Prop :=
  ∀ j e e', l[q + j]? = some e → es[j]? = some e' → e.term = e'.term → e = e'

section Lists

variable {l es : List LogEntry} {q : Nat} {e : LogEntry}

private theorem Agrees.tail (h : Agrees l q (e :: es)) : Agrees l (q + 1) es := by
  intro j x y hx hy
  exact h (j + 1) x y (by rwa [← Nat.add_assoc, Nat.add_right_comm]) (by simpa using hy)

private theorem take_concat_of_getElem? {l : List α} {e : α} (h : l[q]? = some e) (es : List α) :
    l.take q ++ e :: es = l.take (q + 1) ++ es := by
  rw [take_add_one, h]
  simp

theorem overwrite_eq_self {p l : List α} (h : p <+: l) : overwrite p l = l := if_pos h

theorem overwrite_eq_of_not {p l : List α} (h : ¬ p <+: l) : overwrite p l = p := if_neg h

private theorem overwrite_append (l es : List α) : overwrite (l ++ es) l = l ++ es := by
  unfold overwrite
  split
  · rename_i h
    have := h.length_le
    have hes : es = [] := by
      rw [length_append] at this
      exact length_eq_zero_iff.1 (by omega)
    simp [hes]
  · rfl

private theorem not_prefix_of_getElem?_ne {l es : List α} {e mine : α} (hm : l[q]? = some mine)
    (hne : mine ≠ e) : ¬ l.take q ++ e :: es <+: l := by
  intro h
  have hq : q < l.length := (List.getElem?_eq_some_iff.1 hm).1
  have he : (l.take q ++ e :: es)[q]? = some e := by
    rw [List.getElem?_append_right (by simp), List.length_take, Nat.min_eq_left hq.le]
    simp
  obtain ⟨r, hr⟩ := h
  have := congrArg (fun x => x[q]?) hr
  simp only [List.getElem?_append_left (List.getElem?_eq_some_iff.1 he).1, he, hm] at this
  exact hne (Option.some.inj this).symm

end Lists

section Deleting

variable {n : RaftNode}

private theorem deleteLogEntriesLoop_range (fuel : Nat) (n : RaftNode) (k last : Nat) (hf : last + 1 ≤ k + fuel)
    (hin : ∀ j, k ≤ j → (j ∈ n.db.log ↔ j ≤ last)) :
    deleteLogEntriesLoop fuel n k = n.deleteLogRange k (last + 1 - k) := by
  induction fuel generalizing n k with
  | zero =>
    rw [Nat.sub_eq_zero_of_le (by simpa using hf)]
    rfl
  | succ fuel ih =>
    unfold deleteLogEntriesLoop
    split
    · rename_i hk
      have hle := (hin k le_rfl).1 hk
      rw [ih (n.put (.deleteLog k)) (k + 1) (by omega), show last + 1 - k = last + 1 - (k + 1) + 1 by omega]
      · rfl
      · intro j hj
        rw [← hin j (by omega)]
        simp only [put, DbWrite.apply, AList.mem_erase, ne_eq, and_iff_right_iff_imp]
        omega
    · rename_i hk
      have hlt : ¬ k ≤ last := fun h => hk ((hin k le_rfl).2 h)
      rw [Nat.sub_eq_zero_of_le (by omega)]
      rfl

private theorem Stored.mem_iff (h : n.Stored) (k : Nat) :
    k ∈ n.db.log ↔ n.lastIncludedIndex < k ∧ k - n.lastIncludedIndex < n.log.length := by
  rw [← AList.lookup_isSome, h k, image]
  split
  · rename_i hk
    simp [hk]
  · rename_i hk
    simp [hk]

private theorem Stored.length_le (h : n.Stored) : n.log.length - 1 ≤ n.db.log.entries.length := by
  have hsub : range' (n.lastIncludedIndex + 1) (n.log.length - 1) ⊆ n.db.log.keys := by
    intro k hk
    rw [mem_range'_1] at hk
    exact AList.mem_keys.1 ((h.mem_iff k).2 ⟨by omega, by omega⟩)
  have := (subperm_of_subset nodup_range' hsub).length_le
  simpa [AList.keys, keys] using this

theorem Stored.deleteLogEntriesFrom (h : n.Stored) (hi : n.lastIncludedIndex < index) {m : RaftNode}
    (hm : m.db.log = n.db.log) :
    m.deleteLogEntriesFrom index = m.deleteLogRange index (n.lastLogIndex + 1 - index) := by
  have hlen := h.length_le
  refine deleteLogEntriesLoop_range _ m index _ ?_ fun j hj => ?_
  · rw [hm, lastLogIndex]
    omega
  · rw [hm, h.mem_iff, lastLogIndex]
    omega

private theorem Stored.truncate (h : n.Stored) (hi : n.lastIncludedIndex < index) :
    ({ n with log := n.log.take (index - n.lastIncludedIndex) }.deleteLogEntriesFrom index).Stored := by
  rw [h.deleteLogEntriesFrom hi (m := { n with log := n.log.take (index - n.lastIncludedIndex) }) rfl,
    deleteLogRange_eq]
  intro k
  show ((range' index _).foldl (fun l i => l.erase i) n.db.log).lookup k =
    if n.lastIncludedIndex < k then (n.log.take (index - n.lastIncludedIndex))[k - n.lastIncludedIndex]? else none
  rw [lookup_foldl_erase, h k, image]
  by_cases hk : n.lastIncludedIndex < k
  · rw [if_pos hk, if_pos hk, getElem?_take]
    by_cases hlt : k - n.lastIncludedIndex < index - n.lastIncludedIndex
    · rw [if_pos hlt, if_neg]
      rw [mem_range'_1]
      omega
    · rw [if_neg hlt, ite_eq_left_iff, mem_range'_1, lastLogIndex]
      exact fun ho => getElem?_eq_none (by omega)
  · rw [if_neg hk, if_neg hk, ite_self]

end Deleting

section Adding

variable {n : RaftNode} {batch : List (Nat × LogEntry)} {index : Nat} {x : LogEntry}

theorem getElem?_concat_of_ne {l : List α} {k : Nat} (x : α) (h : k ≠ l.length) : (l ++ [x])[k]? = l[k]? := by
  rcases Nat.lt_or_gt_of_ne h with h | h
  · rw [getElem?_append_left h]
  · rw [getElem?_eq_none (by simp; omega), getElem?_eq_none (by omega)]

private theorem StoredWith.concat (h : n.StoredWith batch) (hi : n.lastIncludedIndex < index)
    (hlen : n.log.length = index - n.lastIncludedIndex) :
    StoredWith { n with log := n.log ++ [x] } (batch ++ [(index, x)]) := by
  intro k
  have ho := h k
  simp only [foldl_append, foldl_cons, foldl_nil]
  unfold image at ho ⊢
  by_cases hk : k = index
  · subst hk
    rw [AList.lookup_insert, if_pos hi, ← hlen]
    simp
  · rw [AList.lookup_insert_ne hk, ho]
    dsimp only
    split
    · rw [getElem?_concat_of_ne x (by omega)]
    · rfl

private theorem StoredWith.save (h : n.StoredWith batch) : (n.saveLogEntriesBatch batch).Stored := by
  unfold saveLogEntriesBatch
  split
  · rename_i hb
    rw [List.isEmpty_iff] at hb
    subst hb
    exact h
  · exact h

theorem saveLogEntriesBatch_log (n : RaftNode) (batch : List (Nat × LogEntry)) :
    (n.saveLogEntriesBatch batch).log = n.log := by
  unfold saveLogEntriesBatch
  split <;> rfl

theorem Stored.with_nil (h : n.Stored) : n.StoredWith [] := h

def indexed (first : Nat) (es : List LogEntry) : List (Nat × LogEntry) := es.zipIdx.map fun e => (first + e.2, e.1)

theorem indexed_cons (first : Nat) (e : LogEntry) (es : List LogEntry) :
    indexed first (e :: es) = (first, e) :: indexed (first + 1) es := by
  simp only [indexed, zipIdx_cons, map_cons, Nat.add_zero, cons.injEq, true_and]
  rw [zipIdx_succ, map_map]
  refine map_congr_left fun x _ => ?_
  simp only [Function.comp, Prod.mk.injEq, and_true]
  omega

theorem StoredWith.append (es : List LogEntry) (n : RaftNode) (batch : List (Nat × LogEntry)) (hpos : n.log ≠ [])
    (h : n.StoredWith batch) :
    StoredWith { n with log := n.log ++ es } (batch ++ indexed (n.lastIncludedIndex + n.log.length) es) := by
  induction es generalizing n batch with
  | nil => simpa [indexed] using h
  | cons e es ih =>
    have hlen := length_pos_iff.2 hpos
    have := ih { n with log := n.log ++ [e] } (batch ++ [(n.lastIncludedIndex + n.log.length, e)]) (by simp)
      (h.concat (by omega) (by omega))
    rw [indexed_cons]
    simpa [Nat.add_assoc] using this

/-- The log before the first of the entries, from position `q` on, that contradicts it. -/
def keptLog (l : List LogEntry) (q : Nat) : List LogEntry → List LogEntry
  | [] => l
  | e :: es =>
    match l[q]? with
    | some mine => if mine.term = e.term then keptLog l (q + 1) es else l.take q
    | none => l

/-- The log with the entries from position `q` on, from the first conflict or the end of the log on replaced by
them. -/
def mergedLog (l : List LogEntry) (q : Nat) (es : List LogEntry) : List LogEntry :=
  keptLog l q es ++ es.drop ((keptLog l q es).length - q)

section Merged

variable {l es : List LogEntry} {q : Nat} {e mine : LogEntry}

theorem keptLog_cons_of_some (hm : l[q]? = some mine) :
    keptLog l q (e :: es) = if mine.term = e.term then keptLog l (q + 1) es else l.take q := by
  simp only [keptLog, hm]

theorem keptLog_of_length_le (h : l.length ≤ q) : keptLog l q es = l := by
  cases es with
  | nil => rfl
  | cons e es => simp only [keptLog, getElem?_eq_none h]

private theorem le_length_keptLog (hq : q ≤ l.length) : q ≤ (keptLog l q es).length := by
  induction es generalizing q with
  | nil => exact hq
  | cons e es ih =>
    cases hm : l[q]? with
    | none => rwa [keptLog_of_length_le (getElem?_eq_none_iff.1 hm)]
    | some mine =>
      rw [keptLog_cons_of_some hm]
      split
      · exact (Nat.le_succ q).trans (ih (List.getElem?_eq_some_iff.1 hm).1)
      · simpa using hq

private theorem mergedLog_cons_of_eq (hm : l[q]? = some mine) (ht : mine.term = e.term) :
    mergedLog l q (e :: es) = mergedLog l (q + 1) es := by
  have hle : q + 1 ≤ (keptLog l (q + 1) es).length := le_length_keptLog (List.getElem?_eq_some_iff.1 hm).1
  unfold mergedLog
  rw [keptLog_cons_of_some hm, if_pos ht,
    show (keptLog l (q + 1) es).length - q = (keptLog l (q + 1) es).length - (q + 1) + 1 by omega, drop_succ_cons]

private theorem mergedLog_cons_of_ne (hm : l[q]? = some mine) (ht : mine.term ≠ e.term) :
    mergedLog l q (e :: es) = l.take q ++ e :: es := by
  unfold mergedLog
  rw [keptLog_cons_of_some hm, if_neg ht, List.length_take_of_le (List.getElem?_eq_some_iff.1 hm).1.le,
    Nat.sub_self,
    drop_zero]

private theorem mergedLog_of_length (h : l.length = q) : mergedLog l q es = l ++ es := by
  rw [mergedLog, keptLog_of_length_le h.le, h, Nat.sub_self, drop_zero]

theorem mergedLog_eq_overwrite (hq : q ≤ l.length) (ha : Agrees l q es) :
    mergedLog l q es = overwrite (l.take q ++ es) l := by
  induction es generalizing q with
  | nil =>
    rw [append_nil, overwrite_eq_self (List.take_prefix _ _)]
    simp [mergedLog, keptLog]
  | cons e es ih =>
    cases hm : l[q]? with
    | none =>
      have hlen := getElem?_eq_none_iff.1 hm
      rw [mergedLog_of_length (le_antisymm hlen hq), take_of_length_le hlen, overwrite_append]
    | some mine =>
      by_cases ht : mine.term = e.term
      · obtain rfl := ha 0 mine e hm rfl ht
        rw [mergedLog_cons_of_eq hm ht, ih (List.getElem?_eq_some_iff.1 hm).1 ha.tail, take_concat_of_getElem? hm]
      · have hne : mine ≠ e := fun h => ht (by rw [h])
        rw [mergedLog_cons_of_ne hm ht, overwrite_eq_of_not (not_prefix_of_getElem?_ne hm hne)]

end Merged

theorem mergeEntries_at_end (entries : List LogEntry) (n : RaftNode) (batch : List (Nat × LogEntry)) (index : Nat)
    (hi : n.lastIncludedIndex < index) (hlen : n.log.length = index - n.lastIncludedIndex) :
    n.mergeEntries batch index entries = ({ n with log := n.log ++ entries }, batch ++ indexed index entries) := by
  induction entries generalizing n batch index with
  | nil => simp [mergeEntries, indexed]
  | cons x entries ih =>
    have hn : n.log[index - n.lastIncludedIndex]? = none := getElem?_eq_none hlen.le
    simp only [mergeEntries, hn]
    rw [ih { n with log := n.log ++ [x] } (batch ++ [(index, x)]) (index + 1) (Nat.lt_succ_of_lt hi)
      (by simp; omega),
      indexed_cons]
    simp

theorem mergeEntries_spec (ents : List LogEntry) (n : RaftNode) (index : Nat) (hi : n.lastIncludedIndex < index)
    (hq : index - n.lastIncludedIndex ≤ n.log.length) (hst : n.Stored) :
    (n.mergeEntries [] index ents).1.log = mergedLog n.log (index - n.lastIncludedIndex) ents ∧
      (n.mergeEntries [] index ents).1.StoredWith (n.mergeEntries [] index ents).2 := by
  have he : ∀ (m : RaftNode) (x : LogEntry) (ents : List LogEntry) (index : Nat), m.Stored →
      m.lastIncludedIndex < index → m.log.length = index - m.lastIncludedIndex →
      ({ m with log := m.log ++ [x] }.mergeEntries ([] ++ [(index, x)]) (index + 1) ents).1.log = m.log ++ x ::
        ents ∧
        ({ m with log := m.log ++ [x] }.mergeEntries ([] ++ [(index, x)]) (index + 1) ents).1.StoredWith
          ({ m with log := m.log ++ [x] }.mergeEntries ([] ++ [(index, x)]) (index + 1) ents).2 := by
    intro m x ents index hm hi hlen
    have ha := hm.with_nil.append (x :: ents) m [] (length_pos_iff.1 (by omega))
    rw [show m.lastIncludedIndex + m.log.length = index by omega, indexed_cons] at ha
    rw [mergeEntries_at_end ents { m with log := m.log ++ [x] } _ (index + 1) (Nat.lt_succ_of_lt hi)
      (by simp; omega)]
    simpa using ha
  induction ents generalizing index with
  | nil => exact ⟨by simp [mergeEntries, mergedLog, keptLog], hst⟩
  | cons x ents ih =>
    have hs : index + 1 - n.lastIncludedIndex = index - n.lastIncludedIndex + 1 := by omega
    unfold mergeEntries
    split
    · rename_i mine hmn
      have hlt := (List.getElem?_eq_some_iff.1 hmn).1
      split
      · rename_i ht
        rw [mergedLog_cons_of_eq hmn ht, ← hs]
        exact ih (index + 1) (by omega) (by omega)
      · rename_i ht
        -- the first conflict: the log is cut off and grows from here
        have htr := hst.truncate hi
        obtain ⟨s, es, heq, -⟩ := truncate_eq n (n.log.take (index - n.lastIncludedIndex)) index
        rw [heq] at htr ⊢
        rw [mergedLog_cons_of_ne hmn ht]
        exact he _ x ents index htr hi (by simp only [withLog, length_take]; omega)
    · rename_i hn
      have hlen : n.log.length = index - n.lastIncludedIndex := le_antisymm (getElem?_eq_none_iff.1 hn) hq
      rw [mergedLog_of_length hlen]
      exact he n x ents index hst hi hlen

private theorem truncateConflict_spec (ents : List LogEntry) (n : RaftNode) (index : Nat)
    (hi : n.lastIncludedIndex < index) (hst : n.Stored) :
    (n.truncateConflict index ents).log = keptLog n.log (index - n.lastIncludedIndex) ents ∧
      (n.truncateConflict index ents).Stored := by
  induction ents generalizing index with
  | nil => exact ⟨rfl, hst⟩
  | cons x ents ih =>
    have hs : index + 1 - n.lastIncludedIndex = index - n.lastIncludedIndex + 1 := by omega
    unfold truncateConflict
    split
    · rename_i mine hm
      rw [keptLog_cons_of_some hm]
      split
      · rw [← hs]
        exact ih (index + 1) (by omega)
      · obtain ⟨s, es, heq, -⟩ := truncate_eq n (n.log.take (index - n.lastIncludedIndex)) index
        refine ⟨?_, hst.truncate hi⟩
        rw [heq]
        rfl
    · rename_i hn
      exact ⟨(keptLog_of_length_le (getElem?_eq_none_iff.1 hn)).symm, hst⟩

theorem appendMissing_past (p : Nat) (entries : List LogEntry) (n : RaftNode) (batch : List (Nat × LogEntry))
    (index : Nat) (hi : n.lastIncludedIndex < index) (hlen : n.log.length = index - n.lastIncludedIndex + p) :
    n.appendMissing batch index entries =
      ({ n with log := n.log ++ entries.drop p }, batch ++ indexed (index + p) (entries.drop p)) := by
  induction entries generalizing n batch index p with
  | nil => simp [appendMissing, indexed]
  | cons x entries ih =>
    unfold appendMissing
    cases p with
    | zero =>
      rw [if_pos (by omega), ih 0 { n with log := n.log ++ [x] } (batch ++ [(index, x)]) (index + 1)
        (Nat.lt_succ_of_lt hi)
        (by simp; omega), drop_zero, drop_zero, Nat.add_zero, Nat.add_zero, indexed_cons]
      simp
    | succ p =>
      rw [if_neg (by omega), ih p n batch (index + 1) (by omega) (by omega), drop_succ_cons,
        show index + 1 + p = index + (p + 1) by omega]

theorem truncateAtSnapshot_of_head {t : Nat} (hf : n.log.head? = some first) (ht : first.term = t) :
    n.truncateAtSnapshot t = n := by
  unfold truncateAtSnapshot
  rw [hf]
  simp [ht]

/-- Both branches merge the entries into the log, and store them. -/
theorem appendAtSnapshot_log (hst : n.Stored) (hf : n.log.head? = some first)
    (hi : a.prevLogIndex = n.lastIncludedIndex) (ht : first.term = a.prevLogTerm) :
    (n.appendAtSnapshot a).log = mergedLog n.log (a.prevLogIndex + 1 - n.lastIncludedIndex) a.entries ∧
      (n.appendAtSnapshot a).Stored := by
  have hpos : 1 ≤ n.log.length := by
    cases hn : n.log with
    | nil => rw [hn] at hf; cases hf
    | cons => simp
  obtain ⟨hl, hs⟩ := mergeEntries_spec a.entries n (a.prevLogIndex + 1) (by omega) (by omega) hst
  unfold appendAtSnapshot
  rw [truncateAtSnapshot_of_head hf ht]
  exact ⟨(saveLogEntriesBatch_log ..).trans hl, hs.save⟩

theorem appendAfterSnapshot_log (hst : n.Stored) (hi : n.lastIncludedIndex < a.prevLogIndex)
    (hq : a.prevLogIndex - n.lastIncludedIndex < n.log.length) :
    (n.appendAfterSnapshot a).log = mergedLog n.log (a.prevLogIndex + 1 - n.lastIncludedIndex) a.entries ∧
      (n.appendAfterSnapshot a).Stored := by
  obtain ⟨l, s, es, heq, -⟩ := truncateConflict_relogged (P := (· ∈ a.entries)) n (a.prevLogIndex + 1) a.entries
  obtain ⟨hl, hst'⟩ := truncateConflict_spec a.entries n (a.prevLogIndex + 1) (by omega) hst
  have hk : a.prevLogIndex + 1 - n.lastIncludedIndex ≤
      (keptLog n.log (a.prevLogIndex + 1 - n.lastIncludedIndex) a.entries).length := le_length_keptLog (by omega)
  rw [heq] at hl hst'
  replace hl : l = _ := hl
  rw [← hl] at hk
  have ha :=
    appendMissing_past (l.length - (a.prevLogIndex + 1 - n.lastIncludedIndex)) a.entries (n.withLog l s es) []
    (a.prevLogIndex + 1) (by simp only [withLog]; omega) (by simp only [withLog]; omega)
  have hs := hst'.with_nil.append (a.entries.drop (l.length - (a.prevLogIndex + 1 - n.lastIncludedIndex))) _ []
    (length_pos_iff.1 (by simp only [withLog]; omega))
  unfold appendAfterSnapshot
  dsimp only
  rw [heq, ha]
  refine ⟨(saveLogEntriesBatch_log ..).trans ?_, StoredWith.save ?_⟩
  · rw [mergedLog, ← hl]
    rfl
  · rwa [show a.prevLogIndex + 1 + (l.length - (a.prevLogIndex + 1 - n.lastIncludedIndex)) =
      (n.withLog l s es).lastIncludedIndex + (n.withLog l s es).log.length by simp only [withLog]; omega]

theorem batchEntries_eq (n : RaftNode) (requests : List (Command × Nat)) : n.batchEntries requests =
      indexed (n.lastIncludedIndex + n.log.length) (requests.map fun r => ⟨n.currentTerm, r.1⟩) := by
  simp [batchEntries, indexed, zipIdx_map, Function.comp_def]

theorem indexed_snd (first : Nat) (es : List LogEntry) : (indexed first es).map Prod.snd = es := by
  simp [indexed, Function.comp_def]

theorem Stored.acceptRequests (h : n.Stored) (hpos : n.log ≠ []) {requests : List (Command × Nat)}
    (hne : requests ≠ []) : (n.acceptRequests requests).Stored ∧
      (n.acceptRequests requests).log = n.log ++ requests.map fun r => ⟨n.currentTerm, r.1⟩ := by
  rw [acceptRequests_eq n requests hne, batchEntries_eq, indexed_snd]
  exact ⟨h.with_nil.append _ n [] hpos, rfl⟩

theorem Stored.takeLeadership (h : n.Stored) (hpos : n.log ≠ []) : n.takeLeadership.Stored := by
  obtain ⟨next, hn⟩ := takeLeadership_eq n
  have := (h.with_nil.append [⟨n.currentTerm, .noOp⟩] n [] hpos)
  rw [hn]
  intro k
  refine Eq.trans ?_ (this k)
  simp [indexed, Nat.add_comm]

theorem Stored.createSnapshot (h : n.Stored) (hle : n.lastIncludedIndex ≤ n.lastApplied) :
    n.createSnapshot.Stored := by
  intro k
  have ho := h k
  rw [createSnapshot_eq]
  unfold image at ho ⊢
  simp only [lookup_foldl_erase, mem_range'_1, ho]
  split
  · rw [if_neg (by omega)]
  · rename_i hk
    by_cases hlt : n.lastApplied < k
    · obtain ⟨j, rfl⟩ : ∃ j, k = n.lastApplied + 1 + j := ⟨k - n.lastApplied - 1, by omega⟩
      rw [if_pos (by omega), if_pos hlt, show n.lastApplied + 1 + j - n.lastApplied = j + 1 by omega,
        getElem?_cons_succ, getElem?_drop]
      congr 1
      omega
    · rw [if_neg (by omega), if_neg hlt]

theorem Stored.installSnapshot (h : n.Stored) {i : Nat} (t : Nat) (data : SnapshotData)
    (hl : n.lastLogIndex ≤ i) : (n.installSnapshot i t data).Stored := by
  intro k
  have ho := h k
  rw [installSnapshot_eq]
  unfold image lastLogIndex at *
  simp only [lookup_foldl_erase, mem_range'_1, ho]
  have hn : ∀ k, i < k → ([⟨t, .noOp⟩] : List LogEntry)[k - i]? = none :=
    fun k hk => getElem?_eq_none (by simp; omega)
  split
  · rw [if_neg (by omega)]
  · rename_i hk
    split
    · rw [getElem?_eq_none (by omega)]
      split
      · rw [hn k (by omega)]
      · rfl
    · split
      · rw [hn k (by omega)]
      · rfl

private theorem loadLog_eq {db : Db} (l : List LogEntry) (fuel k : Nat) (hf : l.length ≤ fuel)
    (h : ∀ j, db.log.lookup (k + j) = l[j]?) : loadLog db fuel k = l := by
  induction l generalizing fuel k with
  | nil =>
    cases fuel with
    | zero => rfl
    | succ fuel =>
      have := h 0
      simp only [Nat.add_zero, getElem?_nil] at this
      simp [loadLog, this]
  | cons e l ih =>
    cases fuel with
    | zero => simp at hf
    | succ fuel =>
      have h0 := h 0
      simp only [Nat.add_zero, getElem?_cons_zero] at h0
      have := ih fuel (k + 1) (by simpa using hf) fun j => by
        have := h (j + 1)
        rwa [getElem?_cons_succ, show k + (j + 1) = k + 1 + j by omega] at this
      simp [loadLog, h0, this]

theorem Stored.boot (h : n.Stored) {tail : List LogEntry} (hlog : n.log = ⟨n.lastIncludedTerm, .noOp⟩ :: tail)
    (hm : n.db.snapshotMeta.getD (0, 0) = (n.lastIncludedIndex, n.lastIncludedTerm)) (conf : RaftNodeConfig) :
    (boot conf n.db).log = n.log ∧ (boot conf n.db).lastIncludedIndex = n.lastIncludedIndex ∧
      (boot conf n.db).lastIncludedTerm = n.lastIncludedTerm := by
  have hlen := h.length_le
  rw [hlog] at hlen
  have hl : loadLog n.db n.db.log.entries.length (n.lastIncludedIndex + 1) = tail := by
    refine loadLog_eq tail _ _ (by simpa using hlen) fun j => ?_
    rw [h, image, if_pos (by omega), hlog, show n.lastIncludedIndex + 1 + j - n.lastIncludedIndex = j + 1 by omega]
    simp
  simp [RaftNode.boot, RaftNode.new, loadState, hm, hl, hlog]

end Adding

end RaftNode

end RustHadoop
