import RustHadoop.Meta.AppState

/-!
# States that hold the same

Two master states are the same if they agree on every path, every transaction record and the shuffled prefixes: the
order of a hash map's entries and the node-local fields do not count.  Commands keep that (`Same.applyCommand`),
and so does writing and reading a snapshot.
-/

namespace RustHadoop

open AList

namespace StringMap

variable {V : Type} {m m' : StringMap V}

/-- The two maps have the same entries. -/
def Same (m m' : StringMap V) : Prop := ∀ k, m.lookup k = m'.lookup k

section

variable (h : Same m m') (k : String)
include h k

theorem Same.insert (v : V) : Same (insert k v m) (insert k v m') := by
  intro j
  by_cases hj : j = k
  · subst hj
    rw [lookup_insert, lookup_insert]
  · rw [lookup_insert_ne hj, lookup_insert_ne hj]
    exact h j

theorem Same.erase : Same (erase k m) (erase k m') := by
  intro j
  by_cases hj : j = k
  · subst hj
    rw [lookup_erase, lookup_erase]
  · rw [lookup_erase_ne hj, lookup_erase_ne hj]
    exact h j

private theorem Same.modify (f : V → V) : Same (m.modify k f) (m'.modify k f) := by
  intro j
  rw [lookup_modify, lookup_modify, h k, h j]

theorem Same.mem_iff : k ∈ m ↔ k ∈ m' := by
  rw [← lookup_isSome, ← lookup_isSome, h k]

end

private theorem lookup_foldl_erase_keys (ks : List String) (m : StringMap V) (j : String) :
    (ks.foldl (fun m k => erase k m) m).lookup j = if j ∈ ks then none else m.lookup j := by
  induction ks generalizing m with
  | nil => simp
  | cons k ks ih =>
    rw [List.foldl_cons, ih]
    by_cases hj : j = k
    · subst hj
      simp
    · simp [hj, lookup_erase_ne hj]

private theorem Same.eraseFrom (h : Same m m') (bound : String) :
    Same ((m.keys.filter fun k => bound ≤ k).foldl (fun m k => AList.erase k m) m)
      ((m'.keys.filter fun k => bound ≤ k).foldl (fun m k => AList.erase k m) m') := by
  intro j
  have hmem : j ∈ (m.keys.filter fun k => bound ≤ k) ↔ j ∈ (m'.keys.filter fun k => bound ≤ k) := by
    rw [List.mem_filter, List.mem_filter, ← mem_keys, ← mem_keys, h.mem_iff]
  rw [lookup_foldl_erase_keys, lookup_foldl_erase_keys, h j]
  simp only [hmem]

private theorem Same.insertAll {α : Type} (key : α → String) (value : α → V) (l : List α) (h : Same m m') :
    Same (l.foldl (fun m a => AList.insert (key a) (value a) m) m)
      (l.foldl (fun m a => AList.insert (key a) (value a) m) m') := by
  induction l generalizing m m' with
  | nil => exact h
  | cons a l ih => exact ih (h.insert _ _)

end StringMap

namespace MasterState

/-- The states agree on what is written to a snapshot. -/
structure Same (s t : MasterState) : Prop where
  files : s.files.Same t.files
  records : s.transactionRecords.Same t.transactionRecords
  shuffling : s.shufflingPrefixes = t.shufflingPrefixes

theorem Same.refl (s : MasterState) : s.Same s := ⟨fun _ => rfl, fun _ => rfl, rfl⟩

theorem Same.symm {s t : MasterState} (h : s.Same t) : t.Same s :=
  ⟨fun k => (h.files k).symm, fun k => (h.records k).symm, h.shuffling.symm⟩

theorem Same.trans {s t u : MasterState} (h : s.Same t) (h' : t.Same u) : s.Same u :=
  ⟨fun k => (h.files k).trans (h'.files k), fun k =>
    (h.records k).trans (h'.records k), h.shuffling.trans h'.shuffling⟩

private theorem Same.applyTransactionOperation {s t : MasterState} (h : s.Same t) (op : TxOpType) :
    (s.applyTransactionOperation op).Same (t.applyTransactionOperation op) := by
  cases op with
  | delete path => exact ⟨h.files.erase _, h.records, h.shuffling⟩
  | create path metadata =>
    simp only [MasterState.applyTransactionOperation, h.files.mem_iff path]
    split
    · exact h
    · exact ⟨h.files.insert _ _, h.records, h.shuffling⟩

theorem Same.applyCommand {s t : MasterState} (h : s.Same t) (c : MasterCommand) :
    (s.applyCommand c).Same (t.applyCommand c) := by
  cases c with
  | createFile => exact ⟨h.files.insert _ _, h.records, h.shuffling⟩
  | deleteFile => exact ⟨h.files.erase _, h.records, h.shuffling⟩
  | allocateBlock | completeFile | updateAccessStats | moveToCold | convertToEc =>
    exact ⟨h.files.modify _ _, h.records, h.shuffling⟩
  | registerChunkServer | mergeShard => exact h
  | renameFile source dest =>
    simp only [MasterState.applyCommand, h.files source]
    split
    · exact ⟨(h.files.erase _).insert _ _, h.records, h.shuffling⟩
    · exact h
  | createTransactionRecord => exact ⟨h.files, h.records.insert _ _, h.shuffling⟩
  | updateTransactionState | setParticipantAcked | incrementInquiryCount =>
    exact ⟨h.files, h.records.modify _ _, h.shuffling⟩
  | applyTransactionOperation => exact h.applyTransactionOperation _
  | deleteTransactionRecord => exact ⟨h.files, h.records.erase _, h.shuffling⟩
  | splitShard bound => exact ⟨h.files.eraseFrom bound, h.records, h.shuffling⟩
  | ingestBatch files => exact ⟨h.files.insertAll _ _ files, h.records, h.shuffling⟩
  | triggerShuffle | stopShuffle =>
    exact ⟨h.files, h.records, by simp only [MasterState.applyCommand, h.shuffling]⟩

end MasterState

/-- The snapshot is one of a state that holds the same as `s`. -/
def SnapshotData.Shows (s : MasterState) : SnapshotData → Prop
  | .master image => image.load.Same s
  | _ => False

theorem MasterState.shows_serialize {s t : MasterState} (h : s.Same t) : (AppState.master s).serialize.Shows t :=
  ⟨h.files, h.records, h.shuffling⟩

theorem SnapshotData.Shows.restore {s : MasterState} {data : SnapshotData} (h : data.Shows s) (old : AppState) :
    ∃ t, data.restore old = .master t ∧ t.Same s := by
  cases data with
  | master image => exact ⟨_, rfl, h⟩
  | config | legacyMaster | malformed => exact h.elim

end RustHadoop
