import RustHadoop.Raft.Election

/-!
# Installing a snapshot

What `InstallSnapshot` does to a follower that has more than the snapshot.  The handler compares the snapshot only
with the one the follower has already: if it is newer, the log is thrown away and the commit index and the applied
index are set to the end of the snapshot, wherever they were.
-/

namespace RustHadoop

open RaftNode

namespace RaftNode

def entryAt (n : RaftNode) (k : Nat) : Option LogEntry :=
  if n.lastIncludedIndex < k then n.log[k - n.lastIncludedIndex]? else none

def HasSnapshotEntry (n : RaftNode) (a : InstallSnapshotArgs) : Prop :=
  ∃ e, n.entryAt a.lastIncludedIndex = some e ∧ e.term = a.lastIncludedTerm

/-- Nothing that was acknowledged is lost: the commit index and the applied index do not go back, and a node that
has the entry at the end of the snapshot keeps the entries after it. -/
structure KeepsAcknowledged (n n' : RaftNode) (a : InstallSnapshotArgs) : Prop where
  commit : n.commitIndex ≤ n'.commitIndex
  applied : n.lastApplied ≤ n'.lastApplied
  entries : n.HasSnapshotEntry a → ∀ k e, a.lastIncludedIndex < k → n.entryAt k = some e → n'.entryAt k = some e

section

variable (n : RaftNode) {a : InstallSnapshotArgs} (ht : n.currentTerm ≤ a.term)
include n ht

private theorem handleInstallSnapshot_of_le (hi : a.lastIncludedIndex ≤ n.lastIncludedIndex) :
    (n.handleInstallSnapshot a).1.log = n.log ∧
    (n.handleInstallSnapshot a).1.lastIncludedIndex = n.lastIncludedIndex ∧
      (n.handleInstallSnapshot a).1.commitIndex = n.commitIndex ∧
      (n.handleInstallSnapshot a).1.lastApplied = n.lastApplied := by
  have hs := stepDownToFollower_log n a.term none
  have ho : ¬ (n.stepDownToFollower a.term none).lastIncludedIndex < a.lastIncludedIndex := by
    rw [hs.2.1]
    omega
  simpa only [handleInstallSnapshot, if_pos ht, if_neg ho] using hs

theorem handleInstallSnapshot_of_lt (hi : n.lastIncludedIndex < a.lastIncludedIndex) :
    (n.handleInstallSnapshot a).1.log = [⟨a.lastIncludedTerm, .noOp⟩] ∧
      (n.handleInstallSnapshot a).1.lastIncludedIndex = a.lastIncludedIndex ∧
      (n.handleInstallSnapshot a).1.commitIndex = a.lastIncludedIndex ∧
      (n.handleInstallSnapshot a).1.lastApplied = a.lastIncludedIndex := by
  have hs := stepDownToFollower_log n a.term none
  have hn : (n.stepDownToFollower a.term none).lastIncludedIndex < a.lastIncludedIndex := by
    rw [hs.2.1]
    exact hi
  simp only [handleInstallSnapshot, if_pos ht, if_pos hn, installSnapshot_eq]
  exact ⟨trivial, trivial, trivial, trivial⟩

end

private theorem exists_entryAt (n : RaftNode) {k : Nat} (hk : n.lastIncludedIndex < k) (hle : k ≤ n.lastLogIndex) :
    ∃ e, n.entryAt k = some e := by
  have hlen : k - n.lastIncludedIndex < n.log.length := by
    unfold lastLogIndex at hle
    omega
  exact ⟨_, by rw [entryAt, if_pos hk]; exact List.getElem?_eq_getElem hlen⟩

private theorem le_lastLogIndex_of_entryAt {n : RaftNode} {k : Nat} {e : LogEntry} (h : n.entryAt k = some e) :
    k ≤ n.lastLogIndex := by
  unfold entryAt at h
  split at h
  · have := (List.getElem?_eq_some_iff.1 h).1
    unfold lastLogIndex
    omega
  · cases h

/-- An `InstallSnapshot` message of the node's term or a later one loses nothing exactly if the node already has a
snapshot that reaches as far, or has committed and applied nothing beyond the snapshot and, if its log fits the
snapshot, has no entries beyond it. -/
theorem handleInstallSnapshot_keeps_iff (n : RaftNode) (a : InstallSnapshotArgs) (ht : n.currentTerm ≤ a.term) :
    n.KeepsAcknowledged (n.handleInstallSnapshot a).1 a ↔ a.lastIncludedIndex ≤ n.lastIncludedIndex ∨
        (n.commitIndex ≤ a.lastIncludedIndex ∧ n.lastApplied ≤ a.lastIncludedIndex ∧
          (n.HasSnapshotEntry a → n.lastLogIndex ≤ a.lastIncludedIndex)) := by
  rcases Nat.lt_or_ge n.lastIncludedIndex a.lastIncludedIndex with hi | hi
  · obtain ⟨hlog, hlii, hcommit, happlied⟩ := handleInstallSnapshot_of_lt n ht hi
    have hnone : ∀ k, a.lastIncludedIndex < k → (n.handleInstallSnapshot a).1.entryAt k = none := by
      intro k hk
      rw [entryAt, hlii, if_pos hk, hlog, List.getElem?_eq_none (by simp; omega)]
    constructor
    · intro h
      have hc := h.commit
      have ha := h.applied
      rw [hcommit] at hc
      rw [happlied] at ha
      refine .inr ⟨hc, ha, fun hent => ?_⟩
      by_contra hlt
      obtain ⟨e, he⟩ := n.exists_entryAt (k := a.lastIncludedIndex + 1) (by omega) (by omega)
      have := h.entries hent _ e (Nat.lt_succ_self _) he
      rw [hnone _ (Nat.lt_succ_self _)] at this
      cases this
    · rintro (hle | ⟨hc, ha, hlen⟩)
      · omega
      · refine ⟨by rwa [hcommit], by rwa [happlied], fun hent k e hk he => ?_⟩
        have := le_lastLogIndex_of_entryAt he
        have := hlen hent
        omega
  · obtain ⟨hlog, hlii, hcommit, happlied⟩ := handleInstallSnapshot_of_le n ht hi
    refine iff_of_true ⟨hcommit.ge, happlied.ge, fun _ k e _ he => ?_⟩ (.inl hi)
    rwa [entryAt, hlii, hlog]

end RaftNode

def aheadFollower : RaftNode :=
  { boot (trio.config 3) (trio.db 3) with log := [⟨0, .noOp⟩, ⟨1, .noOp⟩, ⟨1, .noOp⟩] }

theorem handleInstallSnapshot_keeps_iff_ahead :
    ¬ aheadFollower.KeepsAcknowledged (aheadFollower.handleInstallSnapshot ⟨1, 1, 1, 1, .malformed⟩).1
      ⟨1, 1, 1, 1, .malformed⟩ := by
  rw [handleInstallSnapshot_keeps_iff _ _ (by decide)]
  rintro (h | ⟨-, -, h⟩)
  · exact absurd h (by decide)
  · exact absurd (h ⟨⟨1, .noOp⟩, rfl, rfl⟩) (by decide)

def deletions (first count : Nat) : List (Command × Nat) :=
  (List.range' first count).map fun tx => (.master (.deleteFile "/f"), tx)

/-- Node 1 commits 102 entries with node 2, appends one more, compacts and sends its snapshot to node 3, whose
answers it has not seen; then node 3 takes over, commits and applies all 103 entries. -/
def trioAhead : Cluster :=
  (Cluster.init trio).play trio (fun _ l => l.calm)
    [.tick 1 true, .deliver 3, .deliver 9, .propose 1 (deletions 0 101), .deliver 114, .deliver 115, .deliver 116,
      .deliver 119, .tick 1 false, .deliver 120, .deliver 124, .propose 1 (deletions 101 1), .tick 1 false,
      .tick 1 false, .deliver 331, .deliver 544, .tick 1 false, .deliver 548]

def Effect.snapshotSent? : Nat × Effect → Option (Nat × String × Nat × Nat × Nat)
  | (i, .send addr (.installSnapshot a)) => some (i, addr, a.lastIncludedIndex, a.lastIncludedTerm, a.term)
  | _ => none

private theorem Effect.of_snapshotSent? {x : Nat × Effect} {i k t u : Nat} {addr : String}
    (h : Effect.snapshotSent? x = some (i, addr, k, t, u)) : ∃ a : InstallSnapshotArgs,
      x = (i, .send addr (.installSnapshot a)) ∧ a.lastIncludedIndex = k ∧ a.lastIncludedTerm = t ∧
        a.term = u := by
  unfold Effect.snapshotSent? at h
  split at h
  · simp only [Option.some.injEq, Prod.mk.injEq] at h
    obtain ⟨rfl, rfl, rfl, rfl, rfl⟩ := h
    exact ⟨_, rfl, rfl, rfl, rfl⟩
  · cases h

private theorem trioAhead_facts : (trioAhead.trace[439]?).bind Effect.snapshotSent? = some (1, "c", 102, 1, 1) ∧
    (trioAhead.node 3).role = .follower ∧ (trioAhead.node 3).currentTerm = 1 ∧
    (trioAhead.node 3).commitIndex = 103 ∧ (trioAhead.node 3).lastApplied = 103 ∧
    (trioAhead.node 3).lastIncludedIndex = 0 ∧
    ((trioAhead.node 3).log[102]?).map LogEntry.term = some 1 ∧
    ((trioAhead.node 3).log[103]?).isSome = true := by
  decide +kernel

theorem install_snapshot_loses_entry : ∃ c, FixedRun trio c ∧ (c.node 3).role = .follower ∧ ∃ a tx,
    Delivered trio c 3 (.installSnapshot a) (some tx) ∧ (c.node 3).currentTerm ≤ a.term ∧
    ((c.node 3).handleInstallSnapshot a).1.commitIndex < (c.node 3).commitIndex ∧
    ((c.node 3).handleInstallSnapshot a).1.lastApplied < (c.node 3).lastApplied ∧
    (c.node 3).HasSnapshotEntry a ∧
    ∃ e, (c.node 3).entryAt 103 = some e ∧ ((c.node 3).handleInstallSnapshot a).1.entryAt 103 = none := by
  obtain ⟨hsent, hrole, hterm, hcommit, happlied, hlii, hentry, hmore⟩ := trioAhead_facts
  obtain ⟨x, hx, hsent⟩ := Option.bind_eq_some_iff.1 hsent
  obtain ⟨a, rfl, hi, ht, hat⟩ := Effect.of_snapshotSent? hsent
  obtain ⟨hlog, hlii', hcommit', happlied'⟩ :=
    handleInstallSnapshot_of_lt (trioAhead.node 3) (a := a) (by omega) (by omega)
  obtain ⟨e, he, hterm'⟩ := Option.map_eq_some_iff.1 hentry
  obtain ⟨e', he'⟩ := Option.isSome_iff_exists.1 hmore
  refine ⟨trioAhead, .play (fun _ _ he _ hk => ⟨he, Label.noMembership_of_calm hk⟩) .init _, hrole, a, ⟨1, 439⟩,
    ⟨"c", hx, rfl⟩, by omega, by omega, by omega, ⟨e, ?_, hterm'.trans ht.symm⟩, e', ?_, ?_⟩
  · rw [entryAt, hlii, hi, if_pos (by decide)]
    exact he
  · rw [entryAt, hlii, if_pos (by decide)]
    exact he'
  · rw [entryAt, hlii', hi, if_pos (by decide), hlog]
    rfl

end RustHadoop
