import RustHadoop.Chunk.Contract

/-!
# Fencing by terms

A chunk server rejects a write or a replication with a term below the highest one it has seen.  It sees the terms
of all shards, in the answers to its heartbeats and in the requests themselves, and terms are only comparable
within a shard.

`terms` are the newest terms of the shards at some time.  What has reached the servers until then has terms that
some shard had, so none above the newest one of that shard.
-/

namespace RustHadoop

open Threads ChunkProg MyChunkServer Function

def ChunkRequest.masterTerm : ChunkRequest → Option Nat
  | .writeBlock r => some r.masterTerm
  | .replicateBlock r => some r.masterTerm
  | .readBlock _ => none

variable {r : WriteBlockRequest} {terms : S → Nat}

section

variable {N S : Type}

/-- No term, or one that a shard has or had. -/
def IsTerm (terms : S → Nat) (t : Nat) : Prop := t = 0 ∨ ∃ s, t ≤ terms s

variable (route : String → Option N)

/-- Chunk servers that hear from masters of several shards. -/
def fencedServers (terms : S → Nat) :
    Machine N ChunkServer ChunkOp ChunkOp.Res ChunkRequest ChunkAnswer Task DiskFault :=
  chunkServers route (fun r => ∀ t ∈ r.masterTerm, IsTerm terms t)
    (fun k => ∀ t, k = .learnTerm t → IsTerm terms t)
    fun _ => True

def termPolicy (terms : S → Nat) : Policy := ⟨fun _ _ => True, IsTerm terms, fun _ => True⟩

private theorem termPolicy_sound (terms : S → Nat) : (termPolicy terms).Sound :=
  ⟨.inl rfl, fun _ => trivial, fun _ _ _ _ => trivial⟩

private theorem fencedServers_sound (terms : S → Nat) :
    (fencedServers route terms).Sound (termPolicy terms).guard (termPolicy terms).contract := by
  refine chunkServers_sound (termPolicy_sound terms) (fun r hr => ?_) (fun t ht => ht t rfl) fun _ _ => trivial
  cases r with
  | writeBlock r | replicateBlock r => exact ⟨hr _ rfl, trivial⟩
  | readBlock r => trivial

private theorem fits_termPolicy {s : ChunkServer} (hs : s.knownTerm = 0) : s.Fits (termPolicy terms) where
  term := .inl hs
  hot := ⟨fun _ _ _ => .inr trivial, fun _ _ _ _ _ _ _ _ _ => trivial⟩
  cold _ _ := ⟨fun _ _ _ => .inr trivial, fun _ _ _ _ _ _ _ _ _ => trivial⟩
  cache _ _ := trivial

variable [DecidableEq N] {n : N}

private theorem exists_higher_of_rejected {route : String → Option N} {σ : N → ChunkServer}
    (hσ : ∀ n, (σ n).knownTerm = 0) {w : World N ChunkServer ChunkOp ChunkOp.Res ChunkRequest ChunkAnswer}
    (hw : (fencedServers route terms).Reachable (fun _ _ => True) (World.initial σ) w) {r : ChunkRequest}
    {e : Status} (ha : (n, r, ChunkAnswer.stored (.error e)) ∈ w.answers) {t : Nat} (ht : r.masterTerm = some t) :
    0 < t ∧ ∃ s, t < terms s := by
  have hg : ∀ o x, True → (termPolicy terms).guard o x := by
    intro o x _
    cases o with
    | readFile tier b => exact fun _ _ => trivial
    | _ => trivial
  have hk := (hw.mono hg).keeps (fencedServers_sound route terms) (fun n => fits_termPolicy (hσ n))
  have hans := hk.answers _ ha
  have hst : (termPolicy terms).Stored t (.error e) := by
    cases r with
    | writeBlock r | replicateBlock r =>
      cases ht
      exact hans
    | readBlock r => cases ht
  obtain ⟨hpos, t', rfl | ⟨s, hs⟩, hlt⟩ := hst e rfl
  · omega
  · exact ⟨hpos, s, by omega⟩

section

variable {route : String → Option N} {asks : ChunkRequest → Prop} {starts : Task → Prop}
  {faults : DiskFault → Prop}
  {σ : N → ChunkServer} {n : N} {t : Nat}

private theorem loadTerm_runs : (chunkServers route asks starts faults).Runs σ n loadTerm σ (σ n).knownTerm :=
  Machine.Runs.perform_iff.2 ⟨(update_eq_self n σ).symm, rfl⟩

theorem learnTerm_runs (ht : (σ n).knownTerm < t) :
    (chunkServers route asks starts faults).Runs σ n (learnTerm t)
    (update σ n { σ n with knownTerm := t }) () := by
  refine loadTerm_runs.bind ?_
  rw [if_pos ht]
  exact Machine.Runs.perform_iff.2 ⟨rfl, rfl⟩

private theorem fence_rejects (hpos : 0 < t) (hlt : t < (σ n).knownTerm) :
    (chunkServers route asks starts faults).Runs σ n (fence t) σ (.error (staleTerm t (σ n).knownTerm)) := by
  refine loadTerm_runs.bind ?_
  rw [if_pos ⟨hpos, hlt⟩]
  exact .ret

private theorem writeBlock_rejected (hpos : 0 < r.masterTerm) (hlt : r.masterTerm < (σ n).knownTerm) :
    (chunkServers route asks starts faults).Runs σ n (serve (.writeBlock r)) σ
      (.stored (.error (staleTerm r.masterTerm (σ n).knownTerm))) :=
  Machine.Runs.bind (Machine.Runs.bind (fence_rejects hpos hlt) .ret) .ret

end

theorem exists_rejected (terms : S → Nat) (σ : N → ChunkServer)
    (hσ : (σ n).knownTerm = 0) (s s' : S) (hpos : 0 < terms s) (hlt : terms s < terms s')
    (hr : r.masterTerm = terms s) :
    ∃ w e, (fencedServers route terms).Reachable (fun _ _ => True) (World.initial σ) w ∧
      (n, ChunkRequest.writeBlock r, ChunkAnswer.stored (.error e)) ∈ w.answers := by
  have hh : (fencedServers route terms).Runs σ n (task (.learnTerm (terms s')))
      (update σ n { σ n with knownTerm := terms s' }) () := learnTerm_runs (by omega)
  have hs : (fencedServers route terms).starts (.learnTerm (terms s')) := by
    rintro t ⟨⟩
    exact .inr ⟨s', le_rfl⟩
  have hst : (fencedServers route terms).Reachable (fun _ _ => True) (World.initial σ) (World.initial σ) := .refl
  obtain ⟨w, hw, hsta⟩ := hst.task hs hh
  have hk : (w.state n).knownTerm = terms s' := by rw [hsta, update_self]
  have hrj : (fencedServers route terms).Runs w.state n (serve (.writeBlock r)) w.state _ :=
    writeBlock_rejected (by omega) (by omega)
  have ha : (fencedServers route terms).asks (.writeBlock r) := by
    rintro t ⟨⟩
    exact .inr ⟨s, le_of_eq hr⟩
  obtain ⟨w', hw', -, hans⟩ := hw.request ha hrj
  exact ⟨w', _, hw', hans⟩

/-- For given newest terms of the shards: no request stamped with the newest term of a shard is ever rejected,
whatever else reaches the servers, exactly if no shard has a higher one. -/
theorem never_rejected_iff (route : String → Option N) (n0 : N) (terms : S → Nat) (s : S) :
    (∀ σ : N → ChunkServer, (∀ n, (σ n).knownTerm = 0) → ∀ w,
      (fencedServers route terms).Reachable (fun _ _ => True) (World.initial σ) w →
      ∀ n r e, (n, r, ChunkAnswer.stored (.error e)) ∈ w.answers → r.masterTerm ≠ some (terms s)) ↔
    terms s = 0 ∨ ∀ s', terms s' ≤ terms s := by
  constructor
  · intro h
    by_contra hcon
    push Not at hcon
    obtain ⟨hne, s', hlt⟩ := hcon
    obtain ⟨w, e, hw, hans⟩ :=
      exists_rejected route terms (fun _ => ChunkServer.new ⟨∅, ∅⟩ none 100 "") (n := n0) rfl
      s s' (Nat.pos_of_ne_zero hne) hlt (r := ⟨"", [], [], 0, -1, terms s⟩) rfl
    exact h _ (fun _ => rfl) w hw n0 _ e hans rfl
  · intro h σ hσ w hw n r e hans hterm
    obtain ⟨hpos, s', hlt⟩ := exists_higher_of_rejected hσ hw hans hterm
    rcases h with h | h
    · omega
    · exact absurd (h s') (by omega)

end

/-- Shard `b` is at term 3 when shard `a`, at its term 1, allocates a block: the write is rejected by the server
that has heard from `b`. -/
theorem newest_term_rejected :
    ∃ w e, (fencedServers (N := Unit) (fun _ => none) fun shard : Bool => if shard then 3 else 1).Reachable
        (fun _ _ => True) (World.initial fun _ => ChunkServer.new ⟨∅, ∅⟩ none 100 "") w ∧
      ((), ChunkRequest.writeBlock ⟨"b1", [1], [], 0, -1, 1⟩, ChunkAnswer.stored (.error e)) ∈ w.answers :=
  exists_rejected _ _ _ rfl false true (by decide) (by decide) rfl

end RustHadoop
