import RustHadoop.Chunk.Contract

/-!
# Integrity of blocks

Clients write the original data of every block, disk faults change block files but not checksum files, and CRC-32
has no collisions on the data involved.  Then a read of a whole block returns the original data in every run in
which every replication reads an intact block.

A replication sends what is on disk and the target computes new checksums for it, so a replication of a block that
a disk fault has changed makes a copy that all later checks accept.
-/

namespace RustHadoop

open Threads

section

variable {N : Type}

/-- Chunk servers to which clients write original data; disk faults leave contents that are involved. -/
def faultyServers (route : String → Option N) (original : String → Bytes) (involved : Bytes → Prop) :
    Machine N ChunkServer ChunkOp ChunkOp.Res ChunkRequest ChunkAnswer MyChunkServer.Task DiskFault :=
  chunkServers route (fun r => (∀ x, r = .writeBlock x → x.data = original x.blockId) ∧ ∀ x, r ≠ .replicateBlock x)
    (fun _ => True) fun f => involved f.data

def integrity (original : String → Bytes) (involved : Bytes → Prop) : Policy :=
  ⟨fun b d => d = original b, fun _ => True, involved⟩

def readsIntact (original : String → Bytes) : (o : ChunkOp) → o.Res → Bool
  | .readFile _ b, .ok d => d = original b
  | _, _ => true

/-- CRC-32 has no collisions with original data on first parts of what is involved. -/
structure NoCollisions (original : String → Bytes) (involved : Bytes → Prop) : Prop where
  involves : ∀ b, involved (original b)
  distinct :
    ∀ b d d', involved d → d' <+: d → calculateChecksums d' = calculateChecksums (original b) → d' = original b

private theorem NoCollisions.sound {original : String → Bytes} {involved : Bytes → Prop}
    (h : NoCollisions original involved) :
    (integrity original involved).Sound where
  zero := trivial
  involves hd := hd ▸ h.involves _
  distinct := by
    rintro b d d1 d2 rfl hd1 hp hs
    exact h.distinct b d1 d2 hd1 hp hs

structure ChunkServer.Empty (s : ChunkServer) : Prop where
  hot : s.storageDir = ⟨∅, ∅⟩
  cold : ∀ d ∈ s.coldStorageDir, d = ⟨∅, ∅⟩
  cache : s.blockCache = []

private theorem ChunkServer.Empty.fits {s : ChunkServer} (hs : s.Empty) (original : String → Bytes)
    (involved : Bytes → Prop) : s.Fits (integrity original involved) := by
  have he : (⟨∅, ∅⟩ : BlockDir).Fits (integrity original involved) := ⟨by simp, by simp⟩
  refine ⟨trivial, ?_, fun d hd => ?_, ?_⟩
  · rw [hs.hot]
    exact he
  · rw [hs.cold d hd]
    exact he
  · rw [hs.cache]
    simp

variable [DecidableEq N]

/-- In every run in which replications read intact blocks, a read of a whole block returns the original data. -/
theorem whole_read_original {route : String → Option N} {original : String → Bytes} {involved : Bytes → Prop}
    (hcrc : NoCollisions original involved) {σ : N → ChunkServer} (hσ : ∀ n, (σ n).Empty)
    {w : World N ChunkServer ChunkOp ChunkOp.Res ChunkRequest ChunkAnswer}
    (hw : (faultyServers route original involved).Reachable (fun o x => readsIntact original o x)
      (World.initial σ) w)
    {n : N} {r : ReadBlockRequest} {a : ReadBlockResponse}
    (ha : (n, ChunkRequest.readBlock r, ChunkAnswer.read (.ok a)) ∈ w.answers) (hwhole : r.Whole a) :
    a.data = original r.blockId := by
  have hguard : ∀ o x, readsIntact original o x = true → (integrity original involved).guard o x := by
    intro o x hx
    cases o with
    | readFile tier b =>
      rintro d rfl
      have hd : d = original b := of_decide_eq_true hx
      exact hd
    | _ => trivial
  have hsound : (faultyServers route original involved).Sound (integrity original involved).guard
      (integrity original involved).contract := by
    refine chunkServers_sound hcrc.sound (fun r hr => ?_) (fun _ _ => trivial) fun f hf => hf
    cases r with
    | writeBlock r => exact ⟨trivial, hr.1 r rfl⟩
    | replicateBlock r => exact absurd rfl (hr.2 r)
    | readBlock r => trivial
  have hkept := (hw.mono hguard).keeps hsound fun n => (hσ n).fits original involved
  exact hkept.answers _ ha a rfl hwhole

end

def pairRoute (address : String) : Option Bool := if address = "s2" then some true else none

def pairOriginal (_ : String) : Bytes := [1]

def pairInvolved (d : Bytes) : Prop := d = [1] ∨ d = [2]

def pairServer : ChunkServer := ChunkServer.new ⟨∅, ∅⟩ none 100 ""

/-- A client writes the block to the first server, a disk fault changes it there, a master orders a replication to
the second server, and a client reads it from the second server. -/
def replicateCorrupted (corrupt : Bool) : List (Move Bool ChunkRequest MyChunkServer.Task DiskFault) :=
  [.request false (.writeBlock ⟨"b", [1], [], 0, -1, 1⟩), .act 0, .act 0, .act 0, .act 0, .act 0, .act 0,
    .answer 0] ++
  (if corrupt then [.fault false ⟨.hot, "b", [2]⟩] else []) ++
  [.task false (.initiateReplication "b" "s2"), .act 1, .act 1, .act 1, .deliver 1,
    .act 2, .act 2, .act 2, .act 2, .act 2, .act 2, .answer 2, .reply 1 1,
    .request true (.readBlock ⟨"b", 0, 0⟩), .act 3, .act 3, .act 3, .act 3, .act 3, .act 3, .act 3,
      .act 3, .answer 3]

theorem replicateCorrupted_allowed (corrupt : Bool) : ∀ m ∈ replicateCorrupted corrupt,
    m.Allowed (faultyServers pairRoute pairOriginal pairInvolved) := by
  cases corrupt with
  | false => simp [replicateCorrupted, Move.Allowed, faultyServers, chunkServers, pairOriginal]
  | true => simp [replicateCorrupted, Move.Allowed, faultyServers, chunkServers, pairOriginal, pairInvolved]

theorem replicateCorrupted_answer : ∀ corrupt,
    ((World.initial fun _ => pairServer).play (faultyServers pairRoute pairOriginal pairInvolved)
      (fun o x => corrupt || readsIntact pairOriginal o x) (replicateCorrupted corrupt)).map (fun w =>
        w.answers.getLast?) =
    some (some (true, ChunkRequest.readBlock ⟨"b", 0, 0⟩,
      ChunkAnswer.read (.ok ⟨if corrupt then [2] else [1], 1, 1⟩))) := by
  decide +kernel

private theorem pair_noCollisions : NoCollisions pairOriginal pairInvolved where
  involves _ := .inl rfl
  distinct b d d' hd hp hs := by
    have hl :
        calculateChecksums [2] ≠ calculateChecksums [1] ∧ calculateChecksums [] ≠ calculateChecksums [1] := by
      decide +kernel
    rcases hd with rfl | rfl
    · rcases List.prefix_cons_iff.1 hp with rfl | ⟨t, rfl, ht⟩
      · exact absurd hs hl.2
      · rw [List.prefix_nil.1 ht]
        rfl
    · rcases List.prefix_cons_iff.1 hp with rfl | ⟨t, rfl, ht⟩
      · exact absurd hs hl.2
      · rw [List.prefix_nil.1 ht] at hs
        exact absurd hs hl.1

private theorem pair_empty : pairServer.Empty := ⟨rfl, by simp [pairServer, ChunkServer.new], rfl⟩

/-- Without the disk fault the second server returns the original data. -/
theorem whole_read_original_pair :
    ∃ w, (faultyServers pairRoute pairOriginal pairInvolved).Reachable (fun o x => readsIntact pairOriginal o x)
        (World.initial fun _ => pairServer) w ∧
      ∃ a, (true, ChunkRequest.readBlock ⟨"b", 0, 0⟩, ChunkAnswer.read (.ok a)) ∈ w.answers ∧
        a.data = pairOriginal "b" := by
  obtain ⟨w, hw, hlast⟩ := Option.map_eq_some_iff.1 (replicateCorrupted_answer false)
  have hreach := Machine.Reachable.of_play (replicateCorrupted_allowed false) hw
  have hmem := List.mem_of_getLast? hlast
  exact ⟨w, hreach, _, hmem, whole_read_original pair_noCollisions (fun _ => pair_empty) hreach hmem
    ⟨rfl, .inl rfl⟩⟩

/-- After the disk fault the second server returns what it left. -/
theorem replicated_corruption :
    ∃ w, (faultyServers pairRoute pairOriginal pairInvolved).Reachable (fun _ _ => True)
        (World.initial fun _ => pairServer) w ∧
      (true, ChunkRequest.readBlock ⟨"b", 0, 0⟩, ChunkAnswer.read (.ok ⟨[2], 1, 1⟩)) ∈ w.answers ∧
      [2] ≠ pairOriginal "b" := by
  obtain ⟨w, hw, hlast⟩ := Option.map_eq_some_iff.1 (replicateCorrupted_answer true)
  have hreach := Machine.Reachable.of_play (replicateCorrupted_allowed true) hw
  exact ⟨w, hreach.mono fun _ _ _ => trivial, List.mem_of_getLast? hlast, by decide⟩

end RustHadoop
