import RustHadoop.Chunk.Integrity
import RustHadoop.Lib.Environment

/-!
# The replication pipeline

The first server of a chain stores a block and passes it on to the second one, and so on.  Every server may be out
of reach, refuse the term of the request, receive data that its checksum does not fit, or fail to write, and every
answer may be lost.  Whatever happens, at the end the block is on the disks of the first servers of the chain, no
server behind them has got it, and the number of replicas in the answer is at least one and at most the number of
these first servers (`replicas_written_sound`).
-/

namespace RustHadoop

open Threads Environment MyChunkServer List Runs

abbrev Servers := String → ChunkServer

variable {r : ReplicateBlockRequest} {a : Except Status StoreResponse} {mismatch : String}

namespace Pipeline

def perform (n : String) (o : ChunkOp) (e : Servers) : Servers := Function.update e n (ChunkServer.exec o (e n)).1

/-- An action is done, or it fails and leaves the server in any state. -/
def Acts (n : String) (e : Servers) (o : ChunkOp) (x : o.Res) (e' : Servers) : Prop :=
  x = (ChunkServer.exec o (e n)).2 ∧ e' = perform n o e ∨ o.refuse x ∧ ∃ s, e' = Function.update e n s

def Garbled (r : ReplicateBlockRequest) : Prop :=
  r.expectedChecksumCrc32c ≠ 0 ∧ crc32 r.data ≠ r.expectedChecksumCrc32c

/-- What a server of the chain may meet, with at most this many servers after it.  A call does not arrive, or it
arrives as it was sent or with other data that its checksum does not fit, and its answer may be lost. -/
def chain : Nat → String → Environment Servers ChunkOp ChunkOp.Res ChunkRequest ChunkAnswer
  | 0, n => ⟨Acts n, fun e _ _ x e' => x = none ∧ e' = e⟩
  | depth + 1, n =>
    ⟨Acts n, fun e address r x e' => x = none ∧ e' = e ∨ ∃ sent arrived a, r = .replicateBlock sent ∧
      (arrived = sent ∨ ∃ data, arrived = { sent with data := data } ∧ Garbled arrived) ∧
      (chain depth address).Runs e (serve (.replicateBlock arrived)) e' a ∧ (x = some a ∨ x = none)⟩

/-- The block and a checksum file that fits it are on the disk of the server. -/
def Stored (s : ChunkServer) (blockId : String) (data : Bytes) : Prop :=
  s.findBlock .hot blockId = some data ∧
    s.storageDir.metas.lookup blockId = some (metaBytes (calculateChecksums data))

def Near (n : String) (e e' : Servers) : Prop := ∀ s ≠ n, e' s = e s

variable {e e1 e' : Servers} {depth : Nat} {n : String} {b : String} {d : Bytes}

private theorem Near.trans (h : Near n e e1) (h' : Near n e1 e') : Near n e e' :=
  fun s hs => (h' s hs).trans (h s hs)

section

variable {o : ChunkOp} {x : o.Res} (h : (chain depth n).Runs e (.perform o) e' x)
include h

private theorem acts_of_runs : Acts n e o x e' := by
  cases depth with
  | zero | succ depth => exact perform_iff.1 h

private theorem near_of_runs : Near n e e' := by
  intro s hs
  rcases acts_of_runs h with ⟨-, rfl⟩ | ⟨-, s', rfl⟩
  · exact Function.update_of_ne hs _ e
  · exact Function.update_of_ne hs _ e

private theorem eq_of_runs (hx : ¬ o.refuse x) : e' = perform n o e := by
  rcases acts_of_runs h with ⟨-, he⟩ | ⟨hr, -⟩
  · exact he
  · exact absurd hr hx

end

variable {ps : List (ChunkProg (Except IoError Unit))} {x : Except IoError Unit}

private theorem near_inOrder (hps : ∀ p ∈ ps, ∀ e e' x, (chain depth n).Runs e p e' x → Near n e e')
    (h : (chain depth n).Runs e (inOrder ps) e' x) : Near n e e' := by
  induction ps generalizing e with
  | nil =>
    obtain ⟨rfl, -⟩ := ret_iff.1 h
    exact fun _ _ => rfl
  | cons p ps ih =>
    obtain ⟨e1, y, hp, h⟩ := bind_iff.1 h
    have hn := hps p (mem_cons_self ..) _ _ _ hp
    cases y with
    | ok u => exact hn.trans (ih (fun p hp => hps p (mem_cons_of_mem _ hp)) h)
    | error s =>
      obtain ⟨rfl, -⟩ := ret_iff.1 h
      exact hn

private theorem near_writeBlockAsync (h : (chain depth n).Runs e (writeBlockAsync b d) e' x) : Near n e e' := by
  refine near_inOrder ?_ h
  simp only [mem_cons, not_mem_nil, or_false, forall_eq_or_imp, forall_eq]
  exact ⟨fun _ _ _ => near_of_runs, fun _ _ _ => near_of_runs, fun _ _ _ => near_of_runs, fun _ _ _ =>
    near_of_runs⟩

private theorem inOrder_ok {p : ChunkProg (Except IoError Unit)}
    (h : (chain depth n).Runs e (inOrder (p :: ps)) e' (.ok ())) :
    ∃ e1, (chain depth n).Runs e p e1 (.ok ()) ∧ (chain depth n).Runs e1 (inOrder ps) e' (.ok ()) := by
  obtain ⟨e1, y, hp, h⟩ := bind_iff.1 h
  cases y with
  | ok u => exact ⟨e1, hp, h⟩
  | error s => cases (ret_iff.1 h).2

private theorem stored_writeBlockAsync (h : (chain depth n).Runs e (writeBlockAsync b d) e' (.ok ())) :
    Stored (e' n) b d := by
  obtain ⟨e1, h1, h⟩ := inOrder_ok h
  obtain ⟨e2, h2, h⟩ := inOrder_ok h
  obtain ⟨e3, h3, h⟩ := inOrder_ok h
  obtain ⟨e4, h4, h⟩ := inOrder_ok h
  obtain ⟨rfl, -⟩ := ret_iff.1 h
  obtain rfl := eq_of_runs h2 (by rintro ⟨s, ⟨⟩⟩)
  obtain rfl := eq_of_runs h3 (by rintro ⟨s, ⟨⟩⟩)
  obtain rfl := eq_of_runs h4 (by rintro ⟨s, ⟨⟩⟩)
  simp [Stored, perform, ChunkServer.exec, ChunkServer.setBlock, ChunkServer.setMeta, ChunkServer.findBlock,
    ChunkServer.dir]

private theorem near_fence {t : Nat} {x : Except Status Unit} (h : (chain depth n).Runs e (fence t) e' x) :
    Near n e e' := by
  obtain ⟨e1, known, h1, h⟩ := bind_iff.1 h
  have hl := near_of_runs h1
  split at h
  · obtain ⟨rfl, -⟩ := ret_iff.1 h
    exact hl
  · split at h
    · obtain ⟨e2, _, h2, h⟩ := bind_iff.1 h
      obtain ⟨rfl, -⟩ := ret_iff.1 h
      exact hl.trans (near_of_runs h2)
    · obtain ⟨rfl, -⟩ := ret_iff.1 h
      exact hl

private theorem storeBlock_cases (h : (chain depth n).Runs e (storeBlock mismatch r) e' a) :
    (Near n e e' ∧ ∀ resp, a = .ok resp → resp.success = false) ∨
      ¬ Garbled r ∧ ∃ e1 further, Near n e e1 ∧ Stored (e1 n) r.blockId r.data ∧
        (chain depth n).Runs e1 (forward r r.nextServers) e' further ∧ a = .ok ⟨true, "", 1 + further⟩ := by
  obtain ⟨e1, x, hx, h⟩ := bind_iff.1 h
  have hf := near_fence hx
  cases x with
  | error s =>
    obtain ⟨rfl, rfl⟩ := ret_iff.1 h
    exact .inl ⟨hf, fun resp hr => by cases hr⟩
  | ok u =>
    dsimp only at h
    split at h
    · obtain ⟨rfl, rfl⟩ := ret_iff.1 h
      exact .inl ⟨hf, fun resp hr => by cases hr; rfl⟩
    · rename_i hft
      obtain ⟨e2, y, hy, h⟩ := bind_iff.1 h
      have hw := hf.trans (near_writeBlockAsync hy)
      cases y with
      | error s =>
        obtain ⟨rfl, rfl⟩ := ret_iff.1 h
        exact .inl ⟨hw, fun resp hr => by cases hr; rfl⟩
      | ok u =>
        obtain ⟨e3, further, hfr, h⟩ := bind_iff.1 h
        obtain ⟨rfl, rfl⟩ := ret_iff.1 h
        exact .inr ⟨hft, e2, further, hw, stored_writeBlockAsync hy, hfr, rfl⟩

/-- The first `k` servers of a chain have the block.  The next one may have been tried and has not got it, and all
the others are as they were. -/
structure StoresFirst (e e' : Servers) (blockId : String) (data : Bytes) (servers : List String) (k : Nat) :
    Prop where
  le : k ≤ servers.length
  stored : ∀ s ∈ servers.take k, Stored (e' s) blockId data
  behind : ∀ s ∈ servers.drop k, Stored (e' s) blockId data → Stored (e s) blockId data
  others : ∀ s ∉ servers.take (k + 1), e' s = e s

def Counts (a : Except Status StoreResponse) (k : Nat) : Prop :=
  ∀ resp, a = .ok resp → resp.success = true → 1 ≤ resp.replicasWritten ∧ resp.replicasWritten ≤ k

variable {servers : List String}

private theorem StoresFirst.refl (e : Servers) : StoresFirst e e b d servers 0 :=
  ⟨Nat.zero_le _, by simp, fun _ _ hs => hs, fun _ _ => rfl⟩

private theorem Near.storesFirst (h : Near n e e') (hnd : (n :: servers).Nodup)
    (ha : ∀ resp, a = .ok resp → resp.success = false) :
    ∃ k, StoresFirst e e' b d (n :: servers) k ∧ Counts a k := by
  have hc : ∀ k, Counts a k := by
    intro k resp hr hsc
    rw [ha resp hr] at hsc
    cases hsc
  have ho : ∀ s ∈ servers, e' s = e s := fun s hs => h s (ne_of_mem_of_not_mem hs (nodup_cons.1 hnd).1)
  by_cases hn : Stored (e' n) b d
  · refine ⟨1, ⟨Nat.succ_le_succ (Nat.zero_le _), by simpa using hn, fun s hs => ?_, fun s hs => ?_⟩, hc 1⟩
    · rw [ho s hs]
      exact id
    · exact h s fun heq => hs (heq ▸ mem_cons_self)
  · refine ⟨0, ⟨Nat.zero_le _, by simp, fun s hs hst => ?_, fun s hs => h s (by simpa using hs)⟩, hc 0⟩
    rcases mem_cons.1 hs with rfl | hs
    · exact absurd hst hn
    · rwa [ho s hs] at hst

private theorem StoresFirst.cons {k : Nat} (hnd : (n :: servers).Nodup) (hnr : Near n e e1)
    (hn : Stored (e1 n) b d)
    (h : StoresFirst e1 e' b d servers k) : StoresFirst e e' b d (n :: servers) (k + 1) := by
  have hnot := (nodup_cons.1 hnd).1
  refine ⟨Nat.succ_le_succ h.le, fun s hs => ?_, fun s hs hst => ?_, fun s hs => ?_⟩
  · rcases mem_cons.1 hs with rfl | hs
    · rwa [h.others s fun hs => hnot (mem_of_mem_take hs)]
    · exact h.stored s hs
  · have hs : s ∈ servers.drop k := hs
    rw [← hnr s (ne_of_mem_of_not_mem (mem_of_mem_drop hs) hnot)]
    exact h.behind s hs hst
  · obtain ⟨hne, hs⟩ := not_or.1 (mem_cons.not.1 hs)
    rw [h.others s hs, hnr s hne]

section

variable (hnext : ∀ {depth' e e' m r a}, depth = depth' + 1 → (chain depth' m).Runs e (replicateBlock r) e' a →
  (m :: r.nextServers).Nodup → ∃ k, StoresFirst e e' r.blockId r.data (m :: r.nextServers) k ∧ Counts a k)
include hnext

private theorem storesFirst_forward {i : Int} (h : (chain depth n).Runs e (forward r servers) e' i)
    (hn : servers.Nodup) : ∃ k, StoresFirst e e' r.blockId r.data servers k ∧ 0 ≤ i ∧ i ≤ k := by
  cases servers with
  | nil =>
    obtain ⟨rfl, rfl⟩ := ret_iff.1 h
    exact ⟨0, .refl _, le_rfl, le_rfl⟩
  | cons m rest =>
    obtain ⟨e1, x, hask, h⟩ := bind_iff.1 h
    have hcl := ask_iff.1 hask
    have hl : x = none → e' = e1 ∧ i = 0 := by
      rintro rfl
      exact ret_iff.1 h
    have hu : x = none ∧ e1 = e → ∃ k, StoresFirst e e' r.blockId r.data (m :: rest) k ∧ 0 ≤ i ∧ i ≤ k := by
      rintro ⟨hx, rfl⟩
      obtain ⟨rfl, rfl⟩ := hl hx
      exact ⟨0, .refl _, le_rfl, le_rfl⟩
    cases depth with
    | zero => exact hu hcl
    | succ depth =>
      rcases hcl with hcl | ⟨sent, arrived, a, hr, har, hs, hx⟩
      · exact hu hcl
      cases hr
      obtain ⟨e2, y, hrp, hret⟩ := bind_iff.1 hs
      obtain ⟨rfl, rfl⟩ := ret_iff.1 hret
      obtain ⟨k, hk, hc⟩ : ∃ k, StoresFirst e e1 r.blockId r.data (m :: rest) k ∧ Counts y k := by
        rcases har with rfl | ⟨data, rfl, hg⟩
        · exact hnext rfl hrp hn
        · -- garbled data is found out
          obtain ⟨hnr, ha⟩ := (storeBlock_cases hrp).resolve_right fun hf => hf.1 hg
          exact hnr.storesFirst hn ha
      rcases hx with rfl | rfl
      · cases y with
        | error s =>
          obtain ⟨rfl, rfl⟩ := ret_iff.1 h
          exact ⟨k, hk, le_rfl, Int.natCast_nonneg k⟩
        | ok resp =>
          obtain ⟨rfl, rfl⟩ := ret_iff.1 h
          refine ⟨k, hk, ?_⟩
          split
          · rename_i hsc
            have hrs := hc resp rfl hsc
            omega
          · exact ⟨le_rfl, Int.natCast_nonneg k⟩
      · obtain ⟨rfl, rfl⟩ := hl rfl
        exact ⟨k, hk, le_rfl, Int.natCast_nonneg k⟩

private theorem storesFirst_of_next (h : (chain depth n).Runs e (storeBlock mismatch r) e' a)
    (hnd : (n :: r.nextServers).Nodup) :
    ∃ k, StoresFirst e e' r.blockId r.data (n :: r.nextServers) k ∧ Counts a k := by
  rcases storeBlock_cases h with ⟨hnr, ha⟩ | ⟨-, e1, further, hnr, hn, hf, rfl⟩
  · exact hnr.storesFirst hnd ha
  · obtain ⟨k, hk, hpos, hle⟩ := storesFirst_forward hnext hf (nodup_cons.1 hnd).2
    refine ⟨k + 1, hk.cons hnd hnr hn, fun resp hr _ => ?_⟩
    cases hr
    push_cast
    exact ⟨by omega, by omega⟩

end

private theorem storesFirst_storeBlock (h : (chain depth n).Runs e (storeBlock mismatch r) e' a)
    (hn : (n :: r.nextServers).Nodup) :
    ∃ k, StoresFirst e e' r.blockId r.data (n :: r.nextServers) k ∧ Counts a k := by
  induction depth generalizing e e' n mismatch r a with
  | zero => exact storesFirst_of_next (fun hd => by cases hd) h hn
  | succ depth ih =>
    refine storesFirst_of_next ?_ h hn
    rintro _ _ _ _ _ _ ⟨⟩ h hn
    exact ih h hn

/-- During one call of `write_block` at the first server of a chain of distinct servers, the first servers of the
chain get the block, and a successful answer counts at least one replica and at most these. -/
theorem replicas_written_sound {r : WriteBlockRequest} {a : Except Status StoreResponse}
    (hnodup : (n :: r.nextServers).Nodup) (h : (chain depth n).Runs e (writeBlock r) e' a) :
    ∃ k, StoresFirst e e' r.blockId r.data (n :: r.nextServers) k ∧
      ∀ resp, a = .ok resp → resp.success = true → 1 ≤ resp.replicasWritten ∧ resp.replicasWritten ≤ k :=
  storesFirst_storeBlock h hnodup

/-- The second server is out of reach. -/
theorem replicas_written_sound_one : ∃ e' : Servers,
    (chain 1 "a").Runs (fun _ => pairServer) (writeBlock ⟨"b", [1], ["c"], 0, -1, 0⟩) e' (.ok ⟨true, "", 1⟩) ∧
      ∃ k, 1 ≤ k ∧ StoresFirst (fun _ => pairServer) e' "b" [1] ["a", "c"] k := by
  have hrun : ∃ e' : Servers,
      (chain 1 "a").Runs (fun _ => pairServer) (writeBlock ⟨"b", [1], ["c"], 0, -1, 0⟩) e'
        (.ok ⟨true, "", 1⟩) := by
    exact ⟨_, act (o := ChunkOp.loadTerm) (.inl ⟨rfl, rfl⟩) <|
      act (o := ChunkOp.setBlock "b" []) (.inl ⟨rfl, rfl⟩) <|
      act (o := ChunkOp.setBlock "b" [1]) (.inl ⟨rfl, rfl⟩) <|
      act (o := ChunkOp.setMeta "b" []) (.inl ⟨rfl, rfl⟩) <|
      act (o := ChunkOp.setMeta "b" (metaBytes (calculateChecksums [1]))) (.inl ⟨rfl, rfl⟩) <|
      call (x := none) (.inl ⟨rfl, rfl⟩) ret⟩
  obtain ⟨e', hrun⟩ := hrun
  obtain ⟨k, hk, hcount⟩ := replicas_written_sound (by decide) hrun
  exact ⟨e', hrun, k, Int.ofNat_le.1 ((hcount _ rfl rfl).1.trans (hcount _ rfl rfl).2), hk⟩

end Pipeline

end RustHadoop
