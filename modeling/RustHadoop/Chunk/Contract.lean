import RustHadoop.Chunk.Server

/-!
# What chunk servers keep

A `Policy` says which data may be stored under a block id, which terms masters have, and which contents disk faults
may leave behind.  If whole-block reads by others, replications and writes only bring valid data, then the checksum
files and the cache of every server stay those of valid data, and a read of a whole block only returns valid data:
what fits the checksum file of valid data is valid, because no two of the contents involved have the same
checksums.

The one program that sends data without having compared it with checksums is `initiateReplication`, so the runs
considered are those in which what it reads from disk is valid (`Policy.guard`).
-/

namespace RustHadoop

open Threads ChunkServer List

structure Policy where
  valid : String → Bytes → Prop
  term : Nat → Prop
  involved : Bytes → Prop

variable {b : String} {d : Bytes}

namespace Policy

/-- No collisions: data with the checksums of valid data is valid.  What a server reads of a file is a first part
of it. -/
structure Sound (P : Policy) : Prop where
  zero : P.term 0
  involves : ∀ {b d}, P.valid b d → P.involved d
  distinct :
    ∀ {b d d1 d2}, P.valid b d → P.involved d1 → d2 <+: d1 → calculateChecksums d2 = calculateChecksums d →
    P.valid b d2

variable (P : Policy)

/-- The content of a block file; creating a file empties it. -/
def Content (d : Bytes) : Prop := d = [] ∨ P.involved d

/-- The content of a checksum file: what a server may read of a block file and fits the checksums is valid. -/
def MetaOf (b : String) (m : Bytes) : Prop :=
  ∀ d1 d2, P.involved d1 → d2 <+: d1 → d2 ≠ [] → calculateChecksums d2 = parseChecksums m → P.valid b d2

def guard : (o : ChunkOp) → o.Res → Prop
  | .readFile _ b, x => ∀ d, x = .ok d → P.valid b d
  | _, _ => True

variable {P}

theorem metaOf_nil (b : String) : P.MetaOf b [] := fun _ _ _ _ hne h => absurd (calculateChecksums_eq_nil.1 h) hne

theorem Sound.metaOf (hP : P.Sound) (hd : P.valid b d) : P.MetaOf b (metaBytes (calculateChecksums d)) := by
  intro d1 d2 hd1 hp _ h
  rw [parseChecksums_metaBytes] at h
  exact hP.distinct hd hd1 hp h

end Policy

structure BlockDir.Fits (P : Policy) (d : BlockDir) : Prop where
  blocks : ∀ b data, d.blocks.lookup b = some data → P.Content data
  metas : ∀ b m, d.metas.lookup b = some m → P.MetaOf b m

structure ChunkServer.Fits (P : Policy) (s : ChunkServer) : Prop where
  term : P.term s.knownTerm
  hot : s.storageDir.Fits P
  cold : ∀ d ∈ s.coldStorageDir, d.Fits P
  cache : ∀ e ∈ s.blockCache, P.valid e.1 e.2.data

def ChunkOp.Writes (P : Policy) : ChunkOp → Prop
  | .storeTerm term => P.term term
  | .setBlock _ data => P.Content data
  | .setMeta b data => P.MetaOf b data
  | .cachePut b block => P.valid b block.data
  | _ => True

variable {P : Policy}

section

variable {V : Type} {m : StringMap V} {p : String → V → Prop} (h : ∀ k v, m.lookup k = some v → p k v)
include h

private theorem StringMap.forall_insert {k : String} {v : V} (hv : p k v) :
    ∀ k' v', (m.insert k v).lookup k' = some v' → p k' v' := by
  intro k' v' hk'
  by_cases hkk : k' = k
  · subst hkk
    rw [AList.lookup_insert] at hk'
    cases hk'
    exact hv
  · rw [AList.lookup_insert_ne hkk] at hk'
    exact h k' v' hk'

private theorem StringMap.forall_erase (k : String) : ∀ k' v', (m.erase k).lookup k' = some v' → p k' v' := by
  intro k' v' hk'
  by_cases hkk : k' = k
  · subst hkk
    rw [AList.lookup_erase] at hk'
    cases hk'
  · rw [AList.lookup_erase_ne hkk] at hk'
    exact h k' v' hk'

end

variable {s : ChunkServer} {length : Nat} {tier : Tier}

private theorem ChunkServer.readExact_zero (h : s.readExact tier b 0 length = .ok d) :
    ∃ data, s.findBlock tier b = some data ∧ d.length = length ∧ d <+: data := by
  unfold readExact at h
  cases hf : s.findBlock tier b with
  | none =>
    rw [hf] at h
    cases h
  | some data =>
    simp only [hf, Nat.zero_add, drop_zero] at h
    split at h
    · rename_i hle
      cases h
      exact ⟨data, rfl, by simpa using hle, take_prefix _ _⟩
    · cases h

variable {data : Bytes} {o : ChunkOp}

namespace ChunkServer.Fits

variable {s : ChunkServer}

section

variable (h : s.Fits P)
include h

private theorem content (hb : s.findBlock tier b = some data) : P.Content data := by
  obtain ⟨d, hd, hdt⟩ := Option.bind_eq_some_iff.1 hb
  cases tier with
  | hot =>
    cases hd
    exact h.hot.blocks b data hdt
  | cold => exact (h.cold d hd).blocks b data hdt

private theorem metaOf {m : Bytes} (hb : s.findMeta b = some m) : P.MetaOf b m := by
  rcases Option.or_eq_some_iff.1 hb with hb | ⟨-, hb⟩
  · exact h.hot.metas b m hb
  · obtain ⟨d, hd, hm⟩ := Option.bind_eq_some_iff.1 hb
    exact (h.cold d hd).metas b m hm

private theorem cacheGet (b : String) : (s.cacheGet b).1.Fits P ∧ ∀ c ∈ (s.cacheGet b).2, P.valid b c.data := by
  unfold ChunkServer.cacheGet
  cases hf : s.blockCache.find? fun e => e.1 = b with
  | none => exact ⟨h, fun c hc => by cases hc⟩
  | some e =>
    have hmem : e ∈ s.blockCache := mem_of_find?_eq_some hf
    have hb : e.1 = b := by simpa using find?_some hf
    refine ⟨⟨h.term, h.hot, h.cold, fun e' he' => ?_⟩, fun c hc => ?_⟩
    · rcases mem_cons.1 he' with rfl | he'
      · exact h.cache e' hmem
      · exact h.cache e' (mem_filter.1 he').1
    · cases hc
      exact hb ▸ h.cache e hmem

private theorem cachePut {c : CachedBlock} (hc : P.valid b c.data) : (s.cachePut b c).Fits P := by
  refine ⟨h.term, h.hot, h.cold, fun e he => ?_⟩
  rcases mem_cons.1 (mem_of_mem_take he) with rfl | he
  · exact hc
  · exact h.cache e (mem_filter.1 he).1

private theorem moveBlock (b : String) : (s.moveBlock b).1.Fits P := by
  unfold ChunkServer.moveBlock
  split
  · rename_i cold data hc hdt
    refine ⟨h.term, ⟨StringMap.forall_erase h.hot.blocks b, h.hot.metas⟩, ?_, h.cache⟩
    rintro _ ⟨⟩
    have hf := h.cold cold hc
    exact ⟨StringMap.forall_insert hf.blocks (h.hot.blocks b data hdt), hf.metas⟩
  · exact h

private theorem moveMeta (b : String) : (s.moveMeta b).1.Fits P := by
  unfold ChunkServer.moveMeta
  split
  · rename_i cold m hc hm
    refine ⟨h.term, ⟨h.hot.blocks, StringMap.forall_erase h.hot.metas b⟩, ?_, h.cache⟩
    rintro _ ⟨⟩
    have hf := h.cold cold hc
    exact ⟨hf.blocks, StringMap.forall_insert hf.metas (h.hot.metas b m hm)⟩
  · exact h

private theorem exec (ho : o.Writes P) : (exec o s).1.Fits P := by
  cases o with
  | storeTerm term => exact ⟨ho, h.hot, h.cold, h.cache⟩
  | setBlock b data =>
    exact ⟨h.term, ⟨StringMap.forall_insert (p := fun _ => P.Content) h.hot.blocks ho, h.hot.metas⟩,
      h.cold, h.cache⟩
  | setMeta b data => exact ⟨h.term, ⟨h.hot.blocks, StringMap.forall_insert h.hot.metas ho⟩, h.cold, h.cache⟩
  | cacheGet b => exact (h.cacheGet b).1
  | cachePut b block => exact h.cachePut ho
  | moveBlock b => exact h.moveBlock b
  | moveMeta b => exact h.moveMeta b
  | loadTerm => exact h
  | blockPath b => exact h
  | fileSize tier b => exact h
  | readExact tier b offset length => exact h
  | readFile tier b => exact h
  | readMeta b => exact h
  | blockLocations b => exact h
  | myAddr => exact h

end

end ChunkServer.Fits

/-- The request and its answer are about the whole block. -/
def ReadBlockRequest.Whole (r : ReadBlockRequest) (a : ReadBlockResponse) : Prop :=
  r.offset = 0 ∧ (r.length = 0 ∨ a.totalSize ≤ r.length)

namespace Policy

variable (P : Policy)

/-- A request with this term is only rejected because there is a higher one. -/
def Stored (reqTerm : Nat) (a : Except Status StoreResponse) : Prop :=
  ∀ e, a = .error e → 0 < reqTerm ∧ ∃ t, P.term t ∧ reqTerm < t

def contract : Contract ChunkServer ChunkRequest ChunkAnswer where
  inv := Fits P
  req
    | .writeBlock r => P.term r.masterTerm ∧ P.valid r.blockId r.data
    | .replicateBlock r => P.term r.masterTerm ∧ P.valid r.blockId r.data
    | .readBlock _ => True
  ans
    | .writeBlock r, .stored a => P.Stored r.masterTerm a
    | .replicateBlock r, .stored a => P.Stored r.masterTerm a
    | .readBlock r, .read a => ∀ x, a = .ok x → r.Whole x → P.valid r.blockId x.data
    | _, _ => True

end Policy

def ChunkProg.Keeps {α : Type} (P : Policy) (Q : α → Prop) (p : ChunkProg α) : Prop :=
  Prog.Keeps chunkDevice P.guard P.contract Q p

namespace ChunkProg

variable {α β : Type} {Q : α → Prop}

private theorem Keeps.ret {a : α} (h : Q a) : Keeps P Q (pure a : ChunkProg α) := h

variable {p : ChunkProg α}

private theorem Keeps.bind {f : α → ChunkProg β} {Q' : β → Prop} (h : Keeps P Q p)
    (hf : ∀ a, Q a → Keeps P Q' (f a)) : Keeps P Q' (p >>= f) := Prog.Keeps.bind h hf

private theorem Keeps.imp {Q' : α → Prop} (h : Keeps P Q p) (hQ : ∀ a, Q a → Q' a) : Keeps P Q' p :=
  Prog.Keeps.imp h hQ

private theorem Keeps.perform {Q : o.Res → Prop} (ho : o.Writes P)
    (h : ∀ s : ChunkServer, s.Fits P → P.guard o (exec o s).2 → Q (exec o s).2)
    (h' : ∀ x, o.refuse x → P.guard o x → Q x) : Keeps P Q (.perform o) :=
  Prog.Keeps.perform (fun s hs hg => ⟨Fits.exec hs ho, h s hs hg⟩) h'

private theorem Keeps.any (ho : o.Writes P) : Keeps P (fun _ => True) (.perform o) :=
  .perform ho (fun _ _ _ => trivial) fun _ _ _ => trivial

private theorem loadTerm_keeps : Keeps P P.term loadTerm :=
  .perform trivial (fun _ hs _ => hs.term) fun x hx => by cases hx

private theorem readMeta_keeps (b : String) : Keeps P (fun x => ∀ m, x = some m → P.MetaOf b m) (readMeta b) := by
  refine .perform trivial (fun s hs _ m hm => hs.metaOf hm) ?_
  rintro x rfl _ m hm
  cases hm

private theorem cacheGet_keeps (b : String) : Keeps P (fun x => ∀ c, x = some c → P.valid b c.data) (cacheGet b) :=
  .perform trivial (fun s hs _ c hc => (hs.cacheGet b).2 c hc) fun x hx => by cases hx

private theorem readFile_keeps (tier : Tier) (b : String) :
    Keeps P (fun x => ∀ d, x = .ok d → P.valid b d) (readFile tier b) :=
  .perform trivial (fun _ _ hg => hg) fun _ _ hg => hg

private theorem readExact_keeps (tier : Tier) (b : String) (length : Nat) :
    Keeps P (fun x => ∀ d, x = .ok d → d.length = length ∧ ∃ d', P.Content d' ∧ d <+: d')
      (readExact tier b 0 length) := by
  refine .perform trivial (fun s hs _ d hd => ?_) ?_
  · obtain ⟨data, hf, hlen, hp⟩ := readExact_zero hd
    exact ⟨hlen, data, hs.content hf, hp⟩
  · rintro x ⟨e, rfl⟩ _ d hd
    cases hd

end ChunkProg

variable {bytesToRead : Nat}

namespace MyChunkServer

open ChunkProg

theorem inOrder_keeps {ps : List (ChunkProg (Except IoError Unit))} (h : ∀ p ∈ ps, Keeps P (fun _ => True) p) :
    Keeps P (fun _ => True) (inOrder ps) := by
  induction ps with
  | nil => exact .ret trivial
  | cons p ps ih =>
    refine .bind (h p (mem_cons_self ..)) fun x _ => ?_
    cases x with
    | ok u => exact ih fun p hp => h p (mem_cons_of_mem _ hp)
    | error e => exact .ret trivial

private theorem writeBlockAsync_keeps (hP : P.Sound) (h : P.valid b data) :
    Keeps P (fun _ => True) (writeBlockAsync b data) := by
  refine inOrder_keeps ?_
  simp only [mem_cons, not_mem_nil, or_false, forall_eq_or_imp, forall_eq]
  exact ⟨.any (.inl rfl), .any (.inr (hP.involves h)), .any (Policy.metaOf_nil b), .any (hP.metaOf h)⟩

private theorem readBlockAsync_keeps (b : String) (hl : 0 < length) :
    Keeps P (fun x => ∀ d, x = .ok d → d ≠ [] ∧ ∃ d', P.Content d' ∧ d <+: d') (readBlockAsync b 0 length) := by
  refine .bind (.any trivial) fun path _ => .bind (.any trivial) fun size _ => ?_
  cases size with
  | error e => exact .ret fun d hd => by cases hd
  | ok totalSize =>
    simp only
    split
    · exact .ret fun d hd => by cases hd
    · rename_i hs
      refine (readExact_keeps path b _).imp fun x hx d hd => ?_
      obtain ⟨hlen, hd⟩ := hx d hd
      refine ⟨?_, hd⟩
      rintro rfl
      simp at hlen
      omega

private theorem verifyBlock_keeps (hne : data ≠ []) (hdt : ∃ d', P.Content d' ∧ data <+: d') :
    Keeps P (fun x => x = .ok () → P.valid b data) (verifyBlock b data) := by
  refine .bind (readMeta_keeps b) fun m hm => ?_
  cases m with
  | none => exact .ret fun h => by cases h
  | some m =>
    refine .ret fun hok => ?_
    obtain ⟨d', hd' | hd', hp⟩ := hdt
    · subst hd'
      exact absurd (prefix_nil.1 hp) hne
    · exact hm m rfl d' data hd' hp hne (compareChecksums_eq_ok.1 hok).symm

private theorem fence_keeps {reqTerm : Nat} (h : P.term reqTerm) :
    Keeps P (fun x => ∀ e, x = .error e → 0 < reqTerm ∧ ∃ t, P.term t ∧ reqTerm < t) (fence reqTerm) := by
  refine .bind loadTerm_keeps fun known hk => ?_
  split
  · rename_i hs
    exact .ret fun _ _ => ⟨hs.1, known, hk, hs.2⟩
  · split
    · refine .bind (.any h) fun _ _ => .ret fun e he => ?_
      cases he
    · refine .ret fun e he => ?_
      cases he

variable {r : ReplicateBlockRequest}

private theorem forward_keeps (h : P.term r.masterTerm ∧ P.valid r.blockId r.data)
    (servers : List String) : Keeps P (fun _ => True) (forward r servers) := by
  cases servers with
  | nil => exact .ret trivial
  | cons nextServer remainingServers =>
    refine .bind (Q := fun _ => True) (Prog.Keeps.ask h fun _ _ => trivial) fun a _ => ?_
    split
    · exact .ret trivial
    · exact .ret trivial

theorem storeBlock_keeps (hP : P.Sound) (mismatch : String) (h : P.term r.masterTerm ∧ P.valid r.blockId r.data) :
    Keeps P (P.Stored r.masterTerm) (storeBlock mismatch r) := by
  refine .bind (fence_keeps h.1) fun x hx => ?_
  cases x with
  | error e => exact .ret fun e' _ => hx e rfl
  | ok u =>
    simp only
    split
    · exact .ret fun e he => by cases he
    · refine .bind (writeBlockAsync_keeps hP h.2) fun x _ => ?_
      cases x with
      | error e => exact .ret fun e he => by cases he
      | ok u => exact .bind (forward_keeps h _) fun further _ => .ret fun e he => by cases he

private theorem initiateReplication_keeps (b target : String) :
    Keeps P (fun _ => True) (initiateReplication b target) := by
  refine .bind (.any trivial) fun path _ => .bind (readFile_keeps path b) fun x hx => ?_
  cases x with
  | error e => exact .ret trivial
  | ok data =>
    refine .bind loadTerm_keeps fun term ht => ?_
    refine .bind (Q := fun _ => True) (Prog.Keeps.ask ⟨ht, hx data rfl⟩ fun _ _ => trivial) fun a _ => ?_
    split
    · exact .ret trivial
    · exact .ret trivial
    · exact .ret trivial

private theorem learnTerm_keeps {masterTerm : Nat} (h : P.term masterTerm) :
    Keeps P (fun _ => True) (learnTerm masterTerm) := by
  refine .bind loadTerm_keeps fun known _ => ?_
  split
  · exact .any h
  · exact .ret trivial

private theorem moveBlockToCold_keeps (b : String) : Keeps P (fun _ => True) (moveBlockToCold b) := by
  refine .bind (.any trivial) fun moved _ => ?_
  split
  · exact .any trivial
  · exact .ret trivial

/-- What another server sends of a whole block is valid, and only that is written. -/
theorem recoverFrom_keeps (hP : P.Sound) (b my : String) (locations : List String) :
    Keeps P (fun _ => True) (recoverFrom b my locations) := by
  induction locations with
  | nil => exact .ret trivial
  | cons location locations ih =>
    unfold recoverFrom
    split
    · exact ih
    · refine .bind (Q := fun x => ∀ a, x = some (.read (.ok a)) → P.valid b a.data) (Prog.Keeps.ask trivial ?_)
        fun x hx => ?_
      · rintro x hx a rfl
        exact hx _ rfl a rfl ⟨rfl, .inl rfl⟩
      · split
        · rename_i a
          refine .bind (Q := fun _ => True) ?_ fun y _ => ?_
          · exact .bind (.any trivial) fun m _ => by
              split
              · exact .ret trivial
              · exact .ret trivial
          · split
            · refine .bind (writeBlockAsync_keeps hP (hx a rfl)) fun z _ => ?_
              split
              · exact .ret trivial
              · exact ih
            · exact ih
        · exact ih

private theorem recoverBlock_keeps (hP : P.Sound) (b : String) : Keeps P (fun _ => True) (recoverBlock b) := by
  refine .bind (.any trivial) fun locations _ => ?_
  split
  · exact .ret trivial
  · exact .bind (.any trivial) fun my _ => recoverFrom_keeps hP b my locations

theorem readRecovered_keeps (hP : P.Sound) (b corruption : String) (h : 0 < bytesToRead) (totalSize : Nat) :
    Keeps P (fun x => ∀ a, x = .ok a → P.valid b a.data) (readRecovered b corruption 0 bytesToRead totalSize) := by
  refine .bind (recoverBlock_keeps hP b) fun x _ => ?_
  cases x with
  | error e => exact .ret fun a ha => by cases ha
  | ok u =>
    refine .bind (readBlockAsync_keeps b h) fun y hy => ?_
    cases y with
    | error e => exact .ret fun a ha => by cases ha
    | ok recovered =>
      obtain ⟨hne, hp⟩ := hy recovered rfl
      refine .bind (verifyBlock_keeps hne hp) fun z hz => ?_
      cases z with
      | error e => exact .ret fun a ha => by cases ha
      | ok u =>
        refine .ret fun a ha => ?_
        cases ha
        exact hz rfl

private theorem readWhole_keeps (hP : P.Sound) (b : String) (h : 0 < bytesToRead) (totalSize : Nat) :
    Keeps P (fun x => ∀ a, x = .ok a → P.valid b a.data) (readWhole b 0 bytesToRead totalSize) := by
  refine .bind (readBlockAsync_keeps b h) fun x hx => ?_
  split
  · exact .ret fun a ha => by cases ha
  · exact .ret fun a ha => by cases ha
  · rename_i data
    obtain ⟨hne, hp⟩ := hx data rfl
    refine .bind (verifyBlock_keeps hne hp) fun y hy => ?_
    cases y with
    | error e => exact readRecovered_keeps hP b e h totalSize
    | ok u =>
      refine .bind (.any (hy rfl)) fun _ _ => .ret fun a ha => ?_
      cases ha
      exact hy rfl

private theorem readBlockAsync_any (b : String) (offset length : Nat) :
    Keeps P (fun _ => True) (readBlockAsync b offset length) := by
  refine .bind (.any trivial) fun path _ => .bind (.any trivial) fun size _ => ?_
  cases size with
  | error e => exact .ret trivial
  | ok totalSize =>
    simp only
    split
    · exact .ret trivial
    · exact .any trivial

private theorem readPart_keeps (b : String) (offset bytesToRead totalSize : Nat) :
    Keeps P (fun x => ∀ a, x = .ok a → a.totalSize = totalSize) (readPart b offset bytesToRead totalSize) := by
  refine .bind (readBlockAsync_any b offset bytesToRead) fun x _ => ?_
  split
  · exact .ret fun a ha => by cases ha
  · exact .ret fun a ha => by cases ha
  · refine .ret fun a ha => ?_
    cases ha
    rfl

private theorem readBlock_keeps (hP : P.Sound) (r : ReadBlockRequest) :
    Keeps P (fun x => ∀ a, x = .ok a → r.Whole a → P.valid r.blockId a.data) (readBlock r) := by
  refine .bind (.any trivial) fun path _ => .bind (.any trivial) fun size _ => ?_
  cases size with
  | error e => exact .ret fun a ha => by cases ha
  | ok totalSize =>
    dsimp only
    by_cases hs : totalSize ≤ r.offset
    · rw [if_pos hs]
      exact .ret fun a ha => by cases ha
    rw [if_neg hs]
    by_cases hw : r.offset = 0 ∧
        min (if r.length = 0 then totalSize - r.offset else r.length) (totalSize - r.offset) = totalSize
    · rw [if_pos hw]
      obtain ⟨ho, hb⟩ := hw
      refine .bind (cacheGet_keeps r.blockId) fun c hc => ?_
      cases c with
      | some cached =>
        refine .ret fun a ha _ => ?_
        cases ha
        exact hc cached rfl
      | none =>
        dsimp only
        rw [hb, ho]
        exact (readWhole_keeps hP r.blockId (by omega) totalSize).imp fun x hx a ha _ => hx a ha
    · rw [if_neg hw]
      refine (readPart_keeps r.blockId r.offset _ totalSize).imp ?_
      intro x hx a ha hr
      obtain ⟨ho, hl⟩ := hr
      rw [hx a ha] at hl
      refine absurd ⟨ho, ?_⟩ hw
      rcases hl with hl | hl
      · simp [hl, ho]
      · rw [ho, Nat.sub_zero]
        split
        · exact min_self _
        · exact min_eq_right hl

private theorem serve_keeps (hP : P.Sound) {r : ChunkRequest} (hr : P.contract.req r) :
    Keeps P (P.contract.ans r) (serve r) := by
  cases r with
  | writeBlock r | replicateBlock r => exact .bind (storeBlock_keeps hP _ hr) fun x hx => .ret hx
  | readBlock r => exact .bind (readBlock_keeps hP r) fun x hx => .ret hx

private theorem task_keeps (hP : P.Sound) {t : Task} (ht : ∀ term, t = .learnTerm term → P.term term) :
    Keeps P (fun _ => True) (task t) := by
  cases t with
  | learnTerm masterTerm => exact learnTerm_keeps (ht masterTerm rfl)
  | initiateReplication b target => exact .bind (initiateReplication_keeps b target) fun _ _ => .ret trivial
  | recoverBlock b => exact .bind (recoverBlock_keeps hP b) fun _ _ => .ret trivial
  | moveBlockToCold b => exact .bind (moveBlockToCold_keeps b) fun _ _ => .ret trivial

end MyChunkServer

private theorem BlockDir.Fits.corrupt {d : BlockDir} (h : d.Fits P) (b : String) (hdt : P.involved data) :
    (d.corrupt b data).Fits P := by
  unfold BlockDir.corrupt
  split
  · exact ⟨StringMap.forall_insert (p := fun _ => P.Content) h.blocks (.inr hdt), h.metas⟩
  · exact h

private theorem ChunkServer.Fits.corrupt (h : s.Fits P) {f : DiskFault} (hf : P.involved f.data) :
    (s.corrupt f).Fits P := by
  unfold ChunkServer.corrupt
  split
  · exact ⟨h.term, h.hot.corrupt _ hf, h.cold, h.cache⟩
  · refine ⟨h.term, h.hot, fun d hd => ?_, h.cache⟩
    obtain ⟨d0, hd0, rfl⟩ := Option.map_eq_some_iff.1 hd
    exact (h.cold d0 hd0).corrupt _ hf

/-- Chunk servers keep what the policy says, whatever runs, if what comes from outside is as the policy says. -/
theorem chunkServers_sound {N : Type} (hP : P.Sound) {route : String → Option N} {asks : ChunkRequest → Prop}
    {starts : MyChunkServer.Task → Prop} {faults : DiskFault → Prop} (ha : ∀ r, asks r → P.contract.req r)
    (hst : ∀ term, starts (.learnTerm term) → P.term term) (hfl : ∀ f, faults f → P.involved f.data) :
    (chunkServers route asks starts faults).Sound P.guard P.contract where
  serve _ hr := MyChunkServer.serve_keeps hP hr
  task _ ht := MyChunkServer.task_keeps hP fun term htr => hst term (htr ▸ ht)
  asks := ha
  fault f _ hf hs := hs.corrupt (hfl f hf)

end RustHadoop
