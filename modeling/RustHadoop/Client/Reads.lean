import RustHadoop.Chunk.Server
import RustHadoop.Common.Erasure
import RustHadoop.Meta.Files

/-!
# Reading blocks and files

The reading half of the client (`dfs/client/src/mod.rs`).  A replicated block is read from the first location that
answers; with a hedge delay the second location is asked while the first one has not answered.  All shards of an
erasure-coded block are fetched, and the block is put together from the data shards or decoded.  A file is read
whole, or a range of it block by block.

The outcome of asking a location is fixed, and which of two things happens first is open (`Race`).
-/

namespace RustHadoop

open List

/-- Which branch of each `select!` of a hedged read completes first. -/
structure Race where
  /-- the first location answers before the hedge delay is over -/
  primaryInTime : Bool
  /-- the first location answers before the second one -/
  primaryWins : Bool

theorem toOption_eq_some {ε α : Type} {x : Except ε α} {a : α} : x.toOption = some a ↔ x = .ok a := by
  cases x with
  | ok b | error e => simp [Except.toOption]

structure BlockReader where
  readBlockFromLocation : (location blockId : String) → (offset length : Nat) → Except String Bytes
  hedgeDelayMs : Option Nat

variable {locations : List String} {offset length : Nat}

namespace BlockReader

section Range

variable (c : BlockReader) (race : Race) (blockId : String) (offset length : Nat)

def readInOrder : List String → Except String Bytes
  | [] => .error ("Failed to read block " ++ blockId ++ " from any location")
  | location :: rest =>
    match c.readBlockFromLocation location blockId offset length with
    | .ok data => .ok data
    | .error _ => readInOrder rest

/-- The one that completes first decides if it succeeds, and otherwise the other one. -/
def readFirst (first second : String) (rest : List String) : Except String Bytes :=
  match c.readBlockFromLocation first blockId offset length with
  | .ok data => .ok data
  | .error _ =>
    match c.readBlockFromLocation second blockId offset length with
    | .ok data => .ok data
    | .error _ => c.readInOrder blockId offset length rest

def readHedged (primary hedge : String) (rest : List String) : Except String Bytes :=
  -- once the first location has failed, only the second one can help
  if race.primaryInTime then c.readFirst blockId offset length primary hedge rest
  else if race.primaryWins then c.readFirst blockId offset length primary hedge rest
  else c.readFirst blockId offset length hedge primary rest

def readBlockRange (locations : List String) : Except String Bytes :=
  match c.hedgeDelayMs, locations with
  | _, [] => .error ("Block " ++ blockId ++ " has no locations")
  | some _, primary :: hedge :: rest => c.readHedged race blockId offset length primary hedge rest
  | _, locations => c.readInOrder blockId offset length locations

theorem toOption_readInOrder (locations : List String) : (c.readInOrder blockId offset length locations).toOption =
    locations.findSome? fun location => (c.readBlockFromLocation location blockId offset length).toOption := by
  induction locations with
  | nil => rfl
  | cons location rest ih =>
    rw [readInOrder, findSome?_cons]
    cases c.readBlockFromLocation location blockId offset length with
    | ok data => rfl
    | error e => exact ih

private theorem toOption_readBlockRange (locations : List String) : ∃ order : List String, order.Perm locations ∧
    (c.readBlockRange race blockId offset length locations).toOption =
      order.findSome? fun location => (c.readBlockFromLocation location blockId offset length).toOption := by
  unfold readBlockRange
  split
  · exact ⟨[], .refl _, rfl⟩
  · rename_i primary he rest _
    have hf : ∀ first second, (c.readFirst blockId offset length first second rest).toOption = _ :=
      fun first second =>
      toOption_readInOrder c blockId offset length (first :: second :: rest)
    unfold readHedged
    split
    · exact ⟨_, .refl _, hf primary he⟩
    · split
      · exact ⟨_, .refl _, hf primary he⟩
      · exact ⟨_, .swap _ _ _, hf he primary⟩
  · exact ⟨_, .refl _, toOption_readInOrder ..⟩

variable {race} in
private theorem readBlockRange_eq_ok {data : Bytes}
    (h : c.readBlockRange race blockId offset length locations = .ok data) :
    ∃ location ∈ locations, c.readBlockFromLocation location blockId offset length = .ok data := by
  obtain ⟨order, hp, hr⟩ := c.toOption_readBlockRange race blockId offset length locations
  rw [← toOption_eq_some, hr] at h
  obtain ⟨l, hl, hdt⟩ := exists_of_findSome?_eq_some h
  exact ⟨l, hp.mem_iff.1 hl, toOption_eq_some.1 hdt⟩

private theorem exists_readBlockRange {l : String} (hl : l ∈ locations)
    (ha : ∃ data, c.readBlockFromLocation l blockId offset length = .ok data) :
    ∃ data, c.readBlockRange race blockId offset length locations = .ok data := by
  obtain ⟨order, hp, hr⟩ := c.toOption_readBlockRange race blockId offset length locations
  simp only [← toOption_eq_some, ← Option.isSome_iff_exists] at ha ⊢
  rw [hr]
  exact findSome?_isSome_iff.2 ⟨l, hp.mem_iff.2 hl, ha⟩

/-- With and without hedging, whatever completes first: a read succeeds exactly if one of the locations answers,
and then with what one of them answers. -/
theorem hedging_keeps_replicas (locations : List String) :
    ((∃ data, c.readBlockRange race blockId offset length locations = .ok data) ↔
      ∃ location ∈ locations, ∃ data, c.readBlockFromLocation location blockId offset length = .ok data) ∧
    ∀ data, c.readBlockRange race blockId offset length locations = .ok data →
      ∃ location ∈ locations, c.readBlockFromLocation location blockId offset length = .ok data := by
  refine ⟨⟨?_, ?_⟩, fun data h => readBlockRange_eq_ok c blockId offset length h⟩
  · rintro ⟨data, h⟩
    obtain ⟨l, hl, hdata⟩ := readBlockRange_eq_ok c blockId offset length h
    exact ⟨l, hl, data, hdata⟩
  · rintro ⟨l, hl, hanswer⟩
    exact exists_readBlockRange c race blockId offset length hl hanswer

end Range

section Shards

variable (c : BlockReader) (rs : ReedSolomon) (block : BlockInfo)

def fetchShards (total : Nat) : List (Option Bytes) :=
  (range total).map fun i =>
    block.locations[i]?.bind fun location => (c.readBlockFromLocation location block.blockId 0 0).toOption

def readEcBlock : Except String Bytes :=
  let dataShards := block.ecDataShards.toNat
  let parityShards := block.ecParityShards.toNat
  let optShards := c.fetchShards block (dataShards + parityShards)
  let available := optShards.countP Option.isSome
  if available < dataShards then
    .error ("EC block " ++ block.blockId ++ " unrecoverable: only " ++ toString available ++ "/" ++
      toString dataShards ++
      " shards available")
  else if (optShards.take dataShards).all Option.isSome then
    .ok (((optShards.take dataShards).map fun s => s.getD []).flatten.take block.originalSize)
  else Erasure.decode rs optShards dataShards parityShards block.originalSize

def answering : Nat :=
  block.locations.countP fun location => (c.readBlockFromLocation location block.blockId 0 0).isOk

/-- The block has `k` data and `m` parity shards, one per location, and what can be fetched is the shard at its
position. -/
structure Offers (k m : Nat) (shards : List Bytes) : Prop where
  data : block.ecDataShards = k
  parity : block.ecParityShards = m
  locations : block.locations.length = k + m
  fetched : ∀ (i : Nat) location x, block.locations[i]? = some location →
    c.readBlockFromLocation location block.blockId 0 0 = .ok x → shards[i]? = some x

variable {c rs block} {k m : Nat} {shards : List Bytes}

private theorem fetchShards_eq : c.fetchShards block block.locations.length =
    block.locations.map fun location => (c.readBlockFromLocation location block.blockId 0 0).toOption := by
  refine ext_getElem? fun i => ?_
  rw [fetchShards, getElem?_map, getElem?_map]
  by_cases hi : i < block.locations.length
  · rw [getElem?_range hi, Option.map_some, getElem?_eq_getElem hi]
    rfl
  · rw [getElem?_eq_none (by simpa using hi), getElem?_eq_none (by simpa using hi)]
    rfl

private theorem countP_fetchShards (c : BlockReader) (block : BlockInfo) :
    (c.fetchShards block block.locations.length).countP Option.isSome = c.answering block := by
  rw [fetchShards_eq, countP_map, answering]
  refine countP_congr fun location _ => ?_
  cases h : c.readBlockFromLocation location block.blockId 0 0 with
  | ok x | error e => simp [h, Except.toOption, Except.isOk, Except.toBool]

private theorem Offers.isPartOf (h : c.Offers block k m shards) (hlen : shards.length = k + m) :
    IsPartOf shards (c.fetchShards block (k + m)) := by
  rw [← h.locations, fetchShards_eq]
  refine ⟨by rw [length_map, h.locations, hlen], fun i x hi => ?_⟩
  rw [getElem?_map] at hi
  obtain ⟨location, hl, hx⟩ := Option.map_eq_some_iff.1 hi
  exact h.fetched i location x hl (toOption_eq_some.1 hx)

private theorem take_of_isPartOf {present : List (Option Bytes)} (h : IsPartOf shards present)
    (ha : (present.take k).all Option.isSome = true) :
    (present.take k).map (fun s => s.getD []) = shards.take k := by
  refine ext_getElem? fun i => ?_
  rw [getElem?_map, getElem?_take, getElem?_take]
  split
  · rename_i hi
    cases hx : present[i]? with
    | none =>
      rw [getElem?_eq_none_iff] at hx
      rw [getElem?_eq_none (h.1 ▸ hx)]
      rfl
    | some s =>
      have hmem : s ∈ present.take k := mem_of_getElem? (i := i) (by rw [getElem?_take, if_pos hi, hx])
      obtain ⟨x, rfl⟩ := Option.isSome_iff_exists.1 (all_eq_true.1 ha s hmem)
      rw [h.2 i x hx]
      rfl
  · rfl

variable {buffer : Bytes}

theorem readEcBlock_eq_ok (hrs : rs.Lawful) (hb : buffer ≠ []) (hk : 0 < k) (hm : 0 < m) (hn : rs.new k m = .ok ())
    (hsz : block.originalSize = buffer.length) (hs : Erasure.encode rs buffer k m = .ok shards)
    (ho : c.Offers block k m shards) (hmn : k ≤ c.answering block) : c.readEcBlock rs block = .ok buffer := by
  obtain ⟨raw, code, he, hr, hlen, hdt⟩ := Erasure.encode_spec hrs hb hk hm hn
  obtain rfl : shards = code := Except.ok.inj (hs.symm.trans he)
  have hp := ho.isPartOf hlen
  have hc := countP_fetchShards c block
  rw [ho.locations] at hc
  simp only [readEcBlock, ho.data, ho.parity, Int.toNat_natCast, hc, hsz, if_neg (not_lt.2 hmn)]
  split
  · rename_i ha
    rw [take_of_isPartOf hp ha, hdt]
  · rw [Erasure.decode_spec hrs hn hr hp (hc ▸ hmn), hdt]

/-- From `k` shards the block is read, whichever they are, and from fewer it is not. -/
theorem any_k_shards_suffice (hrs : rs.Lawful) (hbuffer : buffer ≠ []) (hk : 0 < k) (hm : 0 < m)
    (hnew : rs.new k m = .ok ()) (hsize : block.originalSize = buffer.length)
    (hshards : Erasure.encode rs buffer k m = .ok shards) (hoffers : c.Offers block k m shards) :
    (k ≤ c.answering block → c.readEcBlock rs block = .ok buffer) ∧
      (c.answering block < k → ∃ e, c.readEcBlock rs block = .error e) := by
  refine ⟨readEcBlock_eq_ok hrs hbuffer hk hm hnew hsize hshards hoffers, fun hfew => ?_⟩
  have hcount := countP_fetchShards c block
  rw [hoffers.locations] at hcount
  simp only [readEcBlock, hoffers.data, hoffers.parity, Int.toNat_natCast, hcount, if_pos hfew]
  exact ⟨_, rfl⟩

end Shards

section Files

variable (c : BlockReader) (rs : ReedSolomon) (race : Nat → Race)

def fetchSingleBlock (race : Race) (block : BlockInfo) : Except String Bytes :=
  if block.locations = [] then .error ("Block " ++ block.blockId ++ " has no locations")
  else if 0 < block.ecDataShards then c.readEcBlock rs block
  else c.readBlockRange race block.blockId 0 0 block.locations

def fetchBlocks : Nat → List BlockInfo → Except String Bytes
  | _, [] => .ok []
  | idx, block :: rest => do
    let data ← c.fetchSingleBlock rs (race idx) block
    let others ← fetchBlocks (idx + 1) rest
    return data ++ others

variable (info : Except String GetFileInfoResponse)

def metadataOf : Except String FileMetadata := do
  let infoResp ← info
  if infoResp.found then
    match infoResp.metadata with
    | some metadata => .ok metadata
    | none => .error "No metadata"
  else .error "File not found"

def getFileContent : Except String Bytes := do
  let metadata ← metadataOf info
  c.fetchBlocks rs race 0 metadata.blocks

def checkedSub (a b : Nat) : Except String Nat :=
  if b ≤ a then .ok (a - b) else .error "attempt to subtract with overflow"

/-- A part of a block; an erasure-coded block is read whole. -/
def readPartOf (race : Race) (block : BlockInfo) (blockOffset blockLength : Nat) : Except String Bytes :=
  if 0 < block.ecDataShards then do
    let full ← c.readEcBlock rs block
    let last := min (blockOffset + blockLength) full.length
    if blockOffset ≤ last then .ok ((full.take last).drop blockOffset)
    else .error ("slice index starts at " ++ toString blockOffset ++ " but ends at " ++ toString last)
  else c.readBlockRange race block.blockId blockOffset blockLength block.locations

/-- What the blocks, of which the first one begins at the file position, hold of the range. -/
def readBlocks (offset endOffset : Nat) : Nat → List BlockInfo → Except String Bytes
  | _, [] => .ok []
  | filePosition, block :: rest =>
    if filePosition + block.size ≤ offset then readBlocks offset endOffset (filePosition + block.size) rest
    else if endOffset ≤ filePosition then .ok []
    else do
      let left ← checkedSub endOffset filePosition
      let blockLength ← checkedSub (min block.size left) (offset - filePosition)
      let data ← c.readPartOf rs (race filePosition) block (offset - filePosition) blockLength
      let others ← readBlocks offset endOffset (filePosition + block.size) rest
      return data ++ others

def readFileRange (offset length : Nat) : Except String Bytes := do
  let metadata ← metadataOf info
  if metadata.size ≤ offset then
    .error ("Offset " ++ toString offset ++ " exceeds file size " ++ toString metadata.size)
  else
    let bytesToRead := min length (metadata.size - offset)
    c.readBlocks rs race offset (offset + bytesToRead) 0 metadata.blocks

end Files

/-- The locations of a block that answer hold the data, or they hold shards of it and are at least `k`. -/
inductive Holds (rs : ReedSolomon) (c : BlockReader) (block : BlockInfo) (data : Bytes) : Prop
  | copies (hrep : ¬ 0 < block.ecDataShards) (hsame : ∀ location ∈ block.locations, ∀ offset length x,
        c.readBlockFromLocation location block.blockId offset length = .ok x →
          blockSlice data offset length = .ok x)
      (hsome : ∃ location ∈ block.locations, ∀ offset length x,
        blockSlice data offset length = .ok x →
          c.readBlockFromLocation location block.blockId offset length = .ok x)
  | shards {k m : Nat} {shards : List Bytes} (hk : 0 < k) (hm : 0 < m) (hnew : rs.new k m = .ok ())
      (hsize : block.originalSize = data.length) (henc : Erasure.encode rs data k m = .ok shards)
      (hoffers : c.Offers block k m shards) (hcount : k ≤ c.answering block)

section Slices

variable {rs : ReedSolomon} {c : BlockReader} {block : BlockInfo} {data : Bytes}

private theorem Holds.locations_ne_nil (h : Holds rs c block data) : block.locations ≠ [] := by
  cases h with
  | copies _ _ hs =>
    obtain ⟨l, hl, -⟩ := hs
    exact ne_nil_of_mem hl
  | shards hk _ _ _ _ ho _ =>
    refine ne_nil_of_length_pos ?_
    rw [ho.locations]
    omega

private theorem Holds.readBlockRange (h : Holds rs c block data) (hrep : ¬ 0 < block.ecDataShards) (race : Race)
    {x : Bytes} (hx : blockSlice data offset length = .ok x) :
    c.readBlockRange race block.blockId offset length block.locations = .ok x := by
  cases h with
  | shards hk _ _ _ _ ho _ =>
    rw [ho.data] at hrep
    omega
  | copies _ hs hsm =>
    obtain ⟨l, hl, hdt⟩ := hsm
    obtain ⟨y, hy⟩ := exists_readBlockRange c race block.blockId offset length hl ⟨x, hdt offset length x hx⟩
    obtain ⟨l', hl', hr⟩ := readBlockRange_eq_ok _ _ _ _ hy
    rw [hy, ← hx, hs l' hl' offset length y hr]

private theorem Holds.readEcBlock (hrs : rs.Lawful) (h : Holds rs c block data) (hne : data ≠ [])
    (hec : 0 < block.ecDataShards) : c.readEcBlock rs block = .ok data := by
  cases h with
  | copies hr _ _ => exact absurd hec hr
  | shards hk hm hn hs he ho hc => exact readEcBlock_eq_ok hrs hne hk hm hn hs he ho hc

private theorem Holds.readPartOf (hrs : rs.Lawful) (h : Holds rs c block data) (hpos : 0 < length)
    (hin : offset + length ≤ data.length) (race : Race) :
    c.readPartOf rs race block offset length = .ok ((data.drop offset).take length) := by
  have hne : data ≠ [] := ne_nil_of_length_pos (by omega)
  unfold BlockReader.readPartOf
  split
  · rename_i hec
    rw [h.readEcBlock hrs hne hec]
    simp only [bind, Except.bind, min_eq_left hin, if_pos (Nat.le_add_right offset length)]
    rw [drop_take, Nat.add_sub_cancel_left]
  · rename_i hr
    refine h.readBlockRange hr race ?_
    rw [blockSlice, if_neg (by omega), if_neg (by omega), min_eq_left (by omega)]

/-- The blocks of a file have positive sizes, and their locations hold data of these sizes. -/
def AllHold (rs : ReedSolomon) (c : BlockReader) : List BlockInfo → List Bytes → Prop :=
  Forall₂ fun block data => Holds rs c block data ∧ block.size = data.length ∧ 0 < block.size

variable {blocks : List BlockInfo} {contents : List Bytes}

section

variable (hrs : rs.Lawful) (race : Nat → Race)
include hrs race

private theorem readBlocks_eq {endOffset : Nat} (hlt : offset < endOffset) (h : AllHold rs c blocks contents)
    (position : Nat) :
    c.readBlocks rs race offset endOffset position blocks =
      .ok ((contents.flatten.drop (offset - position)).take (endOffset - max offset position)) := by
  induction h generalizing position with
  | nil => simp [readBlocks]
  | @cons block data blocks contents hbl _ ih =>
    obtain ⟨hh, hs, hpos⟩ := hbl
    rw [hs] at hpos
    rw [readBlocks, flatten_cons, hs]
    split
    · rename_i hb
      have hnil : data.drop (offset - position) = [] := drop_eq_nil_of_le (by omega)
      rw [ih, drop_append, hnil, nil_append, Nat.sub_sub, max_eq_left hb,
        max_eq_left (le_trans (Nat.le_add_right _ _) hb)]
    · split
      · rename_i ha
        rw [Nat.sub_eq_zero_of_le (le_max_of_le_right ha), take_zero]
      · rename_i hb ha
        have hmax : endOffset - max offset position = endOffset - position - (offset - position) := by omega
        simp only [checkedSub, if_pos (show position ≤ endOffset by omega), bind, Except.bind,
          if_pos (show offset - position ≤ min data.length (endOffset - position) by omega)]
        rw [hh.readPartOf hrs (by omega) (by omega), ih]
        simp only [pure, Except.pure]
        rw [drop_append_of_le_length (by omega), take_append, length_drop, hmax,
          show offset - (position + data.length) = 0 by omega, drop_zero, max_eq_right (by omega)]
        -- the block ends before the range or after it
        congr 2
        · rcases le_total data.length (endOffset - position) with hle | hle
          · rw [min_eq_left hle, take_of_length_le (by rw [length_drop]), take_of_length_le]
            rw [length_drop]
            omega
          · rw [min_eq_right hle]
        · congr 1
          omega

private theorem fetchBlocks_eq (h : AllHold rs c blocks contents) (idx : Nat) :
    c.fetchBlocks rs race idx blocks = .ok contents.flatten := by
  induction h generalizing idx with
  | nil => rfl
  | @cons block data blocks contents hb _ ih =>
    obtain ⟨hh, hs, hpos⟩ := hb
    have hne : data ≠ [] := ne_nil_of_length_pos (hs ▸ hpos)
    have hf : c.fetchSingleBlock rs (race idx) block = .ok data := by
      rw [fetchSingleBlock, if_neg hh.locations_ne_nil]
      split
      · rename_i hec
        exact hh.readEcBlock hrs hne hec
      · rename_i hr
        refine hh.readBlockRange hr _ ?_
        rw [blockSlice, if_neg (not_le.2 (length_pos_iff.2 hne))]
        simp
    rw [fetchBlocks, hf, ih]
    rfl

end

/-- A range of a file whose blocks are stored is the slice of its content, and no subtraction underflows. -/
theorem range_read_is_slice (hrs : rs.Lawful) (race race' : Nat → Race) {file : FileMetadata}
    (hstored : AllHold rs c file.blocks contents) {offset length : Nat} (hoffset : offset < file.size)
    (hlength : 1 ≤ length) :
    ∃ content, c.getFileContent rs race (.ok ⟨some file, true⟩) = .ok content ∧
      c.readFileRange rs race' (.ok ⟨some file, true⟩) offset length =
        .ok ((content.take (min (offset + length) file.size)).drop offset) := by
  refine ⟨contents.flatten, fetchBlocks_eq hrs race hstored 0, ?_⟩
  show (if file.size ≤ offset then _ else _) = _
  rw [if_neg (not_le.2 hoffset)]
  refine (readBlocks_eq hrs race' (by omega) hstored 0).trans ?_
  rw [max_eq_left (Nat.zero_le _), Nat.sub_zero, Nat.add_sub_cancel_left, drop_take]
  congr 2
  omega

end Slices

def smallBlock : BlockInfo := ⟨"b2", 1, ["s2", "s3"], 0, 1, 1, 1⟩

def smallFile : FileMetadata := ⟨"/f", 3, [⟨"b1", 2, ["s1"], 0, 0, 0, 0⟩, smallBlock], "", 0, 0, 0, 0, 0, 0⟩

def smallReader (hedgeDelayMs : Option Nat) : BlockReader where
  readBlockFromLocation location blockId offset length :=
    if location = "s1" ∧ blockId = "b1" then blockSlice [1, 2] offset length
    else if location = "s3" ∧ blockId = "b2" then blockSlice [3] offset length
    else .error "transport error"
  hedgeDelayMs := hedgeDelayMs

theorem smallReader_offers (delay : Option Nat) : (smallReader delay).Offers smallBlock 1 1 [[3], [3]] where
  data := rfl
  parity := rfl
  locations := rfl
  fetched i location x hi hx := by
    rcases i with _ | _ | i
    · cases hi
      cases hx
    · cases hi
      cases hx
      rfl
    · cases hi

theorem any_k_shards_suffice_small : 1 ≤ (smallReader none).answering smallBlock ∧
    (smallReader none).readEcBlock mirror smallBlock = .ok [3] :=
  have hmany : 1 ≤ (smallReader none).answering smallBlock := by decide
  ⟨hmany, (any_k_shards_suffice mirror_lawful (by decide) (by decide) (by decide) rfl rfl rfl
    (smallReader_offers none)).1 hmany⟩

private theorem smallFile_held : AllHold mirror (smallReader (some 10)) smallFile.blocks [[1, 2], [3]] := by
  refine .cons ⟨.copies (by decide) ?_ ⟨"s1", by decide, fun _ _ _ h => h⟩, by decide⟩
    (.cons ⟨.shards (by decide) (by decide) rfl rfl rfl (smallReader_offers _) (by decide), by decide⟩ .nil)
  intro location hl offset length x hx
  obtain rfl : location = "s1" := mem_singleton.1 hl
  exact hx

theorem range_read_is_slice_small : ∃ content,
    (smallReader (some 10)).getFileContent mirror (fun _ => ⟨true, true⟩)
    (.ok ⟨some smallFile, true⟩) = .ok content ∧
      (smallReader (some 10)).readFileRange mirror (fun _ => ⟨true, false⟩) (.ok ⟨some smallFile, true⟩) 1 5 =
        .ok ((content.take 3).drop 1) :=
  range_read_is_slice mirror_lawful _ _ smallFile_held (by decide) (by decide)

end BlockReader

end RustHadoop
