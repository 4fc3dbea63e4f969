import RustHadoop.S3.Effects
import RustHadoop.S3.Reference

/-!
# Chunked bodies

`decode_chunked_payload` goes from line to line: the size of a chunk, its data, two bytes, and the next line.  On a
body that is made this way it finds the data (`decode_frames`), whatever bytes they are, so it inverts the encoding
(`decode_encode`).

A body that ends too early is not refused.  The decoder panics if it ends behind the data of a chunk and returns
what it has read otherwise, and the handler stores that (`truncated_refused_iff`).
-/

namespace RustHadoop.S3

open Texts List Option

def hexNumber? (digits : Text) : Option Nat :=
  digits.foldl (fun n d => n.bind fun n => (hexDigit? d).map fun d => n * 16 + d) (some 0)

/-- What `from_str_radix` reads as a size. -/
def HexSize (t : Text) (n : Nat) : Prop :=
  n < 2 ^ 64 ∧ ∃ digits, (t = digits ∨ t = '+' :: digits) ∧ digits ≠ [] ∧ hexNumber? digits = some n

def Announces (line : Bytes) (size : Nat) : Prop :=
  lineEnd? line = none ∧ ∃ header, utf8? line = some header ∧ HexSize ((header.splitOn ';').headD []) size

/-- A line, the data and the two bytes behind them. -/
structure Frame where
  line : Bytes
  data : Bytes
  tail : Bytes

def Frame.bytes (f : Frame) : Bytes := f.line ++ 13 :: 10 :: (f.data ++ f.tail)

structure Frame.Whole (f : Frame) : Prop where
  line : Announces f.line f.data.length
  data : f.data ≠ []
  tail : f.tail.length = 2

theorem hexNumber?_eq_none {digits : Text} {a : Char} (ha : hexDigit? a = none) (hmem : a ∈ digits) :
    hexNumber? digits = none := by
  have hn :
      ∀ l : Text, l.foldl (fun n d => n.bind fun n => (hexDigit? d).map fun d => n * 16 + d) none = none := by
    intro l
    induction l with
    | nil => rfl
    | cons d l ih => exact ih
  obtain ⟨before, after, rfl⟩ := append_of_mem hmem
  rw [hexNumber?, foldl_append, foldl_cons, ha]
  simp only [map_none, bind_fun_none]
  exact hn after

private theorem HexSize.chunkSize_eq {t : Text} {n : Nat} (h : HexSize t n) : chunkSize t = n := by
  obtain ⟨hlt, digits, ht, hne, hv⟩ := h
  have hs : ∀ l : Text, l = digits →
      (if l = [] then 0 else ((hexNumber? l).filter fun n => decide (n < 2 ^ 64)).getD 0) = n := by
    rintro l rfl
    rw [if_neg hne, hv, filter_some, if_pos (by simpa using hlt), getD_some]
  unfold chunkSize
  dsimp only
  split
  · rename_i u
    rcases ht with rfl | ht
    · rw [hexNumber?_eq_none (a := '+') (by decide) mem_cons_self] at hv
      cases hv
    · exact hs u (cons.inj ht).2
  · rename_i hp
    rcases ht with ht | ht
    · exact hs _ ht
    · exact absurd ht (hp digits)

variable {line : Bytes}

private theorem lineEnd?_append (h : lineEnd? line = none) (rest : Bytes) :
    lineEnd? (line ++ 13 :: 10 :: rest) = some line.length := by
  have hs : ∀ a l, ¬ (a = 13 ∧ l.head? = some 10) → lineEnd? (a :: l) = (lineEnd? l).map fun n => n + 1 := by
    intro a l hno
    rw [lineEnd?]
    rintro l' rfl rfl
    exact hno ⟨rfl, rfl⟩
  induction line with
  | nil => rfl
  | cons a line ih =>
    by_cases hcr : a = 13 ∧ line.head? = some 10
    · obtain ⟨rfl, hh⟩ := hcr
      obtain ⟨l, rfl⟩ := head?_eq_some_iff.1 hh
      cases h
    · rw [hs a line hcr, map_eq_none_iff] at h
      have hh : ¬ (a = 13 ∧ (line ++ 13 :: 10 :: rest).head? = some 10) := by
        cases line with
        | nil => simp
        | cons b line => exact hcr
      rw [cons_append, hs _ _ hh, ih h]
      rfl

private theorem splitChunks_line {size : Nat} (h : Announces line size) (fuel : Nat) (rest : Bytes) :
    ∃ header, splitChunks (fuel + 1) (line ++ 13 :: 10 :: rest) = if size = 0 then some []
      else if rest.length < size then some [] else if rest.length < size + 2 then none
      else (splitChunks fuel (rest.drop (size + 2))).map fun chunks => (header, rest.take size) :: chunks := by
  obtain ⟨he, header, hh, hs⟩ := h
  refine ⟨header, ?_⟩
  have hdr : (line ++ 13 :: 10 :: rest).drop (line.length + 2) = rest := by
    rw [drop_append, drop_of_length_le (by omega)]
    simp
  rw [splitChunks, lineEnd?_append he]
  simp only [take_left, hh, getD_some, hs.chunkSize_eq, hdr]

theorem decode_frames {frames : List Frame} (h : ∀ f ∈ frames, f.Whole) (hl : Announces line 0) (rest : Bytes) :
    decodeChunkedPayload (frames.flatMap Frame.bytes ++ (line ++ 13 :: 10 :: rest)) = some
      (frames.flatMap Frame.data) := by
  have hs : ∀ fuel, frames.length < fuel →
      (splitChunks fuel (frames.flatMap Frame.bytes ++ (line ++ 13 :: 10 :: rest))).map
        (fun chunks => chunks.flatMap fun c => c.2) =
        some (frames.flatMap Frame.data) := by
    induction frames with
    | nil =>
      intro fuel hf
      obtain ⟨fuel, rfl⟩ := Nat.exists_eq_succ_of_ne_zero (by omega : fuel ≠ 0)
      obtain ⟨header, hst⟩ := splitChunks_line hl fuel rest
      rw [flatMap_nil, nil_append, hst, if_pos rfl]
      rfl
    | cons f frames ih =>
      intro fuel hf
      rw [length_cons] at hf
      rw [forall_mem_cons] at h
      obtain ⟨fuel, rfl⟩ := Nat.exists_eq_succ_of_ne_zero (by omega : fuel ≠ 0)
      obtain ⟨header, hst⟩ := splitChunks_line h.1.line fuel
        (f.data ++ (f.tail ++ (frames.flatMap Frame.bytes ++ (line ++ 13 :: 10 :: rest))))
      have ht := h.1.tail
      have hb : (f :: frames).flatMap Frame.bytes ++ (line ++ 13 :: 10 :: rest) =
          f.line ++ 13 :: 10 ::
            (f.data ++ (f.tail ++ (frames.flatMap Frame.bytes ++ (line ++ 13 :: 10 :: rest)))) := by
        simp [Frame.bytes]
      have hpos : f.data.length ≠ 0 := fun h0 => h.1.data (length_eq_zero_iff.1 h0)
      rw [hb, hst, if_neg hpos, if_neg (by simp), if_neg (by simp; omega), take_left, ← ht,
        drop_length_add_append, drop_left, Option.map_map]
      have hih := ih h.2 fuel (by omega)
      obtain ⟨chunks, hc, heq⟩ := map_eq_some_iff.1 hih
      rw [hc]
      simp [heq]
  have hln : frames.length ≤ (frames.flatMap Frame.bytes).length := by
    clear h hs
    induction frames with
    | nil => exact le_rfl
    | cons f frames ih =>
      simp only [flatMap_cons, length_append, length_cons, Frame.bytes]
      omega
  exact hs _ (by rw [length_append]; omega)

/-- A chunk as a client sends it: its size in hexadecimal digits, an extension, its data. -/
structure SentChunk where
  size : Text
  extension : Option Text
  data : Bytes

namespace SentChunk

variable {c : SentChunk}

def frame (c : SentChunk) : Frame := ⟨utf8 (c.size ++ c.extension.elim [] fun t => ';' :: t), c.data, [13, 10]⟩

/-- The size fits to the data, and the extension has no line end. -/
structure Valid (c : SentChunk) : Prop where
  size : c.size ≠ [] ∧ hexNumber? c.size = some c.data.length
  extension : ∀ t ∈ c.extension, lineEnd? (utf8 t) = none

private theorem Valid.notMem_size (h : c.Valid) {a : Char} (ha : hexDigit? a = none) : a ∉ c.size := by
  intro hmem
  have hs := h.size.2
  rw [hexNumber?_eq_none ha hmem] at hs
  cases hs

private theorem lineEnd?_of_notMem {a b : Bytes} (ha : 13 ∉ a) (hb : lineEnd? b = none) :
    lineEnd? (a ++ b) = none := by
  induction a with
  | nil => exact hb
  | cons x a ih =>
    simp only [mem_cons, not_or] at ha
    rw [cons_append, lineEnd?, ih ha.2]
    · rfl
    · rintro _ rfl
      exact absurd rfl ha.1

theorem Valid.announces (h : c.Valid) (hlt : c.data.length < 2 ^ 64) : Announces c.frame.line c.data.length := by
  have hcr : 13 ∉ utf8 c.size := by
    intro hmem
    obtain ⟨a, ha, hb⟩ := mem_flatMap.1 hmem
    have hc : a = '\r' := Char.ext (UInt32.toNat_inj.1 (toNat_of_mem_utf8EncodeChar (by decide) hb))
    exact h.notMem_size (a := '\r') (by decide) (hc ▸ ha)
  have hs : ';' ∉ c.size := h.notMem_size (by decide)
  refine ⟨?_, _, utf8?_utf8 _, hlt, c.size, .inl ?_, h.size⟩
  · rw [frame, utf8, flatMap_append]
    refine lineEnd?_of_notMem hcr ?_
    cases he : c.extension with
    | none => rfl
    | some t => exact lineEnd?_of_notMem (a := [59]) (by decide) (h.extension t he)
  · cases c.extension with
    | none => simp [splitOn_eq_singleton hs]
    | some t => simp [splitOn_append_cons_self_of_not_mem hs]

end SentChunk

/-- A body of non-empty chunks and a last one of size zero is decoded to the data of the chunks. -/
theorem decode_encode {chunks : List SentChunk} {last : SentChunk} (hchunks : ∀ c ∈ chunks, c.Valid ∧ c.data ≠ [])
    (hlast : last.Valid) (hzero : last.data = []) (hfits : ∀ c ∈ chunks, c.data.length < 2 ^ 64) :
    decodeChunkedPayload ((chunks ++ [last]).flatMap fun c => c.frame.bytes) = some
      (chunks.flatMap SentChunk.data) := by
  have hframes : ∀ f ∈ chunks.map SentChunk.frame, f.Whole := by
    intro f hf
    obtain ⟨c, hc, rfl⟩ := mem_map.1 hf
    exact ⟨(hchunks c hc).1.announces (hfits c hc), (hchunks c hc).2, rfl⟩
  have hline := hlast.announces (by simp [hzero])
  rw [hzero] at hline
  have hdecode := decode_frames hframes hline [13, 10]
  rw [flatMap_map, flatMap_map] at hdecode
  rw [flatMap_append, flatMap_singleton]
  have hbytes : last.frame.bytes = last.frame.line ++ 13 :: 10 :: [13, 10] := by
    simp [Frame.bytes, SentChunk.frame, hzero]
  rw [hbytes]
  exact hdecode

/-- The data of the first chunk end with a line end. -/
theorem decode_encode_two :
    decodeChunkedPayload (utf8 "4;chunk-signature=a\r\nab\r\n\r\n01\r\nc\r\n0;x\r\n\r\n") = some
      (utf8 "ab\r\nc") := by
  have hchunks : ∀ c ∈ ([⟨"4", some "chunk-signature=a", utf8 "ab\r\n"⟩, ⟨"01", none, utf8 "c"⟩] : List SentChunk),
      c.Valid ∧ c.data ≠ [] := by
    simp only [forall_mem_cons]
    exact ⟨⟨⟨⟨by decide, by decide⟩, by decide⟩, by decide⟩,
      ⟨⟨⟨by decide, by decide⟩, by decide⟩, by decide⟩, by simp⟩
  have hlast : (⟨"0", some "x", []⟩ : SentChunk).Valid := ⟨⟨by decide, by decide⟩, by decide⟩
  exact decode_encode hchunks hlast rfl (by decide)

/-- The body has complete chunks up to a line with the size zero. -/
def Terminated (body : Bytes) : Prop :=
  ∃ (frames : List Frame) (line rest : Bytes), (∀ f ∈ frames, f.Whole) ∧ Announces line 0 ∧
    body = frames.flatMap Frame.bytes ++ (line ++ 13 :: 10 :: rest)

def streamingHeaders : HeaderMap := [("x-amz-content-sha256", utf8 streamingPayload)]

private theorem putObject_succeeds {body payload : Bytes} (h : decodeChunkedPayload body = some payload) : ∃ e' x,
    (calm plainCrates fun _ => 0).Runs .empty
    (putObject (openGateway plainCrates) "b" "k" body streamingHeaders) e' x ∧
      succeeded x = true := by
  have hp : putPayload streamingHeaders body = some payload := (if_pos (by decide)).trans h
  refine ⟨_, _, runs_execCalm plainCrates (fun _ => 0) (fun _ => []) _ .empty, ?_⟩
  unfold putObject
  rw [hp]
  rfl

/-- The decoder does not panic on a body and the handler does not take it for complete when it is not, if and only
if it is. -/
theorem truncated_refused_iff (body : Bytes) : (decodeChunkedPayload body ≠ none ∧
      ∀ (g : Gateway) (shardOf : Text → Nat) (bucket key : Text) (headers : HeaderMap) (e e' : Dfs) (x : Reply),
        headers.getStr "x-amz-content-sha256" = some streamingPayload →
          (calm g.crates shardOf).Runs e (putObject g bucket key body headers) e' x → succeeded x = true →
            Terminated body) ↔
      Terminated body := by
  constructor
  · rintro ⟨hdecoded, hput⟩
    obtain ⟨payload, hpayload⟩ := ne_none_iff_exists'.1 hdecoded
    obtain ⟨e', x, hrun, hx⟩ := putObject_succeeds hpayload
    exact hput (openGateway plainCrates) _ _ _ _ _ _ _ (by decide) hrun hx
  · intro hbody
    refine ⟨?_, fun _ _ _ _ _ _ _ _ _ _ _ => hbody⟩
    obtain ⟨frames, line, rest, hframes, hline, rfl⟩ := hbody
    rw [decode_frames hframes hline rest]
    exact some_ne_none _

/-- A body that ends behind the data of a chunk, and one that ends within them. -/
theorem truncated_stored :
    decodeChunkedPayload (utf8 "2\r\nab") = none ∧ decodeChunkedPayload (utf8 "5\r\nab") = some [] ∧
      ∃ e' x, (calm plainCrates fun _ => 0).Runs .empty
        (putObject (openGateway plainCrates) "b" "k" (utf8 "5\r\nab") streamingHeaders) e' x ∧
          succeeded x = true := by
  have hdecoded : decodeChunkedPayload (utf8 "5\r\nab") = some [] := by decide
  exact ⟨by decide, hdecoded, putObject_succeeds hdecoded⟩

end RustHadoop.S3
