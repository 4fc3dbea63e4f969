import Mathlib.Algebra.Group.Int.Defs
import Mathlib.Algebra.Group.Nat.Defs
import Mathlib.Data.List.Infix
import Mathlib.Data.List.Count

/-!
# Texts

A text is the list of its characters.  Paths are cut at slashes, numbers are read as `str::parse` reads them, and
percent escapes are taken out on the level of UTF-8 bytes.

The main fact is about the two ways to read a path (`join_compact_eq_decode`): dropping the empty segments of the
path as it was sent and decoding the whole path give the same text only if there is nothing to drop and nothing to
decode.
-/

namespace Texts

open List Option

abbrev Text := List Char

variable {t : Text}

instance : Coe String Text := ⟨String.toList⟩

instance : LawfulBEq Text := inferInstance

def digit? (c : Char) : Option Nat := if '0' ≤ c ∧ c ≤ '9' then some (c.toNat - '0'.toNat) else none

/-- The value of a text of decimal digits, after `acc`. -/
def digits? : Nat → Text → Option Nat
  | acc, [] => some acc
  | acc, c :: t => (digit? c).bind fun d => digits? (acc * 10 + d) t

/-- A natural number as `str::parse` reads it for an unsigned type: a plus sign is allowed, no digits are not. -/
def nat? (t : Text) : Option Nat :=
  match t with
  | [] => none
  | '+' :: t => if t = [] then none else digits? 0 t
  | t => digits? 0 t

def int? (t : Text) : Option Int :=
  match t with
  | '-' :: t => if t = [] then none else (digits? 0 t).map fun n => -Int.ofNat n
  | t => (nat? t).map Int.ofNat

/-- A number of `bits` bits with a sign. -/
def signed? (bits : Nat) (t : Text) : Option Int :=
  (int? t).filter fun n => decide (-(2 ^ (bits - 1) : Int) ≤ n ∧ n < 2 ^ (bits - 1))

def unsigned? (bits : Nat) (t : Text) : Option Nat := (nat? t).filter fun n => decide (n < 2 ^ bits)

def natText (n : Nat) : Text := Nat.toDigits 10 n

def intText (n : Int) : Text := if n < 0 then '-' :: natText n.natAbs else natText n.natAbs

variable {c : Char}

private theorem digit?_of_isDigit (h : c.isDigit = true) : digit? c = some (c.toNat - '0'.toNat) := by
  have hc : '0' ≤ c ∧ c ≤ '9' := by simpa [Char.isDigit, Char.le_def] using h
  rw [digit?, if_pos hc]

private theorem digits?_eq_ofDigitChars (h : ∀ c ∈ t, c.isDigit = true) (acc : Nat) :
    digits? acc t = some (Nat.ofDigitChars 10 t acc) := by
  induction t generalizing acc with
  | nil => rfl
  | cons c t ih =>
    rw [digits?, digit?_of_isDigit (h c mem_cons_self), bind_some,
      ih fun d hd => h d (mem_cons_of_mem _ hd), Nat.mul_comm]
    rfl

theorem isDigit_of_mem_natText {n : Nat} (h : c ∈ natText n) : c.isDigit = true :=
  Nat.isDigit_of_mem_toDigits (by decide) (by decide) h

private theorem digits?_natText (n : Nat) : digits? 0 (natText n) = some n := by
  rw [digits?_eq_ofDigitChars fun c => isDigit_of_mem_natText, natText,
    Nat.ofDigitChars_toDigits (by decide) (by decide)]

theorem nat?_natText (n : Nat) : nat? (natText n) = some n := by
  unfold nat?
  split
  · rename_i hnil
    exact absurd hnil Nat.toDigits_ne_nil
  · rename_i t ht
    have hp := isDigit_of_mem_natText (n := n) (c := '+') (ht ▸ mem_cons_self)
    simp [Char.isDigit] at hp
  · exact digits?_natText n

theorem int?_intText (n : Int) : int? (intText n) = some n := by
  unfold intText
  split
  · rename_i hn
    have hnil : natText n.natAbs ≠ [] := Nat.toDigits_ne_nil
    simp only [int?, if_neg hnil, digits?_natText, map_some, some.injEq]
    rw [Int.ofNat_eq_natCast]
    omega
  · rename_i hpos
    unfold int?
    split
    · rename_i t ht
      have hm := isDigit_of_mem_natText (n := n.natAbs) (c := '-') (ht ▸ mem_cons_self)
      simp [Char.isDigit] at hm
    · rw [nat?_natText, map_some, some.injEq, Int.ofNat_eq_natCast]
      omega

theorem intText_injective : Function.Injective intText := by
  intro m n h
  have := int?_intText m
  rw [h, int?_intText] at this
  exact (some.inj this).symm

theorem signed?_intText {bits : Nat} {n : Int} (h : -(2 ^ (bits - 1) : Int) ≤ n ∧ n < 2 ^ (bits - 1)) :
    signed? bits (intText n) = some n := by
  rw [signed?, int?_intText, filter_some, if_pos (by simpa using h)]

theorem isDigit_of_mem_digits? {acc n : Nat} (h : digits? acc t = some n) (hc : c ∈ t) : c.isDigit = true := by
  induction t generalizing acc with
  | nil => cases hc
  | cons d t ih =>
    obtain ⟨k, hk, hr⟩ := bind_eq_some_iff.1 h
    rcases mem_cons.1 hc with rfl | hc
    · unfold digit? at hk
      split_ifs at hk with hdg
      simpa [Char.isDigit, Char.le_def] using hdg
    · exact ih hr hc

theorem isDigit_of_mem_int? {n : Int} (h : int? t = some n) (hc : c ∈ t) :
    c.isDigit = true ∨ c = '+' ∨ c = '-' := by
  unfold int? at h
  split at h
  · rename_i t
    split_ifs at h
    obtain ⟨k, hk, -⟩ := map_eq_some_iff.1 h
    rcases mem_cons.1 hc with rfl | hc
    · exact .inr (.inr rfl)
    · exact .inl (isDigit_of_mem_digits? hk hc)
  · obtain ⟨k, hk, -⟩ := map_eq_some_iff.1 h
    unfold nat? at hk
    split at hk
    · cases hk
    · rename_i t
      split_ifs at hk
      rcases mem_cons.1 hc with rfl | hc
      · exact .inr (.inl rfl)
      · exact .inl (isDigit_of_mem_digits? hk hc)
    · exact .inl (isDigit_of_mem_digits? hk hc)

def splitOnce (sep : Char) : Text → Option (Text × Text)
  | [] => none
  | c :: t => if c = sep then some ([], t) else (splitOnce sep t).map fun p => (c :: p.1, p.2)

variable {sep : Char}

theorem splitOnce_eq_none (h : splitOnce sep t = none) : sep ∉ t := by
  induction t with
  | nil => simp
  | cons c t ih =>
    unfold splitOnce at h
    split at h
    · cases h
    · rename_i hne
      rw [map_eq_none_iff] at h
      simp only [mem_cons, not_or]
      exact ⟨Ne.symm hne, ih h⟩

variable {b a : Text}

theorem splitOnce_eq_some (h : splitOnce sep t = some (a, b)) : t = a ++ sep :: b ∧ sep ∉ a := by
  induction t generalizing a with
  | nil => cases h
  | cons c t ih =>
    unfold splitOnce at h
    split at h
    · rename_i heq
      cases h
      exact ⟨by rw [heq]; rfl, by simp⟩
    · rename_i hne
      rw [map_eq_some_iff] at h
      obtain ⟨⟨a', b'⟩, hp, heq⟩ := h
      obtain ⟨rfl, rfl⟩ := Prod.mk.inj heq
      obtain ⟨rfl, ha⟩ := ih hp
      refine ⟨rfl, ?_⟩
      simp only [mem_cons, not_or]
      exact ⟨Ne.symm hne, ha⟩

theorem splitOnce_append (b : Text) (h : sep ∉ a) : splitOnce sep (a ++ sep :: b) = some (a, b) := by
  induction a with
  | nil => simp [splitOnce]
  | cons c a ih =>
    simp only [mem_cons, not_or] at h
    simp [splitOnce, Ne.symm h.1, ih h.2]

theorem splitOnce_of_notMem (h : sep ∉ t) : splitOnce sep t = none := by
  rcases hs : splitOnce sep t with _ | ⟨a, b⟩
  · rfl
  · exact absurd (by rw [(splitOnce_eq_some hs).1]; simp) h

theorem append_sep_inj {a' b' : Text} (ha : sep ∉ a) (ha' : sep ∉ a') (h : a ++ sep :: b = a' ++ sep :: b') :
    a = a' ∧ b = b' := by
  have hs := congrArg (splitOnce sep) h
  rw [splitOnce_append b ha, splitOnce_append b' ha'] at hs
  exact Prod.mk.inj (some.inj hs)

def segments (t : Text) : List Text := t.splitOn '/'

def joinSegments (l : List Text) : Text := ['/'].intercalate l

theorem joinSegments_segments (t : Text) : joinSegments (segments t) = t := intercalate_splitOn '/'

@[simp] theorem joinSegments_singleton (t : Text) : joinSegments [t] = t := intercalate_singleton

theorem segments_of_notMem (h : '/' ∉ t) : segments t = [t] := splitOn_eq_singleton h

theorem segments_append_slash (b : Text) (h : '/' ∉ a) : segments (a ++ '/' :: b) = a :: segments b :=
  splitOn_append_cons_self_of_not_mem h b

theorem segments_append_last (a : Text) (h : '/' ∉ b) : segments (a ++ '/' :: b) = segments a ++ [b] := by
  rcases hs : splitOnce '/' a with _ | ⟨a1, a2⟩
  · have ha := splitOnce_eq_none hs
    rw [segments_append_slash b ha, segments_of_notMem ha, segments_of_notMem h]
    rfl
  · obtain ⟨rfl, ha1⟩ := splitOnce_eq_some hs
    have hlen : a2.length < (a1 ++ '/' :: a2).length := by simp; omega
    rw [append_assoc, cons_append, segments_append_slash _ ha1, segments_append_slash _ ha1,
      segments_append_last a2 h]
    rfl
termination_by a.length

theorem head?_of_joinSegments {l : List Text} (hl : ∀ s ∈ l, '/' ∉ s) (hne : l ≠ []) (hb : '/' ∉ b)
    (h : joinSegments l = b ∨ ∃ k, joinSegments l = b ++ '/' :: k) : l.head? = some b := by
  have hs : ∀ t, (t = b ∨ ∃ k, t = b ++ '/' :: k) → ((splitOnce '/' t).map Prod.fst).getD t = b := by
    rintro t (rfl | ⟨k, rfl⟩)
    · rw [splitOnce_of_notMem hb]
      rfl
    · rw [splitOnce_append k hb]
      rfl
  have hf := hs _ h
  match l, hne with
  | [a], _ =>
    rw [joinSegments_singleton, splitOnce_of_notMem (hl a mem_cons_self)] at hf
    exact congrArg some hf
  | a :: a' :: rest, _ =>
    have hc : joinSegments (a :: a' :: rest) = a ++ '/' :: joinSegments (a' :: rest) := by
      simp [joinSegments, intercalate]
    rw [hc, splitOnce_append _ (hl a mem_cons_self)] at hf
    exact congrArg some hf

theorem splitOn_spec (sep : Char) (t : Text) :
    (∀ s ∈ t.splitOn sep, sep ∉ s) ∧ (t.splitOn sep).length = t.count sep + 1 := by
  rcases h : splitOnce sep t with _ | ⟨a, b⟩
  · have hno := splitOnce_eq_none h
    rw [splitOn_eq_singleton hno, count_eq_zero_of_not_mem hno]
    simp [hno]
  · obtain ⟨ht, ha⟩ := splitOnce_eq_some h
    have hlen : b.length < t.length := by rw [ht]; simp; omega
    have ih := splitOn_spec sep b
    have hseg : t.splitOn sep = a :: b.splitOn sep := by rw [ht]; exact splitOn_append_cons_self_of_not_mem ha b
    have hc : t.count sep = b.count sep + 1 := by
      rw [ht, count_append, count_cons_self, count_eq_zero_of_not_mem ha]
      omega
    constructor
    · intro s hs
      rw [hseg, mem_cons] at hs
      rcases hs with rfl | hs
      · exact ha
      · exact ih.1 s hs
    · rw [hseg, length_cons, ih.2, hc]
termination_by t.length

theorem count_joinSegments {l : List Text} (h : ∀ s ∈ l, '/' ∉ s) : (joinSegments l).count '/' = l.length - 1 := by
  induction l with
  | nil => rfl
  | cons a l ih =>
    have ha : a.count '/' = 0 := count_eq_zero_of_not_mem (h a (by simp))
    cases l with
    | nil => simp [joinSegments, ha]
    | cons b l =>
      have := ih fun s hs => h s (by simp [hs])
      rw [joinSegments, intercalate_cons_cons, count_append, count_append, ha]
      rw [joinSegments] at this
      rw [this]
      simp
      omega

def utf8 (t : Text) : List UInt8 := t.flatMap String.utf8EncodeChar

def utf8? (bytes : List UInt8) : Option Text := bytes.toByteArray.utf8Decode?.map Array.toList

theorem utf8?_utf8 (t : Text) : utf8? (utf8 t) = some t := by
  show (t.utf8Encode.utf8Decode?).map Array.toList = some t
  rw [utf8Decode?_utf8Encode]
  simp

theorem utf8_of_utf8? {bytes : List UInt8} (h : utf8? bytes = some t) : utf8 t = bytes := by
  rw [utf8?, map_eq_some_iff] at h
  obtain ⟨chars, hc, rfl⟩ := h
  have hs : bytes.toByteArray.utf8Decode?.isSome := by rw [hc]; rfl
  have hb := ByteArray.utf8Encode_get_utf8Decode? (h := hs)
  simp only [hc, get_some] at hb
  have hdt : (utf8 chars.toList).toByteArray = bytes.toByteArray := hb
  rw [← toList_data_toByteArray (l := utf8 chars.toList), hdt, toList_data_toByteArray]

theorem utf8_cons (c : Char) (t : Text) : utf8 (c :: t) = String.utf8EncodeChar c ++ utf8 t := rfl

theorem toNat_of_mem_utf8EncodeChar {b : UInt8} (hb : b.toNat < 0x80) (h : b ∈ String.utf8EncodeChar c) :
    c.toNat = b.toNat := by
  have hby : ∀ n, n < 256 → b = UInt8.ofNat n → b.toNat = n := by
    rintro n hn rfl
    rw [UInt8.toNat_ofNat', Nat.mod_eq_of_lt hn]
  have hv : c.toNat = c.val.toNat := rfl
  unfold String.utf8EncodeChar at h
  simp only at h
  split at h
  · simp only [mem_singleton] at h
    have := hby _ (by omega) h
    omega
  · split at h
    · simp only [mem_cons, not_mem_nil, or_false] at h
      rcases h with h | h <;> have := hby _ (by omega) h <;> omega
    · split at h <;> simp only [mem_cons, not_mem_nil, or_false] at h
      · rcases h with h | h | h <;> have := hby _ (by omega) h <;> omega
      · rcases h with h | h | h | h <;> have := hby _ (by omega) h <;> omega

theorem count_slash_utf8EncodeChar (c : Char) :
    (String.utf8EncodeChar c).count 0x2F = if c = '/' then 1 else 0 := by
  by_cases hc : c = '/'
  · subst hc
    decide
  · rw [if_neg hc, count_eq_zero]
    exact fun h => hc (Char.ext (UInt32.toNat_inj.1 (toNat_of_mem_utf8EncodeChar (by decide) h)))

theorem count_slash_utf8 (t : Text) : (utf8 t).count 0x2F = t.count '/' := by
  induction t with
  | nil => rfl
  | cons c t ih =>
    rw [utf8_cons, count_append, ih, count_slash_utf8EncodeChar, count_cons]
    by_cases hc : c = '/' <;> simp [hc, Nat.add_comm]

def hexDigit? (c : Char) : Option Nat :=
  if '0' ≤ c ∧ c ≤ '9' then some (c.toNat - '0'.toNat)
  else if 'a' ≤ c ∧ c ≤ 'f' then some (c.toNat - 'a'.toNat + 10)
  else if 'A' ≤ c ∧ c ≤ 'F' then some (c.toNat - 'A'.toNat + 10)
  else none

/-- The bytes of a text without its escapes; a percent sign that two hexadecimal digits do not follow stays. -/
def percentBytes : Text → List UInt8
  | [] => []
  | '%' :: a :: b :: t =>
    match hexDigit? a, hexDigit? b with
    | some x, some y => UInt8.ofNat (16 * x + y) :: percentBytes t
    | _, _ => 0x25 :: percentBytes (a :: b :: t)
  | c :: t => String.utf8EncodeChar c ++ percentBytes t

/-- The text with its escapes decoded, if that is UTF-8. -/
def percentDecode (t : Text) : Option Text := utf8? (percentBytes t)

/-- A percent sign and two hexadecimal digits stand in the text. -/
def escaped : Text → Bool
  | [] => false
  | '%' :: a :: b :: t => ((hexDigit? a).isSome && (hexDigit? b).isSome) || escaped (a :: b :: t)
  | _ :: t => escaped t

private theorem escaped_cons (h : ∀ (a b : Char) (u : Text), c = '%' → t = a :: b :: u → False) :
    escaped (c :: t) = escaped t := by
  conv => lhs; unfold escaped
  split
  · rename_i heq
    cases heq
  · rename_i heq
    cases heq
    exact absurd rfl (h _ _ _ rfl)
  · rename_i heq
    cases heq
    rfl

theorem length_percentBytes_le (t : Text) : (percentBytes t).length ≤ (utf8 t).length := by
  fun_induction percentBytes t with
  | case1 => simp
  | case2 a b t x y ha hb ih =>
    simp only [utf8_cons, length_append, length_cons]
    have := Char.utf8Size_pos a
    simp only [String.length_utf8EncodeChar]
    omega
  | case3 a b t hno ih =>
    rw [utf8_cons]
    simp only [length_append, length_cons, String.length_utf8EncodeChar]
    have : Char.utf8Size '%' = 1 := by decide
    omega
  | case4 c t hno ih =>
    rw [utf8_cons]
    simp only [length_append]
    omega

theorem percentBytes_of_not_escaped (h : escaped t = false) : percentBytes t = utf8 t := by
  fun_induction percentBytes t with
  | case1 => rfl
  | case2 a b t x y hb ha ih => simp [escaped, ha, hb] at h
  | case3 a b t hno ih =>
    simp only [escaped, Bool.or_eq_false_iff] at h
    rw [ih h.2, utf8_cons]
    rfl
  | case4 c t hno ih =>
    rw [escaped_cons hno] at h
    rw [utf8_cons, ih h]

theorem length_percentBytes_lt (h : escaped t = true) : (percentBytes t).length < (utf8 t).length := by
  fun_induction percentBytes t with
  | case1 => cases h
  | case2 a b t x y ha hb ih =>
    have hle := length_percentBytes_le t
    have hb := Char.utf8Size_pos b
    have ha := Char.utf8Size_pos a
    simp only [utf8_cons, length_append, length_cons, String.length_utf8EncodeChar]
    omega
  | case3 a b t hno ih =>
    have hr : escaped (a :: b :: t) = true := by
      simp only [escaped, Bool.or_eq_true, Bool.and_eq_true] at h
      rcases h with ⟨ha, hb⟩ | h
      · obtain ⟨x, hx⟩ := isSome_iff_exists.1 ha
        obtain ⟨y, hy⟩ := isSome_iff_exists.1 hb
        exact absurd hy (hno x y hx)
      · exact h
    have := ih hr
    rw [utf8_cons]
    simp only [length_append, length_cons, String.length_utf8EncodeChar]
    have : Char.utf8Size '%' = 1 := by decide
    omega
  | case4 c t hno ih =>
    rw [escaped_cons hno] at h
    have := ih h
    rw [utf8_cons]
    simp only [length_append]
    omega

theorem count_slash_le_percentBytes (t : Text) : t.count '/' ≤ (percentBytes t).count 0x2F := by
  fun_induction percentBytes t with
  | case1 => simp
  | case2 a b t x y hb ha ih =>
    have hna : a ≠ '/' := by rintro rfl; cases ha
    have hnb : b ≠ '/' := by rintro rfl; cases hb
    have hp : ('%' : Char) ≠ '/' := by decide
    rw [count_cons_of_ne hp, count_cons_of_ne hna, count_cons_of_ne hnb, count_cons]
    omega
  | case3 a b t hno ih =>
    have hp : ('%' : Char) ≠ '/' := by decide
    rw [count_cons_of_ne hp]
    exact ih.trans count_le_count_cons
  | case4 c t hno ih =>
    rw [count_append, count_slash_utf8EncodeChar, count_cons]
    by_cases hc : c = '/' <;> simp [hc] <;> omega

section

variable {p d : Text}

theorem utf8_of_percentDecode (h : percentDecode p = some d) : utf8 d = percentBytes p := utf8_of_utf8? h

theorem percentDecode_of_not_escaped (h : escaped p = false) : percentDecode p = some p := by
  rw [percentDecode, percentBytes_of_not_escaped h, utf8?_utf8]

theorem not_escaped_of_percentDecode_self (h : percentDecode p = some p) : escaped p = false := by
  by_contra he
  have hlt := length_percentBytes_lt (Bool.not_eq_false _ ▸ he)
  rw [← utf8_of_percentDecode h] at hlt
  omega

theorem count_slash_le_of_percentDecode (h : percentDecode p = some d) : p.count '/' ≤ d.count '/' := by
  rw [← count_slash_utf8 d, utf8_of_percentDecode h]
  exact count_slash_le_percentBytes p

theorem ne_nil_of_percentDecode (h : percentDecode p = some d) (hp : p ≠ []) : d ≠ [] := by
  rintro rfl
  have hb : percentBytes p = [] := (utf8_of_percentDecode h).symm
  unfold percentBytes at hb
  split at hb
  · exact hp rfl
  · split at hb <;> cases hb
  · exact String.utf8EncodeChar_ne_nil (append_eq_nil_iff.1 hb).1

def compact (p : Text) : List Text := (segments p).filter fun s => s ≠ []

theorem slash_notMem_of_mem_compact {s : Text} (h : s ∈ compact p) : '/' ∉ s :=
  (splitOn_spec '/' p).1 s (mem_of_mem_filter h)

/-- If decoding a path and dropping its empty segments agree, there is nothing to drop and nothing to decode: the
dropped segments would be missing slashes, which decoding keeps. -/
theorem join_compact_eq_decode (h : percentDecode p = some d) (hp : p ≠ []) :
    joinSegments (compact p) = d ↔ escaped p = false ∧ [] ∉ segments p := by
  have hlen : (segments p).length = _ := (splitOn_spec '/' p).2
  have hle : (compact p).length ≤ (segments p).length := length_filter_le _ _
  have hsm : [] ∉ segments p → compact p = segments p := fun hno => filter_eq_self.2 fun s hs => by
    simp only [ne_eq, decide_eq_true_eq]
    rintro rfl
    exact hno hs
  constructor
  · intro hj
    have hc : d.count '/' = (compact p).length - 1 := by
      rw [← hj]
      exact count_joinSegments fun s hs => slash_notMem_of_mem_compact hs
    have hne : compact p ≠ [] := by
      intro hnil
      rw [hnil] at hj
      exact ne_nil_of_percentDecode h hp hj.symm
    have hpos : 0 < (compact p).length := length_pos_iff.2 hne
    have hsl := count_slash_le_of_percentDecode h
    have ha : (compact p).length = (segments p).length := by omega
    have hno : [] ∉ segments p := by
      intro hmem
      have := length_filter_eq_length_iff.1 ha [] hmem
      simp at this
    rw [hsm hno, joinSegments_segments] at hj
    rw [← hj] at h
    exact ⟨not_escaped_of_percentDecode_self h, hno⟩
  · rintro ⟨he, hno⟩
    rw [hsm hno, joinSegments_segments]
    exact some.inj ((percentDecode_of_not_escaped he).symm.trans h)

theorem compact_cons_slash (t : Text) : compact ('/' :: t) = compact t := by
  have hs : segments ('/' :: t) = [] :: segments t := segments_append_slash t (not_mem_nil)
  simp [compact, hs]

theorem join_compact_eq_dropLast (h : percentDecode p = some (b ++ ['/'])) (hb : '/' ∉ b) (hne : b ≠ []) :
    joinSegments (compact p) = b ↔ escaped p = false := by
  constructor
  · intro hj
    have hsl := count_slash_le_of_percentDecode h
    rw [count_append, count_eq_zero_of_not_mem hb] at hsl
    rcases hs : splitOnce '/' p with _ | ⟨u, v⟩
    · -- without a slash the path is its only segment, and decoding cannot make it longer
      have hno := splitOnce_eq_none hs
      have hp : p ≠ [] := by
        rintro rfl
        rw [compact, segments_of_notMem (by simp)] at hj
        exact hne hj.symm
      rw [compact, segments_of_notMem hno] at hj
      simp only [ne_eq, hp, not_false_eq_true, decide_true, filter_cons_of_pos, filter_nil] at hj
      have hlen := length_percentBytes_le p
      rw [← utf8_of_percentDecode h, ← hj] at hlen
      simp [joinSegments, utf8] at hlen
      have := String.utf8EncodeChar_ne_nil (c := '/')
      rw [← length_pos_iff] at this
      simp at this
      omega
    · obtain ⟨rfl, hu⟩ := splitOnce_eq_some hs
      have hv : '/' ∉ v := by
        intro hv
        have := count_pos_iff.2 hv
        rw [count_append, count_cons_self] at hsl
        simp at hsl
        omega
      rw [compact, segments_append_slash v hu, segments_of_notMem hv] at hj
      by_cases hun : u = []
      · -- a path cannot begin with the slash that it ends with
        subst hun
        have hvb : v = b := by
          by_cases hvn : v = []
          · subst hvn
            exact absurd hj.symm hne
          · simpa [hvn, joinSegments] using hj
        subst hvb
        have hby := utf8_of_percentDecode h
        obtain ⟨c, rest, rfl⟩ := exists_cons_of_ne_nil hne
        have hc := count_slash_utf8EncodeChar c
        obtain ⟨byte, more, hbm⟩ := exists_cons_of_ne_nil (String.utf8EncodeChar_ne_nil (c := c))
        rw [cons_append, utf8_cons, hbm] at hby
        have hh : byte = 0x2F := (cons.inj hby).1
        rw [hbm, hh, count_cons_self, if_neg (by rintro rfl; simp at hb)] at hc
        omega
      · have hvn : v = [] := by
          by_contra hvn
          rw [filter_eq_self.2 (by simp [hun, hvn])] at hj
          rw [← hj] at hb
          simp [joinSegments, intercalate_cons_cons] at hb
        subst hvn
        have hub : u = b := by simpa [hun, joinSegments] using hj
        subst hub
        exact not_escaped_of_percentDecode_self h
  · intro he
    have hp : p = b ++ ['/'] := some.inj ((percentDecode_of_not_escaped he).symm.trans h)
    subst hp
    rw [compact, segments_append_slash [] hb, segments_of_notMem (by simp)]
    simp [hne, joinSegments]

end

end Texts
