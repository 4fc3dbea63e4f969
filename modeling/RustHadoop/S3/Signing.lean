import Mathlib.Data.List.Sort
import Mathlib.Data.Prod.Lex
import RustHadoop.S3.Types

/-!
# Signatures

Signature Version 4 as `dfs/common/src/auth/mod.rs`, `signing.rs` and `chunked.rs` compute it: the credentials of a
request, its canonical form, the signing key and the signature, and the signatures of the chunks of a streamed
body.

Header values are ASCII texts here, so blanks and tabs are the only white space in them.
-/

namespace RustHadoop.S3

open Texts List

def isBlank (c : Char) : Bool := c = ' ' || c = '\t'

def trim (t : Text) : Text := ((t.dropWhile isBlank).reverse.dropWhile isBlank).reverse

def splitWhitespace (t : Text) : List Text := (t.splitOnP isBlank).filter fun w => w ≠ []

def hexDigit (n : Nat) : Char := "0123456789abcdef".toList.getD n '0'

/-- `hex::encode` -/
def hexEncode (bytes : Bytes) : Text := bytes.flatMap fun b => [hexDigit (b.toNat / 16), hexDigit (b.toNat % 16)]

/-- `hex::decode` -/
def hexDecode : Text → Option Bytes
  | [] => some []
  | [_] => none
  | a :: b :: t => do
    let high ← hexDigit? a
    let low ← hexDigit? b
    return UInt8.ofNat (high * 16 + low) :: (← hexDecode t)

private theorem hexDigit?_hexDigit {n : Nat} (h : n < 16) : hexDigit? (hexDigit n) = some n := by
  revert n
  decide

private theorem hexDecode_hexEncode (bytes : Bytes) : hexDecode (hexEncode bytes) = some bytes := by
  induction bytes with
  | nil => rfl
  | cons b bytes ih =>
    have hb := b.toNat_lt
    have hh : hexDigit? (hexDigit (b.toNat / 16)) = some (b.toNat / 16) := hexDigit?_hexDigit (by omega)
    have hl : hexDigit? (hexDigit (b.toNat % 16)) = some (b.toNat % 16) := hexDigit?_hexDigit (by omega)
    have hc : hexEncode (b :: bytes) = hexDigit (b.toNat / 16) :: hexDigit (b.toNat % 16) :: hexEncode bytes := rfl
    rw [hc, hexDecode, hh, hl, ih]
    simp only [Option.bind_eq_bind, Option.bind_some, Option.pure_def]
    rw [show b.toNat / 16 * 16 + b.toNat % 16 = b.toNat by omega, UInt8.ofNat_toNat]

theorem hexEncode_injective : Function.Injective hexEncode := by
  intro a b h
  exact Option.some.inj ((hexDecode_hexEncode a).symm.trans ((congrArg hexDecode h).trans (hexDecode_hexEncode b)))

/-- The part after the first separator and before the second one (`split(sep).nth(1)`). -/
def secondPart (sep : Char) (t : Text) : Option Text := (t.splitOn sep)[1]?

/-- `join(sep)` -/
def joinWith (sep : Text) (parts : List Text) : Text := intercalate sep parts

def sortTexts (l : List Text) : List Text := l.insertionSort fun a b => a ≤ b

/-- `<access key>/<date>/<region>/<service>/aws4_request` -/
def parseScope (credential : Text) : Option (Text × Text × Text × Text) :=
  match credential.splitOn '/' with
  | accessKey :: date :: region :: service :: terminator :: _ =>
    if terminator = "aws4_request" then some (accessKey, date, region, service) else none
  | _ => none

def parseAuthorization (auth : Text) (timestamp : Option Text) : Option ParsedCredentials :=
  if ¬ "AWS4-HMAC-SHA256".toList <+: auth then none
  else
    match (auth.splitOn ',').map trim with
    | credentialPart :: headersPart :: signaturePart :: _ => do
      let entry ← (splitWhitespace credentialPart).find? fun w => "Credential=".toList <+: w
      let (accessKey, date, region, service) ← parseScope (← secondPart '=' entry)
      let signedHeaders := ((trim (← secondPart '=' headersPart)).splitOn ';').map trim
      let signature := trim (← secondPart '=' signaturePart)
      let timestamp ← timestamp
      return ⟨accessKey, date, region, service, signedHeaders.filter fun h => h ≠ [], signature, timestamp⟩
    | _ => none

def parsePresigned (query : Pairs) : Option ParsedCredentials := do
  let (accessKey, date, region, service) ← parseScope (← query.get "X-Amz-Credential")
  let signedHeaders := (← query.get "X-Amz-SignedHeaders").splitOn ';'
  let signature ← query.get "X-Amz-Signature"
  let timestamp ← query.get "X-Amz-Date"
  return ⟨accessKey, date, region, service, signedHeaders, signature, timestamp⟩

variable (headers : HeaderMap)

/-- The first of the two date headers that is there. -/
def dateHeader : Option Text := ((headers.get "x-amz-date").or (headers.get "date")).bind toStr

/-- Every failure is `MissingAuth`. -/
def parseCredentials (query : Pairs) : Option ParsedCredentials :=
  match headers.get "authorization" with
  | some auth => (toStr auth).bind fun auth => parseAuthorization auth (dateHeader headers)
  | none => if query.get "X-Amz-Algorithm" = some "AWS4-HMAC-SHA256".toList then parsePresigned query else none

def canonicalHeader (h : Text × List Text) : Text := h.1 ++ ":" ++ joinWith "," h.2 ++ "\n"

def createCanonicalRequest (input : SigningInput) : Text :=
  input.method ++ "\n" ++ input.path ++ "\n" ++ input.queryString ++ "\n"
    ++ input.headers.flatMap canonicalHeader ++ "\n"
    ++ input.signedHeadersList ++ "\n" ++ input.payloadHash

variable (c : Crates)

def createStringToSign (timestamp scope canonicalRequest : Text) : Text :=
  "AWS4-HMAC-SHA256\n" ++ timestamp ++ "\n" ++ scope ++ "\n" ++ hexEncode (c.sha256 (utf8 canonicalRequest))

def deriveSigningKey (secretKey date region service : Text) : Bytes :=
  let kDate := c.hmac (utf8 ("AWS4" ++ secretKey)) (utf8 date)
  let kRegion := c.hmac kDate (utf8 region)
  let kService := c.hmac kRegion (utf8 service)
  c.hmac kService (utf8 "aws4_request")

theorem deriveSigningKey_injective {c : Crates}
    (hh : ∀ {k k' m m' : Bytes}, c.hmac k m = c.hmac k' m' → k = k' ∧ m = m')
    {secretKey secretKey' date region service : Text}
    (h : deriveSigningKey c secretKey date region service = deriveSigningKey c secretKey' date region service) :
    secretKey = secretKey' := by
  have hk := (hh (hh (hh (hh h).1).1).1).1
  have ht := congrArg utf8? hk
  rw [utf8?_utf8, utf8?_utf8] at ht
  exact append_cancel_left (Option.some.inj ht)

def calculateSignature (signingKey : Bytes) (stringToSign : Text) : Text :=
  hexEncode (c.hmac signingKey (utf8 stringToSign))

def ParsedCredentials.scope (cr : ParsedCredentials) : Text :=
  cr.date ++ "/" ++ cr.region ++ "/" ++ cr.service ++ "/aws4_request"

def verifySignatureWithKey (input : SigningInput) (cr : ParsedCredentials) (signingKey : Bytes) :
    Except AuthError Unit :=
  let canonicalRequest := createCanonicalRequest input
  let stringToSign := createStringToSign c cr.timestamp cr.scope canonicalRequest
  if calculateSignature c signingKey stringToSign = cr.signature then .ok ()
  else .error (.signatureDoesNotMatch canonicalRequest stringToSign)

def verifySignature (input : SigningInput) (cr : ParsedCredentials) (secretKey : Text) : Except AuthError Unit :=
  verifySignatureWithKey c input cr (deriveSigningKey c secretKey cr.date cr.region cr.service)

/-- A header with one value. -/
def PlainHeader (h : Text × List Text) : Prop := h.1 ≠ [] ∧ ':' ∉ h.1 ∧ '\n' ∉ h.1 ∧ ∃ v, h.2 = [v] ∧ '\n' ∉ v

/-- No line breaks, and no colons in the names of headers. -/
structure SigningInput.Plain (input : SigningInput) : Prop where
  headers : ∀ h ∈ input.headers, PlainHeader h
  others : ∀ t ∈ [input.method, input.path, input.queryString, input.signedHeadersList, input.payloadHash],
    '\n' ∉ t

private theorem canonicalHeader_append (name v t : Text) :
    canonicalHeader (name, [v]) ++ t = name ++ ':' :: (v ++ '\n' :: t) := by
  simp [canonicalHeader, joinWith]

private theorem PlainHeader.ne_blank {h : Text × List Text} (hh : PlainHeader h) (t u : Text) :
    canonicalHeader h ++ t ≠ '\n' :: u := by
  obtain ⟨hne, -, hno, v, hv, -⟩ := hh
  obtain ⟨name, values⟩ := h
  subst hv
  obtain ⟨a, name, rfl⟩ := exists_cons_of_ne_nil hne
  rw [canonicalHeader_append, cons_append]
  intro heq
  exact hno (mem_cons.2 (.inl (cons.inj heq).1.symm))

private theorem headers_inj {hs hs' : List (Text × List Text)} {rest rest' : Text} (hp : ∀ h ∈ hs, PlainHeader h)
    (hp' : ∀ h ∈ hs', PlainHeader h)
    (heq : hs.flatMap canonicalHeader ++ '\n' :: rest = hs'.flatMap canonicalHeader ++ '\n' :: rest') :
    hs = hs' ∧ rest = rest' := by
  induction hs generalizing hs' with
  | nil =>
    cases hs' with
    | nil => exact ⟨rfl, (cons.inj heq).2⟩
    | cons h' hs' =>
      rw [flatMap_cons, append_assoc] at heq
      exact absurd heq.symm ((hp' h' mem_cons_self).ne_blank _ _)
  | cons h hs ih =>
    rw [flatMap_cons, append_assoc] at heq
    cases hs' with
    | nil => exact absurd heq ((hp h mem_cons_self).ne_blank _ _)
    | cons h' hs' =>
      rw [forall_mem_cons] at hp hp'
      obtain ⟨⟨-, hc, -, v, hv, hvl⟩, hp⟩ := hp
      obtain ⟨⟨-, hc', -, v', hv', hvl'⟩, hp'⟩ := hp'
      obtain ⟨name, values⟩ := h
      obtain ⟨name', values'⟩ := h'
      subst hv hv'
      -- the first colon ends the name, the next line break the value
      rw [flatMap_cons, append_assoc, canonicalHeader_append, canonicalHeader_append] at heq
      obtain ⟨hn, ha⟩ := append_sep_inj hc hc' heq
      obtain ⟨rfl, hnx⟩ := append_sep_inj hvl hvl' ha
      obtain ⟨rfl, hr⟩ := ih hp hp' hnx
      exact ⟨congrArg (fun name => (name, [v]) :: hs) hn, hr⟩

private theorem createCanonicalRequest_injective {i j : SigningInput} (hi : i.Plain) (hj : j.Plain)
    (heq : createCanonicalRequest i = createCanonicalRequest j) : i = j := by
  have hl : ∀ input : SigningInput, createCanonicalRequest input =
      input.method ++ '\n' ::
        (input.path ++ '\n' :: (input.queryString ++ '\n' :: (input.headers.flatMap canonicalHeader ++
        '\n' :: (input.signedHeadersList ++ '\n' :: input.payloadHash)))) := by
    intro input
    simp [createCanonicalRequest]
  have hno := hi.others
  have hno' := hj.others
  simp only [forall_mem_cons] at hno hno'
  rw [hl, hl] at heq
  obtain ⟨hm, heq⟩ := append_sep_inj hno.1 hno'.1 heq
  obtain ⟨hp, heq⟩ := append_sep_inj hno.2.1 hno'.2.1 heq
  obtain ⟨hq, heq⟩ := append_sep_inj hno.2.2.1 hno'.2.2.1 heq
  obtain ⟨hh, heq⟩ := headers_inj hi.headers hj.headers heq
  obtain ⟨hs, hhs⟩ := append_sep_inj hno.2.2.2.1 hno'.2.2.2.1 heq
  cases i
  cases j
  simp_all

/-- A canonical request determines what it was made from.  So if the hashes have no collisions, a signature is not
valid for another request. -/
theorem canonical_request_unambiguous {i j : SigningInput} (hi : i.Plain) (hj : j.Plain) :
    (createCanonicalRequest i = createCanonicalRequest j → i = j) ∧
      ∀ (c : Crates) (cr : ParsedCredentials) (key : Bytes), Function.Injective c.sha256 →
        Function.Injective (c.hmac key) →
        verifySignatureWithKey c i cr key = .ok () → verifySignatureWithKey c j cr key = .ok () → i = j := by
  refine ⟨createCanonicalRequest_injective hi hj, fun c cr key hsha hhmac hok hok' => ?_⟩
  have hutf8 : ∀ {t t' : Text}, utf8 t = utf8 t' → t = t' := fun {t t'} h =>
    Option.some.inj ((utf8?_utf8 t).symm.trans ((congrArg utf8? h).trans (utf8?_utf8 t')))
  have hsignature : ∀ input, verifySignatureWithKey c input cr key = .ok () → calculateSignature c key
      (createStringToSign c cr.timestamp cr.scope (createCanonicalRequest input)) = cr.signature := by
    intro input h
    by_contra hne
    rw [verifySignatureWithKey] at h
    simp [hne] at h
  have hstring := hutf8 (hhmac (hexEncode_injective ((hsignature i hok).trans (hsignature j hok').symm)))
  have hdigest := hexEncode_injective (append_cancel_left hstring)
  exact createCanonicalRequest_injective hi hj (hutf8 (hsha hdigest))

/-- The canonical form of `GET /b/k` with its host. -/
theorem canonical_request_unambiguous_get :
    SigningInput.Plain ⟨"GET", "/b/k", [], [("host", ["h"])], "host", "UNSIGNED-PAYLOAD"⟩ ∧
      ∀ j : SigningInput, j.Plain → createCanonicalRequest j = "GET\n/b/k\n\nhost:h\n\nhost\nUNSIGNED-PAYLOAD" →
          j = ⟨"GET", "/b/k", [], [("host", ["h"])], "host", "UNSIGNED-PAYLOAD"⟩ := by
  have hplain : SigningInput.Plain ⟨"GET", "/b/k", [], [("host", ["h"])], "host", "UNSIGNED-PAYLOAD"⟩ :=
    ⟨by simp [PlainHeader], by simp⟩
  exact ⟨hplain, fun j hj h => (canonical_request_unambiguous hj hplain).1 h⟩

/-- `normalize_query_string`: the parameters without the signature, in order. -/
def normalizeQueryString (raw : Text) : Text :=
  let parameters := (raw.splitOn '&').filter fun s =>
    s ≠ [] ∧ ¬ "X-Amz-Signature=".toList <+: s ∧ s ≠ "X-Amz-Signature".toList
  let pairs := parameters.map fun s => (splitOnce '=' s).getD (s, [])
  let sorted := pairs.insertionSort fun a b => a.1 < b.1 ∨ a.1 = b.1 ∧ a.2 ≤ b.2
  joinWith "&" (sorted.map fun p => p.1 ++ "=" ++ p.2)

/-- A segment of a query string as a parameter; without an equals sign its value is empty. -/
def queryPair (s : Text) : Text × Text := (splitOnce '=' s).getD (s, [])

/-- The parameters of a query string but for its signature. -/
def queryPairs (raw : Text) : List (Text × Text) :=
  (((raw.splitOn '&').filter fun s => s ≠ []).map queryPair).filter fun p => p.1 ≠ "X-Amz-Signature".toList

/-- A pair that can stand in a query string and is not its signature. -/
structure IsQueryPair (p : Text × Text) : Prop where
  key : '=' ∉ p.1
  separator : '&' ∉ p.1 ++ '=' :: p.2
  unsigned : p.1 ≠ "X-Amz-Signature".toList

theorem queryPair_append {k : Text} (h : '=' ∉ k) (v : Text) : queryPair (k ++ '=' :: v) = (k, v) := by
  rw [queryPair, splitOnce_append v h]
  rfl

theorem queryPair_spec (s : Text) : '=' ∉ (queryPair s).1 ∧
    (s = (queryPair s).1 ++ '=' :: (queryPair s).2 ∨ s = (queryPair s).1 ∧ (queryPair s).2 = []) := by
  unfold queryPair
  rcases h : splitOnce '=' s with _ | ⟨k, v⟩
  · exact ⟨splitOnce_eq_none h, .inr ⟨rfl, rfl⟩⟩
  · obtain ⟨hs, hk⟩ := splitOnce_eq_some h
    exact ⟨hk, .inl hs⟩

private theorem queryPair_fst_eq_iff {k : Text} (hk : '=' ∉ k) (s : Text) : (queryPair s).1 = k ↔
    k ++ ['='] <+: s ∨ s = k := by
  constructor
  · rintro rfl
    rcases (queryPair_spec s).2 with h | h
    · exact .inl ⟨(queryPair s).2, by simpa using h.symm⟩
    · exact .inr h.1
  · rintro (⟨v, rfl⟩ | rfl)
    · rw [append_assoc, singleton_append, queryPair_append hk]
    · rw [queryPair, splitOnce_of_notMem hk]
      rfl

private theorem isQueryPair_of_mem {raw : Text} {p : Text × Text} (h : p ∈ queryPairs raw) : IsQueryPair p := by
  obtain ⟨hp, hn⟩ := mem_filter.1 h
  obtain ⟨s, hs, rfl⟩ := mem_map.1 hp
  have hsep := (splitOn_spec '&' raw).1 s (mem_of_mem_filter hs)
  refine ⟨(queryPair_spec s).1, ?_, of_decide_eq_true hn⟩
  rcases (queryPair_spec s).2 with h | h
  · rwa [h] at hsep
  · rw [h.2, ← h.1]
    simp [hsep]

private theorem queryPairs_joinWith {l : List (Text × Text)} (h : ∀ p ∈ l, IsQueryPair p) :
    queryPairs (joinWith "&" (l.map fun p => p.1 ++ '=' :: p.2)) = l := by
  have hsp : ((joinWith "&" (l.map fun p => p.1 ++ '=' :: p.2)).splitOn '&').filter (fun s => s ≠ []) =
      l.map fun p => p.1 ++ '=' :: p.2 := by
    cases l with
    | nil => rfl
    | cons p l =>
      have hsep : ∀ s ∈ (p :: l).map (fun p => p.1 ++ '=' :: p.2), '&' ∉ s := by
        intro s hs
        obtain ⟨q, hq, rfl⟩ := mem_map.1 hs
        exact (h q hq).separator
      rw [joinWith, show "&".toList = ['&'] from rfl, splitOn_intercalate '&' hsep (by simp), filter_eq_self]
      rintro s hs
      obtain ⟨q, -, rfl⟩ := mem_map.1 hs
      simp
  have hpr : (l.map fun p => p.1 ++ '=' :: p.2).map queryPair = l := by
    rw [map_map]
    exact (map_congr_left fun p hp => queryPair_append (h p hp).key p.2).trans (map_id l)
  rw [queryPairs, hsp, hpr, filter_eq_self]
  exact fun p hp => decide_eq_true (h p hp).unsigned

/-! The order of the parameters is linear, so sorted lists with the same parameters are equal. -/

abbrev QueryLe (a b : Text × Text) : Prop := a.1 < b.1 ∨ a.1 = b.1 ∧ a.2 ≤ b.2

theorem queryLe_iff {a b : Text × Text} : QueryLe a b ↔ toLex a ≤ toLex b := Prod.Lex.le_iff.symm

instance : Std.Total QueryLe where
  total a b := by simpa only [queryLe_iff] using le_total (toLex a) (toLex b)

instance : IsTrans (Text × Text) QueryLe where
  trans a b c := by simpa only [queryLe_iff] using le_trans

private theorem normalizeQueryString_eq (raw : Text) : normalizeQueryString raw =
    joinWith "&" (((queryPairs raw).insertionSort QueryLe).map fun p => p.1 ++ '=' :: p.2) := by
  have hn : ∀ s : Text, (queryPair s).1 ≠ "X-Amz-Signature".toList ↔
      ¬ "X-Amz-Signature=".toList <+: s ∧ s ≠ "X-Amz-Signature".toList := by
    intro s
    rw [Ne, queryPair_fst_eq_iff (by decide), not_or]
    rfl
  have hp : queryPairs raw = ((raw.splitOn '&').filter fun s =>
      s ≠ [] ∧ ¬ "X-Amz-Signature=".toList <+: s ∧ s ≠ "X-Amz-Signature".toList).map queryPair := by
    rw [queryPairs, filter_map, filter_filter]
    simp only [Function.comp_apply, hn, ← Bool.decide_and, and_comm]
  have hpr : ∀ p : Text × Text, p.1 ++ '=' :: p.2 = p.1 ++ "=".toList ++ p.2 := by simp
  simp only [hp, hpr]
  rfl

/-- Two queries have the same canonical form exactly if they have the same pairs, each as often; it is its own
canonical form. -/
theorem normalize_canonical :
    (∀ p q, normalizeQueryString p = normalizeQueryString q ↔ (queryPairs p).Perm (queryPairs q)) ∧
      ∀ p, normalizeQueryString (normalizeQueryString p) = normalizeQueryString p := by
  have hread : ∀ raw, queryPairs (normalizeQueryString raw) = (queryPairs raw).insertionSort QueryLe := by
    intro raw
    rw [normalizeQueryString_eq]
    exact queryPairs_joinWith fun p hp => isQueryPair_of_mem ((mem_insertionSort _).1 hp)
  have hsort : ∀ l, (insertionSort QueryLe l).Pairwise QueryLe := pairwise_insertionSort QueryLe
  refine ⟨fun p q => ⟨fun h => ?_, fun h => ?_⟩, fun p => ?_⟩
  · have heq := congrArg queryPairs h
    rw [hread, hread] at heq
    exact ((perm_insertionSort _ _).symm.trans (Perm.of_eq heq)).trans (perm_insertionSort _ _)
  · have heq : (queryPairs p).insertionSort QueryLe = (queryPairs q).insertionSort QueryLe :=
      Perm.eq_of_pairwise
        (fun a b _ _ hab hba => toLex.injective (le_antisymm (queryLe_iff.1 hab) (queryLe_iff.1 hba)))
        (hsort _) (hsort _) (((perm_insertionSort _ _).trans h).trans (perm_insertionSort _ _).symm)
    rw [normalizeQueryString_eq, normalizeQueryString_eq, heq]
  · rw [normalizeQueryString_eq (normalizeQueryString p), hread, (hsort _).insertionSort_eq,
      ← normalizeQueryString_eq]

/-- The value of a header in the canonical form: single blanks, and commas between several values. -/
def headerText (name : Text) : Text :=
  joinWith "," ((headers.getAll name).filterMap fun v => (toStr v).map fun t => joinWith " " (splitWhitespace t))

def unsignedPayload : Text := "UNSIGNED-PAYLOAD"

def payloadHash : Text := (headers.getStr "x-amz-content-sha256").getD unsignedPayload

def buildSigningInput (r : Request) (cr : ParsedCredentials) : SigningInput :=
  let names := cr.signedHeaders.map c.toLowercase
  { method := r.method.asStr
    path := r.path
    queryString := normalizeQueryString (r.query.getD [])
    headers := names.foldl (fun m name => BTreeMap.insertEntry name [headerText r.headers name] m) []
    signedHeadersList := joinWith ";" (sortTexts names)
    payloadHash := payloadHash r.headers }

structure ChunkVerifier where
  signingKey : Bytes
  timestamp : Text
  scope : Text
  prevSignature : Text

def emptyHash : Text := "e3b0c44298fc1c149afbf4c8996fb92427ae41e4649b934ca495991b7852b855"

def ChunkVerifier.signature (v : ChunkVerifier) (chunkData : Bytes) : Text :=
  calculateSignature c v.signingKey ("AWS4-HMAC-SHA256-PAYLOAD\n" ++ v.timestamp ++ "\n" ++ v.scope ++ "\n"
    ++ v.prevSignature ++ "\n" ++ emptyHash ++ "\n" ++ hexEncode (c.sha256 chunkData))

/-- A chunk that is accepted becomes the predecessor of the next one. -/
def ChunkVerifier.verifyChunk (v : ChunkVerifier) (chunkData : Bytes) (expected : Text) : Bool × ChunkVerifier :=
  let signature := v.signature c chunkData
  if signature = expected then (true, { v with prevSignature := signature }) else (false, v)

end RustHadoop.S3
