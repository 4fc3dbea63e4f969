import RustHadoop.S3.Reference
import RustHadoop.S3.Sealing

/-!
# Crates for concrete histories

Sidecars are printed as `serde_json` prints them, for texts without control characters.  AES-256-GCM and base64 are
known at the inputs of a table; elsewhere they have no secrets and can be inverted.
-/

namespace RustHadoop.S3

open Texts Tables List

def escaped (c : Char) : Text := if c = '"' ∨ c = '\\' then ['\\', c] else [c]

def jsonString (t : Text) : Text := '"' :: (t.flatMap escaped ++ ['"'])

def jsonEntries : Metadata → Text
  | [] => ['\x7d']
  | [(k, v)] => jsonString k ++ ':' :: (jsonString v ++ ['\x7d'])
  | (k, v) :: rest => jsonString k ++ ':' :: (jsonString v ++ ',' :: jsonEntries rest)

def printJson (m : Metadata) : Bytes := utf8 ('\x7b' :: jsonEntries m)

/-- A string up to its closing quote, and what follows. -/
def readString : Text → Option (Text × Text)
  | [] => none
  | '"' :: rest => some ([], rest)
  | '\\' :: c :: rest => (readString rest).map fun s => (c :: s.1, s.2)
  | c :: rest => (readString rest).map fun s => (c :: s.1, s.2)

def readEntry : Text → Option ((Text × Text) × Text)
  | '"' :: t =>
    match readString t with
    | some (k, ':' :: '"' :: rest) => (readString rest).map fun s => ((k, s.1), s.2)
    | _ => none
  | _ => none

def readEntries : Nat → Text → Option Metadata
  | 0, _ => none
  | fuel + 1, t =>
    match readEntry t with
    | some (entry, ',' :: rest) => (readEntries fuel rest).map fun m => entry :: m
    | some (entry, ['\x7d']) => some [entry]
    | some _ => none
    | none => if t = ['\x7d'] then some [] else none

def readJson (b : Bytes) : Option Metadata :=
  match utf8? b with
  | some ('\x7b' :: t) => readEntries (t.length + 1) t
  | _ => none

theorem readString_escaped (t rest : Text) : readString (t.flatMap escaped ++ '"' :: rest) = some (t, rest) := by
  induction t with
  | nil => rfl
  | cons c t ih =>
    rw [flatMap_cons, append_assoc]
    by_cases hq : c = '"'
    · simp [hq, escaped, readString, ih]
    · by_cases hs : c = '\\'
      · simp [hs, escaped, readString, ih]
      · simp [hq, hs, escaped, readString, ih]

private theorem readEntry_json (k v rest : Text) :
    readEntry (jsonString k ++ ':' :: (jsonString v ++ rest)) = some ((k, v), rest) := by
  simp [jsonString, readEntry, readString_escaped]

private theorem readEntries_json {fuel : Nat} {m : Metadata} (h : m.length < fuel) :
    readEntries fuel (jsonEntries m) = some m := by
  induction fuel generalizing m with
  | zero => omega
  | succ fuel ih =>
    match m, h with
    | [], _ => rfl
    | [(k, v)], _ =>
      rw [readEntries, jsonEntries, readEntry_json]
      rfl
    | (k, v) :: e :: rest, h =>
      rw [readEntries, jsonEntries, readEntry_json]
      · simp only [ih (m := e :: rest) (by simpa using h), Option.map_some]
      · exact fun h => nomatch h

private theorem length_le_jsonEntries (m : Metadata) : m.length ≤ (jsonEntries m).length := by
  induction m with
  | nil => simp
  | cons e rest ih =>
    cases rest with
    | nil =>
      simp [jsonEntries]
      omega
    | cons e' rest =>
      rw [jsonEntries]
      · simp at ih ⊢
        omega
      · exact fun h => nomatch h

private theorem readJson_printJson (m : Metadata) : readJson (printJson m) = some m := by
  have hlen := length_le_jsonEntries m
  rw [readJson, printJson, utf8?_utf8]
  exact readEntries_json (by omega)

/-- The tag that stands behind every text outside of the table. -/
def noTag : Bytes := replicate 16 0

/-- Texts and ciphertexts for keys and nonces. -/
abbrev CipherTable := List ((Bytes × Bytes) × Bytes × Bytes)

variable (t : CipherTable)

def CipherTable.entries (key nonce : Bytes) : List (Bytes × Bytes) :=
  (t.filter fun e => e.1 = (key, nonce)).map fun e => e.2

def CipherTable.encrypt (key nonce text : Bytes) : Option Bytes :=
  some (lookupOr (t.entries key nonce) (· ++ noTag) text)

def CipherTable.decrypt (key nonce cipher : Bytes) : Option Bytes :=
  lookupBack (t.entries key nonce) (fun c => if noTag <:+ c then some (c.take (c.length - 16)) else none) cipher

/-- Every ciphertext stands there once, has its length, and does not end like those outside of the table. -/
def CipherTable.Proper : Prop :=
  (t.map fun e => e.2.2).Nodup ∧ ∀ e ∈ t, e.2.2.length = e.2.1.length + 16 ∧ ¬ noTag <:+ e.2.2

instance (t : CipherTable) : Decidable t.Proper := inferInstanceAs (Decidable (_ ∧ _))

private theorem CipherTable.decrypt_encrypt {t : CipherTable} (ht : t.Proper) {key nonce text cipher : Bytes}
    (h : t.encrypt key nonce text = some cipher) :
    t.decrypt key nonce cipher = some text ∧ cipher.length = text.length + 16 := by
  have hen : ∀ {e}, e ∈ t.entries key nonce → e.2.length = e.1.length + 16 ∧ ¬ noTag <:+ e.2 := by
    intro e he
    obtain ⟨e', he', rfl⟩ := mem_map.1 he
    exact ht.2 e' (mem_of_mem_filter he')
  have hv : ((t.entries key nonce).map Prod.snd).Nodup := by
    rw [CipherTable.entries, map_map]
    exact ht.1.sublist (filter_sublist.map _)
  cases h
  constructor
  · refine lookupBack_lookupOr hv (fun a => ?_) (fun a ha => ?_) text
    · rw [if_pos (suffix_append _ _)]
      simp [noTag]
    · obtain ⟨e, he, heq⟩ := mem_map.1 ha
      exact (hen he).2 (heq ▸ suffix_append _ _)
  · unfold lookupOr
    rcases hl : (t.entries key nonce).lookup text with _ | cipher
    · simp [noTag]
    · exact (hen (mem_of_lookup hl)).1

def bytesText (b : Bytes) : Text := '=' :: b.map fun x => Char.ofNat x.toNat

def textBytes (t : Text) : Option Bytes := some ((t.drop 1).map fun c => UInt8.ofNat c.toNat)

private theorem textBytes_bytesText (b : Bytes) : textBytes (bytesText b) = some b := by
  have hc : ∀ n < 256, (Char.ofNat n).toNat = n := by decide +kernel
  have hb : ∀ x : UInt8, UInt8.ofNat (Char.ofNat x.toNat).toNat = x := fun x => by
    rw [hc _ x.toNat_lt, UInt8.ofNat_toNat]
  rw [textBytes, bytesText, drop_succ_cons, drop_zero, map_map]
  exact congrArg some ((map_congr_left fun x _ => hb x).trans (map_id b))

/-- Crates for a store: one table for AES-256-GCM, one for base64. -/
def storeCrates (ciphers : CipherTable) (base64 : List (Bytes × Text)) : Crates :=
  { plainCrates with
    aesEncrypt := ciphers.encrypt
    aesDecrypt := ciphers.decrypt
    base64Encode := lookupOr base64 bytesText
    base64Decode := lookupBack base64 textBytes
    printMetadata := printJson
    readMetadata := readJson }

theorem storeCrates_lawful (ciphers : CipherTable) (base64 : List (Bytes × Text)) (hc : ciphers.Proper)
    (hv : (base64.map Prod.snd).Nodup) (hm : ∀ e ∈ base64, e.2.head? ≠ some '=') :
    (storeCrates ciphers base64).Lawful where
  decrypt := CipherTable.decrypt_encrypt hc
  base64 := by
    refine lookupBack_lookupOr hv textBytes_bytesText fun b hb => ?_
    obtain ⟨e, he, heq⟩ := mem_map.1 hb
    exact hm e he (by rw [heq]; rfl)
  metadata := fun {m} _ => ⟨m, readJson_printJson m, fun _ => rfl⟩
  metadata_ne := fun m h => by
    have hr := readJson_printJson m
    rw [show printJson m = [] from h] at hr
    cases hr
  httpDate := fun t => rfl

def wrappedZeros : Bytes :=
  digest ("61d8a4b2fb920be8e1078f64c47b4baebdefa9f973dcab5b161580c84fe91a66" ++ "62d27233cdaa1703b440830408c9d14d")

def sealedA : Bytes := digest "8ff29cf0c10636ba8916a6fd48b640c026"

/-- AES-256-GCM of the text `A` and of the key it is sealed under. -/
def sealedCiphers : CipherTable :=
  [((replicate 32 0, replicate 12 0), [65], sealedA),
    ((replicate 32 7, replicate 12 0), replicate 32 0, wrappedZeros)]

def sealedBase64 : List (Bytes × Text) :=
  [(replicate 12 0 ++
    wrappedZeros, "AAAAAAAAAAAAAAAAYdiksvuSC+jhB49kxHtLrr3vqflz3KtbFhWAyE/pGmZi0nIzzaoXA7RAgwQIydFN")]

theorem sealedCiphers_proper : sealedCiphers.Proper := by
  unfold sealedCiphers sealedA wrappedZeros
  repeat rw [String.toList_ofList]
  decide +kernel

theorem sealedCrates_lawful : (storeCrates sealedCiphers sealedBase64).Lawful :=
  storeCrates_lawful sealedCiphers sealedBase64 sealedCiphers_proper (by decide) (by decide)

end RustHadoop.S3
