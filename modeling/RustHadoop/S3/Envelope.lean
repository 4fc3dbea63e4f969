import RustHadoop.S3.Formats

/-!
# Envelopes

`SseManager` (`dfs/common/src/auth/sse.rs`) with its errors and the places where it can panic.  An object is sealed
under a key of its own, which is wrapped under the key of the gateway: what was sealed is opened again, and
whatever is given to `decrypt_object`, it returns, with a plaintext only if both layers were made by an encryption.
-/

namespace RustHadoop.S3

open Texts List

/-- `split_at`; `none` if it panics. -/
def splitAt? (mid : Nat) (b : Bytes) : Option (Bytes × Bytes) :=
  if mid ≤ b.length then some (b.splitAt mid) else none

/-- `Nonce::from_slice`; `none` if it panics. -/
def nonceFromSlice (b : Bytes) : Option Bytes := if b.length = 12 then some b else none

/-- `Aes256Gcm::new_from_slice` -/
def aes256GcmFromSlice (key : Bytes) : Except Text Bytes :=
  if key.length = 32 then .ok key else .error "Invalid Length"

/-- Decryption under a key and a nonce in front of the text. -/
def openFrame (c : Crates) (key : Bytes) (invalidKey failed : Text) (frame : Bytes) :
    Option (Except AuthError Bytes) := do
  let (nonceBytes, text) ← splitAt? 12 frame
  let nonce ← nonceFromSlice nonceBytes
  match aes256GcmFromSlice key with
  | .error e => return .error (.internalError (invalidKey ++ e))
  | .ok key =>
    match c.aesDecrypt key nonce text with
    | none => return .error (.invalidToken (failed ++ "aead::Error"))
    | some text => return .ok text

def SseManager.tryDecryptObject (c : Crates) (decodeError : Text → Text) (m : SseManager) (ciphertext : Bytes)
    (dekB64 : Text) : Option (Except AuthError Bytes) :=
  match c.base64Decode dekB64 with
  | none => return .error (.invalidToken ("Invalid base64 DEK: " ++ decodeError dekB64))
  | some dekBlob =>
    if dekBlob.length < 60 then return .error (.invalidToken "Encrypted DEK too short")
    else do
      match ← openFrame c m.kek "Invalid KEK: " "DEK decryption failed: " dekBlob with
      | .error e => return .error e
      | .ok dek =>
        if dek.length ≠ 32 then return .error (.internalError "Decrypted DEK has wrong length")
        else if ciphertext.length < 28 then return .error (.invalidToken "Ciphertext too short")
        else openFrame c dek "Invalid DEK: " "Data decryption failed: " ciphertext

/-- AES-256-GCM decrypts exactly what was encrypted under the key and the nonce and adds a tag of 16 bytes; base64
can be read. -/
structure Crates.Seals (c : Crates) : Prop where
  decrypt : ∀ key nonce text cipher, c.aesDecrypt key nonce cipher = some text ↔
    c.aesEncrypt key nonce text = some cipher
  tag : ∀ key nonce text cipher, c.aesEncrypt key nonce text = some cipher → cipher.length = text.length + 16
  base64 : ∀ b, c.base64Decode (c.base64Encode b) = some b

/-- `frame` is a nonce with what `text` was encrypted to under it. -/
def IsFrame (c : Crates) (key text frame : Bytes) : Prop :=
  ∃ nonce cipher, nonce.length = 12 ∧ c.aesEncrypt key nonce text = some cipher ∧ frame = nonce ++ cipher

variable {c : Crates} {m : SseManager} {key frame text : Bytes}

private theorem openFrame_eq (hk : key.length = 32) (hf : 12 ≤ frame.length) (invalidKey failed : Text) :
    openFrame c key invalidKey failed frame = some (match c.aesDecrypt key (frame.take 12) (frame.drop 12) with
      | none => .error (.invalidToken (failed ++ "aead::Error"))
      | some text => .ok text) := by
  have hn : (frame.take 12).length = 12 := by simp [hf]
  simp only [openFrame, splitAt?, if_pos hf, splitAt_eq, nonceFromSlice, if_pos hn, aes256GcmFromSlice, if_pos hk,
    Option.bind_eq_bind, Option.bind_some]
  cases c.aesDecrypt key (frame.take 12) (frame.drop 12) <;> rfl

private theorem aesDecrypt_frame_iff (hc : c.Seals) (hf : 12 ≤ frame.length) :
    c.aesDecrypt key (frame.take 12) (frame.drop 12) = some text ↔ IsFrame c key text frame := by
  rw [hc.decrypt]
  constructor
  · intro h
    exact ⟨frame.take 12, frame.drop 12, by simp [hf], h, (take_append_drop 12 frame).symm⟩
  · rintro ⟨nonce, cipher, hn, h, rfl⟩
    rwa [take_left' hn, drop_left' hn]

theorem IsFrame.length (hc : c.Seals) (h : IsFrame c key text frame) : frame.length = text.length + 28 := by
  obtain ⟨nonce, cipher, hn, hcp, rfl⟩ := h
  rw [length_append, hn, hc.tag _ _ _ _ hcp]
  omega

private theorem tryDecryptObject_returns (hk : m.kek.length = 32) (decodeError : Text → Text) (ciphertext : Bytes)
    (dekB64 : Text) : ∃ r, m.tryDecryptObject c decodeError ciphertext dekB64 = some r ∧
      r.toOption = m.decryptObject c ciphertext dekB64 := by
  simp only [SseManager.tryDecryptObject, SseManager.decryptObject]
  rcases c.base64Decode dekB64 with _ | blob
  · exact ⟨_, rfl, rfl⟩
  · simp only [Option.bind_eq_bind, Option.bind_some]
    split
    · exact ⟨_, rfl, rfl⟩
    · rw [openFrame_eq hk (by omega)]
      rcases c.aesDecrypt m.kek (blob.take 12) (blob.drop 12) with _ | dek
      · exact ⟨_, rfl, rfl⟩
      · simp only [Option.bind_some]
        split
        · exact ⟨_, rfl, rfl⟩
        · rename_i hdek
          split
          · exact ⟨_, rfl, rfl⟩
          · rw [openFrame_eq (not_not.1 hdek) (by omega)]
            refine ⟨_, rfl, ?_⟩
            cases c.aesDecrypt dek (ciphertext.take 12) (ciphertext.drop 12) <;> rfl

private theorem decryptObject_eq_some_iff (hc : c.Seals) {ciphertext plaintext : Bytes} {dekB64 : Text} :
    m.decryptObject c ciphertext dekB64 = some plaintext ↔ ∃ dek blob, dek.length = 32 ∧
      c.base64Decode dekB64 = some blob ∧ IsFrame c m.kek dek blob ∧ IsFrame c dek plaintext ciphertext := by
  simp only [SseManager.decryptObject, Option.bind_eq_bind, Option.bind_eq_some_iff]
  constructor
  · rintro ⟨blob, hb, h⟩
    split at h
    · cases h
    · obtain ⟨dek, hdek, h⟩ := Option.bind_eq_some_iff.1 h
      split_ifs at h with hlen hsh
      exact ⟨dek, blob, not_not.1 hlen, hb, (aesDecrypt_frame_iff hc (by omega)).1 hdek,
        (aesDecrypt_frame_iff hc (by omega)).1 h⟩
  · rintro ⟨dek, blob, hlen, hb, hw, hs⟩
    have hwl := hw.length hc
    have hsl := hs.length hc
    refine ⟨blob, hb, ?_⟩
    rw [if_neg (by omega), (aesDecrypt_frame_iff hc (by omega)).2 hw, Option.bind_some, if_neg (not_not.2 hlen),
      if_neg (by omega), (aesDecrypt_frame_iff hc (by omega)).2 hs]

/-- A plaintext comes back from its envelope, and nothing is opened but envelopes. -/
theorem envelope_round_trip (hc : c.Seals) (m : SseManager) (hkek : m.kek.length = 32)
    (decodeError : Text → Text) :
    (∀ plaintext, Draws (m.encryptObject c plaintext) fun
      | none => ∃ key nonce text, c.aesEncrypt key nonce text = none
      | some (ciphertext, dekB64) => m.tryDecryptObject c decodeError ciphertext dekB64 = some (.ok plaintext)) ∧
    ∀ ciphertext dekB64, ∃ r, m.tryDecryptObject c decodeError ciphertext dekB64 = some r ∧
      ∀ plaintext, r = .ok plaintext →
      ∃ dek blob, c.base64Decode dekB64 = some blob ∧ IsFrame c m.kek dek blob ∧
        IsFrame c dek plaintext ciphertext := by
  refine ⟨fun plaintext => draws_encryptObject.mono (fun _ h => h) fun x hx => ?_, fun ciphertext dekB64 => ?_⟩
  · split at hx
    · exact hx
    · rename_i ciphertext dekB64
      obtain ⟨dek, nonce, text, kekNonce, wrapped, hdek, hnonce, hkek', htext, hwrapped, rfl, rfl⟩ := hx
      obtain ⟨r, hr, hopen⟩ := tryDecryptObject_returns (c := c) hkek decodeError (nonce ++ text)
        (c.base64Encode (kekNonce ++ wrapped))
      rw [(decryptObject_eq_some_iff hc).2 ⟨dek, _, hdek, hc.base64 _, ⟨kekNonce, wrapped, hkek', hwrapped, rfl⟩,
        nonce, text, hnonce, htext, rfl⟩] at hopen
      cases r with
      | ok plain =>
        cases hopen
        exact hr
      | error e => cases hopen
  · obtain ⟨r, hr, hopen⟩ := tryDecryptObject_returns (c := c) hkek decodeError ciphertext dekB64
    refine ⟨r, hr, ?_⟩
    rintro plaintext rfl
    obtain ⟨dek, blob, -, h⟩ := (decryptObject_eq_some_iff hc).1 hopen.symm
    exact ⟨dek, blob, h⟩

/-- AES-256-GCM at the two places of the table and nowhere else. -/
def envelopeCrates : Crates :=
  { storeCrates sealedCiphers sealedBase64 with
    aesEncrypt := fun key nonce text => (sealedCiphers.entries key nonce).lookup text
    aesDecrypt := fun key nonce cipher =>
      ((sealedCiphers.entries key nonce).find? fun e => e.2 = cipher).map Prod.fst }

private theorem sealedCiphers_entries (key nonce : Bytes) :
    sealedCiphers.entries key nonce = [] ∨ ∃ e ∈ sealedCiphers, sealedCiphers.entries key nonce = [e.2] := by
  simp only [CipherTable.entries, sealedCiphers, filter_cons, filter_nil, decide_eq_true_eq]
  by_cases h : ((replicate 32 0, replicate 12 0) : Bytes × Bytes) = (key, nonce)
  · rw [if_pos h, ← h, if_neg (by decide)]
    exact .inr ⟨_, mem_cons_self, rfl⟩
  · rw [if_neg h]
    split
    · exact .inr ⟨_, mem_cons_of_mem _ mem_cons_self, rfl⟩
    · exact .inl rfl

private theorem envelopeCrates_seals : envelopeCrates.Seals where
  decrypt key nonce text cipher := by
    simp only [envelopeCrates]
    rcases sealedCiphers_entries key nonce with h | ⟨⟨_, plain, frame⟩, -, h⟩
    · simp [h]
    · by_cases ht : text = plain
      · simp [h, ht]
      · simp [h, lookup_cons, beq_eq_false_iff_ne.2 ht, Ne.symm ht]
  tag key nonce text cipher h := by
    obtain ⟨e, he, heq⟩ := mem_map.1 (Tables.mem_of_lookup h)
    have hlen := (sealedCiphers_proper.2 e (mem_of_mem_filter he)).1
    rwa [heq] at hlen
  base64 := sealedCrates_lawful.base64

/-- The text `A` comes back from any envelope, and from this one, whose key was wrapped. -/
theorem envelope_round_trip_sealed :
    let dekB64 : Text := "AAAAAAAAAAAAAAAAYdiksvuSC+jhB49kxHtLrr3vqflz3KtbFhWAyE/pGmZi0nIzzaoXA7RAgwQIydFN"
    (Draws (SseManager.encryptObject envelopeCrates ⟨replicate 32 7⟩ [65]) fun
      | none => ∃ key nonce text, envelopeCrates.aesEncrypt key nonce text = none
      | some (ciphertext, dekB64) =>
        SseManager.tryDecryptObject envelopeCrates id ⟨replicate 32 7⟩ ciphertext dekB64 = some (.ok [65])) ∧
    SseManager.tryDecryptObject envelopeCrates id ⟨replicate 32 7⟩ (replicate 12 0 ++ sealedA) dekB64 = some
      (.ok [65]) ∧
      ∃ dek blob, envelopeCrates.base64Decode dekB64 = some blob ∧
        IsFrame envelopeCrates (replicate 32 7) dek blob ∧
        IsFrame envelopeCrates dek [65] (replicate 12 0 ++ sealedA) := by
  intro dekB64
  obtain ⟨hs, ho⟩ := envelope_round_trip envelopeCrates_seals ⟨replicate 32 7⟩ (by simp) id
  obtain ⟨r, hr, hf⟩ := ho (replicate 12 0 ++ sealedA) dekB64
  have hok : SseManager.tryDecryptObject envelopeCrates id ⟨replicate 32 7⟩ (replicate 12 0 ++ sealedA) dekB64 =
      some (.ok [65]) := by
    subst dekB64
    unfold envelopeCrates sealedCiphers sealedBase64 sealedA wrappedZeros
    repeat rw [String.toList_ofList]
    decide +kernel
  exact ⟨hs [65], hok, hf [65] (Option.some.inj (hr.symm.trans hok))⟩

end RustHadoop.S3
