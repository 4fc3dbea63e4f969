import RustHadoop.S3.Effects

/-!
# What is sealed can be opened

`Crates.Lawful` is what is assumed of the crates: decryption inverts encryption, and what is printed is read back.
Then the sidecar of an object has the key that opens its content.
-/

namespace RustHadoop.S3

open Texts List Metadata

/-- AES-256-GCM with its tag of 16 bytes, base64, the text form of sidecars and dates. -/
structure Crates.Lawful (c : Crates) : Prop where
  decrypt : ∀ {key nonce text cipher}, c.aesEncrypt key nonce text = some cipher →
    c.aesDecrypt key nonce cipher = some text ∧ cipher.length = text.length + 16
  base64 : ∀ b, c.base64Decode (c.base64Encode b) = some b
  metadata : ∀ {m : Metadata}, (m.map Prod.fst).Nodup →
    ∃ m', c.readMetadata (c.printMetadata m) = some m' ∧ ∀ k, m'.get k = m.get k
  metadata_ne : ∀ m, c.printMetadata m ≠ []
  httpDate : ∀ t, isHeaderValue (c.formatHttpDate t) = true

section

variable {g : Gateway} {payload content : Bytes} {dek : Option Text}

theorem openBody_of_seals (hc : g.crates.Lawful) (h : Seals g payload content dek) :
    openBody g dek content = some payload := by
  unfold Seals at h
  split at h
  · rename_i hm
    obtain ⟨rfl, rfl⟩ := h
    rfl
  · rename_i m hm
    obtain ⟨key, nonce, text, kekNonce, wrapped, hkey, hn, hk, ht, hw, rfl, rfl⟩ := h
    obtain ⟨ho, hlen⟩ := hc.decrypt ht
    obtain ⟨hu, hwl⟩ := hc.decrypt hw
    have hb : ¬ (kekNonce ++ wrapped).length < 60 := by
      rw [length_append]
      omega
    have hcn : ¬ (nonce ++ text).length < 28 := by
      rw [length_append]
      omega
    unfold openBody
    rw [hm]
    simp only [SseManager.decryptObject, hc.base64, Option.bind_eq_bind, Option.bind_some]
    rw [if_neg hb, take_left' hk, drop_left' hk, hu, Option.bind_some, if_neg (by simpa using hkey),
      if_neg hcn, take_left' hn, drop_left' hn, ho]

theorem openBody_of_none (hm : g.sseManager = none) : openBody g dek content = some content := by
  unfold openBody
  rw [hm]
  cases dek <;> rfl

theorem Seals.ne_nil (h : Seals g payload content dek) (hne : payload ≠ [] ∨ g.sseManager ≠ none) :
    content ≠ [] := by
  unfold Seals at h
  split at h
  · rename_i hm
    obtain ⟨rfl, -⟩ := h
    exact hne.resolve_right (not_not.2 hm)
  · obtain ⟨key, nonce, text, -, -, -, hn, -, -, -, rfl, -⟩ := h
    intro hnil
    rw [(append_eq_nil_iff.1 hnil).1] at hn
    cases hn

end

theorem isHeaderValue_append {a b : Text} (ha : isHeaderValue a = true) (hb : isHeaderValue b = true) :
    isHeaderValue (a ++ b) = true := by
  unfold isHeaderValue utf8 at *
  rw [flatMap_append, all_append, ha, hb]
  rfl

theorem isHeaderValue_flatMap {α : Type} {f : α → Text} {l : List α} (h : ∀ a ∈ l, isHeaderValue (f a) = true) :
    isHeaderValue (l.flatMap f) = true := by
  induction l with
  | nil => rfl
  | cons a l ih =>
    rw [flatMap_cons]
    exact isHeaderValue_append (h a mem_cons_self) (ih fun b hb => h b (mem_cons_of_mem _ hb))

theorem isHeaderValue_hexEncode (b : Bytes) : isHeaderValue (hexEncode b) = true := by
  have hdg : ∀ m < 16, ∀ n < 16, isHeaderValue [hexDigit m, hexDigit n] = true := by decide
  refine isHeaderValue_flatMap fun x _ => hdg _ ?_ _ (Nat.mod_lt _ (by decide))
  have := x.toNat_lt
  omega

theorem isHeaderValue_natText (n : Nat) : isHeaderValue (natText n) = true := by
  have hdg : ∀ c : Char, c.isDigit = true → isHeaderValue [c] = true := by
    have hcd : ∀ k < 58, 48 ≤ k → isHeaderValue [Char.ofNat k] = true := by decide
    intro c hc
    have hr : 48 ≤ c.toNat ∧ c.toNat ≤ 57 := by simpa [Char.isDigit, Char.le_def, UInt32.le_iff_toNat_le] using hc
    rw [← Char.ofNat_toNat c]
    exact hcd _ (by omega) hr.1
  have h :=
    isHeaderValue_flatMap (f := fun c => [c]) (l := natText n) fun c hc => hdg c (isDigit_of_mem_natText hc)
  rwa [flatMap_singleton'] at h

theorem isHeaderValue_quoted {t : Text} (h : isHeaderValue t = true) :
    isHeaderValue ('"' :: (t ++ ['"'])) = true :=
  isHeaderValue_append (a := ['"']) (by decide) (isHeaderValue_append h (by decide))

namespace Metadata

variable {m : Metadata} {k k' v : Text}

theorem get_insert_self : (m.insert k v).get k = some v := by
  have hn : (m.filter fun e => e.1 ≠ k).find? (fun e => e.1 = k) = none := by
    simp [find?_eq_none]
  rw [get, insert, find?_append, hn]
  simp

theorem get_insert_ne (h : k' ≠ k) : (m.insert k v).get k' = m.get k' := by
  have hf : (m.filter fun e => e.1 ≠ k).find? (fun e => e.1 = k') = m.find? fun e => e.1 = k' := by
    rw [find?_filter]
    congr 1
    funext e
    by_cases he : e.1 = k'
    · simp [he, h]
    · simp [he]
  rw [get, insert, find?_append, hf, get]
  simp [Ne.symm h]

theorem nodup_insert (h : (m.map Prod.fst).Nodup) : ((m.insert k v).map Prod.fst).Nodup := by
  rw [insert, map_append]
  refine Nodup.append (h.sublist (filter_sublist.map _)) (by simp) ?_
  simp

end Metadata

/-- The sidecar of an object has the wrapped key and a valid entity tag. -/
structure IsSidecar (m : Metadata) (dek : Option Text) : Prop where
  nodup : (m.map Prod.fst).Nodup
  dek_eq : m.get dekKey = dek
  etag : ∃ etag, m.get etagKey = some etag ∧ isHeaderValue etag = true

theorem isSidecar_etag {etag : Text} (h : isHeaderValue etag = true) : IsSidecar (insert [] etagKey etag) none :=
  ⟨nodup_insert nodup_nil, get_insert_ne (by decide), etag, get_insert_self, h⟩

theorem IsSidecar.insert {m : Metadata} {dek : Option Text} (h : IsSidecar m dek) {k v : Text} (hdek : k ≠ dekKey)
    (he : k ≠ etagKey) : IsSidecar (m.insert k v) dek := by
  refine ⟨nodup_insert h.nodup, ?_, ?_⟩
  · rw [get_insert_ne hdek.symm, h.dek_eq]
  · rw [get_insert_ne he.symm]
    exact h.etag

theorem isSidecar_putMetadata {etag : Text} (h : isHeaderValue etag = true) (headers : HeaderMap)
    (dek : Option Text) : IsSidecar (putMetadata etag headers dek) dek := by
  unfold putMetadata
  dsimp only
  generalize hf : foldl _ _ headers = base
  have hb : IsSidecar base none := by
    rw [← hf]
    -- A metadata header is neither the tag nor the wrapped key.
    refine foldlRecOn (motive := fun m => IsSidecar m none) headers _ (isSidecar_etag h) fun m hm header _ => ?_
    split_ifs with hmt
    · split
      · refine hm.insert ?_ ?_
        · intro heq
          rw [heq] at hmt
          revert hmt
          decide
        · intro heq
          rw [heq] at hmt
          revert hmt
          decide
      · exact hm
    · exact hm
  split
  · refine ⟨nodup_insert hb.nodup, get_insert_self, ?_⟩
    rw [get_insert_ne (by decide)]
    exact hb.etag
  · exact hb

section

variable {g : Gateway} {e : Dfs} {p : Text} {m : Metadata} {dek : Option Text}

theorem read_of_look {f : Text} {content : Bytes} (h : e.look f = some content) (hne : content ≠ []) :
    e.read f = some content := by
  rw [Dfs.read, h, Option.filter_some, if_pos (by simpa using hne)]

theorem readMetadata_of_look (hc : g.crates.Lawful) (hl : e.look (metaPath p) = some (g.crates.printMetadata m))
    (hm : IsSidecar m dek) :
    ∃ m', (e.read (metaPath p)).bind g.crates.readMetadata = some m' ∧ ∀ k, m'.get k = m.get k := by
  obtain ⟨m', hr, hg⟩ := hc.metadata hm.nodup
  refine ⟨m', ?_, hg⟩
  rw [read_of_look hl (hc.metadata_ne m), Option.bind_some, hr]

theorem objectHead_of_sidecar (hc : g.crates.Lawful) (info : Option StoredFile)
    (hl : e.look (metaPath p) = some (g.crates.printMetadata m)) (hm : IsSidecar m dek) :
    (objectHead g.crates info ((e.read (metaPath p)).bind g.crates.readMetadata)).valid = true ∧
      (objectHead g.crates info ((e.read (metaPath p)).bind g.crates.readMetadata)).dek = dek := by
  obtain ⟨m', hr, hg⟩ := readMetadata_of_look hc hl hm
  obtain ⟨etag, he, hv⟩ := hm.etag
  rw [hr]
  constructor
  · have hdt : isHeaderValue (objectHead g.crates info (some m')).lastModified = true := by
      unfold objectHead
      dsimp only
      split
      · split_ifs
        · exact hc.httpDate _
        · decide
      · decide
    have ht : (objectHead g.crates info (some m')).etag = etag := by
      simp [objectHead, hg, he]
    rw [ObjectHead.valid, ht, hv, hdt]
    rfl
  · simp [objectHead, hg, hm.dek_eq]

theorem head_of_sidecar (hc : g.crates.Lawful) (hl : e.look (metaPath p) = some (g.crates.printMetadata m))
    (hm : IsSidecar m dek) : (e.head g.crates p).valid = true ∧ (e.head g.crates p).dek = dek :=
  objectHead_of_sidecar hc _ hl hm

end

end RustHadoop.S3
