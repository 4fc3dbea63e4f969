import RustHadoop.S3.Retrieval

/-!
# Encryption at rest

With an SSE manager, `put_object` and `copy_object` store ciphertexts.  `AtRest` is what may stand in a file then.
Every operation but `upload_part` keeps to it (`atRest_of_history`); a part is stored as it was sent.

What was encrypted is returned in the clear, by the same argument as without encryption.
-/

namespace RustHadoop.S3

open Texts Threads Function List

/-- A ciphertext of `encrypt_object`, or something that the gateway writes on its own. -/
inductive AtRest (g : Gateway) : Bytes → Prop
  | ciphertext {payload content : Bytes} {dek : Text} (h : Seals g payload content (some dek)) : AtRest g content
  | marker : AtRest g []
  | sidecar (payload : Bytes) (headers : HeaderMap) (dek : Option Text) :
      AtRest g (g.crates.printMetadata (putMetadata (quotedMd5 g.crates payload) headers dek))
  | uploadSidecar (parts : List (Int × Bytes)) :
      AtRest g (g.crates.printMetadata (Metadata.insert [] etagKey (mpuEtag g.crates parts)))
  | etag (body : Bytes) : AtRest g (utf8 (quotedMd5 g.crates body))

/-- No byte of a body is stored as it is. -/
def Operation.Encrypts : Operation → Prop
  | .uploadPart _ _ _ _ body => body = []
  | .putBucketPolicy _ _ => False
  | _ => True

variable {m : SseManager} {op : Operation} {f : Text}

section

variable {g : Gateway} {shardOf : Text → Nat} {e e' : Dfs} {content : Bytes}

section

variable (hm : g.sseManager = some m)
include hm

theorem Seals.dek_isSome {payload : Bytes} {dek : Option Text}
    (h : Seals g payload content dek) : ∃ wrapped, dek = some wrapped := by
  unfold Seals at h
  rw [hm] at h
  obtain ⟨-, -, -, -, -, -, -, -, -, -, -, rfl⟩ := h
  exact ⟨_, rfl⟩

private theorem atRest_of_objectWrites {path : Text} {headers : HeaderMap}
    (h : objectWrites g path headers f content) : AtRest g content := by
  rcases h with ⟨-, payload, dek, hs⟩ | ⟨-, payload, dek, rfl⟩
  · obtain ⟨wrapped, rfl⟩ := hs.dek_isSome hm
    exact .ciphertext hs
  · exact .sidecar payload headers dek

theorem atRest_of_creates (hop : op.Encrypts) (h : (op.footprint g).creates f content) : AtRest g content := by
  cases op with
  | putObject bucket key body headers | copyObject bucket key source => exact atRest_of_objectWrites hm h
  | uploadPart bucket key id n body =>
    rcases h with ⟨-, rfl⟩ | ⟨-, rfl⟩
    · exact (hop : content = []) ▸ .marker
    · exact .etag body
  | completeMultipartUpload bucket key id =>
    rcases h with ⟨-, rfl⟩ | ⟨-, parts, rfl⟩
    · exact .marker
    · exact .uploadSidecar parts
  | createBucket bucket =>
    obtain ⟨-, rfl⟩ := h
    exact .marker
  | initiateMultipartUpload bucket key =>
    obtain ⟨id, -, rfl⟩ := h
    exact .marker
  | putBucketPolicy bucket body => exact hop.elim
  | _ => exact h.elim

end

private theorem look_of_calmStep {c : Crates} {o : DfsOp} {y : o.Result} (h : CalmStep c shardOf e o y e')
    (hf : e'.look f = some content) : (∃ f', e.look f' = some content) ∨ o = .create f content := by
  have hsm : f ∉ o.touches → e.look f = some content := fun hn => by
    rwa [Dfs.look, ← changesOnly_of_calmStep h f hn]
  cases o with
  | create path written =>
    rcases look_of_create h with ⟨-, -, hl⟩ | ⟨-, -, rfl⟩
    · rw [hl] at hf
      by_cases heq : f = path
      · subst heq
        rw [update_self] at hf
        cases hf
        exact .inr rfl
      · rw [update_of_ne heq] at hf
        exact .inl ⟨f, hf⟩
    · exact .inl ⟨f, hf⟩
  | delete path =>
    rw [look_of_delete h] at hf
    by_cases heq : f = path
    · rw [heq, update_self] at hf
      cases hf
    · rw [update_of_ne heq] at hf
      exact .inl ⟨f, hf⟩
  | rename source dest =>
    rcases look_of_rename h with ⟨-, hl⟩ | ⟨-, rfl⟩
    · rw [hl] at hf
      by_cases hds : f = dest
      · rw [hds, update_self] at hf
        exact .inl ⟨source, hf⟩
      · rw [update_of_ne hds] at hf
        by_cases hs : f = source
        · rw [hs, update_self] at hf
          cases hf
        · rw [update_of_ne hs] at hf
          exact .inl ⟨f, hf⟩
    · exact .inl ⟨f, hf⟩
  | _ => exact .inl ⟨f, hsm not_mem_nil⟩

private theorem atRest_of_runs (hm : g.sseManager = some m) (hop : op.Encrypts) {x : Reply}
    (hr : (calm g.crates shardOf).Runs e (op.run g) e' x)
    (he : ∀ f content, e.look f = some content → AtRest g content) :
    ∀ f content, e'.look f = some content → AtRest g content := by
  refine (Prog.Performs.keeps (I := fun e1 : Dfs => ∀ f content, e1.look f = some content → AtRest g content)
    op.performs ?_
    (fun _ _ r => r.elim) e he e' x hr).1
  intro e1 o y e2 ho hI ha
  refine ⟨answers_of_calmStep ha, fun f content hf => ?_⟩
  rcases look_of_calmStep ha hf with ⟨f', hf'⟩ | rfl
  · exact hI f' content hf'
  · exact atRest_of_creates hm hop ho

private theorem atRest_of_history (hm : g.sseManager = some m) {history : List (Operation × Reply)}
    (hp : Performed g shardOf e history e') (ho : ∀ step ∈ history, step.1.Encrypts)
    (he : ∀ f content, e.look f = some content → AtRest g content) :
    ∀ f content, e'.look f = some content → AtRest g content := by
  induction hp with
  | nil => exact he
  | cons hr _ ih =>
    exact ih (fun step hs => ho step (mem_cons_of_mem _ hs)) (atRest_of_runs hm (ho _ mem_cons_self) hr he)

end

/-- With an SSE manager: as long as no body of a part has content, everything in the DFS is encrypted or the
gateway's own; and after a history that keeps to a layout, the file of a put or copied object is a ciphertext of
what the history has for it, and objects are returned in the clear. -/
theorem encrypted_and_returned (g : Gateway) (hc : g.crates.Lawful) {m : SseManager} (hm : g.sseManager = some m)
    {shardOf : Text → Nat} {history : List (Operation × Reply)} {e : Dfs}
    (hperformed : Performed g shardOf .empty history e) :
    ((∀ step ∈ history, step.1.Encrypts) → ∀ f content, e.look f = some content → AtRest g content) ∧
      ∀ L : Layout shardOf, (∀ step ∈ history, Fits g L step.2 step.1) → ∀ bucket key payload,
        (history.foldl (Shelf.after g) .empty).objects (objectPath bucket key) = some payload →
          (.plain (objectPath bucket key) ∈ L.roots → ∃ content dek,
            e.look (objectPath bucket key) = some content ∧ Seals g payload content (some dek)) ∧
          ∀ headers, rangeParts headers = none →
            (calm g.crates shardOf).Ensures e (getObject g bucket key headers)
              fun _ x => ∃ fields, x = some ⟨200, fields, .bytes payload⟩ := by
  constructor
  · intro hops
    exact atRest_of_history hm hperformed hops fun f content hf => nomatch hf
  · intro L hfits bucket key payload hstored
    have hstores := stores_of_history hc (stores_empty (L := L)) hfits hperformed
    refine ⟨fun hroot => ?_, fun headers hrange => ?_⟩
    · have hholds := hstores.holds _ hroot
      simp only [Root.Holds, hstored] at hholds
      obtain ⟨content, dek, hseals, -, hlook, -⟩ := hholds
      obtain ⟨wrapped, rfl⟩ := hseals.dek_isSome hm
      exact ⟨content, wrapped, hlook, hseals⟩
    · exact ⟨⟨_, _, runs_execCalm g.crates shardOf (fun _ => []) _ e⟩, fun _ _ hr =>
        get_of_stores hc hstores hrange hstored hr⟩

def sealedStore : Gateway :=
  { openGateway (storeCrates sealedCiphers sealedBase64) with sseManager := some ⟨replicate 32 7⟩ }

theorem sealedStore_lawful : sealedStore.crates.Lawful := sealedCrates_lawful

def sealedHistory : List (Operation × Reply) × Dfs :=
  execAll sealedStore (fun _ => 0) (fun _ => []) [.putObject "b" "a" [65] []] .empty

def sealedLayout : Layout fun _ => 0 :=
  .ofAntichain {.plain (objectPath "b" "a")} (fun r hr r' hr' _ => hr.trans hr'.symm) (by
      intro p hp
      cases hp
      decide)
    (fun _ _ _ _ => rfl) fun _ _ _ _ => rfl

theorem encrypted_and_returned_put :
    (∀ f content, sealedHistory.2.look f = some content → AtRest sealedStore content) ∧
      (∃ content dek, sealedHistory.2.look "/b/a" = some content ∧ Seals sealedStore [65] content (some dek)) ∧
      (calm sealedStore.crates fun _ => 0).Ensures sealedHistory.2 (getObject sealedStore "b" "a" [])
        fun _ x => ∃ fields, x = some ⟨200, fields, .bytes [65]⟩ := by
  obtain ⟨hrest, hget⟩ := encrypted_and_returned sealedStore sealedStore_lawful rfl
    (performed_execAll sealedStore (fun _ => 0) (fun _ => []) [.putObject "b" "a" [65] []] .empty)
  have hobject := hget sealedLayout (fun step hstep => ?_) "b" "a" [65] ?_
  · refine ⟨hrest fun step hstep => ?_, hobject.1 rfl, hobject.2 [] rfl⟩
    rw [mem_singleton.1 hstep]
    trivial
  · rw [mem_singleton.1 hstep]
    exact ⟨rfl, fun _ _ => .inr fun h => nomatch h⟩
  · unfold sealedStore sealedCiphers sealedBase64 sealedA wrappedZeros
    repeat rw [String.toList_ofList]
    decide +kernel

def partHistory : List (Operation × Reply) × Dfs :=
  execAll sealedStore (fun _ => 0) (fun _ => []) [.uploadPart "b" "m" "u" 1 [65]] .empty

/-- A part is stored as it was sent. -/
theorem part_in_the_clear : Performed sealedStore (fun _ => 0) .empty partHistory.1 partHistory.2 ∧
      partHistory.2.look (partPath "u" 1) = some [65] ∧ ¬ AtRest sealedStore [65] := by
  refine ⟨performed_execAll _ _ _ _ _, by decide +kernel, fun h => ?_⟩
  -- what the gateway writes on its own is empty or begins with a brace or a quote
  cases h with
  | ciphertext h =>
    obtain ⟨key, nonce, text, -, -, -, hnonce, -, -, -, hcontent, -⟩ := h
    have hlen := congrArg length hcontent
    rw [length_append, hnonce] at hlen
    simp at hlen
    omega

end RustHadoop.S3
