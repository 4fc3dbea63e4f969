import RustHadoop.S3.Uploads

/-!
# What handlers do in a calm DFS

One lemma for every piece of a handler: the contents of files after it, as a change of the contents before.
-/

namespace RustHadoop.S3

open Texts Threads Environment Function Prog.Performs List Runs

variable {x : Except Text Unit} {c : Crates} {g : Gateway} {shardOf : Text → Nat} {e e' : Dfs} {path : Text}
  {content : Bytes}

section

variable {α : Type} {p : Prop} [Decidable p] {a b : Handler α} {x : α}

theorem runs_ite_pos (hp : p)
    (h : (calm c shardOf).Runs e (if p then a else b) e' x) : (calm c shardOf).Runs e a e' x := by
  rwa [if_pos hp] at h

theorem runs_ite_neg (hp : ¬ p)
    (h : (calm c shardOf).Runs e (if p then a else b) e' x) : (calm c shardOf).Runs e b e' x := by
  rwa [if_neg hp] at h

end

theorem mem_files_iff : path ∈ e.files ↔ e.look path ≠ none := by
  rw [Dfs.look, Ne, Option.map_eq_none_iff, AList.lookup_eq_none, not_not]

theorem look_eq_of_files (h : e'.files = e.files) : e'.look = e.look := by
  funext f
  rw [Dfs.look, Dfs.look, h]

theorem look_of_create (h : CalmStep c shardOf e (.create path content) x e') :
    e.look path = none ∧ x = .ok () ∧ e'.look = update e.look path (some content) ∨
      e.look path ≠ none ∧ x = .error alreadyExists ∧ e' = e := by
  change if path ∈ e.files then _ else _ at h
  split_ifs at h with hmem
  · exact .inr ⟨mem_files_iff.1 hmem, h⟩
  · obtain ⟨rfl, t, rfl⟩ := h
    refine .inl ⟨by_contra fun hne => hmem (mem_files_iff.2 hne), rfl, ?_⟩
    funext f
    by_cases hf : f = path
    · subst hf
      simp [Dfs.look, storedFile]
    · simp [Dfs.look, hf]

theorem look_of_delete (h : CalmStep c shardOf e (.delete path) x e') : e'.look = update e.look path none := by
  funext f
  rw [Dfs.look, lookup_of_delete h]
  by_cases hf : f = path
  · simp [hf]
  · simp [hf, Dfs.look]

theorem look_of_rename {dest : Text} (h : CalmStep c shardOf e (.rename path dest) x e') :
    (e.look path ≠ none ∧ (shardOf path = shardOf dest ∨ e.look dest = none)) ∧
        e'.look = update (update e.look path none) dest (e.look path) ∨
      ¬ (e.look path ≠ none ∧ (shardOf path = shardOf dest ∨ e.look dest = none)) ∧ e' = e := by
  have hr : renames shardOf e.files path dest = true ↔
      e.look path ≠ none ∧ (shardOf path = shardOf dest ∨ e.look dest = none) := by
    rw [renames, Bool.and_eq_true, Bool.or_eq_true, decide_eq_true_iff, decide_eq_true_iff, decide_eq_true_iff,
      mem_files_iff,
      mem_files_iff, not_not]
  change if renames shardOf e.files path dest then _ else _ at h
  split_ifs at h with hm
  · obtain ⟨hs, hds⟩ := hr.1 hm
    refine .inl ⟨⟨hs, hds⟩, ?_⟩
    obtain ⟨file, hfl⟩ := Option.ne_none_iff_exists'.1 fun hn => AList.lookup_eq_none.1 hn (mem_files_iff.2 hs)
    rw [h.2]
    funext f
    by_cases hf : f = dest
    · subst hf
      simp [Dfs.look, renamed, hfl]
    · by_cases hp : f = path
      · subst hp
        simp [Dfs.look, renamed, hfl, hf]
      · simp [Dfs.look, renamed, hfl, hf, hp]
  · exact .inr ⟨fun hm' => hm (hr.2 hm'), h.2⟩

theorem okay_of_download {x : Except Text Bytes} (h : CalmStep c shardOf e (.download path) x e') :
    okay x = e.read path ∧ e'.files = e.files ∧
      e'.downloads = if e.read path = none then e.downloads else path :: e.downloads := by
  simp only [CalmStep] at h
  split at h
  · rename_i content hr
    obtain ⟨rfl, rfl⟩ := h
    rw [hr]
    exact ⟨rfl, rfl, rfl⟩
  · rename_i hr
    obtain ⟨⟨text, rfl⟩, rfl⟩ := h
    rw [hr]
    exact ⟨rfl, rfl, rfl⟩

theorem read_eq_of_files (h : e'.files = e.files) : e'.read = e.read := by
  funext f
  rw [Dfs.read, Dfs.read, look_eq_of_files h]

theorem listing_of_list {x : Except Text (List Text)} (h : CalmStep c shardOf e (.list path) x e') :
    Listing shardOf e.files path ((okay x).getD []) ∧ e' = e := by
  obtain ⟨⟨fs, rfl, hfs⟩, rfl⟩ := h
  exact ⟨hfs, rfl⟩

theorem runs_attempt {o : DfsOp} (h : (calm c shardOf).Runs e (attempt o) e' ()) :
    ∃ x, CalmStep c shardOf e o x e' := by
  obtain ⟨e1, x, hx, hr⟩ := bind_iff.1 h
  obtain ⟨rfl, -⟩ := ret_iff.1 hr
  exact ⟨x, runs_call.1 hx⟩

theorem look_of_attempt_delete (h : (calm c shardOf).Runs e (attempt (.delete path)) e' ()) :
    e'.look = update e.look path none := by
  obtain ⟨x, hx⟩ := runs_attempt h
  exact look_of_delete hx

theorem look_of_attempt_create (h : (calm c shardOf).Runs e (attempt (.create path content)) e' ()) :
    e'.look = update e.look path (some ((e.look path).getD content)) := by
  obtain ⟨x, hx⟩ := runs_attempt h
  rcases look_of_create hx with ⟨hn, -, hl⟩ | ⟨hs, -, rfl⟩
  · rw [hl, hn]
    rfl
  · obtain ⟨old, ho⟩ := Option.ne_none_iff_exists'.1 hs
    rw [ho, Option.getD_some, ← ho, update_eq_self]

/-- What is stored for a payload, and the wrapped key that is needed to read it. -/
def Seals (g : Gateway) (payload content : Bytes) (dek : Option Text) : Prop :=
  match g.sseManager with
  | none => content = payload ∧ dek = none
  | some m => ∃ key nonce text kekNonce wrapped, key.length = 32 ∧ nonce.length = 12 ∧ kekNonce.length = 12 ∧
      g.crates.aesEncrypt key nonce payload = some text ∧ g.crates.aesEncrypt m.kek kekNonce key = some wrapped ∧
      content = nonce ++ text ∧ dek = some (g.crates.base64Encode (kekNonce ++ wrapped))

def Draws {α : Type} (p : Handler α) (Q : α → Prop) : Prop := p.Performs Answers (fun o => ∃ n, o = .random n) Q

theorem Draws.random (n : Nat) : Draws (call (.random n)) fun x : Bytes => x.length = n :=
  ⟨⟨n, rfl⟩, fun _ hx => hx⟩

theorem Draws.runs {α : Type} {p : Handler α} {Q : α → Prop} {a : α} (h : Draws p Q)
    (hr : (calm c shardOf).Runs e p e' a) : e' = e ∧ Q a := by
  refine keeps (I := fun e1 => e1 = e) h ?_ (fun _ _ r => r.elim) e rfl e' a hr
  rintro e1 _ x e2 ⟨n, rfl⟩ rfl ha
  exact ⟨ha.1, ha.2⟩

variable {payload : Bytes}

theorem draws_encryptObject {m : SseManager} : Draws (m.encryptObject c payload) fun
      | none => ∃ key nonce text, c.aesEncrypt key nonce text = none
      | some (content, dek) => ∃ key nonce text kekNonce wrapped, key.length = 32 ∧ nonce.length = 12 ∧
          kekNonce.length = 12 ∧
        c.aesEncrypt key nonce payload = some text ∧ c.aesEncrypt m.kek kekNonce key = some wrapped ∧
        content = nonce ++ text ∧ dek = c.base64Encode (kekNonce ++ wrapped) := by
  refine bind (Draws.random 32) fun key hk => bind (Draws.random 12) fun nonce hn => ?_
  split
  · rename_i hnn
    exact ⟨_, _, _, hnn⟩
  · rename_i text ht
    refine bind (Draws.random 12) fun kekNonce hkek => ?_
    split
    · rename_i hnn
      exact ⟨_, _, _, hnn⟩
    · rename_i wrapped hw
      exact ⟨key, nonce, text, kekNonce, wrapped, hk, hn, hkek, ht, hw, rfl, rfl⟩

theorem draws_sealBody :
    Draws (sealBody g payload) fun x => ∀ content dek, x = some (content, dek) → Seals g payload content dek := by
  unfold sealBody
  split
  · rename_i hm
    intro content dek hx
    cases hx
    unfold Seals
    rw [hm]
    exact ⟨rfl, rfl⟩
  · rename_i m hm
    refine bind draws_encryptObject fun x hx content dek heq => ?_
    obtain ⟨⟨content', dek'⟩, rfl, hp⟩ := Option.map_eq_some_iff.1 heq
    cases hp
    unfold Seals
    rw [hm]
    obtain ⟨key, nonce, text, kekNonce, wrapped, hk, hn, hkek, ht, hw, rfl, rfl⟩ := hx
    exact ⟨key, nonce, text, kekNonce, wrapped, hk, hn, hkek, ht, hw, rfl, rfl⟩

theorem runs_replaceSidecar {m : Metadata} (h : (calm c shardOf).Runs e (replaceSidecar g.crates path m) e' ()) :
    e'.look = update e.look (metaPath path) (some (g.crates.printMetadata m)) := by
  obtain ⟨e1, _, hdel, hc⟩ := bind_iff.1 h
  rw [look_of_attempt_create hc, look_of_attempt_delete hdel]
  simp

theorem runs_createOver (h : (calm c shardOf).Runs e (createOver path content) e' x) :
    x = .ok () ∧ e'.look = update e.look path (some content) := by
  obtain ⟨y, e1, hy, h1⟩ := runs_call_bind.1 h
  rcases look_of_create hy with ⟨-, rfl, hl⟩ | ⟨-, rfl, rfl⟩
  · obtain ⟨rfl, rfl⟩ := ret_iff.1 h1
    exact ⟨rfl, hl⟩
  · -- the second attempt finds the place free
    obtain ⟨e2, _, hdel, h2⟩ := bind_iff.1 (runs_ite_pos (by decide) h1)
    have hl := look_of_attempt_delete hdel
    rcases look_of_create (runs_call.1 h2) with ⟨-, rfl, hl'⟩ | ⟨hne, -⟩
    · rw [hl', hl]
      simp
    · rw [hl] at hne
      simp at hne

theorem runs_readSidecar {x : Option Metadata} (h : (calm c shardOf).Runs e (readSidecar g.crates path) e' x) :
    e' = e ∧ x = (e.read (metaPath path)).bind g.crates.readMetadata := by
  obtain ⟨y, e1, hy, h1⟩ := runs_call_bind.1 h
  obtain ⟨hr, rfl⟩ := okay_of_content hy
  rw [← hr]
  split at h1
  · obtain ⟨rfl, rfl⟩ := ret_iff.1 h1
    exact ⟨rfl, rfl⟩
  · obtain ⟨rfl, rfl⟩ := ret_iff.1 h1
    exact ⟨rfl, rfl⟩

variable {x : Reply} {headers : HeaderMap}

/-- A put that succeeds leaves the sealed payload and a sidecar with its key; one that does not leaves
everything. -/
theorem runs_putObject {bucket key : Text} {body : Bytes}
    (h : (calm c shardOf).Runs e (putObject g bucket key body headers) e' x) : succeeded x = false ∧ e' = e ∨
      succeeded x = true ∧ ∃ payload content dek, putPayload headers body = some payload ∧
        Seals g payload content dek ∧
        e'.look = update (update e.look (objectPath bucket key) (some content)) (metaPath (objectPath bucket key))
          (some (g.crates.printMetadata (putMetadata (quotedMd5 g.crates payload) headers dek))) := by
  unfold putObject at h
  dsimp only at h
  split at h
  · obtain ⟨rfl, rfl⟩ := ret_iff.1 h
    exact .inl ⟨rfl, rfl⟩
  · rename_i payload hp
    obtain ⟨e1, sealed, hsl, h1⟩ := bind_iff.1 h
    obtain ⟨rfl, hs⟩ := draws_sealBody.runs hsl
    split at h1
    · obtain ⟨rfl, rfl⟩ := ret_iff.1 h1
      exact .inl ⟨rfl, rfl⟩
    · rename_i content dek
      obtain ⟨e2, y, hc, h2⟩ := bind_iff.1 h1
      obtain ⟨rfl, hl⟩ := runs_createOver hc
      obtain ⟨e3, _, hsd, h3⟩ := bind_iff.1 h2
      obtain ⟨rfl, rfl⟩ := ret_iff.1 h3
      refine .inr ⟨rfl, payload, content, dek, hp, hs content dek rfl, ?_⟩
      rw [runs_replaceSidecar hsd, hl]

/-- A copy that succeeds has read the source, opened it with the key in its sidecar, and found no file at its
target. -/
theorem runs_copyObject {bucket key source : Text}
    (h : (calm c shardOf).Runs e (copyObject g bucket key source) e' x) :
    succeeded x = false ∧ e'.files = e.files ∨
      succeeded x = true ∧ ∃ raw plain content dek, e.read ('/' :: copySource g.crates source) = some raw ∧
        openBody g
          (((e.read (metaPath ('/' :: copySource g.crates source))).bind g.crates.readMetadata).bind fun m =>
            m.get dekKey)
          raw = some plain ∧ Seals g plain content dek ∧ e.look (objectPath bucket key) = none ∧
        e'.look = update (update e.look (objectPath bucket key) (some content)) (metaPath (objectPath bucket key))
          (some (g.crates.printMetadata (putMetadata (quotedMd5 g.crates plain) [] dek))) := by
  obtain ⟨y, e1, hdw, h1⟩ := runs_call_bind.1 h
  obtain ⟨hrd, hf, -⟩ := okay_of_download hdw
  have hl := look_eq_of_files hf
  have hsm := read_eq_of_files hf
  split at h1
  · obtain ⟨rfl, rfl⟩ := ret_iff.1 h1
    exact .inl ⟨rfl, hf⟩
  · rename_i raw
    obtain ⟨e2, sidecar, hs, h2⟩ := bind_iff.1 h1
    obtain ⟨rfl, rfl⟩ := runs_readSidecar hs
    dsimp only at h2
    split at h2
    · obtain ⟨rfl, rfl⟩ := ret_iff.1 h2
      exact .inl ⟨rfl, hf⟩
    · rename_i plain hp
      obtain ⟨e3, sealed, hseal, h3⟩ := bind_iff.1 h2
      obtain ⟨rfl, hsl⟩ := draws_sealBody.runs hseal
      split at h3
      · obtain ⟨rfl, rfl⟩ := ret_iff.1 h3
        exact .inl ⟨rfl, hf⟩
      · rename_i content dek
        obtain ⟨z, e4, hc, h4⟩ := runs_call_bind.1 h3
        rcases look_of_create hc with ⟨hfr, rfl, hcr⟩ | ⟨-, rfl, rfl⟩
        · obtain ⟨e5, _, hr, h5⟩ := bind_iff.1 h4
          obtain ⟨now, e6, rfl, h6⟩ := runs_call_bind.1 h5
          obtain ⟨rfl, rfl⟩ := ret_iff.1 h6
          refine .inr ⟨rfl, raw, plain, content, dek, hrd.symm, hsm ▸ hp, hsl content dek rfl, hl ▸ hfr, ?_⟩
          rw [runs_replaceSidecar hr, hcr, hl]
        · obtain ⟨rfl, rfl⟩ := ret_iff.1 h4
          exact .inl ⟨rfl, hf⟩

theorem runs_uploadPart {uploadId : Text} {n : Int} {body : Bytes}
    (h : (calm c shardOf).Runs e (uploadPart g uploadId n body) e' x) :
    succeeded x = false ∧ e.look (partPath uploadId n) ≠ none ∧ e' = e ∨
      succeeded x = true ∧ e.look (partPath uploadId n) = none ∧ ∃ etag,
        e'.look = update (update e.look (partPath uploadId n) (some body)) (partPath uploadId n ++ etagSuffix)
          (some etag) := by
  obtain ⟨y, e1, hc, h1⟩ := runs_call_bind.1 h
  rcases look_of_create hc with ⟨hf, rfl, hcr⟩ | ⟨ht, rfl, rfl⟩
  · obtain ⟨e2, _, he, h2⟩ := bind_iff.1 h1
    obtain ⟨rfl, rfl⟩ := ret_iff.1 h2
    exact .inr ⟨rfl, hf, _, by rw [look_of_attempt_create he, hcr]⟩
  · obtain ⟨rfl, rfl⟩ := ret_iff.1 h1
    exact .inl ⟨rfl, ht, rfl⟩

theorem runs_readParts {dek : Option Text} {files : List Text} {x : Option Bytes}
    (h : (calm c shardOf).Runs e (readParts g dek files) e' x) :
    e'.files = e.files ∧ x = ((files.filterMap e.read).mapM (openBody g dek)).map flatten ∧
      (x ≠ none → (∀ f ∈ files, e.read f ≠ none → f ∈ e'.downloads) ∧ ∀ f ∈ e.downloads, f ∈ e'.downloads) := by
  induction files generalizing e x with
  | nil =>
    obtain ⟨rfl, rfl⟩ := ret_iff.1 h
    exact ⟨rfl, rfl, fun _ => ⟨fun f hf => absurd hf not_mem_nil, fun f hf => hf⟩⟩
  | cons f rest ih =>
    obtain ⟨y, e1, hy, h1⟩ := runs_call_bind.1 h
    obtain ⟨hr, hfl, hdw⟩ := okay_of_download hy
    split at h1
    · -- the part is left out
      have hn : e.read f = none := hr.symm
      rw [hn, if_pos rfl] at hdw
      obtain ⟨hfl', hx, ha⟩ := ih h1
      rw [read_eq_of_files hfl, hdw] at ha
      refine ⟨hfl'.trans hfl, ?_, fun hne => ⟨?_, (ha hne).2⟩⟩
      · rw [hx, read_eq_of_files hfl, filterMap_cons, hn]
      · intro f' hf' hs
        rcases mem_cons.1 hf' with rfl | hf'
        · exact absurd hn hs
        · exact (ha hne).1 f' hf' hs
    · rename_i content
      have hs : e.read f = some content := hr.symm
      rw [hs, if_neg (Option.some_ne_none _)] at hdw
      split at h1
      · rename_i ho
        obtain ⟨rfl, rfl⟩ := ret_iff.1 h1
        refine ⟨hfl, ?_, fun hne => absurd rfl hne⟩
        rw [filterMap_cons, hs]
        simp [ho]
      · rename_i plain ho
        obtain ⟨e2, z, hz, h2⟩ := bind_iff.1 h1
        obtain ⟨rfl, rfl⟩ := ret_iff.1 h2
        obtain ⟨hfl', hx, ha⟩ := ih hz
        rw [read_eq_of_files hfl] at hx ha
        rw [hdw] at ha
        refine ⟨hfl'.trans hfl, ?_, fun hne => ?_⟩
        · rw [hx, filterMap_cons, hs]
          simp only [mapM_cons, ho]
          cases (filterMap e.read rest).mapM (openBody g dek) <;> rfl
        · have hz : z ≠ none := by
            rintro rfl
            exact hne rfl
          obtain ⟨hp, hold⟩ := ha hz
          refine ⟨fun f' hf' hs' => ?_, fun f' hf' => hold f' (mem_cons_of_mem _ hf')⟩
          rcases mem_cons.1 hf' with rfl | hf'
          · exact hold f' mem_cons_self
          · exact hp f' hf' hs'

def Dfs.head (e : Dfs) (c : Crates) (path : Text) : ObjectHead :=
  objectHead c (e.files.lookup path) ((e.read (metaPath path)).bind c.readMetadata)

theorem runs_getObject {bucket key : Text} (h : (calm c shardOf).Runs e (getObject g bucket key headers) e' x) :
    ∃ files, Listing shardOf e.files (objectPath bucket key) files ∧
      ((e.head g.crates (objectPath bucket key)).valid = false ∧ x = none ∨
        (e.head g.crates (objectPath bucket key)).valid = true ∧ (calm c shardOf).Runs e
          (if isMultipart (objectPath bucket key) files then
            getParts g (e.head g.crates (objectPath bucket key)) (partFiles (objectPath bucket key) files) headers
          else getSingle g (objectPath bucket key) (e.head g.crates (objectPath bucket key)) headers) e' x) := by
  obtain ⟨fs, e1, hfs, h1⟩ := runs_call_bind.1 h
  obtain ⟨hl, rfl⟩ := listing_of_list hfs
  obtain ⟨info, e2, ⟨rfl, rfl⟩, h2⟩ := runs_call_bind.1 h1
  obtain ⟨e3, sidecar, hs, h3⟩ := bind_iff.1 h2
  obtain ⟨rfl, rfl⟩ := runs_readSidecar hs
  refine ⟨_, hl, ?_⟩
  replace h3 : (calm c shardOf).Runs e3 (if !(e3.head g.crates (objectPath bucket key)).valid then pure none
      else if isMultipart (objectPath bucket key) ((okay fs).getD []) then
        getParts g (e3.head g.crates (objectPath bucket key))
          (partFiles (objectPath bucket key) ((okay fs).getD [])) headers
      else getSingle g (objectPath bucket key) (e3.head g.crates (objectPath bucket key)) headers) e' x := h3
  cases hv : (e3.head g.crates (objectPath bucket key)).valid
  · rw [hv] at h3
    obtain ⟨-, rfl⟩ := ret_iff.1 h3
    exact .inl ⟨rfl, rfl⟩
  · refine .inr ⟨rfl, ?_⟩
    rw [hv] at h3
    exact runs_ite_neg (by decide) h3

theorem getSingle_of_no_range {head : ObjectHead} (h : rangeParts headers = none) :
    getSingle g path head headers = getWhole g path head headers := by
  unfold getSingle
  rw [h]
  split
  · rename_i heq
    cases heq
  · rfl

end RustHadoop.S3
