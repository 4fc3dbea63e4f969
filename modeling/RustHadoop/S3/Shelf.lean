import RustHadoop.S3.Footprints
import RustHadoop.S3.Layout
import RustHadoop.S3.Sealing

/-!
# Objects and uploads

A `Shelf` is what clients mean by the store: the bytes of every object, and the parts of every upload.  Operations
that succeed change it, and `Stores` relates it to the files of the DFS, root by root (`Root.Holds`).  An operation
changes the files of one or two roots of a layout, so the others still hold (`Stores.change`).

`stores_of_runs` is one operation, `stores_of_history` a history from the empty DFS.
-/

namespace RustHadoop.S3

open Texts Threads Environment Function List Runs

variable {x : Reply}

abbrev Parts := AList fun _ : Int => Bytes

/-- The parts one after another, in the order of their numbers. -/
def assemble (parts : Parts) : Bytes :=
  (parts.entries.insertionSort fun a b => a.1 ≤ b.1).flatMap fun part => part.2

structure Shelf where
  objects : Text → Option Bytes
  pending : Text → Parts

namespace Shelf

def empty : Shelf := ⟨fun _ => none, fun _ => ∅⟩

def apply (g : Gateway) (s : Shelf) : Operation → Shelf
  | .putObject bucket key body headers =>
    { s with objects := update s.objects (objectPath bucket key) (putPayload headers body) }
  | .copyObject bucket key source =>
    { s with objects := update s.objects (objectPath bucket key) (s.objects ('/' :: copySource g.crates source)) }
  | .uploadPart _ _ uploadId n body =>
      { s with pending := update s.pending uploadId ((s.pending uploadId).insert n body) }
  | .completeMultipartUpload bucket key uploadId =>
    ⟨update s.objects (objectPath bucket key) (some (assemble (s.pending uploadId))), update s.pending uploadId ∅⟩
  | _ => s

def after (g : Gateway) (s : Shelf) (h : Operation × Reply) : Shelf := if succeeded h.2 then s.apply g h.1 else s

private theorem after_of_apply {g : Gateway} {s : Shelf} {op : Operation} (h : s.apply g op = s) :
    s.after g (op, x) = s := by
  rw [after, h, ite_self]

end Shelf

/-- Operations one after another, with their replies. -/
inductive Performed (g : Gateway) (shardOf : Text → Nat) : Dfs → List (Operation × Reply) → Dfs → Prop
  | nil {e : Dfs} : Performed g shardOf e [] e
  | cons {e e1 e' : Dfs} {op : Operation} {x : Reply} {history : List (Operation × Reply)}
      (hr : (calm g.crates shardOf).Runs e (op.run g) e1 x) (hrest : Performed g shardOf e1 history e') :
      Performed g shardOf e ((op, x) :: history) e'

def execAll (g : Gateway) (shardOf : Text → Nat) (ids : Nat → Text) :
    List Operation → Dfs → List (Operation × Reply) × Dfs
  | [], e => ([], e)
  | op :: rest, e =>
    let first := execCalm g.crates shardOf ids (op.run g) e
    let others := execAll g shardOf ids rest first.2
    ((op, first.1) :: others.1, others.2)

theorem performed_execAll (g : Gateway) (shardOf : Text → Nat) (ids : Nat → Text)
    (ops : List Operation) (e : Dfs) :
    Performed g shardOf e (execAll g shardOf ids ops e).1 (execAll g shardOf ids ops e).2 := by
  induction ops generalizing e with
  | nil => exact .nil
  | cons op rest ih => exact .cons (runs_execCalm g.crates shardOf ids (op.run g) e) (ih _)

def HasSidecar (g : Gateway) (look : Text → Option Bytes) (p : Text) (dek : Option Text) : Prop :=
  ∃ m, look (metaPath p) = some (g.crates.printMetadata m) ∧ IsSidecar m dek

/-- The files of a root are as the shelf has it. -/
def Root.Holds (g : Gateway) (s : Shelf) (look : Text → Option Bytes) : Root → Prop
  | .plain p =>
    match s.objects p with
    | none => look p = none
    | some payload => ∃ content dek, Seals g payload content dek ∧ content ≠ [] ∧ look p = some content ∧
        HasSidecar g look p dek
  | .parts p =>
    look p = none ∧
      match s.objects p with
      | none => look (child p mpuMarker) = none ∧ look (metaPath p) = none ∧ ∀ n, look (child p (intText n)) = none
      | some payload => look (child p mpuMarker) ≠ none ∧ HasSidecar g look p none ∧
          ∃ parts : Parts, payload = assemble parts ∧ (∀ n ∈ parts, IsI32 n) ∧
            ∀ n, look (child p (intText n)) = parts.lookup n
  | .upload id => (∀ n ∈ s.pending id, IsI32 n) ∧ ∀ n, look (partPath id n) = (s.pending id).lookup n
  | .bucket _ => True

/-- The part of the shelf that a root is about. -/
def Root.Same (s s' : Shelf) : Root → Prop
  | .plain p | .parts p => s'.objects p = s.objects p
  | .upload id => s'.pending id = s.pending id
  | .bucket _ => True

structure Stores (g : Gateway) {shardOf : Text → Nat} (L : Layout shardOf) (s : Shelf) (e : Dfs) : Prop where
  holds : ∀ r ∈ L.roots, r.Holds g s e.look
  owned : ∀ f, e.look f ≠ none → ∃ r ∈ L.roots, r.Owns f
  known : ∀ p, s.objects p ≠ none → .plain p ∈ L.roots ∨ .parts p ∈ L.roots

variable {headers : HeaderMap}

section

variable {g : Gateway} {shardOf : Text → Nat} {L : Layout shardOf} {s s' : Shelf} {e e' : Dfs}

theorem Root.Holds.congr {r : Root} {look look' : Text → Option Bytes} (h : r.Holds g s look) (hs : r.Same s s')
    (hl : ∀ f, r.Owns f → look' f = look f) : r.Holds g s' look' := by
  cases r with
  | plain p =>
    have ho := hl p (.inl rfl)
    have hsd := hl (metaPath p) (.inr rfl)
    simpa only [Root.Holds, HasSidecar, show s'.objects p = s.objects p from hs, ho, hsd] using h
  | parts p =>
    have ho := hl p (.inl rfl)
    have hsd := hl (metaPath p) (.inr (.inl rfl))
    have hm := hl (child p mpuMarker) (.inr (.inr (.inl rfl)))
    have hp := fun n => hl (child p (intText n)) (.inr (.inr (.inr ⟨n, rfl⟩)))
    simpa only [Root.Holds, HasSidecar, show s'.objects p = s.objects p from hs, ho, hsd, hm, hp] using h
  | upload id =>
    have hp := fun n => hl (partPath id n) (.inr ⟨n, .inl rfl⟩)
    simpa only [Root.Holds, show s'.pending id = s.pending id from hs, hp] using h
  | bucket name => trivial

/-- If only the files of some roots change, only these have to be looked at. -/
theorem Stores.change (h : Stores g L s e) (changed : Set Root) (hsub : changed ⊆ L.roots)
    (hl : ∀ f, (∀ r ∈ changed, ¬ r.Owns f) → e'.look f = e.look f)
    (hs : ∀ r ∈ L.roots, r ∉ changed → r.Same s s') (hh : ∀ r ∈ changed, r.Holds g s' e'.look)
    (hk : ∀ p, s'.objects p ≠ none → s.objects p ≠ none ∨ .plain p ∈ changed ∨ .parts p ∈ changed) :
    Stores g L s' e' := by
  refine ⟨fun r hr => ?_, fun f hf => ?_, fun p hp => ?_⟩
  · by_cases hc : r ∈ changed
    · exact hh r hc
    · refine (h.holds r hr).congr (hs r hr hc) fun f ho => hl f fun r' hr' ho' => ?_
      exact hc (L.unique r hr r' (hsub hr') f ho ho' ▸ hr')
  · by_cases hc : ∃ r ∈ changed, r.Owns f
    · obtain ⟨r, hr, ho⟩ := hc
      exact ⟨r, hsub hr, ho⟩
    · push Not at hc
      rw [hl f hc] at hf
      exact h.owned f hf
  · rcases hk p hp with hp | hp | hp
    · exact h.known p hp
    · exact .inl (hsub hp)
    · exact .inr (hsub hp)

theorem Stores.of_look_eq (h : Stores g L s e) (hl : e'.look = e.look) : Stores g L s e' :=
  ⟨fun r hr => hl ▸ h.holds r hr, fun f hf => h.owned f (hl ▸ hf), h.known⟩

variable {p : Text}

theorem Layout.parts_notMem (hp : .plain p ∈ L.roots) : .parts p ∉ L.roots :=
  fun hpr => nomatch L.unique _ hp _ hpr p (.inl rfl) (.inl rfl)

theorem look_eq_of_performs {α : Type} {F : Footprint} (hF : ∀ f, F.Spares f) {p : Handler α}
    {Q : α → Prop} {a : α}
    (h : Performs F p Q) (hr : (calm g.crates shardOf).Runs e p e' a) : e'.look = e.look := by
  funext f
  rw [Dfs.look, Dfs.look, h.lookup_eq (hF f) (faulty_of_calm hr)]

theorem Stores.write (h : Stores g L s e) (hp : .plain p ∈ L.roots) {payload content : Bytes} {dek : Option Text}
    (hs : Seals g payload content dek) (hne : content ≠ [])
    (hl : e'.look = update (update e.look p (some content)) (metaPath p)
      (some (g.crates.printMetadata (putMetadata (quotedMd5 g.crates payload) headers dek)))) :
    Stores g L { s with objects := update s.objects p (some payload) } e' := by
  refine h.change {.plain p} (Set.singleton_subset_iff.2 hp) ?_ ?_ ?_ ?_
  · intro f hf
    have ho := hf _ rfl
    rw [hl, update_of_ne fun heq => ho (.inr heq), update_of_ne fun heq => ho (.inl heq)]
  · intro r hr hne
    cases r with
    | plain q =>
      exact update_of_ne (fun heq => hne (by rw [heq]; rfl)) _ _
    | parts q =>
      refine update_of_ne (fun heq => ?_) _ _
      exact L.parts_notMem hp (heq ▸ hr)
    | upload id => rfl
    | bucket name => trivial
  · rintro _ rfl
    have hm : p ≠ metaPath p := by simp [metaPath]
    have he : isHeaderValue (quotedMd5 g.crates payload) = true := isHeaderValue_quoted (isHeaderValue_hexEncode _)
    simp only [Root.Holds, update_self, HasSidecar]
    refine ⟨content, dek, hs, hne, ?_, _, ?_, isSidecar_putMetadata he headers dek⟩
    · rw [hl, update_of_ne hm, update_self]
    · rw [hl, update_self]
  · intro q hq
    by_cases heq : q = p
    · exact .inr (.inl (by rw [heq]; rfl))
    · dsimp only at hq
      rw [update_of_ne heq] at hq
      exact .inl hq

variable {bucket key : Text} {body : Bytes}

private theorem stores_putObject (h : Stores g L s e) (hp : .plain (objectPath bucket key) ∈ L.roots)
    (hne : ∀ payload, putPayload headers body = some payload → payload ≠ [] ∨ g.sseManager ≠ none)
    (hr : (calm g.crates shardOf).Runs e (putObject g bucket key body headers) e' x) :
    Stores g L (s.after g (.putObject bucket key body headers, x)) e' := by
  rcases runs_putObject hr with ⟨hx, rfl⟩ | ⟨hx, payload, content, dek, hpy, hs, hl⟩
  · rwa [Shelf.after, hx]
  · have ha : s.after g (.putObject bucket key body headers, x) =
        { s with objects := update s.objects (objectPath bucket key) (some payload) } := by
      rw [Shelf.after, hx, ← hpy]
      rfl
    rw [ha]
    exact h.write hp hs (hs.ne_nil (hne payload hpy)) hl

private theorem Stores.open_eq (hc : g.crates.Lawful) (h : Stores g L s e)
    (hp : .plain p ∈ L.roots ∨ .parts p ∈ L.roots) {raw plain : Bytes} (hr : e.read p = some raw)
    (hop : openBody g (((e.read (metaPath p)).bind g.crates.readMetadata).bind fun m => m.get dekKey)
      raw = some plain) :
    s.objects p = some plain ∧ raw ≠ [] := by
  obtain ⟨hl, hne⟩ := Option.filter_eq_some_iff.1 hr
  have hpl : .plain p ∈ L.roots := by
    refine hp.resolve_right fun hpr => ?_
    rw [(h.holds _ hpr).1] at hl
    cases hl
  have hh := h.holds _ hpl
  simp only [Root.Holds] at hh
  split at hh
  · rw [hh] at hl
    cases hl
  · rename_i payload ho
    obtain ⟨content, dek, hsl, -, hcn, m, hm, hs⟩ := hh
    cases hcn.symm.trans hl
    obtain ⟨m', hm', hg⟩ := readMetadata_of_look hc hm hs
    rw [hm', Option.bind_some, hg, hs.dek_eq, openBody_of_seals hc hsl] at hop
    exact ⟨ho.trans hop, by simpa using hne⟩

private theorem stores_copyObject (hc : g.crates.Lawful) (h : Stores g L s e) {source : Text}
    (hp : .plain (objectPath bucket key) ∈ L.roots) (hsr : .plain ('/' :: copySource g.crates source) ∈ L.roots ∨
      .parts ('/' :: copySource g.crates source) ∈ L.roots)
    (hr : (calm g.crates shardOf).Runs e (copyObject g bucket key source) e' x) :
    Stores g L (s.after g (.copyObject bucket key source, x)) e' := by
  rcases runs_copyObject hr with ⟨hx, hf⟩ | ⟨hx, raw, plain, content, dek, hrd, hop, hs, -, hl⟩
  · rw [Shelf.after, hx]
    exact h.of_look_eq (look_eq_of_files hf)
  · obtain ⟨ho, hne⟩ := h.open_eq hc hsr hrd hop
    have ha : s.after g (.copyObject bucket key source, x) =
        { s with objects := update s.objects (objectPath bucket key) (some plain) } := by
      rw [Shelf.after, hx, ← ho]
      rfl
    rw [ha]
    refine h.write hp hs (hs.ne_nil ?_) hl
    by_cases hm : g.sseManager = none
    · rw [openBody_of_none hm] at hop
      exact .inl (Option.some.inj hop ▸ hne)
    · exact .inr hm

theorem partPath_injective (id : Text) : Injective (partPath id) := by
  intro m n h
  exact intText_injective (by simpa [partPath, child] using h)

theorem partPath_ne_keep {id' : Text} (id : Text) (n : Int) : partPath id' n ≠ child (mpuDir id) keepMarker := by
  intro h
  have hn := congrArg fileName h
  rw [partPath, fileName_child (slash_notMem_intText n), fileName_child (by decide)] at hn
  exact dot_notMem_intText n (by rw [hn]; decide)

theorem partPath_ne_etag (id : Text) (m n : Int) : partPath id m ≠ partPath id n ++ etagSuffix := by
  intro h
  have hn : intText m = intText n ++ etagSuffix := by simpa [partPath, child] using h
  exact dot_notMem_intText m (by rw [hn]; exact mem_append_right _ (by decide))

variable {id : Text}

theorem Stores.pend (h : Stores g L s e) (hid : .upload id ∈ L.roots) {parts : Parts} (hpr : ∀ n ∈ parts, IsI32 n)
    (hl : ∀ n, e'.look (partPath id n) = parts.lookup n)
    (ho : ∀ f, ¬ (Root.upload id).Owns f → e'.look f = e.look f) :
    Stores g L { s with pending := update s.pending id parts } e' := by
  refine h.change {.upload id} (Set.singleton_subset_iff.2 hid) (fun f hf => ho f (hf _ rfl)) ?_ ?_ fun p hp =>
    .inl hp
  · intro r _ hne
    cases r with
    | upload j => exact update_of_ne (fun heq => hne (by rw [heq]; rfl)) _ _
    | plain p => rfl
    | parts p => rfl
    | bucket name => trivial
  · rintro _ rfl
    simp only [Root.Holds, update_self]
    exact ⟨hpr, hl⟩

private theorem stores_uploadPart (h : Stores g L s e) {n : Int} (hid : .upload id ∈ L.roots) (hn : IsI32 n)
    (hr : (calm g.crates shardOf).Runs e (uploadPart g id n body) e' x) :
    Stores g L (s.after g (.uploadPart bucket key id n body, x)) e' := by
  rcases runs_uploadPart hr with ⟨hx, -, rfl⟩ | ⟨hx, hfr, etag, hl⟩
  · rwa [Shelf.after, hx]
  · rw [Shelf.after, hx]
    obtain ⟨hi, hp⟩ := h.holds _ hid
    refine h.pend hid (fun m hm => ?_) (fun m => ?_) fun f hf => ?_
    · rcases (AList.mem_insert _).1 hm with rfl | hm
      · exact hn
      · exact hi m hm
    · rw [hl, update_of_ne (partPath_ne_etag id m n)]
      by_cases hm : m = n
      · rw [hm, update_self, AList.lookup_insert]
      · rw [update_of_ne fun heq => hm (partPath_injective id heq), AList.lookup_insert_ne hm, hp]
    · rw [hl, update_of_ne fun heq => hf (.inr ⟨n, .inr heq⟩), update_of_ne fun heq => hf (.inr ⟨n, .inl heq⟩)]

private theorem stores_initiateMultipartUpload (h : Stores g L s e)
    (hid : ∀ id, x = xmlResponse 200 (.initiateMultipartUpload bucket key id) → .upload id ∈ L.roots)
    (hr : (calm g.crates shardOf).Runs e (initiateMultipartUpload bucket key) e' x) : Stores g L s e' := by
  obtain ⟨(id : Text), e1, ⟨-, rfl⟩, h1⟩ := runs_call_bind.1 hr
  obtain ⟨e2, _, hk, h2⟩ := bind_iff.1 h1
  obtain ⟨rfl, rfl⟩ := ret_iff.1 h2
  have hl := look_of_attempt_create hk
  change e'.look = update e.look _ _ at hl
  obtain ⟨hi, hp⟩ := h.holds _ (hid id rfl)
  have hl' : ∀ n, e'.look (partPath id n) = (s.pending id).lookup n := fun n => by
    rw [hl, update_of_ne (partPath_ne_keep id n), hp]
  have hs := h.pend (hid id rfl) hi hl' fun f hf => by rw [hl, update_of_ne fun heq => hf (.inl heq)]
  rwa [update_eq_self] at hs

private theorem not_suffix_partPath (id : Text) (n : Int) {ending : Text} (hs : '/' ∉ ending)
    (hdot : '.' ∈ ending) : ¬ ending <:+ partPath id n := by
  rintro ⟨f, hf⟩
  have hmem := dot_mem_fileName f hs hdot
  rw [hf, partPath, fileName_child (slash_notMem_intText n)] at hmem
  exact dot_notMem_intText n hmem

section

variable {f : Text} (hapart : ∀ f, (Root.upload id).Owns f → ¬ (Root.parts p).Owns f)
include hapart

private theorem runs_movePart (hf : (Root.upload id).Owns f)
    (hl : ∀ n, partPath id n = f → e.look f ≠ none ∧ e.look (child p (intText n)) = none)
    (h : (calm g.crates shardOf).Runs e (if keepMarker <:+ f then return ()
      else if etagSuffix <:+ f then attempt (.delete f) else attempt (.rename f (child p (fileName f)))) e' ()) :
    (∀ n, partPath id n = f → e'.look (partPath id n) = none ∧
      e'.look (child p (intText n)) = e.look (partPath id n)) ∧
      (∀ n, partPath id n ≠ f → e'.look (partPath id n) = e.look (partPath id n) ∧
        e'.look (child p (intText n)) = e.look (child p (intText n))) ∧
      ∀ f', ¬ (Root.upload id).Owns f' → (∀ n, f' ≠ child p (intText n)) → e'.look f' = e.look f' := by
  have hc : ∀ m n, partPath id m ≠ child p (intText n) := fun m n heq =>
    hapart _ (.inr ⟨m, .inl rfl⟩) (.inr (.inr (.inr ⟨n, heq⟩)))
  rcases hf with rfl | ⟨n, rfl | rfl⟩
  · obtain ⟨rfl, -⟩ := ret_iff.1 (runs_ite_pos ⟨mpuDir id ++ ['/'], by simp [child]⟩ h)
    exact ⟨fun n heq => absurd heq (partPath_ne_keep id n), fun n _ => ⟨rfl, rfl⟩, fun _ _ _ => rfl⟩
  · obtain ⟨hsm, hfr⟩ := hl n rfl
    replace h := runs_ite_neg (not_suffix_partPath id n (by decide) (by decide)) h
    replace h := runs_ite_neg (not_suffix_partPath id n (by decide) (by decide)) h
    rw [partPath, fileName_child (slash_notMem_intText n), ← partPath] at h
    obtain ⟨x, hx⟩ := runs_attempt h
    have hr := (look_of_rename hx).resolve_right fun hno => hno.1 ⟨hsm, .inr hfr⟩
    rw [hr.2]
    refine ⟨fun m heq => ?_, fun m hne => ?_, fun f' ho hp => ?_⟩
    · cases partPath_injective id heq
      rw [update_of_ne (hc n n), update_self, update_self]
      exact ⟨rfl, rfl⟩
    · have hp : child p (intText m) ≠ child p (intText n) := fun heq =>
        hne (congrArg (partPath id) (intText_injective (by simpa [child] using heq)))
      rw [update_of_ne (hc m n), update_of_ne hne, update_of_ne hp, update_of_ne (hc n m).symm]
      exact ⟨rfl, rfl⟩
    · rw [update_of_ne (hp n), update_of_ne fun heq => ho (.inr ⟨n, .inl heq⟩)]
  · have hk : ¬ keepMarker <:+ partPath id n ++ etagSuffix := fun hs =>
      absurd (suffix_of_suffix_length_le (suffix_append _ _) hs (by decide)) (by decide)
    replace h := runs_ite_pos (suffix_append _ _) (runs_ite_neg hk h)
    rw [look_of_attempt_delete h]
    refine ⟨fun m heq => absurd heq (partPath_ne_etag id m n), fun m _ => ⟨?_, ?_⟩, fun f' ho _ => ?_⟩
    · rw [update_of_ne (partPath_ne_etag id m n)]
    · refine update_of_ne (fun heq => ?_) _ _
      exact hapart _ (.inr ⟨n, .inr rfl⟩) (.inr (.inr (.inr ⟨m, heq.symm⟩)))
    · rw [update_of_ne fun heq => ho (.inr ⟨n, .inr heq⟩)]

/-- The loop of `complete_multipart_upload`: whatever the order of the listing, the parts end up at their
places. -/
theorem runs_moveParts {files : List Text} (hnd : files.Nodup) (hfl : ∀ f ∈ files, (Root.upload id).Owns f)
    (hl : ∀ n, partPath id n ∈ files ↔ e.look (partPath id n) ≠ none)
    (hfr : ∀ n, e.look (partPath id n) ≠ none → e.look (child p (intText n)) = none)
    (h : (calm g.crates shardOf).Runs e (moveParts p files) e' ()) : (∀ n, e'.look (partPath id n) = none) ∧
      (∀ n, e'.look (child p (intText n)) = (e.look (partPath id n)).or (e.look (child p (intText n)))) ∧
      ∀ f, ¬ (Root.upload id).Owns f → (∀ n, f ≠ child p (intText n)) → e'.look f = e.look f := by
  induction files generalizing e with
  | nil =>
    obtain ⟨rfl, -⟩ := ret_iff.1 h
    have hnn : ∀ n, e'.look (partPath id n) = none := fun n =>
      by_contra fun hne => not_mem_nil ((hl n).2 hne)
    exact ⟨hnn, fun n => by rw [hnn, Option.none_or], fun _ _ _ => rfl⟩
  | cons f rest ih =>
    obtain ⟨hf, hnd⟩ := nodup_cons.1 hnd
    obtain ⟨e1, h1, h2⟩ := each_cons.1 h
    have hh : ∀ n, partPath id n = f → e.look f ≠ none := fun n heq => heq ▸ (hl n).1 (heq ▸ mem_cons_self)
    obtain ⟨hm, ho, hr⟩ := runs_movePart hapart (hfl f mem_cons_self)
      (fun n heq => ⟨hh n heq, hfr n (heq ▸ hh n heq)⟩) h1
    have hl' : ∀ n, partPath id n ∈ rest ↔ e1.look (partPath id n) ≠ none := by
      intro n
      by_cases hn : partPath id n = f
      · rw [(hm n hn).1, hn]
        exact iff_of_false hf (not_not.2 rfl)
      · rw [(ho n hn).1, ← hl n, mem_cons, or_iff_right hn]
    have hf' : ∀ n, e1.look (partPath id n) ≠ none → e1.look (child p (intText n)) = none := by
      intro n hs
      by_cases hn : partPath id n = f
      · exact absurd (hm n hn).1 hs
      · rw [(ho n hn).1] at hs
        rw [(ho n hn).2, hfr n hs]
    obtain ⟨hnn, hp, hoh⟩ := ih hnd (fun f hf => hfl f (mem_cons_of_mem _ hf)) hl' hf' h2
    refine ⟨hnn, fun n => ?_, fun f' hown hne => (hoh f' hown hne).trans (hr f' hown hne)⟩
    rw [hp]
    by_cases hn : partPath id n = f
    · obtain ⟨content, hc⟩ := Option.ne_none_iff_exists'.1 (hh n hn)
      rw [(hm n hn).1, (hm n hn).2, hn, hc]
      rfl
    · rw [(ho n hn).1, (ho n hn).2]

end

private theorem child_intText_ne_marker (p : Text) (n : Int) : child p (intText n) ≠ child p mpuMarker := by
  intro h
  have hn : intText n = mpuMarker := by simpa [child] using h
  exact dot_notMem_intText n (by rw [hn]; decide)

theorem metaPath_ne_child (p name : Text) : metaPath p ≠ child p name := by
  simp [metaPath, child]

theorem child_ne_self (p name : Text) : child p name ≠ p := by simp [child]

private theorem isHeaderValue_mpuEtag (c : Crates) (parts : List (Int × Bytes)) :
    isHeaderValue (mpuEtag c parts) = true := by
  refine isHeaderValue_quoted
    (isHeaderValue_append (isHeaderValue_append (isHeaderValue_hexEncode _) ?_) (isHeaderValue_natText _))
  decide

/-- An object at the path is deleted and the marker created, the listed files are moved, and the marker of the
upload is deleted. A sidecar is created last, and the one of an object that was there stays. -/
theorem complete_steps (h : (calm g.crates shardOf).Runs e (completeMultipartUpload g bucket key id) e' x) :
    succeeded x = false ∧ e.look (child (objectPath bucket key) mpuMarker) ≠ none ∧
        e'.look = update e.look (objectPath bucket key) none ∨
      succeeded x = true ∧ e.look (child (objectPath bucket key) mpuMarker) = none ∧ ∃ e2 e3 files etag,
        e2.look = update (update e.look (objectPath bucket key) none)
          (child (objectPath bucket key) mpuMarker) (some []) ∧
        Listing shardOf e2.files (mpuDir id) files ∧
        (calm g.crates shardOf).Runs e2 (moveParts (objectPath bucket key) files) e3 () ∧
          isHeaderValue etag = true ∧
        e'.look = update (update e3.look (child (mpuDir id) keepMarker) none) (metaPath (objectPath bucket key))
          (some ((update e3.look (child (mpuDir id) keepMarker) none (metaPath (objectPath bucket key))).getD
            (g.crates.printMetadata (Metadata.insert [] etagKey etag)))) := by
  set p := objectPath bucket key with hp
  obtain ⟨_, e1, hlt, h1⟩ := runs_call_bind.1 h
  obtain ⟨-, rfl⟩ := listing_of_list hlt
  obtain ⟨e2, parts, he, h2⟩ := bind_iff.1 h1
  have hl : e2.look = e1.look :=
    look_eq_of_performs (Footprint.reading_spares fun _ => False) (performs_readEtags _) he
  obtain ⟨existing, e3, hex, h3⟩ := runs_call_bind.1 h2
  obtain ⟨ht, rfl⟩ := listing_of_list hex
  obtain ⟨e4, _, hdl, h4⟩ := bind_iff.1 h3
  have hlk : e4.look = update e1.look p none := by
    unfold deleteExisting at hdl
    split_ifs at hdl with hmem
    · rw [look_of_attempt_delete hdl, hl]
    · obtain ⟨rfl, -⟩ := ret_iff.1 hdl
      have hn : e1.look p = none := by
        rw [← hl]
        exact by_contra fun hsm => hmem ((ht.mem_iff p).2 ⟨mem_files_iff.2 hsm, prefix_refl _, rfl⟩)
      rw [hl, ← hn, update_eq_self]
  obtain ⟨created, e5, hcr, h5⟩ := runs_call_bind.1 h4
  have hc := look_of_create hcr
  rw [hlk, update_of_ne (child_ne_self p _)] at hc
  rcases hc with ⟨hnew, rfl, hl5⟩ | ⟨htk, rfl, rfl⟩
  · obtain ⟨files, e6, hf, h6⟩ := runs_call_bind.1 h5
    obtain ⟨hls, rfl⟩ := listing_of_list hf
    obtain ⟨e7, _, hm, h7⟩ := bind_iff.1 h6
    obtain ⟨e8, _, hk, h8⟩ := bind_iff.1 h7
    obtain ⟨e9, _, hs, h9⟩ := bind_iff.1 h8
    obtain ⟨rfl, rfl⟩ := ret_iff.1 h9
    refine .inr ⟨rfl, hnew, e6, e7, _, _, hl5, hls, hm, isHeaderValue_mpuEtag g.crates parts, ?_⟩
    rw [look_of_attempt_create hs, look_of_attempt_delete hk]
  · obtain ⟨rfl, rfl⟩ := ret_iff.1 h5
    exact .inl ⟨rfl, htk, hlk⟩

theorem runs_completeMultipartUpload
    (hapart : ∀ f, (Root.upload id).Owns f → ¬ (Root.parts (objectPath bucket key)).Owns f)
    (how : ∀ f, e.look f ≠ none → Under shardOf (mpuDir id) f → (Root.upload id).Owns f)
    (hm : ¬ Under shardOf (mpuDir id) (child (objectPath bucket key) mpuMarker))
    (hsl : ¬ Under shardOf (mpuDir id) (objectPath bucket key))
    (hs : ∀ n, shardOf (partPath id n) = shardOf (mpuDir id))
    (hfr : e.look (child (objectPath bucket key) mpuMarker) = none → ∀ n, e.look (partPath id n) ≠ none →
      e.look (child (objectPath bucket key) (intText n)) = none)
    (h : (calm g.crates shardOf).Runs e (completeMultipartUpload g bucket key id) e' x) :
    succeeded x = false ∧ e.look (child (objectPath bucket key) mpuMarker) ≠ none ∧
        e'.look = update e.look (objectPath bucket key) none ∨
      succeeded x = true ∧ e.look (child (objectPath bucket key) mpuMarker) = none ∧
        e'.look (child (objectPath bucket key) mpuMarker) ≠ none ∧
        (∃ etag, isHeaderValue etag = true ∧ e'.look (metaPath (objectPath bucket key)) =
          some ((e.look (metaPath (objectPath bucket key))).getD
            (g.crates.printMetadata (Metadata.insert [] etagKey etag)))) ∧
        (∀ n, e'.look (partPath id n) = none) ∧
        (∀ n, e'.look (child (objectPath bucket key) (intText n)) =
          (e.look (partPath id n)).or (e.look (child (objectPath bucket key) (intText n)))) ∧
        e'.look (objectPath bucket key) = none ∧
        ∀ f, ¬ (Root.upload id).Owns f → ¬ (Root.parts (objectPath bucket key)).Owns f → e'.look f = e.look f := by
  set p := objectPath bucket key with hp
  rcases complete_steps h with hr | ⟨hx, hn, e2, e3, files, etag, hl, hls, hmv, he, hc⟩
  · exact .inl hr
  · have hpl := hfr hn
    have hsm : ∀ f, f ≠ p → f ≠ child p mpuMarker → e2.look f = e.look f := fun f hne hf => by
      rw [hl, update_of_ne hf, update_of_ne hne]
    have hpt : ∀ n, e2.look (partPath id n) = e.look (partPath id n) := fun n =>
      hsm _ (fun heq => hapart _ (.inr ⟨n, .inl rfl⟩) (.inl heq)) fun heq =>
        hapart _ (.inr ⟨n, .inl rfl⟩) (.inr (.inr (.inl heq)))
    have hpc : ∀ n, e2.look (child p (intText n)) = e.look (child p (intText n)) := fun n =>
      hsm _ (child_ne_self p _) (child_intText_ne_marker p n)
    have hfl : ∀ f ∈ files, (Root.upload id).Owns f := by
      intro f hf
      obtain ⟨hmem, hu⟩ := (hls.mem_iff f).1 hf
      have hne : f ≠ child p mpuMarker := by
        rintro rfl
        exact hm hu
      have hnep : f ≠ p := by
        rintro rfl
        exact hsl hu
      exact how f (hsm f hnep hne ▸ mem_files_iff.1 hmem) hu
    have hlt : ∀ n, partPath id n ∈ files ↔ e2.look (partPath id n) ≠ none := by
      intro n
      rw [hls.mem_iff, mem_files_iff, and_iff_left ⟨prefix_append _ _, hs n⟩]
    obtain ⟨hg, hmd, ho⟩ := runs_moveParts hapart hls.nodup hfl hlt
      (fun n hsome => by rw [hpc, hpl n (hpt n ▸ hsome)]) hmv
    -- behind the loop only the marker of the upload and the sidecar change
    have hfn : ∀ f, f ≠ metaPath p → f ≠ child (mpuDir id) keepMarker → e'.look f = e3.look f := by
      intro f hne hk
      rw [hc, update_of_ne hne, update_of_ne hk]
    have hown :
        ∀ f, (Root.parts p).Owns f → f ≠ metaPath p → (∀ n, f ≠ child p (intText n)) → e'.look f = e2.look f := by
      intro f hf hne hpl
      rw [hfn f hne fun heq => hapart _ (.inl heq) hf, ho f (fun hup => hapart f hup hf) hpl]
    refine .inr ⟨hx, hn, ?_, ?_, fun n => ?_, fun n => ?_, ?_, fun f hup hpr => ?_⟩
    · rw [hown _ (.inr (.inr (.inl rfl))) (metaPath_ne_child p _).symm fun n =>
        (child_intText_ne_marker p n).symm, hl,
        update_self]
      exact Option.some_ne_none _
    · refine ⟨etag, he, ?_⟩
      have hsd : (Root.parts p).Owns (metaPath p) := .inr (.inl rfl)
      rw [hc, update_self, update_of_ne fun heq => hapart _ (.inl heq) hsd,
        ho _ (fun hup => hapart _ hup hsd) fun n => metaPath_ne_child p _,
        hsm _ (by simp [metaPath]) (metaPath_ne_child p _)]
    · rw [hfn _ (fun heq => hapart _ (.inr ⟨n, .inl rfl⟩) (.inr (.inl heq))) (partPath_ne_keep id n), hg]
    · have hk : child p (intText n) ≠ child (mpuDir id) keepMarker := fun heq =>
        hapart _ (.inl heq) (.inr (.inr (.inr ⟨n, rfl⟩)))
      rw [hfn _ (metaPath_ne_child p _).symm hk, hmd, hpc, hpt]
    · rw [hown p (.inl rfl) (by simp [metaPath]) fun n => (child_ne_self p _).symm, hl,
        update_of_ne (child_ne_self p _).symm, update_self]
    · rw [hfn f (fun heq => hpr (.inr (.inl heq))) fun heq => hup (.inl heq),
        ho f hup fun n heq => hpr (.inr (.inr (.inr ⟨n, heq⟩))),
        hsm f (fun heq => hpr (.inl heq)) fun heq => hpr (.inr (.inr (.inl heq)))]

private theorem stores_completeMultipartUpload (h : Stores g L s e) (hp : .parts (objectPath bucket key) ∈ L.roots)
    (hid : .upload id ∈ L.roots)
    (hr : (calm g.crates shardOf).Runs e (completeMultipartUpload g bucket key id) e' x) :
    Stores g L (s.after g (.completeMultipartUpload bucket key id, x)) e' := by
  have hapart : ∀ f, (Root.upload id).Owns f → ¬ (Root.parts (objectPath bucket key)).Owns f := fun f hup hpr =>
    nomatch L.unique _ hid _ hp f hup hpr
  have how : ∀ f, e.look f ≠ none → Under shardOf (mpuDir id) f → (Root.upload id).Owns f := by
    intro f hf hu
    obtain ⟨r, hr, hown⟩ := h.owned f hf
    exact L.uploads id hid r hr f hown hu ▸ hown
  have hm : ¬ Under shardOf (mpuDir id) (child (objectPath bucket key) mpuMarker) := fun hu =>
    nomatch L.uploads id hid _ hp _ (.inr (.inr (.inl rfl))) hu
  have hs : ¬ Under shardOf (mpuDir id) (objectPath bucket key) := fun hu =>
    nomatch L.uploads id hid _ hp _ (.inl rfl) hu
  obtain ⟨hds, hh⟩ := h.holds _ hp
  obtain ⟨hi, hpr⟩ := h.holds _ hid
  have hfr :
    e.look (child (objectPath bucket key) mpuMarker) = none → e.look (metaPath (objectPath bucket key)) = none ∧
      ∀ n, e.look (child (objectPath bucket key) (intText n)) = none := by
    intro hnn
    split at hh
    · exact hh.2
    · exact absurd hnn hh.1
  rcases runs_completeMultipartUpload hapart how hm hs (L.uploads_listed id hid)
      (fun hnn n _ => (hfr hnn).2 n) hr with
    ⟨hx, -, hl⟩ | ⟨hx, hun, hmr, ⟨etag, he, hmt⟩, hg, hmv, hnn, ho⟩
  · rw [Shelf.after, hx]
    exact h.of_look_eq (by rw [hl, ← hds, update_eq_self])
  · rw [Shelf.after, hx]
    refine h.change {.parts (objectPath bucket key), .upload id} ?_ ?_ ?_ ?_ ?_
    · rintro r (rfl | rfl)
      · exact hp
      · exact hid
    · exact fun f hf => ho f (hf _ (.inr rfl)) (hf _ (.inl rfl))
    · intro r hr hne
      cases r with
      | plain q =>
        refine update_of_ne (fun heq => ?_) _ _
        exact L.parts_notMem hr (heq ▸ hp)
      | parts q => exact update_of_ne (fun heq => hne (.inl (congrArg _ heq))) _ _
      | upload j => exact update_of_ne (fun heq => hne (.inr (congrArg _ heq))) _ _
      | bucket name => trivial
    · rintro r (rfl | rfl)
      · simp only [Root.Holds, Shelf.apply, if_true, update_self]
        obtain ⟨hfr, hpl⟩ := hfr hun
        rw [hfr] at hmt
        refine ⟨hnn, hmr, ⟨_, hmt, isSidecar_etag he⟩, s.pending id, rfl, hi, fun n => ?_⟩
        rw [hmv, hpl, Option.or_none, hpr]
      · simp only [Root.Holds, Shelf.apply, if_true, update_self]
        exact ⟨fun n hn => absurd hn (AList.notMem_empty n), fun n => by rw [hg, AList.lookup_empty]⟩
    · intro q hq
      by_cases heq : q = objectPath bucket key
      · exact .inr (.inr (.inl (congrArg _ heq)))
      · simp only [Shelf.apply, if_true, update_of_ne heq] at hq
        exact .inl hq

def Fits (g : Gateway) (L : Layout shardOf) (x : Reply) : Operation → Prop
  | .putObject bucket key body headers => .plain (objectPath bucket key) ∈ L.roots ∧
      ∀ payload, putPayload headers body = some payload → payload ≠ [] ∨ g.sseManager ≠ none
  | .copyObject bucket key source => .plain (objectPath bucket key) ∈ L.roots ∧
      (.plain ('/' :: copySource g.crates source) ∈ L.roots ∨ .parts ('/' :: copySource g.crates source) ∈ L.roots)
  | .initiateMultipartUpload bucket key =>
    ∀ id, x = xmlResponse 200 (.initiateMultipartUpload bucket key id) → .upload id ∈ L.roots
  | .uploadPart _ _ id n _ => .upload id ∈ L.roots ∧ IsI32 n
  | .completeMultipartUpload bucket key id => .parts (objectPath bucket key) ∈ L.roots ∧ .upload id ∈ L.roots
  | .createBucket bucket => .bucket bucket ∈ L.roots
  | .getBucketPolicy _ | .headBucket _ | .listObjects _ _ | .listObjectsV2 _ _ | .getObject _ _ _
      | .headObject _ _ => True
  | .putBucketPolicy _ _ | .deleteBucketPolicy _ | .deleteBucket _ | .deleteMultipleObjects _ _
      | .abortMultipartUpload _ _ _
  | .deleteObject _ _ => False

private theorem stores_createBucket (h : Stores g L s e) (hb : .bucket bucket ∈ L.roots)
    (hr : (calm g.crates shardOf).Runs e (createBucket bucket) e' x) : Stores g L s e' := by
  obtain ⟨created, e1, hc, h1⟩ := runs_call_bind.1 hr
  have he : e' = e1 := by
    split at h1
    · exact (ret_iff.1 h1).1
    · exact (ret_iff.1 h1).1
  subst he
  rcases look_of_create hc with ⟨-, -, hl⟩ | ⟨-, -, rfl⟩
  · refine h.change {.bucket bucket} (Set.singleton_subset_iff.2 hb) (fun f hf => ?_)
      (fun r _ _ => ?_) ?_ fun p hp => .inl hp
    · rw [hl, update_of_ne (hf _ rfl)]
    · cases r <;> first | rfl | trivial
    · rintro _ rfl
      trivial
  · exact h

private theorem stores_of_runs (hc : g.crates.Lawful) (h : Stores g L s e) {op : Operation} (hf : Fits g L x op)
    (hr : (calm g.crates shardOf).Runs e (op.run g) e' x) : Stores g L (s.after g (op, x)) e' := by
  have hrd : (∀ f, (op.footprint g).Spares f) → Stores g L s e' := fun hs =>
    h.of_look_eq (look_eq_of_performs hs op.performs hr)
  cases op with
  | putObject bucket key body headers => exact stores_putObject h hf.1 hf.2 hr
  | copyObject bucket key source => exact stores_copyObject hc h hf.1 hf.2 hr
  | uploadPart bucket key id n body => exact stores_uploadPart h hf.1 hf.2 hr
  | completeMultipartUpload bucket key id => exact stores_completeMultipartUpload h hf.1 hf.2 hr
  | initiateMultipartUpload bucket key =>
    rw [Shelf.after_of_apply rfl]
    exact stores_initiateMultipartUpload h hf hr
  | createBucket bucket =>
    rw [Shelf.after_of_apply rfl]
    exact stores_createBucket h hf hr
  | getBucketPolicy bucket | headBucket bucket | listObjects bucket params | listObjectsV2 bucket params
  | getObject bucket key headers | headObject bucket key =>
    rw [Shelf.after_of_apply rfl]
    exact hrd fun f => ⟨fun _ => not_false, not_false, fun _ => ⟨not_false, not_false⟩⟩
  | _ => exact hf.elim

theorem stores_of_history (hc : g.crates.Lawful) (h : Stores g L s e) {history : List (Operation × Reply)}
    (hf : ∀ step ∈ history, Fits g L step.2 step.1) (hp : Performed g shardOf e history e') :
    Stores g L (history.foldl (Shelf.after g) s) e' := by
  induction hp generalizing s with
  | nil => exact h
  | cons hr _ ih =>
    exact ih (stores_of_runs hc h (hf _ mem_cons_self) hr) fun step hs => hf step (mem_cons_of_mem _ hs)

theorem stores_empty : Stores g L .empty .empty := by
  have hl : ∀ f, Dfs.empty.look f = none := fun f => rfl
  refine ⟨fun r _ => ?_, fun f hf => absurd (hl f) hf, fun p hp => absurd rfl hp⟩
  cases r with
  | plain p => exact hl p
  | parts p => exact ⟨hl _, hl _, hl _, fun n => hl _⟩
  | upload id => exact ⟨fun n hn => absurd hn (AList.notMem_empty n), fun n => hl _⟩
  | bucket name => trivial

end

end RustHadoop.S3
