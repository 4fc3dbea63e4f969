import RustHadoop.S3.Encryption
import RustHadoop.S3.UploadIds

/-!
# Completed uploads

The parts of an upload are stored as they were sent, and completing the upload puts them below the path of the
object.  The object at that path is deleted, but its sidecar is not: creating the new one is refused, and the
refusal is ignored.  So `get_object` opens the parts with the key of the object before, and `completed_iff` says
when that gives the payloads.

What is sent in the aws-chunked encoding is decoded by `put_object` only.
-/

namespace RustHadoop.S3

open Texts Threads Environment Function List

/-- A part as a client sends it; `upload_part` is not given the headers. -/
structure PartUpload where
  number : Int
  headers : HeaderMap
  body : Bytes
  payload : Bytes
  inRange : IsI32 number
  decodes : putPayload headers body = some payload

def PartUpload.operation (bucket key id : Text) (part : PartUpload) : Operation :=
  .uploadPart bucket key id part.number part.body

/-- The parts of one upload, with distinct numbers. -/
structure Upload where
  parts : List PartUpload
  nodup : (parts.map PartUpload.number).Nodup

namespace Upload

def table (u : Upload) (f : PartUpload → Bytes) : Parts :=
  ⟨u.parts.map fun part => ⟨part.number, f part⟩, by rw [NodupKeys, keys, map_map]; exact u.nodup⟩

def operations (u : Upload) (bucket key id : Text) : List Operation :=
  u.parts.map (PartUpload.operation bucket key id) ++ [.completeMultipartUpload bucket key id]

variable {u : Upload} {f : PartUpload → Bytes} {n : Int}

private theorem mem_table : n ∈ u.table f ↔ n ∈ u.parts.map PartUpload.number := by
  change n ∈ (u.table f).entries.keys ↔ _
  rw [table, keys, map_map]
  exact Iff.rfl

theorem lookup_table {part : PartUpload} (h : part ∈ u.parts) : (u.table f).lookup part.number = some (f part) :=
  AList.mem_lookup_iff.2 (mem_map_of_mem h)

theorem isI32_of_mem (h : n ∈ u.table f) : IsI32 n := by
  obtain ⟨part, -, rfl⟩ := mem_map.1 (mem_table.1 h)
  exact part.inRange

end Upload

/-- Before the parts are sent: nothing of the upload but its marker is there, and nothing would be taken for a part
of the object. Whatever was at the path of the object may be there still. -/
structure Fresh (shardOf : Text → Nat) (path id : Text) (e : Dfs) : Prop where
  outside : ¬ mpuDir [] <+: path
  unused : ∀ f ∈ e.files, Under shardOf (mpuDir id) f → f = child (mpuDir id) keepMarker
  unnumbered : ∀ f ∈ e.files, f ≠ path → Under shardOf path f → partNumber? path f = none
  uploads_listed : ∀ n, shardOf (partPath id n) = shardOf (mpuDir id)
  parts_listed : ∀ name, shardOf (child path name) = shardOf path

variable (g : Gateway)

/-- The head of an object whose file is gone and whose sidecar is not. -/
def leftHead (e : Dfs) (path : Text) : ObjectHead :=
  objectHead g.crates none ((e.read (metaPath path)).bind g.crates.readMetadata)

/-- What `get_object` makes of parts, in the order of their numbers; it leaves out empty ones. -/
def openParts (dek : Option Text) (parts : Parts) : Option Bytes :=
  ((((parts.entries.insertionSort fun a b => a.1 ≤ b.1).map fun part => part.2).filter fun b => b ≠ []).mapM
    (openBody g dek)).map flatten

private theorem openParts_none (parts : Parts) : openParts g none parts = some (assemble parts) := by
  rw [openParts, mapM_openBody_none, Option.map_some, flatten_filter_ne_nil, ← flatMap_def, assemble]

section

variable {g : Gateway} {shardOf : Text → Nat} {e e' : Dfs} {bucket key id p : Text}
  {history : List (Operation × Reply)}

theorem Performed.append {front : List (Operation × Reply)} (h : Performed g shardOf e (front ++ history) e') :
    ∃ e1, Performed g shardOf e front e1 ∧ Performed g shardOf e1 history e' := by
  induction front generalizing e with
  | nil => exact ⟨e, .nil, h⟩
  | cons step rest ih =>
    cases h with
    | cons hr hrs =>
      obtain ⟨e1, hf, hb⟩ := ih hrs
      exact ⟨e1, .cons hr hf, hb⟩

private theorem look_of_uploads {parts : List PartUpload} (hnd : (parts.map PartUpload.number).Nodup)
    (hfree : ∀ part ∈ parts, e.look (partPath id part.number) = none) (h : Performed g shardOf e history e')
    (hops : history.map Prod.fst = parts.map (PartUpload.operation bucket key id)) :
    (∀ step ∈ history, succeeded step.2 = true) ∧
    (∀ part ∈ parts, e'.look (partPath id part.number) = some part.body) ∧
      (∀ n ∉ parts.map PartUpload.number, e'.look (partPath id n) = e.look (partPath id n)) ∧
      ∀ f, ¬ (Root.upload id).Owns f → e'.look f = e.look f := by
  induction parts generalizing e history with
  | nil =>
    obtain rfl := map_eq_nil_iff.1 hops
    cases h
    exact ⟨fun _ h => absurd h not_mem_nil, fun _ h => absurd h not_mem_nil, fun _ _ => rfl, fun _ _ => rfl⟩
  | cons part rest ih =>
    obtain ⟨hnew, hnd⟩ := nodup_cons.1 hnd
    obtain ⟨⟨op, x⟩, others, rfl, rfl, hoh⟩ := map_eq_cons_iff.1 hops
    cases h with
    | @cons _ e2 _ _ _ _ hr hrs =>
      rcases runs_uploadPart hr with ⟨-, ht, -⟩ | ⟨hx, -, etag, hl⟩
      · exact absurd (hfree part mem_cons_self) ht
      · have hp : ∀ n, n ≠ part.number → e2.look (partPath id n) = e.look (partPath id n) := fun n hne => by
          rw [hl, update_of_ne (partPath_ne_etag id n _), update_of_ne fun heq => hne (partPath_injective id heq)]
        have hnm : ∀ other ∈ rest, other.number ≠ part.number := fun other ho heq =>
          hnew (heq ▸ mem_map_of_mem ho)
        obtain ⟨ha, hs, hoh, hfr⟩ := ih hnd
          (fun other ho => by rw [hp _ (hnm other ho), hfree other (mem_cons_of_mem _ ho)]) hrs hoh
        refine ⟨?_, ?_, fun n hn => ?_, fun f hf => ?_⟩
        · intro step hst
          rcases mem_cons.1 hst with rfl | hst
          · exact hx
          · exact ha step hst
        · intro other ho
          rcases mem_cons.1 ho with rfl | ho
          · rw [hoh _ hnew, hl, update_of_ne (partPath_ne_etag id _ _), update_self]
          · exact hs other ho
        · rw [map_cons, mem_cons, not_or] at hn
          obtain ⟨hne, hn⟩ := hn
          rw [hoh n hn, hp n hne]
        · rw [hfr f hf, hl, update_of_ne fun heq => hf (.inr ⟨_, .inr heq⟩),
            update_of_ne fun heq => hf (.inr ⟨_, .inl heq⟩)]

/-- The files of an object whose upload was completed over the state `e`. -/
structure Completed (g : Gateway) (shardOf : Text → Nat) (path : Text) (parts : Parts) (e e' : Dfs) : Prop where
  unwritten : e'.look path = none
  marked : e'.look (child path mpuMarker) ≠ none
  sidecar : ∃ etag, isHeaderValue etag = true ∧
    e'.look (metaPath path) = some
      ((e.look (metaPath path)).getD (g.crates.printMetadata (Metadata.insert [] etagKey etag)))
  placed : ∀ n ∈ parts, e'.look (child path (intText n)) = parts.lookup n
  numbered : ∀ f n, f ∈ e'.files → Under shardOf path f → partNumber? path f = some n →
    f = child path (intText n) ∧ n ∈ parts

section

variable (h : Fresh shardOf (objectPath bucket key) id e) (tail : Text)
include h tail

private theorem Fresh.apart {f : Text} (hf : (Root.upload id).Owns f) : f ≠ objectPath bucket key ++ tail := by
  intro heq
  have hb : mpuDir [] <+: f := by
    rcases hf with rfl | ⟨n, rfl | rfl⟩
    · exact mpuDir_nil_begins id _
    · exact mpuDir_nil_begins id _
    · exact (mpuDir_nil_begins id _).trans (prefix_append _ _)
  exact not_mpuDir_prefix h.outside tail (heq ▸ hb)

private theorem Fresh.not_under : ¬ Under shardOf (mpuDir id) (objectPath bucket key ++ tail) := by
  intro hu
  have hb := mpuDir_nil_begins id []
  rw [append_nil] at hb
  exact not_mpuDir_prefix h.outside tail (hb.trans hu.1)

end

private theorem completed_of_fresh (hfr : Fresh shardOf (objectPath bucket key) id e) (u : Upload)
    (h : Performed g shardOf e history e') (hops : history.map Prod.fst = u.operations bucket key id) :
    e.look (child (objectPath bucket key) mpuMarker) ≠ none ∧ (∃ step ∈ history, succeeded step.2 = false) ∨
      e.look (child (objectPath bucket key) mpuMarker) = none ∧ (∀ step ∈ history, succeeded step.2 = true) ∧
        Completed g shardOf (objectPath bucket key) (u.table PartUpload.body) e e' := by
  obtain ⟨front, final, rfl, hfn, hfl⟩ := map_eq_append_iff.1 hops
  obtain ⟨⟨op, x⟩, rfl, rfl⟩ := map_eq_singleton_iff.1 hfl
  obtain ⟨e1, hul, hls⟩ := h.append
  have hc : (calm g.crates shardOf).Runs e1 (completeMultipartUpload g bucket key id) e' x := by
    cases hls with
    | cons hr hrs =>
      cases hrs
      exact hr
  set p := objectPath bucket key with hp
  have hun : ∀ n, e.look (partPath id n) = none := fun n => by_contra fun hsm =>
    partPath_ne_keep id n (hfr.unused _ (mem_files_iff.2 hsm) ⟨prefix_append _ _, hfr.uploads_listed n⟩)
  obtain ⟨hall, hs, ho, hfm⟩ := look_of_uploads u.nodup (fun part _ => hun _) hul hfn
  have hl : ∀ n, e1.look (partPath id n) = (u.table PartUpload.body).lookup n := by
    intro n
    by_cases hn : n ∈ u.parts.map PartUpload.number
    · obtain ⟨part, hpr, rfl⟩ := mem_map.1 hn
      rw [hs part hpr, Upload.lookup_table hpr]
    · rw [ho n hn, hun, AList.lookup_eq_none.2 fun hmem => hn (Upload.mem_table.1 hmem)]
  -- nothing of the object is a file of the upload
  have hk : ∀ tail, e1.look (p ++ tail) = e.look (p ++ tail) := fun tail =>
    hfm _ fun hown => hfr.apart tail hown rfl
  have ha : ∀ f, (Root.upload id).Owns f → ¬ (Root.parts p).Owns f := by
    intro f hup hown
    rcases hown with rfl | rfl | rfl | ⟨n, rfl⟩
    · exact hfr.apart [] hup (append_nil _).symm
    · exact hfr.apart _ hup rfl
    · exact hfr.apart _ hup rfl
    · exact hfr.apart _ hup rfl
  have how : ∀ f, e1.look f ≠ none → Under shardOf (mpuDir id) f → (Root.upload id).Owns f := by
    intro f hf hu
    refine by_contra fun hown => hown (.inl ?_)
    rw [hfm f hown] at hf
    exact hfr.unused f (mem_files_iff.2 hf) hu
  have hsl : ¬ Under shardOf (mpuDir id) p := by
    have := hfr.not_under []
    rwa [append_nil] at this
  have hpl : ∀ n ∈ u.table PartUpload.body, e.look (child p (intText n)) = none := by
    intro n hn
    refine by_contra fun hsm => ?_
    have hnn := hfr.unnumbered _ (mem_files_iff.2 hsm) (child_ne_self p _) ⟨prefix_append _ _, hfr.parts_listed _⟩
    rw [partNumber?_child (Upload.isI32_of_mem hn)] at hnn
    cases hnn
  rcases runs_completeMultipartUpload ha how (hfr.not_under _) hsl hfr.uploads_listed
      (fun _ n hsm =>
        (hk _).trans (hpl n (not_not.1 fun hmem => hsm ((hl n).trans (AList.lookup_eq_none.2 hmem)))))
      hc with
    ⟨hx, hmr, -⟩ | ⟨hx, hum, hmr, ⟨etag, he, hmt⟩, -, hmv, hnn, hrs⟩
  · rw [child, hk] at hmr
    exact .inl ⟨hmr, _, mem_append_right _ mem_cons_self, hx⟩
  · rw [child, hk] at hum
    refine .inr ⟨hum, fun step hst => ?_, hnn, hmr, ⟨etag, he, ?_⟩, fun n hn => ?_, fun f n hf hu hn => ?_⟩
    · rcases mem_append.1 hst with hst | hst
      · exact hall step hst
      · rw [mem_singleton.1 hst]
        exact hx
    · rw [hmt, metaPath, hk]
    · rw [hmv, hl, child, hk, ← child, hpl n hn, Option.or_none]
    · have hsm := mem_files_iff.1 hf
      have hne : f ≠ p := fun heq => hsm (heq ▸ hnn)
      by_cases hold : e.look f = none
      · -- it has come with the upload
        have hup : ¬ (Root.upload id).Owns f := by
          obtain ⟨tail, rfl⟩ := hu.1
          exact fun hup => hfr.apart tail hup rfl
        have hown : (Root.parts p).Owns f := by
          refine by_contra fun hown => hsm ?_
          rw [hrs f hup hown, hfm f hup, hold]
        obtain ⟨m, rfl⟩ := partNumber?_of_owns hown hne hn
        have hm : m ∈ u.table PartUpload.body := by
          rw [hmv, hl, child, hk, ← child, hold, Option.or_none] at hsm
          exact not_not.1 fun hmem => hsm (AList.lookup_eq_none.2 hmem)
        cases (partNumber?_child (Upload.isI32_of_mem hm)).symm.trans hn
        exact ⟨rfl, hm⟩
      · rw [hfr.unnumbered f (mem_files_iff.2 hold) hne hu] at hn
        cases hn

private theorem head_of_completed (hc : g.crates.Lawful) {parts : Parts} (h : Completed g shardOf p parts e e') :
    (e'.head g.crates p).valid = (leftHead g e p).valid ∧ (e'.head g.crates p).dek = (leftHead g e p).dek := by
  obtain ⟨etag, he, hm⟩ := h.sidecar
  cases ho : e.look (metaPath p) with
  | none =>
    rw [ho] at hm
    obtain ⟨hv, hdek⟩ := head_of_sidecar hc hm (isSidecar_etag he)
    have hl : leftHead g e p = ⟨emptyEtag, defaultModified, none, []⟩ := by
      rw [leftHead, Dfs.read, ho]
      rfl
    rw [hv, hdek, hl]
    exact ⟨by decide, rfl⟩
  | some content =>
    have hlk : e'.look (metaPath p) = e.look (metaPath p) := by rw [hm, ho]; rfl
    have hi : e'.files.lookup p = none := by
      have := h.unwritten
      rwa [Dfs.look, Option.map_eq_none_iff] at this
    rw [Dfs.head, leftHead, hi, Dfs.read, Dfs.read, hlk]
    exact ⟨rfl, rfl⟩

private theorem get_of_completed (hc : g.crates.Lawful) {parts : Parts} (hi : ∀ n ∈ parts, IsI32 n)
    (hl : ∀ name, shardOf (child (objectPath bucket key) name) = shardOf (objectPath bucket key))
    (h : Completed g shardOf (objectPath bucket key) parts e e') {headers : HeaderMap}
    (hrn : rangeParts headers = none)
    {e'' : Dfs} {x : Reply} (hr : (calm g.crates shardOf).Runs e' (getObject g bucket key headers) e'' x) :
    (leftHead g e (objectPath bucket key)).valid = false ∧ x = none ∨
      (leftHead g e (objectPath bucket key)).valid = true ∧
        (openParts g (leftHead g e (objectPath bucket key)).dek parts = none ∧ x = emptyResponse 500 ∨
          ∃ content fields, openParts g (leftHead g e (objectPath bucket key)).dek parts = some content ∧
            x = some ⟨200, fields, .bytes content⟩) := by
  obtain ⟨hv, hdek⟩ := head_of_completed hc h
  obtain ⟨files, hfl, hb⟩ := runs_getObject hr
  rw [hv] at hb
  refine hb.imp_right fun ⟨hok, hrun⟩ => ⟨hok, ?_⟩
  have hm : isMultipart (objectPath bucket key) files = true := by
    have hen : mpuMarker <:+ child (objectPath bucket key) mpuMarker :=
      ⟨objectPath bucket key ++ ['/'], by simp [child]⟩
    rw [isMultipart, any_eq_true]
    refine ⟨child (objectPath bucket key) mpuMarker, (hfl.mem_iff _).2
      ⟨mem_files_iff.2 h.marked, prefix_append _ _, hl _⟩, ?_⟩
    exact Bool.and_eq_true_iff.2 ⟨decide_eq_true (prefix_append _ _), decide_eq_true hen⟩
  have hp : ∀ f n, f ∈ files ∧ partNumber? (objectPath bucket key) f = some n ↔
      f = child (objectPath bucket key) (intText n) ∧ n ∈ parts := by
    intro f n
    constructor
    · rintro ⟨hf, hn⟩
      obtain ⟨hmem, hu⟩ := (hfl.mem_iff f).1 hf
      exact h.numbered f n hmem hu hn
    · rintro ⟨rfl, hn⟩
      refine ⟨(hfl.mem_iff _).2 ⟨mem_files_iff.2 ?_, prefix_append _ _, hl _⟩, partNumber?_child (hi n hn)⟩
      rw [h.placed n hn]
      exact fun hnn => AList.lookup_eq_none.1 hnn hn
  rw [if_pos hm, partFiles_eq hfl.nodup hp] at hrun
  obtain ⟨e1, y, hy, h1⟩ := Runs.bind_iff.1 hrun
  obtain ⟨-, hrd, -⟩ := runs_readParts hy
  rw [hdek, filterMap_read, ← openParts] at hrd
  · cases ho : openParts g (leftHead g e (objectPath bucket key)).dek parts with
    | none =>
      rw [hrd, ho] at h1
      exact .inl ⟨rfl, (Runs.ret_iff.1 h1).2⟩
    | some content =>
      rw [hrd, ho] at h1
      obtain ⟨-, rfl⟩ := Runs.ret_iff.1 h1
      rw [hrn]
      obtain ⟨fields, hx⟩ := rangedResponse_none false (e'.head g.crates (objectPath bucket key)) content
      exact .inr ⟨content, fields, rfl, hx⟩
  · intro part hpr
    have he := (mem_insertionSort _).1 hpr
    rw [h.placed part.1 (mem_keys_of_mem he)]
    exact AList.mem_lookup_iff.2 he

private theorem map_fst_execAll (ids : Nat → Text) (ops : List Operation) (e : Dfs) :
    (execAll g shardOf ids ops e).1.map Prod.fst = ops := by
  induction ops generalizing e with
  | nil => rfl
  | cons op rest ih =>
    rw [execAll]
    exact congrArg _ (ih _)

end

/-- A completed upload is the concatenation of the payloads of its parts, exactly if the parts as they were sent
give it with the key in the sidecar of the object before.  An upload whose object has a marker already is not
completed. -/
theorem completed_iff (g : Gateway) (hc : g.crates.Lawful) {shardOf : Text → Nat} {e : Dfs} {bucket key id : Text}
    (u : Upload) (hfresh : Fresh shardOf (objectPath bucket key) id e) {headers : HeaderMap}
    (hrange : rangeParts headers = none) :
    (∀ history e', Performed g shardOf e history e' → history.map Prod.fst = u.operations bucket key id →
        (∀ step ∈ history, succeeded step.2 = true) →
        (calm g.crates shardOf).Ensures e' (getObject g bucket key headers)
          fun _ x => ∃ fields, x = some ⟨200, fields, .bytes (assemble (u.table PartUpload.payload))⟩) ↔
      e.look (child (objectPath bucket key) mpuMarker) ≠ none ∨
        (leftHead g e (objectPath bucket key)).valid = true ∧
          openParts g (leftHead g e (objectPath bucket key)).dek (u.table PartUpload.body) =
            some (assemble (u.table PartUpload.payload)) := by
  constructor
  · intro hget
    set ran := execAll g shardOf (fun _ => []) (u.operations bucket key id) e with hran
    have hperformed : Performed g shardOf e ran.1 ran.2 := performed_execAll _ _ _ _ _
    have hops : ran.1.map Prod.fst = u.operations bucket key id := map_fst_execAll _ _ _
    rcases completed_of_fresh hfresh u hperformed hops with ⟨hmarked, -⟩ | ⟨-, hall, hcompleted⟩
    · exact .inl hmarked
    · obtain ⟨⟨e'', x, hr⟩, hensures⟩ := hget _ _ hperformed hops hall
      obtain ⟨fields, hx⟩ := hensures _ _ hr
      rcases get_of_completed hc (fun _ => Upload.isI32_of_mem) hfresh.parts_listed hcompleted hrange hr with
        ⟨-, hnone⟩ | ⟨hvalid, ⟨-, hfail⟩ | ⟨content, fields', hopen, hx'⟩⟩
      · cases hnone.symm.trans hx
      · cases hfail.symm.trans hx
      · cases hx'.symm.trans hx
        exact .inr ⟨hvalid, hopen⟩
  · intro hcond history e' hperformed hops hall
    refine ⟨⟨_, _, runs_execCalm g.crates shardOf (fun _ => []) _ e'⟩, fun e'' x hr => ?_⟩
    rcases completed_of_fresh hfresh u hperformed hops with ⟨-, step, hstep, hfail⟩ | ⟨hunmarked, -, hcompleted⟩
    · rw [hall step hstep] at hfail
      cases hfail
    · obtain ⟨hvalid, hopen⟩ := hcond.resolve_left (not_not.2 hunmarked)
      rcases get_of_completed hc (fun _ => Upload.isI32_of_mem) hfresh.parts_listed hcompleted hrange hr with
        ⟨hinvalid, -⟩ | ⟨-, ⟨hnone, -⟩ | ⟨content, fields, hcontent, hx⟩⟩
      · rw [hvalid] at hinvalid
        cases hinvalid
      · rw [hopen] at hnone
        cases hnone
      · cases hopen.symm.trans hcontent
        exact ⟨fields, hx⟩

def plainPart (number : Int) (body : Bytes) (h : IsI32 number) : PartUpload := ⟨number, [], body, body, h, rfl⟩

def twoParts : Upload :=
  ⟨[plainPart 2 [67] ⟨by decide, by decide⟩, plainPart 1 [66] ⟨by decide, by decide⟩], by decide⟩

def putBefore : List (Operation × Reply) × Dfs :=
  execAll g (fun _ => 0) (fun _ => []) [.putObject "b" "a" [65] []] .empty

def uploadHistory (u : Upload) (e : Dfs) : List (Operation × Reply) × Dfs :=
  execAll g (fun _ => 0) (fun _ => []) (u.operations "b" "a" "u") e

theorem fresh_over {e : Dfs} (h : ∀ f ∈ e.files, f = metaPath (objectPath "b" "a") ∨ f = objectPath "b" "a") :
    Fresh (fun _ => 0) (objectPath "b" "a") "u" e := by
  refine ⟨by decide, fun f hf hu => ?_, fun f hf hne hu => ?_, fun _ => rfl, fun _ => rfl⟩
  · rcases h f hf with rfl | rfl
    · exact absurd hu.1 (by decide)
    · exact absurd hu.1 (by decide)
  · rcases h f hf with rfl | rfl
    · rfl
    · exact absurd rfl hne

private theorem left_of_putBefore {g : Gateway} (hc : g.crates.Lawful)
    (hput : ∀ step ∈ (putBefore g).1, succeeded step.2 = true) :
    Fresh (fun _ => 0) (objectPath "b" "a") "u" (putBefore g).2 ∧
      (putBefore g).2.look (child (objectPath "b" "a") mpuMarker) = none ∧
      (leftHead g (putBefore g).2 (objectPath "b" "a")).valid = true ∧
      ∃ content, Seals g [65] content (leftHead g (putBefore g).2 (objectPath "b" "a")).dek := by
  have hr : (calm g.crates fun _ => 0).Runs .empty (putObject g "b" "a" [65] []) (putBefore g).2 _ :=
    runs_execCalm g.crates (fun _ => 0) (fun _ => []) (putObject g "b" "a" [65] []) .empty
  rcases runs_putObject hr with ⟨hfl, -⟩ | ⟨-, payload, content, dek, hp, hs, hl⟩
  · cases (hput _ mem_cons_self).symm.trans hfl
  · cases (hp : some [65] = some payload)
    have hn : ∀ f, f ≠ metaPath (objectPath "b" "a") → f ≠ objectPath "b" "a" → (putBefore g).2.look f = none :=
      fun f hm hsl => by rw [hl, update_of_ne hm, update_of_ne hsl]; rfl
    have hm : (putBefore g).2.look (metaPath (objectPath "b" "a")) =
        some (g.crates.printMetadata (putMetadata (quotedMd5 g.crates [65]) [] dek)) := by rw [hl, update_self]
    have he : isHeaderValue (quotedMd5 g.crates [65]) = true := isHeaderValue_quoted (isHeaderValue_hexEncode _)
    obtain ⟨hv, hdek⟩ := objectHead_of_sidecar hc none hm (isSidecar_putMetadata he [] dek)
    refine ⟨fresh_over fun f hf => ?_, hn _ (by decide) (by decide), hv, content, ?_⟩
    · by_contra hne
      rw [not_or] at hne
      exact mem_files_iff.1 hf (hn f hne.1 hne.2)
    · rw [leftHead, hdek]
      exact hs

/-- Over an object that was not encrypted, an upload of plain parts is returned as it was sent. -/
theorem completed_over_plain : (putBefore plainStore).2.look "/b/a" = some [65] ∧
      ∀ history e', Performed plainStore (fun _ => 0) (putBefore plainStore).2 history e' →
        history.map Prod.fst = twoParts.operations "b" "a" "u" → (∀ step ∈ history, succeeded step.2 = true) →
        (calm plainStore.crates fun _ => 0).Ensures e' (getObject plainStore "b" "a" [])
          fun _ x => ∃ fields, x = some ⟨200, fields, .bytes [66, 67]⟩ := by
  obtain ⟨hfresh, -, hvalid, content, hseals⟩ := left_of_putBefore plainStore_lawful (by decide +kernel)
  have hdek : (leftHead plainStore (putBefore plainStore).2 (objectPath "b" "a")).dek = none := hseals.2
  refine ⟨rfl, (completed_iff plainStore plainStore_lawful twoParts hfresh rfl).2 (.inr ⟨hvalid, ?_⟩)⟩
  rw [hdek, openParts_none]
  rfl

def chunkedPart : PartUpload where
  number := 1
  headers := [("x-amz-content-sha256", utf8 streamingPayload)]
  body := utf8 "1;chunk-signature=0\r\nA\r\n0;chunk-signature=0\r\n\r\n"
  payload := [65]
  inRange := ⟨by decide, by decide⟩
  decodes := by decide +kernel

def chunkedUpload : Upload := ⟨[chunkedPart], by decide⟩

private theorem openBody_short {g : Gateway} (hm : g.sseManager ≠ none) (dek : Text) {content : Bytes}
    (h : content.length < 28) : openBody g (some dek) content = none := by
  obtain ⟨m, hm⟩ := Option.ne_none_iff_exists'.1 hm
  unfold openBody
  rw [hm]
  simp [SseManager.decryptObject, h]

/-- A chunked part is returned with its framing, and over an encrypted object nothing is returned. -/
theorem completed_other_bytes :
    (Performed plainStore (fun _ => 0) .empty (uploadHistory plainStore chunkedUpload .empty).1
        (uploadHistory plainStore chunkedUpload .empty).2 ∧
      (∀ step ∈ (uploadHistory plainStore chunkedUpload .empty).1, succeeded step.2 = true) ∧
      assemble (chunkedUpload.table PartUpload.payload) = [65] ∧
      (calm plainStore.crates fun _ => 0).Ensures (uploadHistory plainStore chunkedUpload .empty).2
        (getObject plainStore "b" "a" []) fun _ x => ∃ fields, x = some ⟨200, fields, .bytes chunkedPart.body⟩) ∧
      Performed sealedStore (fun _ => 0) .empty (putBefore sealedStore).1 (putBefore sealedStore).2 ∧
      Performed sealedStore (fun _ => 0) (putBefore sealedStore).2
        (uploadHistory sealedStore twoParts (putBefore sealedStore).2).1
        (uploadHistory sealedStore twoParts (putBefore sealedStore).2).2 ∧
      (∀ step ∈ (uploadHistory sealedStore twoParts (putBefore sealedStore).2).1, succeeded step.2 = true) ∧
      assemble (twoParts.table PartUpload.payload) = [66, 67] ∧
      (calm sealedStore.crates fun _ => 0).Ensures (uploadHistory sealedStore twoParts (putBefore sealedStore).2).2
        (getObject sealedStore "b" "a" []) fun _ x => x = emptyResponse 500 := by
  refine ⟨⟨performed_execAll _ _ _ _ _, ?_⟩, performed_execAll _ _ _ _ _, performed_execAll _ _ _ _ _, ?_⟩
  · have hfresh : Fresh (fun _ => 0) (objectPath "b" "a") "u" .empty :=
      fresh_over fun f hf => absurd rfl (mem_files_iff.1 hf)
    rcases completed_of_fresh (g := plainStore) hfresh chunkedUpload (performed_execAll _ _ (fun _ => []) _ _)
      (map_fst_execAll _ _ _) with ⟨hmarked, -⟩ | ⟨-, hall, hcompleted⟩
    · exact absurd rfl hmarked
    · refine ⟨hall, by decide, ⟨_, _, runs_execCalm _ _ (fun _ => []) _ _⟩, fun e' x hr => ?_⟩
      have hopen : openParts plainStore (leftHead plainStore .empty (objectPath "b" "a")).dek
          (chunkedUpload.table PartUpload.body) = some chunkedPart.body := openParts_none _ _
      rcases get_of_completed plainStore_lawful
        (fun _ => Upload.isI32_of_mem) hfresh.parts_listed hcompleted rfl hr with
        ⟨hinvalid, -⟩ | ⟨-, ⟨hnone, -⟩ | ⟨content, fields, hcontent, hx⟩⟩
      · cases hinvalid
      · cases hopen.symm.trans hnone
      · cases hopen.symm.trans hcontent
        exact ⟨fields, hx⟩
  · have hput : ∀ step ∈ (putBefore sealedStore).1, succeeded step.2 = true := by
      unfold sealedStore sealedCiphers sealedBase64 sealedA wrappedZeros
      repeat rw [String.toList_ofList]
      decide +kernel
    obtain ⟨hfresh, hunmarked, hvalid, content, hseals⟩ := left_of_putBefore sealedStore_lawful hput
    obtain ⟨wrapped, hdek⟩ := hseals.dek_isSome rfl
    rcases completed_of_fresh (g := sealedStore) hfresh twoParts (performed_execAll _ _ (fun _ => []) _ _)
      (map_fst_execAll _ _ _) with ⟨hmarked, -⟩ | ⟨-, hall, hcompleted⟩
    · exact absurd hunmarked hmarked
    · refine ⟨hall, by decide, ⟨_, _, runs_execCalm _ _ (fun _ => []) _ _⟩, fun e' x hr => ?_⟩
      have hopen : openParts sealedStore (leftHead sealedStore (putBefore sealedStore).2 (objectPath "b" "a")).dek
          (twoParts.table PartUpload.body) = none := by
        have hfirst : openBody sealedStore (some wrapped) [66] = none :=
          openBody_short (by decide) wrapped (by decide)
        have hcontents :
          (((twoParts.table PartUpload.body).entries.insertionSort fun a b => a.1 ≤ b.1).map fun part =>
            part.2).filter
            (fun b => b ≠ []) = [[66], [67]] := by decide
        rw [hdek, openParts, hcontents, mapM_cons, hfirst]
        rfl
      rcases get_of_completed sealedStore_lawful
        (fun _ => Upload.isI32_of_mem) hfresh.parts_listed hcompleted rfl hr with
        ⟨hinvalid, -⟩ | ⟨-, ⟨-, hx⟩ | ⟨content, fields, hcontent, -⟩⟩
      · cases hvalid.symm.trans hinvalid
      · exact hx
      · cases hopen.symm.trans hcontent

end RustHadoop.S3
