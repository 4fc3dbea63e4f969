import RustHadoop.S3.Formats
import RustHadoop.S3.Shelf

/-!
# Getting what was stored

`get_object` decides from a listing whether an object was uploaded in parts, and which files are its parts.  Both
are guesses from the beginning and the end of paths; in a layout they are right (`get_of_stores`).
-/

namespace RustHadoop.S3

open Texts Threads Environment List

variable {x : Reply} {parts : Parts} {f : Text} {n : Int} {payload : Bytes}

section

variable {g : Gateway} {shardOf : Text → Nat} {L : Layout shardOf} {s : Shelf} {e e' : Dfs} {p : Text}
  {files : List Text}

private theorem insertionSort_eq_of_perm {α : Type} (number : α → Int) {l l' : List α} (h : l.Perm l')
    (hinj : ∀ a ∈ l, ∀ b ∈ l, number a = number b → a = b) :
    (l.insertionSort fun a b => number a ≤ number b) = l'.insertionSort fun a b => number a ≤ number b := by
  have : Std.Total fun a b : α => number a ≤ number b := ⟨fun a b => le_total _ _⟩
  have : IsTrans α fun a b => number a ≤ number b := ⟨fun a b c => le_trans⟩
  refine Perm.eq_of_pairwise ?_ (pairwise_insertionSort _ l) (pairwise_insertionSort _ l') ?_
  · intro a b ha hb hab hba
    have hb := h.mem_iff.2 ((mem_insertionSort _).1 hb)
    exact hinj a ((mem_insertionSort _).1 ha) b hb (le_antisymm hab hba)
  · exact ((perm_insertionSort _ l).trans h).trans (perm_insertionSort _ l').symm

theorem partNumber?_of_owns (ho : (Root.parts p).Owns f) (hne : f ≠ p) (hn : partNumber? p f = some n) :
    ∃ m, f = child p (intText m) := by
  have hdot : ∀ ending : Text, '/' ∉ ending → '.' ∈ ending → ∀ d, f ≠ d ++ ending := by
    rintro ending hs hdot d rfl
    rw [partNumber?_of_dot (dot_mem_fileName d hs hdot)] at hn
    cases hn
  rcases ho with rfl | rfl | rfl | hp
  · exact absurd rfl hne
  · exact absurd rfl (hdot ".meta" (by decide) (by decide) p)
  · exact absurd (by simp [child]) (hdot mpuMarker (by decide) (by decide) (p ++ ['/']))
  · exact hp

private theorem Stores.partNumber?_eq_some (h : Stores g L s e) (hp : .parts p ∈ L.roots)
    (hl : ∀ n, e.look (child p (intText n)) = parts.lookup n) (hi : ∀ n ∈ parts, IsI32 n)
    (hfl : Listing shardOf e.files p files) :
    f ∈ files ∧ partNumber? p f = some n ↔ f = child p (intText n) ∧ n ∈ parts := by
  rw [hfl.mem_iff, mem_files_iff]
  constructor
  · rintro ⟨⟨hf, hu⟩, hn⟩
    obtain ⟨r, hr, ho⟩ := h.owned f hf
    cases L.numbers p hp r hr f ho hu (by rw [hn]; exact Option.some_ne_none n)
    have hne : f ≠ p := by
      rintro rfl
      exact hf (h.holds _ hp).1
    obtain ⟨m, rfl⟩ := partNumber?_of_owns ho hne hn
    have hm : m ∈ parts := by
      rw [hl] at hf
      exact not_not.1 fun hm => hf (AList.lookup_eq_none.2 hm)
    cases (partNumber?_child (hi m hm)).symm.trans hn
    exact ⟨rfl, hm⟩
  · rintro ⟨rfl, hn⟩
    refine ⟨⟨?_, prefix_append _ _, L.parts_listed p hp n⟩, partNumber?_child (hi n hn)⟩
    rw [hl]
    exact fun hnn => AList.lookup_eq_none.1 hnn hn

theorem partFiles_eq (hnd : files.Nodup)
    (hp : ∀ f n, f ∈ files ∧ partNumber? p f = some n ↔ f = child p (intText n) ∧ n ∈ parts) :
    partFiles p files = (parts.entries.insertionSort fun a b => a.1 ≤ b.1).map fun part =>
      child p (intText part.1) := by
  have hmem : ∀ n f, (n, f) ∈ files.filterMap (fun f => (partNumber? p f).map fun n => (n, f)) ↔
      f = child p (intText n) ∧ n ∈ parts := by
    intro n f
    rw [← hp]
    simp [mem_filterMap]
  have hpr : (files.filterMap fun f => (partNumber? p f).map fun n => (n, f)).Perm
      (parts.entries.map fun part => (part.1, child p (intText part.1))) := by
    refine (perm_ext_iff_of_nodup ?_ ?_).2 ?_
    · refine hnd.filterMap fun f f' a ha ha' => ?_
      obtain ⟨n, -, rfl⟩ := Option.map_eq_some_iff.1 ha
      obtain ⟨n', -, heq⟩ := Option.map_eq_some_iff.1 ha'
      exact (Prod.mk.inj heq).2.symm
    · refine Nodup.of_map Prod.fst ?_
      rw [map_map]
      exact parts.nodupKeys
    · rintro ⟨n, f⟩
      rw [hmem, mem_map]
      constructor
      · rintro ⟨rfl, hn⟩
        obtain ⟨content, hc⟩ := Option.isSome_iff_exists.1 (AList.lookup_isSome.2 hn)
        exact ⟨⟨n, content⟩, AList.mem_lookup_iff.1 hc, rfl⟩
      · rintro ⟨⟨m, content⟩, he, heq⟩
        cases heq
        exact ⟨rfl, mem_keys_of_mem he⟩
  have hm := map_insertionSort (fun a b => a.1 ≤ b.1) (fun a b => a.1 ≤ b.1)
    (fun part : (_ : Int) × Bytes => (part.1, child p (intText part.1))) parts.entries fun _ _ _ _ => Iff.rfl
  unfold partFiles
  dsimp only
  rw [insertionSort_eq_of_perm Prod.fst hpr, ← hm, map_map]
  · rfl
  · rintro ⟨n, f⟩ hf ⟨n', f'⟩ hf' hn
    cases (hn : n = n')
    rw [((hmem n f).1 hf).1, ((hmem n f').1 hf').1]

theorem filterMap_read {l : List ((_ : Int) × Bytes)}
    (hl : ∀ part ∈ l, e.look (child p (intText part.1)) = some part.2) :
    (l.map fun part => child p (intText part.1)).filterMap e.read = (l.map fun part => part.2).filter fun b =>
    b ≠ [] := by
  induction l with
  | nil => rfl
  | cons part rest ih =>
    have ih := ih fun q hq => hl q (mem_cons_of_mem _ hq)
    have hr : e.read (child p (intText part.1)) = if decide (part.2 ≠ []) then some part.2 else none := by
      rw [Dfs.read, hl part mem_cons_self, Option.filter_some]
    rw [map_cons, map_cons, filter_cons, ← ih]
    split_ifs at hr ⊢ with hne
    · rw [filterMap_cons_some hr]
    · rw [filterMap_cons_none hr]

theorem mapM_openBody_none (contents : List Bytes) : contents.mapM (openBody g none) = some contents := by
  induction contents with
  | nil => rfl
  | cons content rest ih => rw [mapM_cons, ih]; rfl

theorem rangedResponse_none (withLength : Bool) (head : ObjectHead) (content : Bytes) :
    ∃ fields, rangedResponse withLength head content none = some ⟨200, fields, .bytes content⟩ := ⟨_, rfl⟩

section

variable {head : ObjectHead} {headers : HeaderMap} (hrange : rangeParts headers = none)
include hrange

theorem runs_getWhole {content : Bytes}
    (hrd : e.read p = some content) (ho : openBody g head.dek content = some payload)
    (hr : (calm g.crates shardOf).Runs e (getWhole g p head headers) e' x) :
    ∃ fields, x = some ⟨200, fields, .bytes payload⟩ := by
  obtain ⟨y, e1, hy, h1⟩ := runs_call_bind.1 hr
  obtain ⟨hdw, -, -⟩ := okay_of_download hy
  rw [hrd] at hdw
  split at h1
  · cases hdw
  · cases hdw
    rw [ho] at h1
    obtain ⟨-, rfl⟩ := Runs.ret_iff.1 h1
    rw [hrange]
    exact rangedResponse_none true head payload

theorem runs_getParts (hdek : head.dek = none)
    (hr : (calm g.crates shardOf).Runs e (getParts g head files headers) e' x) :
    ∃ fields, x = some ⟨200, fields, .bytes (files.filterMap e.read).flatten⟩ := by
  obtain ⟨e1, y, hy, h1⟩ := Runs.bind_iff.1 hr
  obtain ⟨-, hrd, -⟩ := runs_readParts hy
  rw [hdek, mapM_openBody_none] at hrd
  rw [hrd] at h1
  obtain ⟨-, rfl⟩ := Runs.ret_iff.1 h1
  rw [hrange]
  exact rangedResponse_none false head _

end

/-- Whatever else is there, `get_object` returns what the shelf has. -/
theorem get_of_stores (hc : g.crates.Lawful) (h : Stores g L s e) {bucket key : Text} {headers : HeaderMap}
    (hrange : rangeParts headers = none) (ho : s.objects (objectPath bucket key) = some payload)
    (hr : (calm g.crates shardOf).Runs e (getObject g bucket key headers) e' x) :
    ∃ fields, x = some ⟨200, fields, .bytes payload⟩ := by
  obtain ⟨files, hfl, hb⟩ := runs_getObject hr
  have hv : ∀ {dek}, HasSidecar g e.look (objectPath bucket key) dek →
      (e.head g.crates (objectPath bucket key)).dek = dek ∧ (calm g.crates shardOf).Runs e
        (if isMultipart (objectPath bucket key) files then
          getParts g (e.head g.crates (objectPath bucket key)) (partFiles (objectPath bucket key) files) headers
        else getSingle g (objectPath bucket key) (e.head g.crates (objectPath bucket key)) headers) e' x := by
    rintro dek ⟨m, hm, hs⟩
    obtain ⟨hv, hdek⟩ := head_of_sidecar hc hm hs
    rcases hb with ⟨hi, -⟩ | ⟨-, hb⟩
    · rw [hv] at hi
      cases hi
    · exact ⟨hdek, hb⟩
  rcases h.known _ (ho ▸ Option.some_ne_none _) with hp | hp
  · -- no file below the path is a marker
    have hh := h.holds _ hp
    simp only [Root.Holds, ho] at hh
    obtain ⟨content, dek, hsl, hne, hl, hs⟩ := hh
    obtain ⟨hdek, hrun⟩ := hv hs
    have hsn : ¬ isMultipart (objectPath bucket key) files = true := by
      rw [isMultipart, any_eq_true]
      rintro ⟨f, hf, hmr⟩
      obtain ⟨hmem, hu⟩ := (hfl.mem_iff f).1 hf
      obtain ⟨r, hr, hown⟩ := h.owned f (mem_files_iff.1 hmem)
      simp [L.unmarked _ hp r hr f hown hu] at hmr
    rw [if_neg hsn, getSingle_of_no_range hrange] at hrun
    exact runs_getWhole hrange (read_of_look hl hne) (hdek ▸ openBody_of_seals hc hsl) hrun
  · obtain ⟨-, hh⟩ := h.holds _ hp
    rw [ho] at hh
    obtain ⟨hmr, hs, parts, rfl, hi32, hl⟩ := hh
    obtain ⟨hdek, hrun⟩ := hv hs
    have hml : isMultipart (objectPath bucket key) files = true := by
      have he : mpuMarker <:+ child (objectPath bucket key) mpuMarker :=
        ⟨objectPath bucket key ++ ['/'], by simp [child]⟩
      rw [isMultipart, any_eq_true]
      refine ⟨child (objectPath bucket key) mpuMarker, (hfl.mem_iff _).2
        ⟨mem_files_iff.2 hmr, prefix_append _ _, L.markers_listed _ hp⟩, ?_⟩
      exact Bool.and_eq_true_iff.2 ⟨decide_eq_true (prefix_append _ _), decide_eq_true he⟩
    rw [if_pos hml, partFiles_eq hfl.nodup fun _ _ => h.partNumber?_eq_some hp hl hi32 hfl] at hrun
    obtain ⟨fields, hx⟩ := runs_getParts hrange hdek hrun
    rw [filterMap_read, flatten_filter_ne_nil, ← flatMap_def] at hx
    · exact ⟨fields, hx⟩
    · intro part hpr
      rw [hl]
      exact AList.mem_lookup_iff.2 ((mem_insertionSort _).1 hpr)

end

/-- After a history that keeps to a layout, an object is what was last stored under its key, whatever else there
is. -/
theorem get_returns_stored (g : Gateway) (hc : g.crates.Lawful) {shardOf : Text → Nat} (L : Layout shardOf)
    {history : List (Operation × Reply)} {e : Dfs} (hperformed : Performed g shardOf .empty history e)
    (hfits : ∀ step ∈ history, Fits g L step.2 step.1) {bucket key : Text} {headers : HeaderMap} {payload : Bytes}
    (hrange : rangeParts headers = none)
    (hstored : (history.foldl (Shelf.after g) .empty).objects (objectPath bucket key) = some payload) :
    (calm g.crates shardOf).Ensures e (getObject g bucket key headers)
      fun _ x => ∃ fields, x = some ⟨200, fields, .bytes payload⟩ := by
  have hstores := stores_of_history hc (stores_empty (L := L)) hfits hperformed
  exact ⟨⟨_, _, runs_execCalm g.crates shardOf (fun _ => []) _ e⟩, fun _ _ hr =>
    get_of_stores hc hstores hrange hstored hr⟩

def plainStore : Gateway := openGateway (storeCrates [] [])

theorem plainStore_lawful : plainStore.crates.Lawful :=
  storeCrates_lawful [] [] (by decide) (by decide) (by decide)

def twoObjects (key : Text) : List Operation :=
  [.putObject "b" "a" [65] [], .initiateMultipartUpload "b" key, .uploadPart "b" key "u" 2 [67],
    .uploadPart "b" key "u" 1 [66],
    .completeMultipartUpload "b" key "u"]

def twoObjectsHistory (key : Text) : List (Operation × Reply) × Dfs :=
  execAll plainStore (fun _ => 0) (fun _ => "u".toList) (twoObjects key) .empty

def twoObjectsLayout : Layout fun _ => 0 :=
  .ofAntichain {.plain (objectPath "b" "a"), .parts (objectPath "b" "m"), .upload "u"} (by
      rintro r (rfl | rfl | rfl) r' (rfl | rfl | rfl) h
      all_goals first | rfl | exact absurd h (by decide))
    (by
      rintro p (hp | hp | hp)
      · cases hp
        decide
      · cases hp
      · cases hp)
    (fun _ _ _ _ => rfl) fun _ _ _ _ => rfl

private theorem fits_twoObjects :
    ∀ step ∈ (twoObjectsHistory "m").1, Fits plainStore twoObjectsLayout step.2 step.1 := by
  have hid :
      ((twoObjectsHistory "m").1.map Prod.snd)[1]? = some
        (xmlResponse 200 (.initiateMultipartUpload "b" "m" "u")) := by
    decide +kernel
  intro step hs
  change step ∈ [(_, _), (_, _), (_, _), (_, _), (_, _)] at hs
  simp only [mem_cons, not_mem_nil, or_false] at hs
  rcases hs with rfl | rfl | rfl | rfl | rfl
  · refine ⟨.inl rfl, fun payload hp => .inl ?_⟩
    cases (hp : some [65] = some payload)
    decide
  · intro id hx
    have hsm : some (xmlResponse 200 (.initiateMultipartUpload "b" "m" id)) =
        some (xmlResponse 200 (.initiateMultipartUpload "b" "m" "u")) := (congrArg some hx).symm.trans hid
    simp only [xmlResponse, Option.some.injEq, Response.mk.injEq, ResponseBody.xml.injEq,
      Document.initiateMultipartUpload.injEq, true_and] at hsm
    exact .inr (.inr (congrArg _ hsm))
  · exact ⟨.inr (.inr rfl), by decide, by decide⟩
  · exact ⟨.inr (.inr rfl), by decide, by decide⟩
  · exact ⟨.inr (.inl rfl), .inr (.inr rfl)⟩

/-- Both are returned as they were stored. -/
theorem get_returns_stored_two :
    (calm plainStore.crates fun _ => 0).Ensures (twoObjectsHistory "m").2 (getObject plainStore "b" "a" [])
        (fun _ x => ∃ fields, x = some ⟨200, fields, .bytes [65]⟩) ∧
      (calm plainStore.crates fun _ => 0).Ensures (twoObjectsHistory "m").2 (getObject plainStore "b" "m" [])
        fun _ x => ∃ fields, x = some ⟨200, fields, .bytes [66, 67]⟩ := by
  have hperformed := performed_execAll plainStore (fun _ => 0) (fun _ => "u".toList) (twoObjects "m") .empty
  exact ⟨get_returns_stored plainStore plainStore_lawful twoObjectsLayout hperformed fits_twoObjects rfl
    (by decide +kernel),
    get_returns_stored plainStore plainStore_lawful twoObjectsLayout hperformed fits_twoObjects rfl
      (by decide +kernel)⟩

/-- With the key `ab` for the second object, its parts are returned for `a`. -/
theorem other_object_returned :
    Performed plainStore (fun _ => 0) .empty (twoObjectsHistory "ab").1 (twoObjectsHistory "ab").2 ∧
      ((twoObjectsHistory "ab").1.foldl (Shelf.after plainStore) .empty).objects (objectPath "b" "a") = some [65] ∧
      ∃ e' x, (calm plainStore.crates fun _ => 0).Runs (twoObjectsHistory "ab").2
        (getObject plainStore "b" "a" []) e' x ∧
        x.map (fun r => (r.status, r.body)) = some (200, .bytes [66, 67]) := by
  refine ⟨performed_execAll _ _ _ _ _, by decide +kernel, _, _, runs_execCalm _ _ (fun _ => []) _ _, ?_⟩
  decide +kernel

end RustHadoop.S3
