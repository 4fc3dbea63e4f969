import RustHadoop.S3.Footprints
import RustHadoop.S3.Layout
import RustHadoop.S3.Reference

/-!
# What a write does to other objects

`get_object` looks at the file and the sidecar of an object, at the markers that a listing of its path gives and,
if there is one, at the files that are taken for parts (`LooksAt`).  A run that leaves those of them as they were
which its operation can write leaves the replies (`write_leaves_get`).  The listing is by beginnings of paths: the
marker of an upload, or an object with a number for a name, can be among them.
-/

namespace RustHadoop.S3

open Texts Threads List

variable {g : Gateway} {shardOf : Text → Nat} {e d : Dfs} {path f : Text} {headers : HeaderMap}

def Marked (shardOf : Text → Nat) (e : Dfs) (path : Text) : Prop :=
  ∃ m ∈ e.files, Under shardOf path m ∧ mpuMarker <:+ m

def LooksAt (shardOf : Text → Nat) (e : Dfs) (path f : Text) : Prop :=
  f = path ∨ f = metaPath path ∨
    Under shardOf path f ∧ (mpuMarker <:+ f ∨ Marked shardOf e path ∧ (partNumber? path f).isSome = true)

/-- The files that a `get_object` looks at are the same. -/
def LooksSame (shardOf : Text → Nat) (path : Text) (e d : Dfs) : Prop :=
  ∀ f, LooksAt shardOf e path f → d.files.lookup f = e.files.lookup f

namespace LooksSame

variable (h : LooksSame shardOf path e d)

include h

private theorem mem_iff (hf : LooksAt shardOf e path f) : f ∈ d.files ↔ f ∈ e.files := by
  rw [← AList.lookup_isSome, h f hf, AList.lookup_isSome]

theorem marked_iff : Marked shardOf d path ↔ Marked shardOf e path := by
  have hl : ∀ m, Under shardOf path m ∧ mpuMarker <:+ m → (m ∈ d.files ↔ m ∈ e.files) := fun m hm =>
    h.mem_iff (.inr (.inr ⟨hm.1, .inl hm.2⟩))
  exact exists_congr fun m => and_congr_left (hl m)

private theorem symm : LooksSame shardOf path d e := by
  intro f hf
  unfold LooksAt at hf
  rw [h.marked_iff] at hf
  exact (h f hf).symm

end LooksSame

variable {files : List Text}

theorem isMultipart_iff (h : Listing shardOf e.files path files) :
    isMultipart path files = true ↔ Marked shardOf e path := by
  simp only [isMultipart, any_eq_true, Bool.and_eq_true, decide_eq_true_eq]
  constructor
  · rintro ⟨m, hm, -, hmr⟩
    obtain ⟨hmem, hu⟩ := (h.mem_iff m).1 hm
    exact ⟨m, hmem, hu, hmr⟩
  · rintro ⟨m, hm, hu, hmr⟩
    exact ⟨m, (h.mem_iff m).2 ⟨hm, hu⟩, hu.1, hmr⟩

private theorem exists_listing (h : LooksSame shardOf path e d) (hfl : Listing shardOf e.files path files) :
    ∃ files', Listing shardOf d.files path files' ∧
      (Marked shardOf e path → partFiles path files' = partFiles path files) := by
  classical
  -- what is looked at stays where it is, the rest is put behind it
  refine ⟨files.filter (LooksAt shardOf e path) ++
    d.files.keys.filter fun f => Under shardOf path f ∧
      ¬ LooksAt shardOf e path f, ⟨?_, fun f => ?_⟩, fun hm => ?_⟩
  · refine (hfl.nodup.filter _).append (d.files.keys_nodup.filter _) fun f hf hf' => ?_
    exact (of_decide_eq_true (mem_filter.1 hf').2).2 (of_decide_eq_true (mem_filter.1 hf).2)
  · rw [mem_append, mem_filter, mem_filter, hfl.mem_iff, decide_eq_true_iff, decide_eq_true_iff, ← AList.mem_keys]
    by_cases hl : LooksAt shardOf e path f
    · simp [hl, h.mem_iff hl]
    · simp [hl, Under]
  · have hn : ∀ f, Under shardOf path f → ¬ LooksAt shardOf e path f → partNumber? path f = none := fun f hu hl =>
      Option.not_isSome_iff_eq_none.1 fun hp => hl (.inr (.inr ⟨hu, .inr ⟨hm, hp⟩⟩))
    unfold partFiles
    dsimp only
    rw [filterMap_append, filterMap_filter]
    congr 2
    refine (congrArg₂ _ (filterMap_congr fun f hf => ?_) (filterMap_eq_nil_iff.2 fun f hf => ?_)).trans
      (append_nil _)
    · by_cases hl : LooksAt shardOf e path f
      · simp [hl]
      · simp [hl, hn f ((hfl.mem_iff f).1 hf).2 hl]
    · obtain ⟨hu, hl⟩ := of_decide_eq_true (mem_filter.1 hf).2
      rw [hn f hu hl, Option.map_none]

/-- The calls of `get_object` after the listing. -/
def LooksOnly (P : Text → Prop) : DfsOp → Prop
  | .info f | .content f | .download f | .readRange f _ _ => P f
  | _ => False

private theorem looksOnly_simulates {P : Text → Prop} {c : Crates} {o : DfsOp} {x : o.Result} {e' : Dfs}
    (ho : LooksOnly P o) (h : ∀ f, P f → d.files.lookup f = e.files.lookup f) (ha : CalmStep c shardOf e o x e') :
    ∃ d', CalmStep c shardOf d o x d' ∧ ∀ f, P f → d'.files.lookup f = e'.files.lookup f := by
  have hr : ∀ f, P f → d.read f = e.read f := fun f hf => by rw [Dfs.read, Dfs.read, Dfs.look, Dfs.look, h f hf]
  cases o with
  | info f =>
    obtain ⟨rfl, rfl⟩ := ha
    exact ⟨d, ⟨congrArg _ (h f ho).symm, rfl⟩, h⟩
  | content f =>
    obtain ⟨hx, rfl⟩ := ha
    rw [← hr f ho] at hx
    exact ⟨d, ⟨hx, rfl⟩, h⟩
  | download f | readRange f offset length =>
    simp only [CalmStep, hr f ho] at ha ⊢
    split at ha
    · obtain ⟨rfl, rfl⟩ := ha
      exact ⟨_, ⟨rfl, rfl⟩, h⟩
    · obtain ⟨hx, rfl⟩ := ha
      exact ⟨d, ⟨hx, rfl⟩, h⟩
  | _ => exact ho.elim

private theorem getObject_of_looksSame {bucket key : Text} {x : Reply}
    (h : LooksSame shardOf (objectPath bucket key) e d)
    (hr : ∃ e', (calm g.crates shardOf).Runs e (getObject g bucket key headers) e' x) :
    ∃ d', (calm g.crates shardOf).Runs d (getObject g bucket key headers) d' x := by
  obtain ⟨e', hr⟩ := hr
  obtain ⟨fs, e1, hfs, hls⟩ := runs_call_bind.1 hr
  obtain ⟨hl, rfl⟩ := listing_of_list hfs
  replace hls :
    (calm g.crates shardOf).Runs e1 (getListed g (objectPath bucket key) headers ((okay fs).getD [])) e' x :=
    hls
  obtain ⟨files', hl', hp⟩ := exists_listing h hl
  have hs : getListed g (objectPath bucket key) headers files' =
      getListed g (objectPath bucket key) headers ((okay fs).getD []) := by
    have hml :
        isMultipart (objectPath bucket key) files' = isMultipart (objectPath bucket key) ((okay fs).getD []) := by
      rw [Bool.eq_iff_iff, isMultipart_iff hl', isMultipart_iff hl, h.marked_iff]
    unfold getListed
    rw [hml]
    split_ifs with hm
    · rw [hp ((isMultipart_iff hl).1 hm)]
    · rfl
  have hpr : (getListed g (objectPath bucket key) headers ((okay fs).getD [])).Performs Answers
      (LooksOnly (LooksAt shardOf e1 (objectPath bucket key))) fun _ => True := by
    refine performs_getListed (.inl rfl) (.inl rfl) (fun _ _ => .inl rfl) (.inr (.inl rfl)) fun hm f hf => ?_
    obtain ⟨hmem, hpt⟩ := mem_partFiles.1 hf
    exact .inr (.inr ⟨((hl.mem_iff f).1 hmem).2, .inr ⟨(isMultipart_iff hl).1 hm, hpt⟩⟩)
  obtain ⟨d', hd⟩ := hpr.simulates
    (S := fun e d : Dfs => ∀ f, LooksAt shardOf e1 (objectPath bucket key) f → d.files.lookup f = e.files.lookup f)
    (fun _ _ _ _ _ ho hS ha => ⟨answers_of_calmStep ha, looksOnly_simulates ho hS ha⟩)
      (fun _ _ _ r => r.elim) hls h
  refine ⟨d', runs_call_bind.2 ⟨.ok files', d, ⟨⟨files', rfl, hl'⟩, rfl⟩, ?_⟩⟩
  rw [← hs] at hd
  exact hd

/-- A run that leaves the files which its operation can write and a `get_object` looks at leaves the replies. -/
theorem write_leaves_get (g : Gateway) (shardOf : Text → Nat) (op : Operation) (bucket key : Text)
    (headers : HeaderMap) {e e' : Dfs} {x : Reply} (hr : (calm g.crates shardOf).Runs e (op.run g) e' x)
    (hleft : ∀ f, LooksAt shardOf e (objectPath bucket key) f → ¬ (op.footprint g).Spares f →
      e'.files.lookup f = e.files.lookup f) (y : Reply) :
    (∃ e1, (calm g.crates shardOf).Runs e' (getObject g bucket key headers) e1 y) ↔
      ∃ e1, (calm g.crates shardOf).Runs e (getObject g bucket key headers) e1 y := by
  have hsame : LooksSame shardOf (objectPath bucket key) e e' := by
    intro f hf
    by_cases hspares : (op.footprint g).Spares f
    · exact (Operation.performs op).lookup_eq hspares (faulty_of_calm hr)
    · exact hleft f hf hspares
  exact ⟨getObject_of_looksSame hsame.symm, getObject_of_looksSame hsame⟩

def uploading : Dfs := .ofFiles plainCrates [("/b/a", [65]), (partPath "u" 1, [66])]

def afterWrite (op : Operation) (e : Dfs) : Dfs :=
  (execCalm plainCrates (fun _ => 0) (fun _ => []) (op.run (openGateway plainCrates)) e).2

def completed : Dfs := afterWrite (.completeMultipartUpload "b" "a" "u") uploading

private theorem runs_afterWrite (op : Operation) (e : Dfs) :
    ∃ x, (calm plainCrates fun _ => 0).Runs e (op.run (openGateway plainCrates)) (afterWrite op e) x :=
  ⟨_, runs_execCalm _ _ _ _ e⟩

def Returned (e : Dfs) (key : Text) (content : Bytes) : Prop :=
  ∃ x : Reply, x.map (fun r => r.body) = some (.bytes content) ∧
    ∃ e', (calm plainCrates fun _ => 0).Runs e (getObject (openGateway plainCrates) "b" key []) e' x

private theorem returned_of_exec {e : Dfs} {key : Text} {content : Bytes}
    (h : (execCalm plainCrates (fun _ => 0) (fun _ => []) (getObject (openGateway plainCrates) "b" key []) e).1.map
      (fun r => r.body) = some (.bytes content)) : Returned e key content := ⟨_, h, _, runs_execCalm _ _ _ _ e⟩

/-- The operation leaves what is returned for `a`. -/
def Leaves (op : Operation) (e : Dfs) : Prop :=
  ∃ x, (calm plainCrates fun _ => 0).Runs e (op.run (openGateway plainCrates)) (afterWrite op e) x ∧
    ∀ content, Returned (afterWrite op e) "a" content ↔ Returned e "a" content

/-- A put of `ab` leaves `a`, though its path begins the other one, and so does a copy of nothing to a part of
`a`. -/
theorem write_leaves_get_sibling :
    Leaves (.putObject "b" "ab" [67] []) uploading ∧ Leaves (.copyObject "b" "a/2" "/b/none") completed := by
  have hmarked : ¬ Marked (fun _ => 0) uploading (objectPath "b" "a") := by
    rintro ⟨m, hm, -, hmarker⟩
    have hall : ∀ m ∈ uploading.files.keys, ¬ mpuMarker <:+ m := by decide
    exact hall m (AList.mem_keys.1 hm) hmarker
  have hspares : ∀ f, LooksAt (fun _ => 0) uploading (objectPath "b" "a") f →
      f ≠ objectPath "b" "ab" ∧ f ≠ metaPath (objectPath "b" "ab") := by
    rintro f (rfl | rfl | ⟨-, hmarker | ⟨hm, -⟩⟩)
    · decide
    · decide
    · exact ⟨fun h => absurd (h ▸ hmarker) (by decide), fun h => absurd (h ▸ hmarker) (by decide)⟩
    · exact absurd hm hmarked
  constructor
  · obtain ⟨x, hrun⟩ := runs_afterWrite (.putObject "b" "ab" [67] []) uploading
    have hleaves := write_leaves_get (openGateway plainCrates) (fun _ => 0) _ "b" "a" [] hrun fun f hf hnot =>
      have h := hspares f hf
      absurd ⟨fun _ hcreates => hcreates.elim (fun hself => h.1 hself.1) fun hmeta => h.2 hmeta.1,
        fun hdeletes => hdeletes.elim h.1 h.2, fun _ => ⟨id, id⟩⟩ hnot
    exact ⟨x, hrun, fun content => exists_congr fun y => and_congr_right fun _ => hleaves y⟩
  · obtain ⟨x, hrun⟩ := runs_afterWrite (.copyObject "b" "a/2" "/b/none") completed
    have hfiles : (afterWrite (.copyObject "b" "a/2" "/b/none") completed).files = completed.files :=
      AList.ext (by decide +kernel)
    have hleaves :=
      write_leaves_get (openGateway plainCrates) (fun _ => 0) _ "b" "a" [] hrun fun f _ _ => by rw [hfiles]
    exact ⟨x, hrun, fun content => exists_congr fun y => and_congr_right fun _ => hleaves y⟩

/-- An upload that is completed as `ab` is returned for `a`; an object `a/2` is returned with the parts of `a`. -/
theorem write_changes_get : (∃ e x,
      (calm plainCrates fun _ => 0).Runs uploading
        (completeMultipartUpload (openGateway plainCrates) "b" "ab" "u") e x ∧
      Returned uploading "a" [65] ∧ Returned e "a" [66]) ∧
    ∃ e1 x1 e2 x2,
      (calm plainCrates fun _ => 0).Runs uploading
        (completeMultipartUpload (openGateway plainCrates) "b" "a" "u") e1 x1 ∧
      (calm plainCrates fun _ => 0).Runs e1 (putObject (openGateway plainCrates) "b" "a/2" [67] []) e2 x2 ∧
      Returned e1 "a" [66] ∧ Returned e2 "a" [66, 67] := by
  obtain ⟨x, hcomplete⟩ := runs_afterWrite (.completeMultipartUpload "b" "ab" "u") uploading
  obtain ⟨x1, hcomplete1⟩ := runs_afterWrite (.completeMultipartUpload "b" "a" "u") uploading
  obtain ⟨x2, hput⟩ :=
    runs_afterWrite (.putObject "b" "a/2" [67] []) (afterWrite (.completeMultipartUpload "b" "a" "u") uploading)
  refine ⟨⟨_, x, hcomplete, returned_of_exec ?_, returned_of_exec ?_⟩, _, x1, _, x2, hcomplete1, hput,
    returned_of_exec ?_,
    returned_of_exec ?_⟩
  all_goals decide +kernel

end RustHadoop.S3
