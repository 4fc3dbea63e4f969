import RustHadoop.S3.Retrieval

/-!
# Upload ids

Aborting and completing an upload act on what is listed for `/.s3_mpu/<upload id>`, and the id is any string of the
client.  A listing is by prefix, so it also has the parts of every upload whose id starts with the one given: the
empty id has them all.  Apart from that the uploads are isolated: the loops of the two handlers change the files of
their listing, and what appears below the path of the object was at one of them.

Objects of a bucket `.s3_mpu` are left out, their paths are paths of parts.
-/

namespace RustHadoop.S3

open Texts Threads Environment Function List

/-- The parts of the other uploads are where they were. -/
def KeepsOthers (id : Text) (e e' : Dfs) : Prop :=
  ∀ id' n, id' ≠ id → e'.look (partPath id' n) = e.look (partPath id' n)

/-- What is new below a path, but for the marker, was a file listed for the upload and not a part of another
one. -/
def ExposesOwn (shardOf : Text → Nat) (id path : Text) (e e' : Dfs) : Prop :=
  ∀ name, e'.look (child path name) = e.look (child path name) ∨ name = mpuMarker ∨
    ∃ f ∈ e.files, Under shardOf (mpuDir id) f ∧ fileName f = name ∧ e'.look (child path name) = e.look f ∧
      ∀ id' n, f = partPath id' n → id' = id

variable {files : List Text} {x : Reply}

section

variable {g : Gateway} {shardOf : Text → Nat} {e e' : Dfs}

theorem mpuDir_nil_begins (id tail : Text) : mpuDir [] <+: mpuDir id ++ tail := by
  have hdir : ∀ dir : Text, dir ++ [] <+: dir ++ id ++ tail := fun dir => ⟨id ++ tail, by simp⟩
  exact hdir _

/-- The path of an object has two slashes, as many as `/.s3_mpu/`, so nothing below an object is below that
directory either. -/
theorem not_mpuDir_prefix {bucket key : Text} (h : ¬ mpuDir [] <+: objectPath bucket key) (tail : Text) :
    ¬ mpuDir [] <+: objectPath bucket key ++ tail := by
  intro hb
  rcases prefix_or_prefix_of_prefix hb (prefix_append _ tail) with hp | ⟨rest, hr⟩
  · exact h hp
  · rcases eq_nil_or_concat rest with rfl | ⟨front, last, rfl⟩
    · exact h (by rw [← hr, append_nil])
    · have hdir : mpuDir [] = "/.s3_mpu".toList ++ ['/'] := by decide
      rw [hdir, concat_eq_append, ← append_assoc] at hr
      have hs := congrArg (count '/') (append_inj' hr rfl).1
      have hc : count '/' "/.s3_mpu".toList = 1 := by decide
      rw [hc, count_append, objectPath, count_cons_self, objectName, count_append, count_cons_self] at hs
      omega

private theorem look_of_deleteAll
    (h : (calm g.crates shardOf).Runs e (Prog.each (fun f => attempt (.delete f)) files) e' ()) (p : Text) :
    e'.look p = if p ∈ files then none else e.look p := by
  induction files generalizing e with
  | nil =>
    obtain ⟨rfl, -⟩ := Runs.ret_iff.1 h
    rw [if_neg not_mem_nil]
  | cons f rest ih =>
    obtain ⟨e1, h1, h2⟩ := Runs.each_cons.1 h
    rw [ih h2, look_of_attempt_delete h1]
    by_cases hp : p = f
    · subst hp
      simp
    · simp [hp]

private theorem look_of_movePart {path f : Text}
    (h : (calm g.crates shardOf).Runs e (if keepMarker <:+ f then return ()
      else if etagSuffix <:+ f then attempt (.delete f) else attempt
        (.rename f (child path (fileName f)))) e' ()) :
    e'.look = e.look ∨ e'.look = update e.look f none ∨
      e'.look = update (update e.look f none) (child path (fileName f)) (e.look f) := by
  by_cases hk : keepMarker <:+ f
  · obtain ⟨rfl, -⟩ := Runs.ret_iff.1 (runs_ite_pos hk h)
    exact .inl rfl
  · replace h := runs_ite_neg hk h
    by_cases he : etagSuffix <:+ f
    · exact .inr (.inl (look_of_attempt_delete (runs_ite_pos he h)))
    · obtain ⟨x, hx⟩ := runs_attempt (runs_ite_neg he h)
      rcases look_of_rename hx with ⟨-, hl⟩ | ⟨-, rfl⟩
      · exact .inr (.inr hl)
      · exact .inl rfl

private theorem look_of_moveParts {path : Text} (hn : files.Nodup) (ha : ∀ f ∈ files, ∀ name, f ≠ child path name)
    (h : (calm g.crates shardOf).Runs e (moveParts path files) e' ()) :
    (∀ f, f ∉ files → (∀ name, f ≠ child path name) → e'.look f = e.look f) ∧
      ∀ name, e'.look (child path name) = e.look (child path name) ∨
        ∃ f ∈ files, fileName f = name ∧ e'.look (child path name) = e.look f := by
  induction files generalizing e with
  | nil =>
    obtain ⟨rfl, -⟩ := Runs.ret_iff.1 h
    exact ⟨fun _ _ _ => rfl, fun _ => .inl rfl⟩
  | cons f rest ih =>
    obtain ⟨hf, hn⟩ := nodup_cons.1 hn
    obtain ⟨e1, h1, h2⟩ := Runs.each_cons.1 h
    obtain ⟨ho, hnew⟩ := ih hn (fun f' hf' => ha f' (mem_cons_of_mem _ hf')) h2
    have hst := look_of_movePart h1
    have hfr : ∀ f', f' ≠ f → (∀ name, f' ≠ child path name) → e1.look f' = e.look f' := by
      intro f' hne hp
      rcases hst with hl | hl | hl
      · rw [hl]
      · rw [hl, update_of_ne hne]
      · rw [hl, update_of_ne (hp _), update_of_ne hne]
    refine ⟨fun f' hf' hp => ?_, fun name => ?_⟩
    · rw [mem_cons, not_or] at hf'
      rw [ho f' hf'.2 hp, hfr f' hf'.1 hp]
    · rcases hnew name with hs | ⟨f', hf', hnm, hc⟩
      · have hp : child path name ≠ f := fun heq => ha f mem_cons_self name heq.symm
        rcases hst with hl | hl | hl
        · exact .inl (by rw [hs, hl])
        · exact .inl (by rw [hs, hl, update_of_ne hp])
        · by_cases heq : child path name = child path (fileName f)
          · have hnm : fileName f = name := by simpa [child] using heq.symm
            exact .inr ⟨f, mem_cons_self, hnm, by rw [hs, hl, heq, update_self]⟩
          · exact .inl (by rw [hs, hl, update_of_ne heq, update_of_ne hp])
      · have hne : f' ≠ f := fun heq => hf (heq ▸ hf')
        refine .inr ⟨f', mem_cons_of_mem _ hf', hnm, ?_⟩
        rw [hc, hfr f' hne (ha f' (mem_cons_of_mem _ hf'))]

theorem look_of_abort {id : Text} (h : (calm g.crates shardOf).Runs e (abortMultipartUpload id) e' x) (p : Text) :
    (p ∈ e.files ∧ Under shardOf (mpuDir id) p) ∧ e'.look p = none ∨
      ¬ (p ∈ e.files ∧ Under shardOf (mpuDir id) p) ∧ e'.look p = e.look p := by
  obtain ⟨files, e1, hls, h1⟩ := runs_call_bind.1 h
  obtain ⟨hl, rfl⟩ := listing_of_list hls
  obtain ⟨e2, _, hdl, h2⟩ := Runs.bind_iff.1 h1
  obtain ⟨rfl, -⟩ := Runs.ret_iff.1 h2
  have hlk := look_of_deleteAll hdl p
  by_cases hp : p ∈ (okay files).getD []
  · exact .inl ⟨(hl.mem_iff p).1 hp, by rw [hlk, if_pos hp]⟩
  · exact .inr ⟨fun hmem => hp ((hl.mem_iff p).2 hmem), by rw [hlk, if_neg hp]⟩

private theorem look_of_complete {bucket key id : Text} (hbc : ¬ mpuDir [] <+: objectPath bucket key)
    (h : (calm g.crates shardOf).Runs e (completeMultipartUpload g bucket key id) e' x) :
    (∀ f, mpuDir [] <+: f → f ≠ child (mpuDir id) keepMarker → ¬ (f ∈ e.files ∧ Under shardOf (mpuDir id) f) →
        e'.look f = e.look f) ∧
      ∀ name, e'.look (child (objectPath bucket key) name) = e.look (child (objectPath bucket key) name) ∨
        name = mpuMarker ∨
        ∃ f ∈ e.files, Under shardOf (mpuDir id) f ∧ fileName f = name ∧
          e'.look (child (objectPath bucket key) name) = e.look f := by
  set p := objectPath bucket key with hp
  have hs : ∀ f, mpuDir [] <+: f → f ≠ p := fun f hf heq => hbc (heq ▸ hf)
  have hc : ∀ f, mpuDir [] <+: f → ∀ name, f ≠ child p name :=
    fun f hf name heq => not_mpuDir_prefix hbc _ (heq ▸ hf)
  have hmt : ∀ f, mpuDir [] <+: f → f ≠ metaPath p := fun f hf heq => not_mpuDir_prefix hbc _ (heq ▸ hf)
  rcases complete_steps h with ⟨-, -, hlook⟩ | ⟨-, -, e2, e3, files, etag, hlk, hls, hmv, -, hfn⟩
  · have hsm : ∀ f, f ≠ p → e'.look f = e.look f := fun f hf => by rw [hlook, update_of_ne hf]
    exact ⟨fun f hb _ _ => hsm f (hs f hb), fun name => .inl (hsm _ (child_ne_self p _))⟩
  · -- up to the loop, and behind it
    have hbf : ∀ f, f ≠ p → f ≠ child p mpuMarker → e2.look f = e.look f := by
      intro f hf hm
      rw [hlk, update_of_ne hm, update_of_ne hf]
    have hbh : ∀ f, f ≠ metaPath p → f ≠ child (mpuDir id) keepMarker → e'.look f = e3.look f := by
      intro f hf hk
      rw [hfn, update_of_ne hf, update_of_ne hk]
    have hl : ∀ f ∈ files, mpuDir [] <+: f ∧ f ∈ e.files ∧ Under shardOf (mpuDir id) f := by
      intro f hf
      obtain ⟨hmem, hu⟩ := (hls.mem_iff f).1 hf
      obtain ⟨tail, rfl⟩ := hu.1
      have hb := mpuDir_nil_begins id tail
      rw [mem_files_iff, hbf _ (hs _ hb) (hc _ hb _), ← mem_files_iff] at hmem
      exact ⟨hb, hmem, hu⟩
    obtain ⟨ho, hnew⟩ := look_of_moveParts hls.nodup (fun f hf => hc f (hl f hf).1) hmv
    refine ⟨fun f hb hk hf => ?_, fun name => ?_⟩
    · rw [hbh f (hmt f hb) hk, ho f (fun hmem => hf (hl f hmem).2) (hc f hb), hbf f (hs f hb) (hc f hb _)]
    · have hk : child p name ≠ child (mpuDir id) keepMarker := fun heq =>
        hc (child (mpuDir id) keepMarker) (mpuDir_nil_begins id _) name heq.symm
      rw [hbh _ (metaPath_ne_child p _).symm hk]
      rcases hnew name with hsm | ⟨f, hf, hn, hcn⟩
      · by_cases hm : name = mpuMarker
        · exact .inr (.inl hm)
        · have hne : child p name ≠ child p mpuMarker := fun heq => hm (by simpa [child] using heq)
          exact .inl (by rw [hsm, hbf _ (child_ne_self p _) hne])
      · obtain ⟨hb, hmem, hu⟩ := hl f hf
        exact .inr (.inr ⟨f, hmem, hu, hn, by rw [hcn, hbf f (hs f hb) (hc f hb _)]⟩)

end

/-- Aborting and completing an upload leave alone the parts of other uploads, exactly if none of these is listed
for the id. -/
theorem uploads_isolated_iff (g : Gateway) (shardOf : Text → Nat) (e : Dfs) (id : Text) :
    ((∀ e' x, (calm g.crates shardOf).Runs e (abortMultipartUpload id) e' x → KeepsOthers id e e') ∧
        ∀ bucket key, ¬ mpuDir [] <+: objectPath bucket key → ∀ e' x,
          (calm g.crates shardOf).Runs e (completeMultipartUpload g bucket key id) e' x →
            KeepsOthers id e e' ∧ ExposesOwn shardOf id (objectPath bucket key) e e') ↔
      ∀ id' n, id' ≠ id → partPath id' n ∈ e.files → ¬ Under shardOf (mpuDir id) (partPath id' n) := by
  constructor
  · rintro ⟨habort, -⟩ id' n hne hmem hunder
    have hr := runs_execCalm g.crates shardOf (fun _ => []) (abortMultipartUpload id) e
    have hkept := habort _ _ hr id' n hne
    rcases look_of_abort hr (partPath id' n) with ⟨-, hgone⟩ | ⟨hno, -⟩
    · exact mem_files_iff.1 hmem (hkept.symm.trans hgone)
    · exact hno ⟨hmem, hunder⟩
  · intro hapart
    refine ⟨fun e' x hr id' n hne => ?_, fun bucket key hbucket e' x hr => ⟨fun id' n hne => ?_, fun name => ?_⟩⟩
    · rcases look_of_abort hr (partPath id' n) with ⟨hlisted, -⟩ | ⟨-, hkept⟩
      · exact absurd hlisted.2 (hapart id' n hne hlisted.1)
      · exact hkept
    · refine (look_of_complete hbucket hr).1 _ (mpuDir_nil_begins id' _) (partPath_ne_keep id n) fun hlisted => ?_
      exact hapart id' n hne hlisted.1 hlisted.2
    · rcases (look_of_complete hbucket hr).2 name with hsame | hmarker | ⟨f, hmem, hunder, hname, hcontent⟩
      · exact .inl hsame
      · exact .inr (.inl hmarker)
      · refine .inr (.inr ⟨f, hmem, hunder, hname, hcontent, fun id' n heq => by_contra fun hne => ?_⟩)
        subst heq
        exact hapart id' n hne hmem hunder

def partOfOther : Dfs := .ofFiles plainCrates [(partPath "u1" 1, [65])]

/-- An abort with the empty upload id deletes the part, a completion with the id `u` makes it an object of the
caller.  A completion of another upload to the key `u1/1` of a bucket `.s3_mpu` deletes it as the object that was
there. -/
theorem other_upload_taken :
    (∀ e' x, (calm plainCrates fun _ => 0).Runs partOfOther (abortMultipartUpload []) e' x →
        x = emptyResponse 204 ∧ partOfOther.look (partPath "u1" 1) = some [65] ∧
          e'.look (partPath "u1" 1) = none) ∧
      (∃ e' etag, (calm plainCrates fun _ => 0).Runs partOfOther
        (completeMultipartUpload (openGateway plainCrates) "b" "a" "u") e'
          (xmlResponse 200 (.completeMultipartUpload "http://localhost:9000/b/a" "b" "a" etag)) ∧
        e'.look (partPath "u1" 1) = none ∧ e'.look "/b/a/1" = some [65]) ∧
      ∃ e' x, (calm plainCrates fun _ => 0).Runs partOfOther
          (completeMultipartUpload (openGateway plainCrates) ".s3_mpu" "u1/1" "v") e' x ∧
        succeeded x = true ∧ e'.look (partPath "u1" 1) = none := by
  refine ⟨fun e' x hr => ⟨?_, rfl, ?_⟩, ?_, ?_⟩
  · obtain ⟨files, e1, hlist, h1⟩ := runs_call_bind.1 hr
    obtain ⟨e2, _, -, h2⟩ := Runs.bind_iff.1 h1
    exact (Runs.ret_iff.1 h2).2
  · rcases look_of_abort (g := openGateway plainCrates) hr (partPath "u1" 1) with ⟨-, hgone⟩ | ⟨hno, -⟩
    · exact hgone
    · exact absurd ⟨mem_files_iff.2 (by decide), mpuDir_nil_begins "u1" _, rfl⟩ hno
  · exact ⟨_, _, runs_execCalm plainCrates (fun _ => 0) (fun _ => []) _ _, rfl, rfl⟩
  · exact ⟨_, _, runs_execCalm plainCrates (fun _ => 0) (fun _ => []) _ _, rfl, rfl⟩

end RustHadoop.S3
