import RustHadoop.S3.Retrieval

/-!
# Calls that fail

In the DFS of this module a call may fail at some paths, with any error.  A creation goes through several steps:
the master has the file, a block is allocated and written, the file is completed.  If one of them fails, there is
no file, an entry without blocks, which is read as an empty file (`get_file_content`), a file whose block cannot be
read, or one with the content.  A deletion that fails may have been carried out.

A put is all or nothing as long as some calls do not fail (`put_all_or_nothing_iff`): overwriting is deleting and
creating again, and what becomes of the sidecar is not looked at.
-/

namespace RustHadoop.S3

open Texts Threads Environment Function AList Runs

structure Faults where
  create : Text → Prop
  delete : Text → Prop
  list : Text → Prop
  info : Text → Prop
  content : Text → Prop
  download : Text → Prop
  readRange : Text → Prop

def Faults.none : Faults :=
  ⟨fun _ => False, fun _ => False, fun _ => False, fun _ => False, fun _ => False, fun _ => False,
  fun _ => False⟩

/-- The DFS, and its entries without blocks: the master has created them, and nothing was allocated. -/
structure Entries where
  dfs : Dfs
  bare : Text → Prop
  empty : ∀ path, bare path → dfs.look path = some []

def Entries.ofDfs (e : Dfs) : Entries := ⟨e, fun _ => False, fun _ h => h.elim⟩

def Entries.ReadsBare (e : Entries) : DfsOp → Prop
  | .content path | .download path => e.bare path
  | _ => False

/-- The entries without blocks after a call that is carried out. -/
def Entries.bareAfter (shardOf : Text → Nat) (e : Entries) : DfsOp → Text → Prop
  | .delete path, f => e.bare f ∧ f ≠ path
  | .rename source dest, f =>
    if renames shardOf e.dfs.files source dest then (if f = dest then e.bare source else e.bare f ∧ f ≠ source)
    else e.bare f
  | _, f => e.bare f

def ReadsNothing (e : Dfs) : (o : DfsOp) → o.Result → Dfs → Prop
  | .content _, x, e' => x = .ok [] ∧ e' = e
  | .download path, x, e' => x = .ok [] ∧ e' = { e with downloads := path :: e.downloads }
  | _, _, _ => False

def EntryStep (c : Crates) (shardOf : Text → Nat) (e : Entries) (o : DfsOp) (x : o.Result) (e' : Entries) : Prop :=
  (∀ f, e'.bare f ↔ e.bareAfter shardOf o f) ∧
    (¬ e.ReadsBare o ∧ CalmStep c shardOf e.dfs o x e'.dfs ∨ e.ReadsBare o ∧ ReadsNothing e.dfs o x e'.dfs)

def settled (c : Crates) (shardOf : Text → Nat) : Environment Entries DfsOp DfsOp.Result Empty Empty where
  act := EntryStep c shardOf
  call _ _ r _ _ := r.elim

/-- What a creation leaves that failed: an entry without blocks, or a file whose block was written or not. -/
def LeftOver (path : Text) (content : Bytes) (e e' : Entries) : Prop :=
  ∃ f, e'.dfs = { e.dfs with files := e.dfs.files.insert path f } ∧
    (f.content = [] ∧ (∀ p, e'.bare p ↔ p = path ∨ e.bare p) ∨
      (f.content = [] ∨ f.content = content) ∧ ∀ p, e'.bare p ↔ e.bare p)

/-- What a call that fails may result in. -/
def FailedStep (faults : Faults) (e : Entries) : (o : DfsOp) → o.Result → Entries → Prop
  | .create path content, x, e' => faults.create path ∧ (∃ text, x = .error text) ∧
      (e' = e ∨ path ∉ e.dfs.files ∧ LeftOver path content e e')
  | .delete path, x, e' => faults.delete path ∧ (∃ text, x = .error text) ∧
      (e' = e ∨ e'.dfs = { e.dfs with files := e.dfs.files.erase path } ∧ ∀ f, e'.bare f ↔ e.bare f ∧ f ≠ path)
  | .list path, x, e' => faults.list path ∧ (∃ text, x = .error text) ∧ e' = e
  | .info path, x, e' => faults.info path ∧ (∃ text, x = .error text) ∧ e' = e
  | .content path, x, e' => faults.content path ∧ (∃ text, x = .error text) ∧ e' = e
  | .download path, x, e' => faults.download path ∧ (∃ text, x = .error text) ∧ e' = e
  | .readRange path _ _, x, e' => faults.readRange path ∧ (∃ text, x = .error text) ∧ e' = e
  | _, _, _ => False

def failing (c : Crates) (shardOf : Text → Nat) (faults : Faults) :
    Environment Entries DfsOp DfsOp.Result Empty Empty where
  act e o x e' := EntryStep c shardOf e o x e' ∨ FailedStep faults e o x e'
  call _ _ r _ _ := r.elim

variable {x : Reply} {o : DfsOp} {bucket key : Text}

section

variable {c : Crates} {g : Gateway} {shardOf : Text → Nat} {faults : Faults} {e e' : Entries} {path : Text}
  {content : Bytes}

private theorem Entries.eq_of (hdfs : e'.dfs = e.dfs) (hb : ∀ f, e'.bare f ↔ e.bare f) : e' = e := by
  cases e
  cases e'
  cases hdfs
  cases funext fun f => propext (hb f)
  rfl

private theorem EntryStep.calm {x : o.Result} (h : EntryStep c shardOf e o x e') (ho : ¬ e.ReadsBare o) :
    CalmStep c shardOf e.dfs o x e'.dfs :=
  h.2.elim And.right fun hb => absurd hb.1 ho

private theorem failing_call_bind {α : Type} {k : o.Result → Handler α} {a : α} :
    (failing c shardOf faults).Runs e (call o >>= k) e' a ↔ ∃ x e1,
      (EntryStep c shardOf e o x e1 ∨ FailedStep faults e o x e1) ∧
        (failing c shardOf faults).Runs e1 (k x) e' a := by
  rw [bind_iff]
  constructor
  · rintro ⟨e1, x, hx, hk⟩
    exact ⟨x, e1, perform_iff.1 hx, hk⟩
  · rintro ⟨x, e1, hx, hk⟩
    exact ⟨e1, x, perform_iff.2 hx, hk⟩

private theorem failing_attempt : (failing c shardOf faults).Runs e (attempt o) e' () ↔
    ∃ x, EntryStep c shardOf e o x e' ∨ FailedStep faults e o x e' := by
  rw [attempt, failing_call_bind]
  constructor
  · rintro ⟨x, e1, hx, hr⟩
    obtain ⟨rfl, -⟩ := ret_iff.1 hr
    exact ⟨x, hx⟩
  · rintro ⟨x, hx⟩
    exact ⟨x, e', hx, .ret⟩

private theorem Draws.runs_failing {α : Type} {p : Handler α} {Q : α → Prop} {a : α} (h : Draws p Q)
    (hr : (failing c shardOf faults).Runs e p e' a) : e' = e ∧ Q a := by
  refine Prog.Performs.keeps (I := fun e1 => e1 = e) h ?_ (fun _ _ r => r.elim) e rfl e' a hr
  rintro e1 _ x e2 ⟨n, rfl⟩ rfl ha
  have hs := ha.resolve_right id
  obtain ⟨hl, hdfs⟩ := hs.calm id
  exact ⟨hl, Entries.eq_of hdfs hs.1⟩

private theorem ofDfs_step {d : Dfs} {x : o.Result} (h : EntryStep c shardOf (.ofDfs d) o x e') :
    e' = .ofDfs e'.dfs ∧ CalmStep c shardOf d o x e'.dfs := by
  have hr : ¬ (Entries.ofDfs d).ReadsBare o := by cases o <;> exact id
  refine ⟨Entries.eq_of rfl fun f => ?_, h.calm hr⟩
  rw [h.1]
  cases o <;> simp [Entries.bareAfter, Entries.ofDfs]

private theorem step_ofDfs {d d' : Dfs} {x : o.Result} (h : CalmStep c shardOf d o x d') :
    EntryStep c shardOf (.ofDfs d) o x (.ofDfs d') := by
  refine ⟨fun f => ?_, .inl ⟨by cases o <;> exact id, h⟩⟩
  cases o <;> simp [Entries.bareAfter, Entries.ofDfs]

private theorem look_erase (e : Dfs) (path : Text) :
    ({ e with files := e.files.erase path } : Dfs).look = update e.look path none := by
  funext f
  by_cases hf : f = path
  · subst hf
    simp [Dfs.look]
  · simp [Dfs.look, hf]

private theorem failing_replaceSidecar {m : Metadata} (hdt : ¬ faults.delete (metaPath path))
    (hc : ¬ faults.create (metaPath path))
    (h : (failing c shardOf faults).Runs e (replaceSidecar g.crates path m) e' ()) :
    e'.dfs.look = update e.dfs.look (metaPath path) (some (g.crates.printMetadata m)) := by
  obtain ⟨e1, _, h1, h2⟩ := bind_iff.1 h
  obtain ⟨x, hx⟩ := failing_attempt.1 h1
  obtain ⟨y, hy⟩ := failing_attempt.1 h2
  have hdl := look_of_delete ((hx.resolve_right fun hf => hdt hf.1).calm id)
  rcases look_of_create ((hy.resolve_right fun hf => hc hf.1).calm id) with ⟨-, -, hl⟩ | ⟨hs, -⟩
  · rw [hl, hdl]
    simp
  · rw [hdl] at hs
    simp at hs

private theorem look_of_entry_create {y : Except Text Unit}
    (h : EntryStep c shardOf e (.create path content) y e') :
    e.dfs.look path = none ∧ y = .ok () ∧ e'.dfs.look = update e.dfs.look path (some content) ∨
      e.dfs.look path ≠ none ∧ y = .error alreadyExists ∧ e' = e :=
  (look_of_create (h.calm id)).imp_right fun ⟨hs, hy, hdfs⟩ => ⟨hs, hy, Entries.eq_of hdfs h.1⟩

private theorem failing_createOver {x : Except Text Unit} (hc : ¬ faults.create path)
    (h : (failing c shardOf faults).Runs e (createOver path content) e' x) :
    (∃ text, x = .error text) ∧ e' = e ∨ x = .ok () ∧ e'.dfs.look = update e.dfs.look path (some content) := by
  obtain ⟨y, e1, hy, h1⟩ := failing_call_bind.1 h
  rcases look_of_entry_create (hy.resolve_right fun hf => hc hf.1) with ⟨-, rfl, hl⟩ | ⟨hs, rfl, rfl⟩
  · obtain ⟨rfl, rfl⟩ := ret_iff.1 h1
    exact .inr ⟨rfl, hl⟩
  · replace h1 :
      (failing c shardOf faults).Runs e1 (attempt (.delete path) >>= fun _ => call (.create path content)) e' x :=
      h1
    obtain ⟨e2, _, hdt, h2⟩ := bind_iff.1 h1
    have hcr := (perform_iff.1 h2).resolve_right fun hf => hc hf.1
    obtain ⟨z, hz⟩ := failing_attempt.1 hdt
    have hdl : e2 = e1 ∨ e2.dfs.look = update e1.dfs.look path none := by
      rcases hz with hz | ⟨-, -, rfl | ⟨hdfs, -⟩⟩
      · exact .inr (look_of_delete (hz.calm id))
      · exact .inl rfl
      · exact .inr (hdfs ▸ look_erase _ _)
    rcases look_of_entry_create hcr with ⟨hn, rfl, hl⟩ | ⟨hs', rfl, rfl⟩
    · rcases hdl with rfl | hdl
      · exact absurd hn hs
      · rw [hl, hdl]
        exact .inr ⟨rfl, by simp⟩
    · rcases hdl with rfl | hdl
      · exact .inl ⟨⟨_, rfl⟩, rfl⟩
      · rw [hdl] at hs'
        simp at hs'

def getAnswers (g : Gateway) (shardOf : Text → Nat) (e : Entries) (bucket key : Text) (headers : HeaderMap) :
    Set Reply :=
  {x | ∃ e', (settled g.crates shardOf).Runs e (getObject g bucket key headers) e' x}

/-- A put that fails is not seen by reads of the object, and one that succeeds has left the data and the sidecar of
its body. -/
structure AllOrNothing (g : Gateway) (shardOf : Text → Nat) (bucket key : Text) (body : Bytes)
    (headers : HeaderMap) (e e' : Entries) (x : Reply) : Prop where
  failed : succeeded x = false →
    ∀ headers', getAnswers g shardOf e' bucket key headers' = getAnswers g shardOf e bucket key headers'
  stored : succeeded x = true → ∃ payload content dek, putPayload headers body = some payload ∧
    Seals g payload content dek ∧
    e'.dfs.look (objectPath bucket key) = some content ∧
    e'.dfs.look (metaPath (objectPath bucket key)) =
      some (g.crates.printMetadata (putMetadata (quotedMd5 g.crates payload) headers dek))

private theorem allOrNothing_of_runs {body : Bytes} {headers : HeaderMap}
    (hc : ¬ faults.create (objectPath bucket key)) (hc' : ¬ faults.create (metaPath (objectPath bucket key)))
    (hdl : ¬ faults.delete (metaPath (objectPath bucket key)))
    (h : (failing g.crates shardOf faults).Runs e (putObject g bucket key body headers) e' x) :
    AllOrNothing g shardOf bucket key body headers e e' x := by
  have hk : ∀ {x : Reply}, succeeded x = false → AllOrNothing g shardOf bucket key body headers e e x := fun hx =>
    ⟨fun _ _ => rfl, fun hx' => by rw [hx] at hx'; cases hx'⟩
  unfold putObject at h
  dsimp only at h
  split at h
  · obtain ⟨rfl, rfl⟩ := ret_iff.1 h
    exact hk rfl
  · rename_i payload hp
    obtain ⟨e1, sealed, hsl, h1⟩ := bind_iff.1 h
    obtain ⟨rfl, hs⟩ := draws_sealBody.runs_failing hsl
    split at h1
    · obtain ⟨rfl, rfl⟩ := ret_iff.1 h1
      exact hk rfl
    · rename_i content dek
      obtain ⟨e2, y, hcr, h2⟩ := bind_iff.1 h1
      rcases failing_createOver hc hcr with ⟨⟨text, rfl⟩, rfl⟩ | ⟨rfl, hl⟩
      · obtain ⟨rfl, rfl⟩ := ret_iff.1 h2
        exact hk rfl
      · obtain ⟨e3, _, hsd, h3⟩ := bind_iff.1 h2
        obtain ⟨rfl, rfl⟩ := ret_iff.1 h3
        have hl' := failing_replaceSidecar hdl hc' hsd
        have hne : objectPath bucket key ≠ metaPath (objectPath bucket key) := by simp [metaPath]
        refine ⟨fun hx => Bool.noConfusion hx, fun _ => ⟨payload, content, dek, hp, hs content dek rfl, ?_, ?_⟩⟩
        · rw [hl', update_of_ne hne, hl, update_self]
        · rw [hl', update_self]

variable {d d' : Dfs}

/-- Where every entry has its blocks, handlers answer as in a calm DFS. -/
private theorem runs_ofDfs_iff {α : Type} {p : Handler α} {a : α} :
    (∃ e', (settled c shardOf).Runs (.ofDfs d) p e' a) ↔ ∃ d', (calm c shardOf).Runs d p d' a := by
  constructor
  · rintro ⟨e', h⟩
    generalize he : Entries.ofDfs d = e at h
    induction h generalizing d with
    | ret => exact ⟨d, .ret⟩
    | act hx _ ih =>
      subst he
      obtain ⟨he1, hc⟩ := ofDfs_step hx
      obtain ⟨d', hd'⟩ := ih he1.symm
      exact ⟨d', .act hc hd'⟩
    | @call _ _ _ _ r => exact r.elim
  · rintro ⟨d', h⟩
    refine ⟨.ofDfs d', ?_⟩
    induction h with
    | ret => exact .ret
    | act hx _ ih => exact .act (step_ofDfs hx) ih
    | @call _ _ _ _ r => exact r.elim

private theorem calm_create_taken (h : path ∈ d.files) :
    CalmStep c shardOf d (.create path content) (.error alreadyExists) d := by
  change if path ∈ d.files then _ else _
  rw [if_pos h]
  exact ⟨rfl, rfl⟩

private theorem calm_create_free (h : path ∉ d.files) : CalmStep c shardOf d (.create path content) (.ok ())
    { d with files := d.files.insert path (storedFile c content 0) } := by
  change if path ∈ d.files then _ else _
  rw [if_neg h]
  exact ⟨rfl, 0, rfl⟩

private theorem calm_delete (h : path ∈ d.files) : CalmStep c shardOf d (.delete path) (.ok ())
    { d with files := d.files.erase path } := by
  change if path ∈ d.files then _ else _
  rw [if_pos h]
  exact ⟨rfl, rfl⟩

private theorem calm_delete_none (h : path ∉ d.files) :
    CalmStep c shardOf d (.delete path) (.error notFound) d := by
  change if path ∈ d.files then _ else _
  rw [if_neg h]
  exact ⟨rfl, rfl⟩

private theorem runs_put_of_ok (bucket key : Text) {e1 : Entries}
    (h : (failing plainCrates shardOf faults).Runs e (createOver (objectPath bucket key) content) e1 (.ok ()))
    (h' : (failing plainCrates shardOf faults).Runs e1 (replaceSidecar plainCrates (objectPath bucket key)
      (putMetadata (quotedMd5 plainCrates content) [] none)) e' ()) :
    ∃ x, succeeded x = true ∧
      (failing plainCrates shardOf faults).Runs e
        (putObject (openGateway plainCrates) bucket key content []) e' x := by
  refine ⟨some ⟨200, [("etag", quotedMd5 plainCrates content)], .empty⟩, rfl, ?_⟩
  show (failing plainCrates shardOf faults).Runs e (createOver (objectPath bucket key) content >>= _) e' _
  exact h.bind (h'.bind .ret)

def single (path : Text) (content : Bytes) : Dfs := .ofFiles plainCrates [(path, content)]

private theorem erase_single :
    ({ single path content with files := (single path content).files.erase path } : Dfs) = .empty := by
  have hf : (single path content).files.erase path = ∅ := by
    refine ext ?_
    show ((single path content).files.entries.kerase path) = []
    exact List.kerase_cons_eq rfl
  rw [hf]
  rfl

private theorem overwrite_fails (bucket key : Text)
    (hf : FailedStep faults (.ofDfs .empty) (.create (objectPath bucket key) [66]) (.error []) e') :
    (failing plainCrates shardOf faults).Runs (.ofDfs (single (objectPath bucket key) [65]))
      (putObject (openGateway plainCrates) bucket key [66] []) e' (emptyResponse 500) := by
  have ho : objectPath bucket key ∈ (single (objectPath bucket key) [65]).files := (mem_insert _).2 (.inl rfl)
  have hdl := step_ofDfs (calm_delete (c := plainCrates) ho : CalmStep plainCrates shardOf _ _ _ _)
  rw [erase_single] at hdl
  show (failing plainCrates shardOf faults).Runs _ (createOver (objectPath bucket key) [66] >>= _) _ _
  refine bind (a := .error [])
    (failing_call_bind.2 ⟨.error alreadyExists, _, .inl (step_ofDfs (calm_create_taken ho)), ?_⟩)
    .ret
  show (failing plainCrates shardOf faults).Runs _ (attempt (.delete _) >>= fun _ => call (.create _ [66])) _ _
  exact bind (failing_attempt.2 ⟨.ok (), .inl hdl⟩) (perform_iff.2 (.inr hf))

private theorem get_of_empty (h : (calm c shardOf).Runs .empty (getObject g bucket key []) d' x) :
    x = emptyResponse 404 := by
  obtain ⟨files, hfl, hb⟩ := runs_getObject h
  obtain rfl : files = [] := by
    refine List.eq_nil_iff_forall_not_mem.2 fun f hf => ?_
    exact absurd ((hfl.mem_iff f).1 hf).1 (notMem_empty f)
  have hh : Dfs.empty.head g.crates (objectPath bucket key) = ⟨emptyEtag, defaultModified, none, []⟩ := rfl
  rw [hh] at hb
  rcases hb with ⟨hv, -⟩ | ⟨-, hr⟩
  · exact absurd hv (by decide)
  · replace hr : (calm c shardOf).Runs .empty
        (getWhole g (objectPath bucket key) ⟨emptyEtag, defaultModified, none, []⟩ []) d' x := hr
    obtain ⟨y, e1, hy, h1⟩ := runs_call_bind.1 hr
    obtain ⟨⟨text, rfl⟩, -⟩ : (∃ text, y = .error text) ∧ _ := hy
    exact (ret_iff.1 h1).2

private theorem get_of_single (h : (calm plainCrates shardOf).Runs (single (objectPath bucket key) [65])
      (getObject (openGateway plainCrates) bucket key []) d' x) :
    ∃ fields body, x = some ⟨200, fields, .bytes body⟩ ∧
      (¬ mpuMarker <:+ objectPath bucket key → body = [65]) := by
  have hfile : (single (objectPath bucket key) [65]).files.lookup (objectPath bucket key) =
      some ⟨[65], hexEncode (plainCrates.md5 [65]), 0⟩ := lookup_insert _
  have hs : (single (objectPath bucket key) [65]).look (metaPath (objectPath bucket key)) = none := by
    have hne : metaPath (objectPath bucket key) ≠ objectPath bucket key := by simp [metaPath]
    rw [Dfs.look, single, Dfs.ofFiles, List.foldr_cons, lookup_insert_ne hne]
    rfl
  have hr : (single (objectPath bucket key) [65]).read (objectPath bucket key) = some [65] := by
    rw [Dfs.read, Dfs.look, hfile]
    rfl
  have hh : (single (objectPath bucket key) [65]).head plainCrates (objectPath bucket key) =
      objectHead plainCrates (some ⟨[65], hexEncode (plainCrates.md5 [65]), 0⟩) none := by
    rw [Dfs.head, hfile, Dfs.read, hs]
    rfl
  obtain ⟨files, hfl, hb⟩ := runs_getObject h
  rw [show (openGateway plainCrates).crates = plainCrates from rfl, hh] at hb
  rcases hb with ⟨hv, -⟩ | ⟨-, hrun⟩
  · exact absurd hv (by decide)
  · have hdek : (objectHead plainCrates (some ⟨[65], hexEncode (plainCrates.md5 [65]), 0⟩) none).dek = none := rfl
    split_ifs at hrun with hm
    · obtain ⟨fields, rfl⟩ := runs_getParts (g := openGateway plainCrates) rfl hdek hrun
      refine ⟨fields, _, rfl, fun hmr => absurd ?_ hmr⟩
      -- the marker can only be the file itself
      obtain ⟨f, hf, he⟩ := List.any_eq_true.1 hm
      rcases (mem_insert _).1 ((hfl.mem_iff f).1 hf).1 with rfl | hn
      · exact of_decide_eq_true (Bool.and_eq_true_iff.1 he).2
      · exact absurd hn (notMem_empty f)
    · rw [getSingle_of_no_range rfl] at hrun
      obtain ⟨fields, rfl⟩ := runs_getWhole (g := openGateway plainCrates) rfl hr rfl hrun
      exact ⟨fields, [65], rfl, fun _ => rfl⟩

private theorem put_without_sidecar (shardOf : Text → Nat) (bucket key : Text)
    (hf : faults.create (metaPath (objectPath bucket key))) :
    ∃ e' x, (failing plainCrates shardOf faults).Runs (.ofDfs .empty)
        (putObject (openGateway plainCrates) bucket key [66] []) e' x ∧
      succeeded x = true ∧ e'.dfs.look (metaPath (objectPath bucket key)) = none := by
  have hne : metaPath (objectPath bucket key) ≠ objectPath bucket key := by simp [metaPath]
  have hn : metaPath (objectPath bucket key) ∉
      Dfs.empty.files.insert (objectPath bucket key) (storedFile plainCrates [66] 0) := by
    rw [mem_insert, not_or]
    exact ⟨hne, notMem_empty _⟩
  obtain ⟨x, hx, hr⟩ := runs_put_of_ok bucket key
    (failing_call_bind.2 ⟨.ok (), _, .inl (step_ofDfs (calm_create_free (notMem_empty _))), .ret⟩)
    (bind (failing_attempt.2 ⟨.error notFound, .inl (step_ofDfs (calm_delete_none hn))⟩)
      (failing_attempt.2 ⟨.error [], .inr ⟨hf, ⟨_, rfl⟩, .inl rfl⟩⟩))
  refine ⟨_, x, hr, hx, ?_⟩
  rw [Dfs.look, Entries.ofDfs, lookup_eq_none.2 hn]
  rfl

private theorem put_with_old_sidecar (shardOf : Text → Nat) (bucket key : Text) (old : Bytes)
    (hf : faults.delete (metaPath (objectPath bucket key))) :
    ∃ e' x, (failing plainCrates shardOf faults).Runs (.ofDfs (single (metaPath (objectPath bucket key)) old))
        (putObject (openGateway plainCrates) bucket key [66] []) e' x ∧
      succeeded x = true ∧ e'.dfs.look (metaPath (objectPath bucket key)) = some old := by
  have hne : metaPath (objectPath bucket key) ≠ objectPath bucket key := by simp [metaPath]
  have hfr : objectPath bucket key ∉ (single (metaPath (objectPath bucket key)) old).files := by
    rw [single, Dfs.ofFiles, List.foldr_cons, mem_insert, not_or]
    exact ⟨hne.symm, notMem_empty _⟩
  have ho : metaPath (objectPath bucket key) ∈ (single (metaPath (objectPath bucket key)) old).files.insert
      (objectPath bucket key) (storedFile plainCrates [66] 0) :=
    (mem_insert _).2 (.inr ((mem_insert _).2 (.inl rfl)))
  obtain ⟨x, hx, hr⟩ := runs_put_of_ok bucket key
    (failing_call_bind.2 ⟨.ok (), _, .inl (step_ofDfs (calm_create_free hfr)), .ret⟩)
    (bind (failing_attempt.2 ⟨.error [], .inr ⟨hf, ⟨_, rfl⟩, .inl rfl⟩⟩)
      (failing_attempt.2 ⟨.error alreadyExists, .inl (step_ofDfs (calm_create_taken ho))⟩))
  refine ⟨_, x, hr, hx, ?_⟩
  have hl : (single (metaPath (objectPath bucket key)) old).files.lookup (metaPath (objectPath bucket key)) =
      some ⟨old, hexEncode (plainCrates.md5 old), 0⟩ := lookup_insert _
  rw [Dfs.look, Entries.ofDfs, lookup_insert_ne hne, hl]
  rfl

/-- A put is all or nothing if and only if the creation of its file and of its sidecar and the deletion of an old
sidecar do not fail. -/
theorem put_all_or_nothing_iff (faults : Faults) (bucket key : Text) :
    (∀ g shardOf e e' body headers x, (failing g.crates shardOf faults).Runs e
      (putObject g bucket key body headers) e' x →
        AllOrNothing g shardOf bucket key body headers e e' x) ↔
      ¬ faults.create (objectPath bucket key) ∧ ¬ faults.create (metaPath (objectPath bucket key)) ∧
        ¬ faults.delete (metaPath (objectPath bucket key)) := by
  refine ⟨fun h => ⟨fun hfault => ?_, fun hfault => ?_, fun hfault => ?_⟩, fun h => ?_⟩
  · have hkept := (h (openGateway plainCrates) (fun _ => 0) _ _ _ _ _
      (overwrite_fails bucket key ⟨hfault, ⟨_, rfl⟩, .inl rfl⟩)).failed rfl []
    have hget :=
      runs_execCalm plainCrates (fun _ => 0) (fun _ => []) (getObject (openGateway plainCrates) bucket key [])
      (single (objectPath bucket key) [65])
    obtain ⟨e', hrun⟩ := runs_ofDfs_iff.1 (hkept.symm.subset (runs_ofDfs_iff.2 ⟨_, hget⟩))
    obtain ⟨fields, body, hx, -⟩ := get_of_single hget
    rw [hx] at hrun
    cases get_of_empty hrun
  · obtain ⟨e', x, hrun, hx, hnone⟩ := put_without_sidecar (fun _ => 0) bucket key hfault
    obtain ⟨payload, content, dek, -, -, -, hside⟩ := (h (openGateway plainCrates) _ _ _ _ _ _ hrun).stored hx
    rw [hnone] at hside
    cases hside
  · -- an old sidecar that is longer than the new one
    obtain ⟨e', x, hrun, hx, hold⟩ := put_with_old_sidecar (fun _ => 0) bucket key
      (plainCrates.printMetadata (putMetadata (quotedMd5 plainCrates [66]) [] none) ++ [0]) hfault
    obtain ⟨payload, content, dek, hpayload, hseals, -, hside⟩ :=
      (h (openGateway plainCrates) _ _ _ _ _ _ hrun).stored hx
    obtain ⟨-, rfl⟩ : content = payload ∧ dek = none := hseals
    obtain rfl : [66] = payload := Option.some.inj hpayload
    have hlength := congrArg (Option.map List.length) (hold.symm.trans hside)
    simp [openGateway, staticGateway] at hlength
  · intro g shardOf e e' body headers x hrun
    exact allOrNothing_of_runs h.1 h.2.1 h.2.2 hrun

end

def emptied : Entries where
  dfs := ⟨(∅ : Store).insert "/b/a" ⟨[], [], 0⟩, [], []⟩
  bare f := f = "/b/a".toList
  empty := by
    rintro _ rfl
    rfl

/-- The second creation of an overwrite gets no chunk server: the put is answered with 500, and the object is
empty. -/
theorem overwritten_object_emptied :
    (failing plainCrates (fun _ => 0) { Faults.none with create := fun path => path = "/b/a".toList }).Runs
        (.ofDfs (single (objectPath "b" "a") [65])) (putObject (openGateway plainCrates) "b" "a" [66] []) emptied
        (emptyResponse 500) ∧
      (∀ x ∈ getAnswers (openGateway plainCrates) (fun _ => 0)
        (.ofDfs (single (objectPath "b" "a") [65])) "b" "a" [],
        x.map (fun r => (r.status, r.body)) = some (200, .bytes [65])) ∧
      ∃ x ∈ getAnswers (openGateway plainCrates) (fun _ => 0) emptied "b" "a" [],
        x.map (fun r => (r.status, r.body)) = some (200, .bytes []) := by
  refine ⟨overwrite_fails "b" "a" ⟨rfl, ⟨_, rfl⟩, .inr ⟨notMem_empty _, _, rfl, .inl ⟨rfl, fun p => ?_⟩⟩⟩,
    fun x hx => ?_, ?_⟩
  · exact (or_iff_left id).symm
  · obtain ⟨d', hrun⟩ := runs_ofDfs_iff.1 hx
    obtain ⟨fields, body, rfl, hbody⟩ := get_of_single hrun
    rw [hbody (by decide)]
    rfl
  · have hcalm := calmStep_spec plainCrates (fun _ => 0) (fun _ => []) emptied.dfs
    have hstays : ∀ o, (∀ f, emptied.bareAfter (fun _ => 0) o f ↔ emptied.bare f) → ¬ emptied.ReadsBare o →
        ∀ x, CalmStep plainCrates (fun _ => 0) emptied.dfs o x emptied.dfs →
          EntryStep plainCrates (fun _ => 0) emptied o x emptied :=
      fun o hbare hreads x hx => ⟨fun f => (hbare f).symm, .inl ⟨hreads, hx⟩⟩
    have hmeta : metaPath (objectPath "b" "a") ≠ "/b/a".toList := by decide
    have hread : EntryStep plainCrates (fun _ => 0) emptied (.download (objectPath "b" "a")) (.ok [])
        ⟨{ emptied.dfs with downloads := ["/b/a"] }, emptied.bare, emptied.empty⟩ :=
      ⟨fun _ => .rfl, .inr ⟨rfl, rfl, rfl⟩⟩
    have hrun :
      ∃ fields e', (settled plainCrates fun _ => 0).Runs emptied
        (getObject (openGateway plainCrates) "b" "a" []) e'
        (some ⟨200, fields, .bytes []⟩) :=
      ⟨_, _, .act (hstays (.list _) (fun _ => .rfl) id _ (hcalm (.list _))) <|
        .act (hstays (.info _) (fun _ => .rfl) id _ (hcalm (.info _))) <|
        .act (hstays (.content _) (fun _ => .rfl) hmeta _ (hcalm (.content _))) <| .act hread .ret⟩
    obtain ⟨fields, e', hrun⟩ := hrun
    exact ⟨_, ⟨e', hrun⟩, rfl⟩

end RustHadoop.S3
