import RustHadoop.S3.Effects
import RustHadoop.S3.Gateway

/-!
# The footprint of an operation

Which calls the handler of an operation can come to, whatever its calls result in: the files it downloads, creates,
deletes and moves, and what it writes.  Reading sidecars, listing, drawing ids and the like is not recorded.
Everything that a handler leaves alone is read off its footprint (`Operation.performs`).
-/

namespace RustHadoop.S3

open Texts Threads List

structure Footprint where
  downloads : Text → Prop := fun _ => False
  creates : Text → Bytes → Prop := fun _ _ => False
  deletes : Text → Prop := fun _ => False
  moves : Text → Text → Prop := fun _ _ => False

def Footprint.Allows (F : Footprint) : DfsOp → Prop
  | .create path content => F.creates path content
  | .delete path => F.deletes path
  | .rename source dest => F.moves source dest
  | .download path | .readRange path _ _ => F.downloads path
  | _ => True

def Performs {α : Type} (F : Footprint) (p : Handler α) (Q : α → Prop) : Prop := p.Performs Answers F.Allows Q

/-- A put or a copy writes a sealed payload and a sidecar with its entity tag and key. -/
def objectWrites (g : Gateway) (path : Text) (headers : HeaderMap) (f : Text) (content : Bytes) : Prop :=
  (f = path ∧ ∃ payload dek, Seals g payload content dek) ∨
    f = metaPath path ∧
      ∃ payload dek, content = g.crates.printMetadata (putMetadata (quotedMd5 g.crates payload) headers dek)

def Operation.footprint (g : Gateway) : Operation → Footprint
  | .getBucketPolicy _ | .headBucket _ | .listObjects _ _ | .listObjectsV2 _ _ | .headObject _ _ => {}
  | .putBucketPolicy bucket body => { creates := fun f content => f = policyPath bucket ∧ content = body }
  | .deleteBucketPolicy bucket => { deletes := fun f => f = policyPath bucket }
  | .createBucket bucket => { creates := fun f content => f = objectPath bucket keepMarker ∧ content = [] }
  | .deleteBucket bucket => { deletes := fun f => f = objectPath bucket keepMarker }
  | .initiateMultipartUpload _ _ =>
    { creates := fun f content => ∃ uploadId, f = child (mpuDir uploadId) keepMarker ∧ content = [] }
  | .deleteMultipleObjects bucket body =>
    { deletes := fun f => ∃ key ∈ deleteKeys g.crates body, f = objectPath bucket key }
  | .uploadPart _ _ uploadId n body =>
    { creates := fun f content => f = partPath uploadId n ∧ content = body ∨
        f = partPath uploadId n ++ etagSuffix ∧ content = utf8 (quotedMd5 g.crates body) }
  | .completeMultipartUpload bucket key uploadId =>
    { creates := fun f content => f = child (objectPath bucket key) mpuMarker ∧ content = [] ∨
        f = metaPath (objectPath bucket key) ∧ ∃ parts,
          content = g.crates.printMetadata (Metadata.insert [] etagKey (mpuEtag g.crates parts))
      deletes := fun f => f = objectPath bucket key ∨ mpuDir uploadId <+: f
      moves := fun f dest => mpuDir uploadId <+: f ∧ ¬ etagSuffix <:+ f ∧
        dest = child (objectPath bucket key) (fileName f) }
  | .abortMultipartUpload _ _ uploadId => { deletes := fun f => mpuDir uploadId <+: f }
  | .copyObject bucket key source =>
    { downloads := fun f => f = '/' :: copySource g.crates source
      creates := objectWrites g (objectPath bucket key) []
      deletes := fun f => f = metaPath (objectPath bucket key) }
  | .putObject bucket key _ headers =>
    { creates := objectWrites g (objectPath bucket key) headers
      deletes := fun f => f = objectPath bucket key ∨ f = metaPath (objectPath bucket key) }
  | .getObject bucket key _ =>
    { downloads := fun f => f = objectPath bucket key ∨
        objectPath bucket key <+: f ∧ (partNumber? (objectPath bucket key) f).isSome = true }
  | .deleteObject bucket key => { deletes := fun f => objectPath bucket key <+: f }

variable {g : Gateway} {bucket f key path : Text} {params : S3Query} {headers : HeaderMap}
  {files : List Text} {o : DfsOp}
  {c : Crates} {body : Bytes} {r : Request} {l : Listed}

section

variable {α β : Type} {F : Footprint} {Q : α → Prop}

namespace Performs

theorem ret {a : α} : Performs F (pure a) fun _ => True := trivial

theorem ite {c : Prop} [Decidable c] {p q : Handler α} (hp : c → Performs F p Q) (hq : ¬ c → Performs F q Q) :
    Performs F (if c then p else q) Q := by
  split_ifs with h
  · exact hp h
  · exact hq h

theorem call (h : F.Allows o) : Performs F (call o) (Answers o) := ⟨h, fun _ hx => hx⟩

theorem bind {p : Handler β} {P : β → Prop} {f : β → Handler α} (hp : Performs F p P)
    (hf : ∀ b, P b → Performs F (f b) Q) : Performs F (p >>= f) Q := Prog.Performs.bind hp hf

theorem each {f : β → Handler Unit} {l : List β} (h : ∀ b ∈ l, Performs F (f b) fun _ => True) :
    Performs F (Prog.each f l) fun _ => True := Prog.Performs.each h

private theorem foldlM {f : α → β → Handler α} (h : ∀ a b, Performs F (f a b) fun _ => True) (l : List β) (a : α) :
    Performs F (l.foldlM f a) fun _ => True := Prog.Performs.foldlM h l a

theorem attempt (h : F.Allows o) : Performs F (attempt o) fun _ => True := .bind (call h) fun _ _ => ret

end Performs

section

variable {P : DfsOp → Prop}

theorem performs_readSidecar (f : Text) (h : P (.content (metaPath f))) :
    (readSidecar c f).Performs Answers P fun _ => True := by
  refine .bind (.perform h) fun x _ => ?_
  split <;> exact trivial

theorem performs_readParts {dek : Option Text} (h : ∀ f ∈ files, P (.download f)) :
    (readParts g dek files).Performs Answers P fun _ => True := by
  induction files with
  | nil => exact trivial
  | cons f rest ih =>
    have ih := ih fun f hf => h f (mem_cons_of_mem _ hf)
    refine .bind (.perform (h f mem_cons_self)) fun x _ => ?_
    split
    · exact ih
    · split
      · exact trivial
      · exact .bind ih fun _ _ => trivial

variable {head : ObjectHead}

private theorem performs_getWhole (h : P (.download f)) :
    (getWhole g f head headers).Performs Answers P fun _ => True := by
  refine .bind (.perform h) fun x _ => ?_
  split
  · exact trivial
  · split <;> exact trivial

variable (hinfo : P (.info f)) (h : P (.download f)) (hrange : ∀ offset length, P (.readRange f offset length))

include hinfo h hrange

private theorem performs_readRanged {parts : Text × Text} :
    (readRanged f head parts).Performs Answers P fun _ => True := by
  refine .bind (.perform hinfo) fun x _ => ?_
  split
  · refine .bind (.perform h) fun y _ => ?_
    split
    · exact trivial
    · split
      · exact trivial
      · refine .bind (.perform (hrange _ _)) fun z _ => ?_
        split <;> exact trivial
  · exact trivial

theorem performs_getSingle : (getSingle g f head headers).Performs Answers P fun _ => True := by
  unfold getSingle
  split
  · refine .bind (performs_readRanged hinfo h hrange) fun x _ => ?_
    split
    · exact trivial
    · exact performs_getWhole h
  · exact performs_getWhole h

/-- `get_object` once the path is listed. -/
def getListed (g : Gateway) (path : Text) (headers : HeaderMap) (files : List Text) : Handler Reply := do
  let info := (okay (← call (.info path))).join
  let sidecar ← readSidecar g.crates path
  let head := objectHead g.crates info sidecar
  if !head.valid then return none
  else if isMultipart path files then getParts g head (partFiles path files) headers
  else getSingle g path head headers

theorem performs_getListed (hs : P (.content (metaPath f)))
    (hp : isMultipart f files = true → ∀ part ∈ partFiles f files, P (.download part)) :
    (getListed g f headers files).Performs Answers P fun _ => True := by
  refine .bind (.perform hinfo) fun info _ => .bind (performs_readSidecar f hs) fun sidecar _ => ?_
  dsimp only
  split
  · exact trivial
  · split
    · rename_i hm
      refine .bind (performs_readParts (hp hm)) fun x _ => ?_
      split <;> exact trivial
    · exact performs_getSingle hinfo h hrange

end

theorem mem_partFiles : f ∈ partFiles path files ↔ f ∈ files ∧ (partNumber? path f).isSome = true := by
  unfold partFiles
  simp only [mem_map, mem_insertionSort, mem_filterMap, Option.map_eq_some_iff, Option.isSome_iff_exists]
  constructor
  · rintro ⟨_, ⟨f', hf, n, hn, rfl⟩, rfl⟩
    exact ⟨hf, n, hn⟩
  · rintro ⟨hf, n, hn⟩
    exact ⟨(n, f), ⟨f, hf, n, hn, rfl⟩, rfl⟩

private theorem performs_getObject :
    Performs ((Operation.getObject bucket key headers).footprint g) (getObject g bucket key headers) fun _ =>
      True := by
  refine .bind (.call trivial) fun files hfl =>
    performs_getListed trivial (.inl rfl) (fun _ _ => .inl rfl) trivial ?_
  intro _ f hf
  obtain ⟨hmem, hp⟩ := mem_partFiles.1 hf
  exact .inr ⟨hfl f hmem, hp⟩

private theorem performs_headObject : Performs F (headObject g bucket key) fun _ => True := by
  refine .bind (.call trivial) fun files _ => ?_
  dsimp only
  split
  · exact .bind (performs_readSidecar _ trivial) fun _ _ => .bind (.call trivial) fun _ _ => .ret
  · refine .bind (.call trivial) fun info _ => ?_
    split
    · exact .bind (performs_readSidecar _ trivial) fun _ _ => .ret
    · split
      · refine .bind (.call trivial) fun x _ => ?_
        split <;> exact .ret
      · exact .ret
    · exact .ret

private theorem performs_objectEntry : Performs F (objectEntry g f key) fun _ => True := by
  refine .bind (.call trivial) fun x _ => ?_
  split <;> exact .ret

theorem performs_listFile {mpu : List Text} : Performs F (listFile g bucket params mpu l f) fun _ => True := by
  unfold listFile
  repeat' split
  all_goals first | exact .ret | exact .bind performs_objectEntry fun _ _ => .ret

private theorem performs_listUploaded : Performs F (listUploaded g bucket params l f) fun _ => True := by
  unfold listUploaded
  repeat' split
  all_goals first | exact .ret | exact .bind (performs_readSidecar _ trivial) fun _ _ => .ret

private theorem performs_listObjects : Performs F (listObjects g bucket params) fun _ => True := by
  refine .bind (.call trivial) fun x _ => ?_
  split
  · exact .ret
  · exact .bind (.foldlM (fun _ _ => performs_listFile) _ _) fun _ _ =>
      .bind (.foldlM (fun _ _ => performs_listUploaded) _ _) fun _ _ => .ret

private theorem performs_listPage {maxKeys : Int} (previous : Option Text) (files : List Text) (page : Page) :
    Performs F (listPage g bucket params maxKeys previous files page) fun _ => True := by
  induction files generalizing previous page with
  | nil => exact .ret
  | cons f rest ih =>
    unfold listPage
    dsimp only
    repeat' split
    all_goals first | exact .ret | exact ih _ _ | exact .bind performs_objectEntry fun _ _ => ih _ _

private theorem performs_listObjectsV2 : Performs F (listObjectsV2 g bucket params) fun _ => True := by
  refine .bind (.call trivial) fun x _ => ?_
  split
  · exact .ret
  · exact .bind (performs_listPage _ _ _) fun _ _ => .ret

private theorem performs_listBuckets : Performs F listBuckets fun _ => True := by
  refine .bind (.call trivial) fun x _ => ?_
  split <;> exact .ret

theorem performs_checkBucketPolicy {p : Principal} : Performs F (checkBucketPolicy g r p) fun _ => True := by
  refine .ite (fun _ => .ret) fun _ => ?_
  split
  · exact .ret
  · exact .bind (.call trivial) fun _ _ => .ret

private theorem performs_sealBody {payload : Bytes} :
    Performs F (sealBody g payload) fun x => ∀ content dek, x = some (content, dek) →
      Seals g payload content dek := by
  refine draws_sealBody.mono ?_ fun _ h => h
  rintro _ ⟨n, rfl⟩
  exact trivial

private theorem performs_replaceSidecar {m : Metadata} (hdl : F.deletes (metaPath f))
    (hc : F.creates (metaPath f) (c.printMetadata m)) : Performs F (replaceSidecar c f m) fun _ => True :=
  .bind (.attempt hdl) fun _ _ => .attempt hc

private theorem performs_createOver {content : Bytes} (hdl : F.deletes f) (hc : F.creates f content) :
    Performs F (createOver f content) fun _ => True := by
  refine .bind (.call hc) fun x _ => ?_
  split
  · exact .ret
  · exact .ite (fun _ => .bind (.attempt hdl) fun _ _ => .call hc) fun _ => .ret

private theorem performs_putObject :
    Performs ((Operation.putObject bucket key body headers).footprint g) (putObject g bucket key body headers)
      fun _ => True := by
  unfold putObject
  dsimp only
  split
  · exact .ret
  · refine .bind performs_sealBody fun x hx => ?_
    split
    · exact .ret
    · rename_i content dek
      refine .bind (performs_createOver (.inl rfl) (.inl ⟨rfl, _, dek, hx content dek rfl⟩)) fun y _ => ?_
      split
      · exact .ret
      · exact .bind (performs_replaceSidecar (.inr rfl) (.inr ⟨rfl, _, _, rfl⟩)) fun _ _ => .ret

private theorem performs_copyObject {source : Text} :
    Performs ((Operation.copyObject bucket key source).footprint g) (copyObject g bucket key source) fun _ =>
      True := by
  refine .bind (.call rfl) fun x _ => ?_
  split
  · exact .ret
  · refine .bind (performs_readSidecar _ trivial) fun sidecar _ => ?_
    dsimp only
    split
    · exact .ret
    · refine .bind performs_sealBody fun y hy => ?_
      split
      · exact .ret
      · rename_i content dek
        refine .bind (.call (.inl ⟨rfl, _, dek, hy content dek rfl⟩)) fun z _ => ?_
        split
        · exact .ret
        · exact .bind (performs_replaceSidecar rfl (.inr ⟨rfl, _, _, rfl⟩)) fun _ _ =>
            .bind (.call trivial) fun _ _ => .ret

private theorem performs_deleteObject :
    Performs ((Operation.deleteObject bucket key).footprint g) (deleteObject bucket key) fun _ => True := by
  refine .bind (.attempt prefix_rfl) fun _ _ => .bind (.call trivial) fun files hfl =>
    .bind (.each fun f hf => ?_) fun _ _ => .bind (.attempt (prefix_append _ _)) fun _ _ => .ret
  exact .ite (fun _ => .attempt (hfl f hf)) fun _ => .ret

private theorem performs_deleteKeysOf {keys : List Text} (h : ∀ key ∈ keys, F.deletes (objectPath bucket key)) :
    Performs F (deleteKeysOf bucket keys) fun _ => True := by
  induction keys with
  | nil => exact .ret
  | cons key rest ih =>
    have ih := ih fun k hk => h k (mem_cons_of_mem _ hk)
    refine .bind (.call (h key mem_cons_self)) fun x _ => ?_
    split
    · exact .bind ih fun _ _ => .ret
    · exact .bind ih fun _ _ => .ite (fun _ => .ret) fun _ => .ret

private theorem performs_deleteMultipleObjects :
    Performs ((Operation.deleteMultipleObjects bucket body).footprint g) (deleteMultipleObjects g bucket body)
      fun _ => True := by
  unfold deleteMultipleObjects
  split
  · exact .ret
  · rename_i keys hk
    refine .bind (performs_deleteKeysOf fun key hkey => ⟨key, ?_, rfl⟩) fun _ _ => .ret
    rwa [deleteKeys, hk]

theorem performs_readEtags (files : List Text) : Performs F (readEtags files) fun _ => True := by
  induction files with
  | nil => exact .ret
  | cons f rest ih =>
    unfold readEtags
    split
    · exact ih
    · refine .bind (.call trivial) fun x _ => ?_
      split
      · exact ih
      · exact .bind ih fun _ _ => .ret

private theorem performs_deleteExisting (h : F.deletes f) : Performs F (deleteExisting f files) fun _ => True :=
  .ite (fun _ => .attempt h) fun _ => .ret

private theorem performs_completeMultipartUpload {uploadId : Text} :
    Performs ((Operation.completeMultipartUpload bucket key uploadId).footprint g)
      (completeMultipartUpload g bucket key uploadId) fun _ => True := by
  refine .bind (.call trivial) fun _ _ => .bind (performs_readEtags _) fun parts _ =>
    .bind (.call trivial) fun existing _ =>
    .bind (performs_deleteExisting (.inl rfl)) fun _ _ => .bind (.call (.inl ⟨rfl, rfl⟩)) fun x _ => ?_
  split
  · exact .ret
  · refine .bind (.call trivial) fun files hfl => .bind (.each fun f hf => ?_) fun _ _ =>
      .bind (.attempt (.inr (prefix_append _ _))) fun _ _ => .bind (.attempt (.inr ⟨rfl, _, rfl⟩)) fun _ _ => .ret
    exact .ite (fun _ => .ret) fun _ => .ite (fun _ => .attempt (.inr (hfl f hf))) fun he =>
      .attempt ⟨hfl f hf, he, rfl⟩

theorem Operation.performs (op : Operation) : Performs (op.footprint g) (op.run g) fun _ => True := by
  cases op with
  | getBucketPolicy bucket =>
    refine .bind (.call trivial) fun x _ => ?_
    split
    · exact .ite (fun _ => .ret) fun _ => .ret
    · exact .ret
  | putBucketPolicy bucket body =>
    unfold Operation.run S3.putBucketPolicy
    dsimp only
    split
    · exact .ret
    · refine .bind (.call ⟨rfl, rfl⟩) fun x _ => ?_
      split <;> exact .ret
  | deleteBucketPolicy bucket => exact .bind (.attempt rfl) fun _ _ => .ret
  | createBucket bucket =>
    refine .bind (.call ⟨rfl, rfl⟩) fun x _ => ?_
    split <;> exact .ret
  | deleteBucket bucket =>
    refine .bind (.call trivial) fun x _ => ?_
    split
    · exact .ret
    · exact .ite (fun _ => .bind (.attempt rfl) fun _ _ => .ret) fun _ => .ret
  | headBucket bucket =>
    refine .bind (.call trivial) fun x _ => ?_
    split <;> exact .ret
  | listObjects bucket params => exact performs_listObjects
  | listObjectsV2 bucket params => exact performs_listObjectsV2
  | initiateMultipartUpload bucket key =>
    exact .bind (.call trivial) fun uploadId _ => .bind (.attempt ⟨uploadId, rfl, rfl⟩) fun _ _ => .ret
  | deleteMultipleObjects bucket body => exact performs_deleteMultipleObjects
  | uploadPart bucket key uploadId n body =>
    refine .bind (.call (.inl ⟨rfl, rfl⟩)) fun x _ => ?_
    split
    · exact .ret
    · exact .bind (.attempt (.inr ⟨rfl, rfl⟩)) fun _ _ => .ret
  | completeMultipartUpload bucket key uploadId => exact performs_completeMultipartUpload
  | abortMultipartUpload bucket key uploadId =>
    exact .bind (.call trivial) fun files hfl => .bind (.each fun f hf => .attempt (hfl f hf)) fun _ _ => .ret
  | copyObject bucket key source => exact performs_copyObject
  | putObject bucket key body headers => exact performs_putObject
  | getObject bucket key headers => exact performs_getObject
  | deleteObject bucket key => exact performs_deleteObject
  | headObject bucket key => exact performs_headObject

theorem performs_forward (g : Gateway) (r : Request) :
    (∃ op, route g.crates r = .operation op ∧ Performs (op.footprint g) (forward g r) fun _ => True) ∨
      Performs {} (forward g r) fun _ => True := by
  unfold forward
  split
  · rename_i op hop
    exact .inl ⟨op, hop, .bind op.performs fun _ _ => .ret⟩
  · exact .inr (.bind performs_listBuckets fun _ _ => .ret)
  · exact .inr .ret
  · exact .inr .ret
  · exact .inr .ret

theorem performs_handle {clock : Clock} {cache : SigningKeyCache}
    (h : Performs F (forward g r) fun _ => True) : Performs F (handle g clock cache r).1 fun _ => True := by
  unfold handle
  split
  · exact .ret
  · rename_i a _ _
    cases a with
    | verified s => exact .bind performs_checkBucketPolicy fun pass _ => .ite (fun _ => h) fun _ => .ret
    | unchecked => exact h
    | skipped => exact h

end

/-- A path that no operation of the footprint changes. -/
def Footprint.Spares (F : Footprint) (path : Text) : Prop :=
  (∀ content, ¬ F.creates path content) ∧ ¬ F.deletes path ∧ ∀ f, ¬ F.moves path f ∧ ¬ F.moves f path

theorem Footprint.Spares.notMem {F : Footprint} (h : F.Spares path) (ho : F.Allows o) : path ∉ o.touches := by
  intro hmem
  cases o with
  | create f content =>
    cases mem_singleton.1 hmem
    exact h.1 content ho
  | delete f =>
    cases mem_singleton.1 hmem
    exact h.2.1 ho
  | rename source dest =>
    rcases mem_cons.1 hmem with rfl | hmem
    · exact (h.2.2 dest).1 ho
    · cases mem_singleton.1 hmem
      exact (h.2.2 source).2 ho
  | _ => exact absurd hmem not_mem_nil

def Footprint.reading (P : Text → Prop) : Footprint := { downloads := P }

theorem Footprint.reading_spares (P : Text → Prop) (path : Text) : (Footprint.reading P).Spares path :=
  ⟨fun _ h => h, fun h => h, fun _ => ⟨fun h => h, fun h => h⟩⟩

variable {shardOf : Text → Nat} {x : o.Result}

private theorem answers_of_faulty {e e' : Dfs} (h : (faulty shardOf).act e o x e') : Answers o x := by
  cases o with
  | list path =>
    intro f hf
    match x, h.1, hf with
    | .ok fs, ht, hf => exact (((ht fs rfl).mem_iff f).1 hf).2.1
    | .error _, _, hf => exact absurd hf not_mem_nil
  | random n => exact h.1
  | _ => trivial

theorem answers_of_calmStep {e e' : Dfs} (h : CalmStep c shardOf e o x e') : Answers o x :=
  have ha : (faulty shardOf).act e o x e' := ⟨truthful_of_calmStep h, changesOnly_of_calmStep h⟩
  answers_of_faulty ha

theorem Performs.lookup_eq {α : Type} {F : Footprint} {p : Handler α} {Q : α → Prop} (h : Performs F p Q)
    (hs : F.Spares path) {e e' : Dfs} {a : α} (hr : (faulty shardOf).Runs e p e' a) :
    e'.files.lookup path = e.files.lookup path := by
  refine (Prog.Performs.keeps (I := fun e1 => e1.files.lookup path = e.files.lookup path) h ?_ ?_ e rfl e' a hr).1
  · intro e1 o x e2 ho he ha
    exact ⟨answers_of_faulty ha, (ha.2 path (hs.notMem ho)).trans he⟩
  · exact fun _ _ r => r.elim

end RustHadoop.S3
