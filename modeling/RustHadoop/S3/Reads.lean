import RustHadoop.S3.Footprints
import RustHadoop.S3.Reference

/-!
# Reading other objects

A request that was let through for one object may read the bytes of others: a copy downloads its source, and
`get_object` takes every numbered file whose path begins with that of an object uploaded in parts for a part of
it.  The policies of the role are asked for neither.

The DFS keeps a record of what is downloaded.  `read_allowed_iff` compares it with what the role may read.
-/

namespace RustHadoop.S3

open Texts Threads Environment List

def readAllowed (g : Gateway) (p : Principal) (name : Text) : Bool :=
  match p.roleArn, g.policyEvaluator, p.context with
  | some role, some config, some ctx => config.evaluate g.crates S3Action.getObject.text (arn name) role ctx
  | _, _, _ => true

def delivered (x : Reply) : Bool := x.any fun r => r.status = 200 || r.status = 206

def Operation.path : Operation → Text
  | .initiateMultipartUpload bucket key | .uploadPart bucket key _ _ _ | .completeMultipartUpload bucket key _
  | .abortMultipartUpload bucket key _ | .copyObject bucket key _ | .putObject bucket key _ _ | .getObject
      bucket key _
  | .deleteObject bucket key | .headObject bucket key => objectPath bucket key
  | .getBucketPolicy bucket | .putBucketPolicy bucket _ | .deleteBucketPolicy bucket | .createBucket bucket
  | .deleteBucket bucket | .headBucket bucket | .listObjects bucket _ | .listObjectsV2 bucket _
  | .deleteMultipleObjects bucket _ => '/' :: bucket

/-- A file that `get_object` lists for the path. -/
def Dfs.Lists (e : Dfs) (shardOf : Text → Nat) (path f : Text) : Prop :=
  f ∈ e.files ∧ path <+: f ∧ shardOf f = shardOf path

/-- Files of other objects that an operation downloads: the source of a copy, and what is taken for a part. -/
def Operation.ForeignRead (g : Gateway) (shardOf : Text → Nat) (e : Dfs) (f : Text) : Operation → Prop
  | .copyObject bucket key source => f = '/' :: copySource g.crates source ∧ ¬ OwnFile (objectPath bucket key) f
  | .getObject bucket key _ =>
    (∃ marker, e.Lists shardOf (objectPath bucket key) marker ∧ mpuMarker <:+ marker) ∧
      e.Lists shardOf (objectPath bucket key) f ∧ (partNumber? (objectPath bucket key) f).isSome = true ∧
        e.read f ≠ none ∧
      ¬ OwnFile (objectPath bucket key) f
  | _ => False

variable {F : Footprint} {r : Request} {cache : SigningKeyCache} {o : DfsOp} {op : Operation} {clock : Clock}
  {s : Session}
  {y : o.Result}

section

variable {g : Gateway} {shardOf : Text → Nat} {e e' : Dfs} {x : Reply}

variable {c : Crates}

private theorem downloads_of_calmStep (h : CalmStep c shardOf e o y e') : e'.downloads = e.downloads ∨
      ∃ f, e'.downloads = f :: e.downloads ∧ e.read f ≠ none ∧ ∀ F : Footprint, F.Allows o → F.downloads f := by
  cases o with
  | create path content =>
    change if path ∈ e.files then _ else _ at h
    split_ifs at h
    · exact .inl (by rw [h.2])
    · obtain ⟨-, t, rfl⟩ := h
      exact .inl rfl
  | delete path =>
    change if path ∈ e.files then _ else _ at h
    split_ifs at h <;> exact .inl (by rw [h.2])
  | rename source dest =>
    change if renames shardOf e.files source dest then _ else _ at h
    split_ifs at h <;> exact .inl (by rw [h.2])
  | download path =>
    simp only [CalmStep] at h
    split at h
    · rename_i hr
      exact .inr ⟨path, by rw [h.2], by simp [hr], fun F ho => ho⟩
    · exact .inl (by rw [h.2])
  | readRange path offset length =>
    simp only [CalmStep] at h
    split at h
    · rename_i hr
      exact .inr ⟨path, by rw [h.2], by simp [(Option.filter_eq_some_iff.1 hr).1], fun F ho => ho⟩
    · exact .inl (by rw [h.2])
  | now => exact .inl (by rw [(h : e' = e)])
  | _ => exact .inl (by rw [h.2])

private theorem mem_downloads {P : Text → Prop}
    (h : CalmStep c shardOf e o y e') (ho : F.Allows o) (hF : ∀ f, F.downloads f → e.read f ≠ none → P f)
    (hP : ∀ f ∈ e.downloads, P f) : ∀ f ∈ e'.downloads, P f := by
  intro f hf
  rcases downloads_of_calmStep h with hl | ⟨f', hl, hr, hF'⟩
  · exact hP f (hl ▸ hf)
  · rw [hl] at hf
    rcases mem_cons.1 hf with rfl | hf
    · exact hF f (hF' F ho) hr
    · exact hP f hf

theorem Performs.downloads {α : Type} {p : Handler α} {Q : α → Prop} {a : α}
    (h : Performs F p Q) (hr : (calm c shardOf).Runs e p e' a) :
    ∀ f ∈ e'.downloads, f ∈ e.downloads ∨ F.downloads f := by
  refine (Prog.Performs.keeps (I := fun e1 => ∀ f ∈ e1.downloads, f ∈ e.downloads ∨ F.downloads f) h ?_
    (fun _ _ r => r.elim)
    e (fun f hf => .inl hf) e' a hr).1
  intro e1 o y e2 ho hI ha
  exact ⟨answers_of_calmStep ha, mem_downloads ha ho (fun f hf _ => .inr hf) hI⟩

private theorem read_eq_of_spares (hF : ∀ f, F.Spares f)
    (h : CalmStep c shardOf e o y e') (ho : F.Allows o) : e'.read = e.read := by
  funext f
  rw [Dfs.read, Dfs.read, Dfs.look, Dfs.look, changesOnly_of_calmStep h f ((hF f).notMem ho)]

private theorem Performs.downloads_readable {α : Type} (hF : ∀ f, F.Spares f) {p : Handler α} {Q : α → Prop}
    {a : α} (h : Performs F p Q) (hr : (calm c shardOf).Runs e p e' a) :
    ∀ f ∈ e'.downloads, f ∈ e.downloads ∨ F.downloads f ∧ e.read f ≠ none := by
  refine (Prog.Performs.keeps (I := fun e1 => e1.read = e.read ∧
    ∀ f ∈ e1.downloads, f ∈ e.downloads ∨ F.downloads f ∧ e.read f ≠ none) h ?_ (fun _ _ r => r.elim)
    e ⟨rfl, fun f hf => .inl hf⟩ e' a hr).1.2
  intro e1 o y e2 ho hI ha
  refine ⟨answers_of_calmStep ha, (read_eq_of_spares hF ha ho).trans hI.1, mem_downloads ha ho ?_ hI.2⟩
  exact fun f hf hrd => .inr ⟨hf, hI.1 ▸ hrd⟩

private theorem downloads_subset {α : Type} {p : Handler α} {a : α} (h : (calm c shardOf).Runs e p e' a) :
    e.downloads ⊆ e'.downloads := by
  induction h with
  | ret => exact Subset.refl _
  | act hx _ ih =>
    rcases downloads_of_calmStep hx with hl | ⟨f, hl, -⟩
    · rwa [hl] at ih
    · rw [hl] at ih
      exact fun f' hf' => ih (mem_cons_of_mem _ hf')
  | @call _ _ _ _ r => cases r

private theorem source_mem_downloads {bucket key source : Text}
    (h : (calm g.crates shardOf).Runs e (copyObject g bucket key source) e' x) (hx : delivered x = true) :
    '/' :: copySource g.crates source ∈ e'.downloads := by
  obtain ⟨y, e1, hdw, h1⟩ := runs_call_bind.1 h
  obtain ⟨hr, -, hl⟩ := okay_of_download hdw
  split at h1
  · obtain ⟨-, rfl⟩ := Runs.ret_iff.1 h1
    cases hx
  · rename_i raw
    have hs : e.read ('/' :: copySource g.crates source) = some raw := hr.symm
    rw [hs, if_neg (Option.some_ne_none _)] at hl
    refine downloads_subset h1 ?_
    rw [hl]
    exact mem_cons_self

section

variable {bucket key f : Text} {headers : HeaderMap}
  (h : (calm g.crates shardOf).Runs e (getObject g bucket key headers) e' x) (hx : delivered x = true)
include h hx

private theorem part_mem_downloads
    (hf : (Operation.getObject bucket key headers).ForeignRead g shardOf e f) : f ∈ e'.downloads := by
  obtain ⟨⟨marker, hm, hs⟩, hl, hp, hr, -⟩ := hf
  obtain ⟨files, hfl, hb⟩ := runs_getObject h
  rcases hb with ⟨-, rfl⟩ | ⟨-, hb⟩
  · cases hx
  · have hml : isMultipart (objectPath bucket key) files = true := by
      refine any_eq_true.2 ⟨marker, (hfl.mem_iff marker).2 hm, ?_⟩
      simp [hm.2.1, hs]
    rw [if_pos hml] at hb
    obtain ⟨e1, y, hy, h1⟩ := Runs.bind_iff.1 hb
    obtain ⟨-, -, ha⟩ := runs_readParts hy
    split at h1
    · obtain ⟨-, rfl⟩ := Runs.ret_iff.1 h1
      cases hx
    · obtain ⟨rfl, -⟩ := Runs.ret_iff.1 h1
      exact (ha (Option.some_ne_none _)).1 f (mem_partFiles.2 ⟨(hfl.mem_iff f).2 hl, hp⟩) hr

private theorem download_of_getObject (hf : f ∈ e'.downloads) :
    f ∈ e.downloads ∨ OwnFile (objectPath bucket key) f ∨
      (Operation.getObject bucket key headers).ForeignRead g shardOf e f := by
  obtain ⟨files, hfl, hb⟩ := runs_getObject h
  rcases hb with ⟨-, rfl⟩ | ⟨-, hb⟩
  · cases hx
  · split_ifs at hb with hm
    · have hp : Performs (.reading fun f => f ∈ partFiles (objectPath bucket key) files)
          (getParts g (e.head g.crates (objectPath bucket key)) (partFiles (objectPath bucket key) files) headers)
          fun _ => True := by
        refine .bind (performs_readParts fun f hf => hf) fun x _ => ?_
        split <;> exact .ret
      rcases hp.downloads_readable (Footprint.reading_spares _) hb f hf with ho | ⟨hpr, hr⟩
      · exact .inl ho
      · by_cases hown : OwnFile (objectPath bucket key) f
        · exact .inr (.inl hown)
        · obtain ⟨marker, hmr, hsf⟩ := any_eq_true.1 hm
          obtain ⟨hmem, hn⟩ := mem_partFiles.1 hpr
          exact .inr (.inr ⟨⟨marker, (hfl.mem_iff marker).1 hmr, by simp_all⟩, (hfl.mem_iff f).1 hmem, hn, hr,
            hown⟩)
    · have hs : Performs (.reading fun f => f = objectPath bucket key)
          (getSingle g (objectPath bucket key) (e.head g.crates (objectPath bucket key)) headers) fun _ =>
            True := by
        refine performs_getSingle trivial ?_ fun _ _ => ?_ <;> rfl
      rcases hs.downloads hb f hf with ho | rfl
      · exact .inl ho
      · exact .inr (.inl (.inl rfl))

end

private theorem mem_downloads_iff (h : (calm g.crates shardOf).Runs e (op.run g) e' x) (hx : delivered x = true)
    (hl : e.downloads = []) {f : Text} (hown : ¬ OwnFile op.path f) :
    f ∈ e'.downloads ↔ op.ForeignRead g shardOf e f := by
  have hp := op.performs.downloads h f
  rw [hl] at hp
  constructor
  · intro hf
    cases op with
    | copyObject bucket key source =>
      rcases hp hf with ho | hs
      · exact absurd ho not_mem_nil
      · exact ⟨hs, hown⟩
    | getObject bucket key headers =>
      rcases download_of_getObject h hx hf with ho | ho | hfr
      · rw [hl] at ho
        exact absurd ho not_mem_nil
      · exact absurd ho hown
      · exact hfr
    | _ =>
      rcases hp hf with ho | hn
      · exact absurd ho not_mem_nil
      · exact hn
  · intro hf
    cases op with
    | copyObject bucket key source =>
      obtain ⟨rfl, -⟩ := hf
      exact source_mem_downloads h hx
    | getObject bucket key headers => exact part_mem_downloads h hx hf
    | _ => exact hf.elim

private theorem eq_of_checkBucketPolicy {p : Principal} {pass : Bool}
    (h : (calm g.crates shardOf).Runs e (checkBucketPolicy g r p) e' pass) : e' = e := by
  unfold checkBucketPolicy at h
  split_ifs at h
  · exact (Runs.ret_iff.1 h).1
  · split at h
    · exact (Runs.ret_iff.1 h).1
    · obtain ⟨y, e1, hy, h1⟩ := runs_call_bind.1 h
      obtain ⟨rfl, -⟩ := Runs.ret_iff.1 h1
      exact (okay_of_content hy).2

private theorem runs_operation
    (hv : (checkAuth g clock cache r).1 = .ok (.verified s)) (hop : route g.crates r = .operation op)
    (h : (calm g.crates shardOf).Runs e (handle g clock cache r).1 e' (.replied x)) :
    (calm g.crates shardOf).Runs e (op.run g) e' x := by
  rw [handle_of_checkAuth hv] at h
  obtain ⟨e1, pass, hp, h1⟩ := Runs.bind_iff.1 h
  cases eq_of_checkBucketPolicy hp
  cases pass with
  | false =>
    obtain ⟨-, hr⟩ := Runs.ret_iff.1 h1
    cases hr
  | true =>
    replace h1 := runs_ite_pos rfl h1
    unfold forward at h1
    rw [hop] at h1
    obtain ⟨e2, y, hy, h2⟩ := Runs.bind_iff.1 h1
    obtain ⟨rfl, hr⟩ := Runs.ret_iff.1 h2
    cases hr
    exact hy

end

def copyDigest : Text := "d4fbf2241adb639ae7083f9dfa3bc1d24fa11633e1dd43716c09f636c2a0ea00"

def copySignature : Text := "8c6ad3604699453c538522b6af187c9faa612c77aea9045a52e775d54b5b6e24"

def copyCrates : Crates :=
  { plainCrates with
    sha256 := tableHash [(utf8 (canonicalForm "PUT" "/b/mine" "" emptyHash), digest copyDigest)]
    hmac := tableHmac (sessionChain ++ [signedWith sessionKey copyDigest copySignature])
    regex := fun p => some fun t => p = '^' :: (t ++ ['$']) }

def copyRole (readable : List Text) : IamConfig :=
  ⟨[⟨"r", "arn:dfs:iam:::role/r", [], [[⟨"Allow", .single "s3:PutObject", some (.single (arn "b/mine")), none⟩,
    ⟨"Allow", .single "s3:GetObject", some (.multiple (readable.map arn)), none⟩]]⟩]⟩

def copyGateway (readable : List Text) : Gateway :=
  { sessionGateway copyCrates with policyEvaluator := some (copyRole readable) }

def copySecret : Request :=
  ⟨.put, none, "/b/mine", none, ("x-amz-security-token".toList, utf8 sessionToken) ::
    ("x-amz-copy-source".toList, utf8 "/b/secret") :: signedHeaders emptyHash copySignature, none⟩

def copySession : Session :=
  ⟨signedCredentials copySignature,
    ⟨sessionSecret, some sessionData.roleArn, some sessionData.claims.toPolicyContext⟩⟩

def secretStore : Dfs := .ofFiles plainCrates [("/b/secret", [83])]

private theorem checkAuth_of_roleAllows {g : Gateway}
    {config : IamConfig} (h : (checkAuth g clock cache r).1 = .ok (.verified s))
    (hr : roleAllows { g with policyEvaluator := some config } r s.principal = true) :
    (checkAuth { g with policyEvaluator := some config } clock cache r).1 = .ok (.verified s) := by
  have ha : authenticate { g with policyEvaluator := some config } clock cache r = authenticate g clock cache r :=
    rfl
  unfold checkAuth at h ⊢
  rw [ha]
  split_ifs at h ⊢ with he hs
  · cases h
  · cases h
  · split at h
    · cases h
    · split_ifs at h
      cases h
      exact if_pos hr

variable {readable : List Text}

private theorem checkAuth_copySecret
    (hr : roleAllows (copyGateway readable) copySecret copySession.principal = true) :
    (checkAuth (copyGateway readable) ⟨0, 0, 0, 0⟩ .default copySecret).1 = .ok (.verified copySession) := by
  refine checkAuth_of_roleAllows (g := sessionGateway copyCrates) ?_ hr
  unfold sessionGateway staticGateway sessionCrates copySecret signedHeaders copyCrates sessionChain
    keyChain signedWith
    sessionKey staticSecret sessionToken copySignature sessionJson sessionCiphertext copySession sessionData
      sessionSecret
    canonicalForm copyDigest scopedDigest signedCredentials emptyHash
  repeat rw [String.toList_ofList]
  decide +kernel

private theorem route_copySecret (readable : List Text) :
    route (copyGateway readable).crates copySecret = .operation (.copyObject "b" "mine" "/b/secret") := by
  rfl

def copyReply : Reply := xmlResponse 200 (.copyObject [] (quotedMd5 copyCrates [83]))

def copied (readable : List Text) : Dfs :=
  (execCalm (copyGateway readable).crates (fun _ => 0) (fun _ => [])
    (serveAdmitted (copyGateway readable) copySecret (.verified copySession)) secretStore).2

private theorem runs_copySecret (hr : roleAllows (copyGateway readable) copySecret copySession.principal = true)
    (he : (execCalm (copyGateway readable).crates (fun _ => 0) (fun _ => [])
      (serveAdmitted (copyGateway readable) copySecret (.verified copySession)) secretStore).1 = Answer.replied
        copyReply) :
    (calm (copyGateway readable).crates fun _ => 0).Runs secretStore
      (handle (copyGateway readable) ⟨0, 0, 0, 0⟩ .default copySecret).1 (copied readable)
        (.replied copyReply) := by
  rw [handle_of_checkAuth (checkAuth_copySecret hr)]
  exact runs_of_execCalm he

end RustHadoop.S3
