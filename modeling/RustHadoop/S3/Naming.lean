import RustHadoop.S3.Dispatch
import RustHadoop.S3.Reference

/-!
# What is authorized and what is executed

Policies are evaluated on the action and the resource that the middleware reads off a request.  Here that pair is
compared with the operation that `handle_request` calls, and with the buckets and objects the operation is asked to
work on (`authorizes_iff`).

They fit only for plain requests.  A percent escape or an empty segment makes the two readings of the path differ,
`acl`, `tagging` and `location` rename an operation that ignores them, and neither the source of a copy nor the
keys of a batch delete are part of what is authorized.
-/

namespace RustHadoop.S3

open Texts Operation List

/-- The action that stands for an operation.  There is none for giving up an upload. -/
def Operation.action : Operation → Option S3Action
  | .getBucketPolicy _ => some .getBucketPolicy
  | .putBucketPolicy _ _ => some .putBucketPolicy
  | .deleteBucketPolicy _ => some .deleteBucketPolicy
  | .createBucket _ => some .createBucket
  | .deleteBucket _ => some .deleteBucket
  | .headBucket _ => some .headBucket
  | .listObjects _ _ | .listObjectsV2 _ _ => some .listBucket
  | .initiateMultipartUpload _ _ | .uploadPart _ _ _ _ _ | .completeMultipartUpload _ _ _ => some .putObject
  | .abortMultipartUpload _ _ _ => none
  | .deleteMultipleObjects _ _ => some .deleteObject
  | .copyObject _ _ _ | .putObject _ _ _ _ => some .putObject
  | .getObject _ _ _ => some .getObject
  | .deleteObject _ _ => some .deleteObject
  | .headObject _ _ => some .headObject

/-- The buckets and objects an operation is asked to read, write or delete. -/
def Operation.names (c : Crates) : Operation → List Text
  | .getBucketPolicy bucket | .putBucketPolicy bucket _ | .deleteBucketPolicy bucket | .createBucket bucket
  | .deleteBucket bucket | .headBucket bucket | .listObjects bucket _ | .listObjectsV2 bucket _ => [bucket]
  | .initiateMultipartUpload bucket key | .uploadPart bucket key _ _ _ | .completeMultipartUpload bucket key _
  | .abortMultipartUpload bucket key _ | .putObject bucket key _ _ | .getObject bucket key _
      | .deleteObject bucket key
  | .headObject bucket key => [objectName bucket key]
  | .copyObject bucket key source => [objectName bucket key, copySource c source]
  | .deleteMultipleObjects bucket body => (deleteKeys c body).map (objectName bucket)

/-- The pair names the operation and everything the operation works on. -/
def Authorizes (c : Crates) (pair : S3Action × Text) (op : Operation) : Prop :=
  op.action = some pair.1 ∧ ∀ name ∈ op.names c, pair.2 = arn name

instance (c : Crates) (pair : S3Action × Text) (op : Operation) : Decidable (Authorizes c pair op) :=
  inferInstanceAs (Decidable (_ ∧ _))

/-- Nothing to decode and no empty segment, except that a path of a bucket may end in a slash. -/
def PlainPath (rest : Text) : Prop :=
  escaped rest = false ∧ ([] ∉ segments rest ∨ ∃ bucket, bucket ≠ [] ∧ '/' ∉ bucket ∧ rest = bucket ++ ['/'])

/-- The parameters and the copy source do not lead the middleware to something else than the operation. -/
def PlainArguments (c : Crates) (q : Pairs) : Operation → Prop
  | .getBucketPolicy _ | .putBucketPolicy _ _ | .createBucket _ | .uploadPart _ _ _ _ _ | .putObject _ _ _ _
  | .getObject _ _ _ => q.containsKey "acl" = false ∧ q.containsKey "tagging" = false
  | .listObjects _ _ | .listObjectsV2 _ _ =>
    q.containsKey "acl" = false ∧ q.containsKey "tagging" = false ∧ q.containsKey "location" = false
  | .deleteBucketPolicy _ | .deleteBucket _ | .deleteObject _ _ => q.containsKey "tagging" = false
  | .headBucket _ | .headObject _ _ | .initiateMultipartUpload _ _ | .completeMultipartUpload _ _ _ => True
  | .copyObject bucket key source =>
    q.containsKey "acl" = false ∧ q.containsKey "tagging" = false ∧ copySource c source = objectName bucket key
  | .abortMultipartUpload _ _ _ | .deleteMultipleObjects _ _ => False

theorem arn_inj {a b : Text} : arn a = arn b ↔ a = b := append_right_inj _

section

variable {c : Crates} {q : Pairs} {name : Text} {a b otherwise : S3Action} {rest : List (Text × S3Action)}

private theorem firstOf_nil : q.firstOf [] otherwise = otherwise := rfl

private theorem firstOf_pos (h : q.containsKey name = true) : q.firstOf ((name, a) :: rest) otherwise = a := by
  simp [Pairs.firstOf, h]

private theorem firstOf_neg (h : q.containsKey name = false) :
    q.firstOf ((name, a) :: rest) otherwise = q.firstOf rest otherwise := by
  simp [Pairs.firstOf, h]

private theorem eq_firstOf_cons (h : a ≠ b) :
    a = q.firstOf ((name, b) :: rest) otherwise ↔ q.containsKey name = false ∧ a = q.firstOf rest otherwise := by
  cases hn : q.containsKey name
  · simp [firstOf_neg hn]
  · simp [firstOf_pos hn, h]

variable {method : Method} {bucket key : Text} {params : S3Query} {headers : HeaderMap} {body : Bytes}
  {op : Operation}

private theorem serveBucket_plain (h : serveBucket method bucket params body = .operation op)
    (hpl : params.policy.isSome = q.containsKey "policy") :
    op.names c = [bucket] ∧ (op.action = some (bucketAction method q) ↔ PlainArguments c q op) := by
  unfold serveBucket at h
  rw [hpl] at h
  cases hp : q.containsKey "policy"
  · rw [if_neg (by rw [hp]; decide)] at h
    cases method with
    | get =>
      split_ifs at h <;> cases h <;>
        simp (disch := decide) only [bucketAction, eq_firstOf_cons, firstOf_neg hp, firstOf_nil, names,
          action, PlainArguments, Option.some.injEq, and_true]
    | post | other name => cases h
    | _ =>
      cases h
      simp (disch := decide) only [bucketAction, eq_firstOf_cons, firstOf_neg hp, firstOf_nil, names,
        action, PlainArguments, Option.some.injEq, and_true]
  · rw [if_pos hp] at h
    cases method with
    | head | post | other name => cases h
    | _ =>
      cases h
      simp (disch := decide) only [bucketAction, eq_firstOf_cons, firstOf_pos hp, names,
        action, PlainArguments, Option.some.injEq, and_true]

private theorem postAction : q.firstOf [("uploads", .putObject), ("uploadId", .putObject)] .unknown =
    if q.containsKey "uploads" || q.containsKey "uploadId" then .putObject else .unknown := by
  cases hu : q.containsKey "uploads"
  · cases hid : q.containsKey "uploadId"
    · rw [firstOf_neg hu, firstOf_neg hid]
      rfl
    · rw [firstOf_neg hu, firstOf_pos hid]
      rfl
  · rw [firstOf_pos hu]
    rfl

private theorem resolve_post_ne (path : Text) : (resolveS3ActionAndResource .post path q).1 ≠ .deleteObject := by
  unfold resolveS3ActionAndResource
  split
  · decide
  · decide
  · decide
  all_goals
    simp only [bucketAction, objectAction, postAction]
    split <;> decide

private theorem serveObject_plain (h : serveObject method bucket key headers body = .operation op) :
    objectName bucket key ∈ op.names c ∧
      ((op.action = some (objectAction method q) ∧ ∀ name ∈ op.names c, name = objectName bucket key) ↔
        PlainArguments c q op) := by
  unfold serveObject at h
  cases method with
  | put =>
    simp only at h
    split at h
    · split at h
      · cases h
        simp (disch := decide) [objectAction, eq_firstOf_cons, firstOf_nil, names, action, PlainArguments,
          and_assoc]
      · cases h
    · cases h
      simp (disch := decide) [objectAction, eq_firstOf_cons, firstOf_nil, names, action, PlainArguments]
  | post | other name => cases h
  | _ =>
    cases h
    simp (disch := decide) [objectAction, eq_firstOf_cons, firstOf_nil, names, action, PlainArguments]

private theorem serveKey_plain (h : serveKey method bucket key params headers body = .operation op)
    (hu : params.uploads.isSome = q.containsKey "uploads")
    (hid : params.uploadId.isSome = q.containsKey "uploadId") :
    (¬ PlainArguments c q op ∧ ∀ path, op.action ≠ some (resolveS3ActionAndResource method path q).1) ∨
      (objectName bucket key ∈ op.names c ∧
        ((op.action = some (objectAction method q) ∧ ∀ name ∈ op.names c, name = objectName bucket key) ↔
          PlainArguments c q op)) := by
  unfold serveKey at h
  split_ifs at h with hi hb
  · obtain ⟨hup, rfl⟩ := hi
    cases h
    rw [hu] at hup
    right
    simp only [objectAction, postAction, hup, Bool.true_or, if_true, names, action, PlainArguments,
      mem_singleton, true_and, forall_eq]
  · obtain ⟨-, rfl⟩ := hb
    cases h
    left
    refine ⟨not_false, fun path heq => resolve_post_ne path (Option.some.inj heq).symm⟩
  · split at h
    · rename_i uploadId hs
      have hup : q.containsKey "uploadId" = true := by rw [← hid, hs]; rfl
      split at h
      · cases h
        right
        simp (disch := decide) [objectAction, eq_firstOf_cons, firstOf_nil, names, action, PlainArguments]
      · cases h
        right
        simp only [objectAction, postAction, hup, Bool.or_true, if_true, names, action, PlainArguments,
          mem_singleton, true_and, forall_eq]
      · cases h
        left
        exact ⟨not_false, fun path heq => by cases heq⟩
      · exact .inr (serveObject_plain h)
    · exact .inr (serveObject_plain h)

private theorem serveBucket_known (h : serveBucket method bucket params body = .operation op) (n : Text) :
    method ≠ .other n := by
  rintro rfl
  unfold serveBucket at h
  split_ifs at h

private theorem serveKey_known (h : serveKey method bucket key params headers body = .operation op) (n : Text) :
    method ≠ .other n := by
  rintro rfl
  unfold serveKey at h
  simp only [reduceCtorEq, and_false, if_false] at h
  split at h <;> cases h

private theorem resolve_of_nil {path : Text} (h : compact path = []) :
    (resolveS3ActionAndResource method path q).1 = .listAllMyBuckets ∨
      (resolveS3ActionAndResource method path q).1 = .unknown := by
  unfold resolveS3ActionAndResource
  rw [h]
  cases method <;> simp

section

variable (hm : ∀ n, method ≠ .other n) {path : Text}
include hm

private theorem resolve_of_singleton (h : compact path = [bucket]) :
    resolveS3ActionAndResource method path q = (bucketAction method q, arn bucket) := by
  unfold resolveS3ActionAndResource
  rw [h]
  cases method with
  | other n => exact absurd rfl (hm n)
  | _ => rfl

private theorem resolve_of_many (h : 2 ≤ (compact path).length) :
    resolveS3ActionAndResource method path q = (objectAction method q, arn (joinSegments (compact path))) := by
  unfold resolveS3ActionAndResource
  obtain ⟨x, y, l, hxy⟩ : ∃ x y l, compact path = x :: y :: l := by
    match hl : compact path, h with
    | x :: y :: l, _ => exact ⟨x, y, l, rfl⟩
  rw [hxy]
  cases method with
  | other n => exact absurd rfl (hm n)
  | _ => rfl

private theorem resolve_resource (h : compact path ≠ []) :
    (resolveS3ActionAndResource method path q).2 = arn (joinSegments (compact path)) := by
  match hc : compact path with
  | [] => exact absurd hc h
  | [x] => rw [resolve_of_singleton hm hc, joinSegments_singleton]
  | x :: y :: l => rw [resolve_of_many hm (by rw [hc]; simp), hc]

end

end

section

variable {rest path : Text}

private theorem slash_count_compact (rest : Text) :
    (joinSegments (compact rest)).count '/' = (compact rest).length - 1 :=
  count_joinSegments fun _ => slash_notMem_of_mem_compact

section

variable (hd : percentDecode rest = some path) (hrest : rest ≠ [])
include hd hrest

private theorem plainPath_bucket
    (hk : (bucketAndKey path).2 = []) : PlainPath rest ↔ compact rest = [(bucketAndKey path).1] := by
  obtain ⟨hs, hpt⟩ := bucketAndKey_spec path
  generalize (bucketAndKey path).1 = bucket at hs hpt ⊢
  rw [hk, and_iff_left rfl] at hpt
  have hsn : ∀ {b : Text}, b ≠ [] → '/' ∉ b → (joinSegments (compact rest) = b ↔ compact rest = [b]) := by
    intro b hne hb
    constructor
    · intro hj
      have hlen := slash_count_compact rest
      rw [hj, count_eq_zero_of_not_mem hb] at hlen
      match hc : compact rest, hlen with
      | [], _ => exact absurd (hc ▸ hj).symm hne
      | [x], _ =>
        rw [hc, joinSegments_singleton] at hj
        rw [hj]
    · intro hc
      rw [hc, joinSegments_singleton]
  rcases hpt with hpt | hpt
  · subst hpt
    by_cases hne : bucket = []
    · subst hne
      constructor
      · rintro ⟨he, hsg⟩
        have hp : rest = ['/'] := Option.some.inj ((percentDecode_of_not_escaped he).symm.trans hd)
        rcases hsg with hsg | ⟨b, hb, -, hbr⟩
        · subst hp
          exact absurd (by decide) hsg
        · have hlen := congrArg length (hp.symm.trans hbr)
          simp at hlen
          exact absurd hlen hb
      · intro hc
        have hmem : [] ∈ compact rest := hc ▸ mem_singleton_self _
        simp [compact] at hmem
    · rw [← hsn hne hs, join_compact_eq_dropLast hd hs hne]
      refine ⟨fun h => h.1, fun he => ⟨he, .inr ⟨bucket, hne, hs, ?_⟩⟩⟩
      exact Option.some.inj ((percentDecode_of_not_escaped he).symm.trans hd)
  · subst hpt
    have hne := ne_nil_of_percentDecode hd hrest
    rw [← hsn hne hs, join_compact_eq_decode hd hrest]
    constructor
    · rintro ⟨he, hsg | ⟨b, -, -, rfl⟩⟩
      · exact ⟨he, hsg⟩
      · have := Option.some.inj ((percentDecode_of_not_escaped he).symm.trans hd)
        exact absurd (this ▸ mem_append_right b (mem_singleton_self '/')) hs
    · rintro ⟨he, hsg⟩
      exact ⟨he, .inl hsg⟩

private theorem plainPath_key
    (hk : (bucketAndKey path).2 ≠ []) : PlainPath rest ↔ joinSegments (compact rest) = path := by
  obtain ⟨hs, hp⟩ := bucketAndKey_spec path
  rw [join_compact_eq_decode hd hrest]
  constructor
  · rintro ⟨he, hsg | ⟨b, -, hb, rfl⟩⟩
    · exact ⟨he, hsg⟩
    · have := Option.some.inj ((percentDecode_of_not_escaped he).symm.trans hd)
      subst this
      unfold bucketAndKey at hk
      rw [splitOnce_append [] hb] at hk
      exact absurd rfl hk
  · rintro ⟨he, hsg⟩
    exact ⟨he, .inl hsg⟩

end

end

variable {op : Operation}

private theorem action_ne {a : S3Action} (h : a = .listAllMyBuckets ∨ a = .unknown) : op.action ≠ some a := by
  rcases h with rfl | rfl <;> cases op <;> simp [action]

theorem Authorizes.resource {c : Crates} {method : Method} {path : Text} {q : Pairs}
    (h : Authorizes c (resolveS3ActionAndResource method path q) op) :
    compact path ≠ [] ∧ (resolveS3ActionAndResource method path q).2 = arn (joinSegments (compact path)) := by
  have hne : compact path ≠ [] := fun hc => action_ne (resolve_of_nil hc) h.1
  refine ⟨hne, resolve_resource (fun n hm => ?_) hne⟩
  subst hm
  exact action_ne (a := (resolveS3ActionAndResource (.other n) path q).1) (.inr rfl) h.1

theorem plain_iff_authorizes {c : Crates} {r : Request} (h : route c r = .operation op) :
    PlainPath (r.path.drop 1) ∧ PlainArguments c (c.formUrlencoded (r.query.getD [])) op ↔
      Authorizes c (resolveS3ActionAndResource r.method r.path (c.formUrlencoded (r.query.getD []))) op := by
  symm
  obtain ⟨rest, hrest, hpt, h⟩ := route_operation h
  obtain ⟨path, params, hd, hpr, hop⟩ := handleRequest_operation h
  obtain ⟨hu, hid, hpl⟩ := S3Query.parse_spec hpr
  generalize c.formUrlencoded (r.query.getD []) = q at *
  have hcm : compact r.path = compact rest := by rw [hpt, compact_cons_slash]
  have hdr : r.path.drop 1 = rest := by rw [hpt]; rfl
  rw [hdr]
  rcases hop with ⟨hk, hop⟩ | ⟨hk, hop⟩
  · -- a path without a key
    obtain ⟨hnm, ha⟩ := serveBucket_plain (c := c) hop (Pairs.isSome_of_field hpl)
    rw [plainPath_bucket hd hrest hk, ← ha, Authorizes, hnm]
    simp only [mem_singleton, forall_eq]
    constructor
    · rintro ⟨hact, hr⟩
      obtain ⟨hs, -⟩ := bucketAndKey_spec path
      have hlen := slash_count_compact rest
      match hc : compact rest with
      | [] => exact absurd hact (action_ne (resolve_of_nil (hcm.trans hc)))
      | [x] =>
        rw [resolve_of_singleton (serveBucket_known hop) (hcm.trans hc)] at hact hr
        exact ⟨by rw [arn_inj.1 hr], hact⟩
      | x :: y :: l =>
        -- the resource would have a slash
        rw [resolve_of_many (serveBucket_known hop) (by rw [hcm, hc]; simp), hcm] at hr
        rw [arn_inj.1 hr, count_eq_zero_of_not_mem hs, hc] at hlen
        simp at hlen
    · rintro ⟨hc, hact⟩
      rw [resolve_of_singleton (serveBucket_known hop) (hcm.trans hc)]
      exact ⟨hact, rfl⟩
  · -- a path with a key
    have hname : objectName (bucketAndKey path).1 (bucketAndKey path).2 = path := by
      rcases (bucketAndKey_spec path).2 with hpt | ⟨-, hnil⟩
      · exact hpt.symm
      · exact absurd hnil hk
    have hmn : joinSegments (compact rest) = path → 2 ≤ (compact r.path).length := by
      intro hj
      have hlen := slash_count_compact rest
      rw [hj, ← hname, objectName, count_append, count_cons_self] at hlen
      rw [hcm]
      omega
    rw [plainPath_key hd hrest hk]
    rcases serveKey_plain (c := c) hop (Pairs.isSome_of_field hu) (Pairs.isSome_of_field hid) with
      ⟨hp, hact⟩ | ⟨hmem, hp⟩
    · exact ⟨fun h => absurd h.1 (hact _), fun h => absurd h.2 hp⟩
    · rw [← hp, hname]
      rw [hname] at hmem
      constructor
      · rintro ⟨hact, hr⟩
        have hj : joinSegments (compact rest) = path := by
          have hne : compact r.path ≠ [] := fun hc => action_ne (resolve_of_nil hc) hact
          have hpt := hr path hmem
          rw [resolve_resource (serveKey_known hop) hne, hcm] at hpt
          exact arn_inj.1 hpt
        rw [resolve_of_many (serveKey_known hop) (hmn hj), hcm, hj] at hact hr
        exact ⟨hj, hact, fun name hn => (arn_inj.1 (hr name hn)).symm⟩
      · rintro ⟨hj, hact, hnm⟩
        rw [resolve_of_many (serveKey_known hop) (hmn hj), hcm, hj]
        exact ⟨hact, fun name hn => by rw [hnm name hn]⟩

/-- What is evaluated is what is executed, exactly for plain requests. -/
theorem authorizes_iff (c : Crates) (r : Request) {op : Operation} (h : route c r = .operation op) :
    Authorizes c (resolveS3ActionAndResource r.method r.path (c.formUrlencoded (r.query.getD []))) op ↔
      PlainPath (r.path.drop 1) ∧ PlainArguments c (c.formUrlencoded (r.query.getD [])) op :=
  (plain_iff_authorizes h).symm

def plainGet (path : Text) : Request := ⟨.get, none, path, none, [], none⟩

theorem authorizes_iff_plain : route plainCrates (plainGet "/b/a") = .operation (.getObject "b" "a" []) ∧
      (Authorizes plainCrates (resolveS3ActionAndResource .get "/b/a" []) (.getObject "b" "a" []) ↔
        PlainPath "b/a" ∧ PlainArguments plainCrates [] (.getObject "b" "a" [])) :=
  ⟨by decide, authorizes_iff plainCrates (plainGet "/b/a") (by decide)⟩

/-- An escaped letter is enough: the object `b/a` is read, and the resource that was evaluated is `b/%61`. -/
theorem escaped_letter_misnamed : route plainCrates (plainGet "/b/%61") = .operation (.getObject "b" "a" []) ∧
      ¬ Authorizes plainCrates (resolveS3ActionAndResource .get "/b/%61" []) (.getObject "b" "a" []) := by
  decide

end RustHadoop.S3
