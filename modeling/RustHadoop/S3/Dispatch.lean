import RustHadoop.S3.Types

/-!
# Which handler serves a request

A request is read twice.  The middleware reads the path as it was sent, drops empty segments, and looks at the
parameters in one order to find the action and the resource that policies are evaluated on (`auth_middleware.rs`).
The router and `handle_request` decode the path, cut it at its first slash, and look at the parameters in another
order to find the operation (`main.rs`, `handlers.rs`).  Both readings are here, next to each other.
-/

namespace RustHadoop.S3

open Texts

inductive S3Action
  | listAllMyBuckets
  | getBucketAcl
  | getBucketTagging
  | getBucketPolicy
  | getBucketLocation
  | listBucket
  | getObjectAcl
  | getObjectTagging
  | getObject
  | putBucketAcl
  | putBucketTagging
  | putBucketPolicy
  | createBucket
  | putObjectAcl
  | putObjectTagging
  | putObject
  | deleteBucketTagging
  | deleteBucketPolicy
  | deleteBucket
  | deleteObjectTagging
  | deleteObject
  | headBucket
  | headObject
  | unknown
deriving DecidableEq, Repr

def S3Action.text : S3Action → Text
  | .listAllMyBuckets => "s3:ListAllMyBuckets"
  | .getBucketAcl => "s3:GetBucketAcl"
  | .getBucketTagging => "s3:GetBucketTagging"
  | .getBucketPolicy => "s3:GetBucketPolicy"
  | .getBucketLocation => "s3:GetBucketLocation"
  | .listBucket => "s3:ListBucket"
  | .getObjectAcl => "s3:GetObjectAcl"
  | .getObjectTagging => "s3:GetObjectTagging"
  | .getObject => "s3:GetObject"
  | .putBucketAcl => "s3:PutBucketAcl"
  | .putBucketTagging => "s3:PutBucketTagging"
  | .putBucketPolicy => "s3:PutBucketPolicy"
  | .createBucket => "s3:CreateBucket"
  | .putObjectAcl => "s3:PutObjectAcl"
  | .putObjectTagging => "s3:PutObjectTagging"
  | .putObject => "s3:PutObject"
  | .deleteBucketTagging => "s3:DeleteBucketTagging"
  | .deleteBucketPolicy => "s3:DeleteBucketPolicy"
  | .deleteBucket => "s3:DeleteBucket"
  | .deleteObjectTagging => "s3:DeleteObjectTagging"
  | .deleteObject => "s3:DeleteObject"
  | .headBucket => "s3:HeadBucket"
  | .headObject => "s3:HeadObject"
  | .unknown => "s3:Unknown"

def arn (name : Text) : Text := "arn:dfs:s3:::" ++ name

/-- The parameter names in `names` are tried in order; the first that is there decides. -/
def Pairs.firstOf (q : Pairs) (names : List (Text × S3Action)) (otherwise : S3Action) : S3Action :=
  ((names.find? fun n => q.containsKey n.1).map fun n => n.2).getD otherwise

variable (method : Method)

def bucketAction (q : Pairs) : S3Action :=
  match method with
  | .get =>
    q.firstOf [("acl", .getBucketAcl), ("tagging", .getBucketTagging), ("policy", .getBucketPolicy),
      ("location", .getBucketLocation)] .listBucket
  | .put => q.firstOf [("acl", .putBucketAcl), ("tagging", .putBucketTagging), ("policy", .putBucketPolicy)]
      .createBucket
  | .delete => q.firstOf [("tagging", .deleteBucketTagging), ("policy", .deleteBucketPolicy)] .deleteBucket
  | .head => .headBucket
  | .post => q.firstOf [("uploads", .putObject), ("uploadId", .putObject)] .unknown
  | .other _ => .unknown

def objectAction (q : Pairs) : S3Action :=
  match method with
  | .get => q.firstOf [("acl", .getObjectAcl), ("tagging", .getObjectTagging)] .getObject
  | .put => q.firstOf [("acl", .putObjectAcl), ("tagging", .putObjectTagging)] .putObject
  | .delete => q.firstOf [("tagging", .deleteObjectTagging)] .deleteObject
  | .head => .headObject
  | .post => q.firstOf [("uploads", .putObject), ("uploadId", .putObject)] .unknown
  | .other _ => .unknown

/-- `resolve_s3_action_and_resource_from_parts`, on the path as it was sent. -/
def resolveS3ActionAndResource (path : Text) (q : Pairs) : S3Action × Text :=
  match method, compact path with
  | .get, [] => (.listAllMyBuckets, arn "*")
  | .other _, _ | _, [] => (.unknown, arn "*")
  | _, [bucket] => (bucketAction method q, arn bucket)
  | _, parts => (objectAction method q, arn (joinSegments parts))

def bucketFromPath (path : Text) : Option Text := (compact path).head?

/-- A field of a query that is deserialized into a structure: one that is given twice is an error. -/
def Pairs.field (q : Pairs) (name : Text) : Option (Option Text) :=
  match q.filter fun e => e.1 = name with
  | [] => some none
  | [e] => some (some e.2)
  | _ => none

def Pairs.numberField {α : Type} (read : Text → Option α) (q : Pairs) (name : Text) : Option (Option α) :=
  match q.field name with
  | none => none
  | some none => some none
  | some (some t) => (read t).map some

theorem Pairs.isSome_of_field {q : Pairs} {name : Text} {o : Option Text} (h : q.field name = some o) :
    o.isSome = q.containsKey name := by
  unfold Pairs.field at h
  split at h
  · rename_i hn
    cases h
    rw [List.filter_eq_nil_iff] at hn
    symm
    simpa [Pairs.containsKey] using hn
  · rename_i e ho
    cases h
    have hmem : e ∈ q.filter fun e => e.1 = name := ho ▸ List.mem_singleton_self e
    obtain ⟨hq, hnm⟩ := List.mem_filter.1 hmem
    symm
    exact List.any_eq_true.2 ⟨e, hq, hnm⟩
  · cases h

structure S3Query where
  action : Option Text
  uploads : Option Text
  delete : Option Text
  uploadId : Option Text
  partNumber : Option Int
  keyPrefix : Option Text
  delimiter : Option Text
  listType : Option Int
  continuationToken : Option Text
  startAfter : Option Text
  maxKeys : Option Int
  policy : Option Text
deriving DecidableEq

def S3Query.parse (q : Pairs) : Option S3Query := do
  let action ← q.field "Action"
  let uploads ← q.field "uploads"
  let delete ← q.field "delete"
  let uploadId ← q.field "uploadId"
  let partNumber ← q.numberField (signed? 32) "partNumber"
  let keyPrefix ← q.field "prefix"
  let delimiter ← q.field "delimiter"
  let listType ← q.numberField (signed? 32) "list-type"
  let continuationToken ← q.field "continuation-token"
  let startAfter ← q.field "start-after"
  let maxKeys ← q.numberField (signed? 32) "max-keys"
  let policy ← q.field "policy"
  return ⟨action, uploads, delete, uploadId, partNumber, keyPrefix, delimiter, listType,
    continuationToken, startAfter,
    maxKeys, policy⟩

theorem S3Query.parse_spec {q : Pairs} {params : S3Query} (h : S3Query.parse q = some params) :
    q.field "uploads" = some params.uploads ∧ q.field "uploadId" = some params.uploadId ∧
      q.field "policy" = some params.policy := by
  simp only [S3Query.parse, Option.bind_eq_bind, Option.bind_eq_some_iff, Option.pure_def, Option.some.injEq] at h
  obtain ⟨_, -, uploads, hu, _, -, uploadId, hid, _, -, _, -, _, -, _, -, _, -, _, -, _, -, policy, hp, rfl⟩ := h
  exact ⟨hu, hid, hp⟩

structure StsQueryParams where
  action : Option Text
  durationSeconds : Option Nat
  roleArn : Option Text
  roleSessionName : Option Text
  webIdentityToken : Option Text
deriving DecidableEq

def StsQueryParams.parse (q : Pairs) : Option StsQueryParams := do
  let action ← q.field "Action"
  let durationSeconds ← q.numberField (unsigned? 64) "DurationSeconds"
  let roleArn ← q.field "RoleArn"
  let roleSessionName ← q.field "RoleSessionName"
  let webIdentityToken ← q.field "WebIdentityToken"
  return ⟨action, durationSeconds, roleArn, roleSessionName, webIdentityToken⟩

/-- The handlers that `handle_request` calls, with their arguments. -/
inductive Operation
  | getBucketPolicy (bucket : Text)
  | putBucketPolicy (bucket : Text) (body : Bytes)
  | deleteBucketPolicy (bucket : Text)
  | createBucket (bucket : Text)
  | deleteBucket (bucket : Text)
  | headBucket (bucket : Text)
  | listObjects (bucket : Text) (params : S3Query)
  | listObjectsV2 (bucket : Text) (params : S3Query)
  | initiateMultipartUpload (bucket key : Text)
  | deleteMultipleObjects (bucket : Text) (body : Bytes)
  | uploadPart (bucket key uploadId : Text) (partNumber : Int) (body : Bytes)
  | completeMultipartUpload (bucket key uploadId : Text)
  | abortMultipartUpload (bucket key uploadId : Text)
  | copyObject (bucket key source : Text)
  | putObject (bucket key : Text) (body : Bytes) (headers : HeaderMap)
  | getObject (bucket key : Text) (headers : HeaderMap)
  | deleteObject (bucket key : Text)
  | headObject (bucket key : Text)
deriving DecidableEq

/-- The object a copy reads: `copy_object` decodes the header and puts a slash in front if there is none. -/
def copySource (c : Crates) (source : Text) : Text :=
  match c.percentDecodeLossy source with
  | '/' :: name => name
  | name => name

/-- The keys of a batch delete; none if the body cannot be read. -/
def deleteKeys (c : Crates) (body : Bytes) : List Text := ((utf8? body).bind c.readDelete).getD []

def objectName (bucket key : Text) : Text := bucket ++ '/' :: key

/-- What becomes of a request that reaches the router. -/
inductive Service
  | operation (op : Operation)
  | listBuckets
  | sts (params : StsQueryParams)
  | refused (code : Nat)
  | panicked
deriving DecidableEq

def serveBucket (bucket : Text) (params : S3Query) (body : Bytes) : Service :=
  if params.policy.isSome then
    match method with
    | .get => .operation (.getBucketPolicy bucket)
    | .put => .operation (.putBucketPolicy bucket body)
    | .delete => .operation (.deleteBucketPolicy bucket)
    | _ => .refused 405
  else
    match method with
    | .put => .operation (.createBucket bucket)
    | .delete => .operation (.deleteBucket bucket)
    | .head => .operation (.headBucket bucket)
    | .get =>
        .operation (if params.listType = some 2 then .listObjectsV2 bucket params else .listObjects bucket params)
    | _ => .refused 405

/-- The last part of `handle_request` for a path with a key: copies and plain objects. -/
def serveObject (bucket key : Text) (headers : HeaderMap) (body : Bytes) : Service :=
  match method with
  | .put =>
    match headers.get "x-amz-copy-source" with
    | some source =>
      match toStr source with
      | some source => .operation (.copyObject bucket key source)
      | none => .panicked
    | none => .operation (.putObject bucket key body headers)
  | .get => .operation (.getObject bucket key headers)
  | .delete => .operation (.deleteObject bucket key)
  | .head => .operation (.headObject bucket key)
  | _ => .refused 405

def serveKey (bucket key : Text) (params : S3Query) (headers : HeaderMap) (body : Bytes) : Service :=
  if params.uploads.isSome ∧ method = .post then .operation (.initiateMultipartUpload bucket key)
  else if params.delete.isSome ∧ method = .post then .operation (.deleteMultipleObjects bucket body)
  else
    match params.uploadId with
    | some uploadId =>
      match method, params.partNumber with
      | .put, some partNumber => .operation (.uploadPart bucket key uploadId partNumber body)
      | .post, _ => .operation (.completeMultipartUpload bucket key uploadId)
      | .delete, _ => .operation (.abortMultipartUpload bucket key uploadId)
      | _, _ => serveObject method bucket key headers body
    | none => serveObject method bucket key headers body

/-- The bucket and the key of a decoded path (`splitn(2, '/')`). -/
def bucketAndKey (path : Text) : Text × Text := (splitOnce '/' path).getD (path, [])

theorem bucketAndKey_spec (path : Text) : '/' ∉ (bucketAndKey path).1 ∧
      (path = (bucketAndKey path).1 ++ '/' :: (bucketAndKey path).2 ∨
        path = (bucketAndKey path).1 ∧ (bucketAndKey path).2 = []) := by
  unfold bucketAndKey
  rcases hs : splitOnce '/' path with _ | ⟨bucket, key⟩
  · exact ⟨splitOnce_eq_none hs, .inr ⟨rfl, rfl⟩⟩
  · obtain ⟨hp, hb⟩ := splitOnce_eq_some hs
    exact ⟨hb, .inl hp⟩

/-- `handle_request`, on the path behind its first slash. -/
def handleRequest (c : Crates) (r : Request) (rest : Text) : Service :=
  match percentDecode rest with
  | none => .refused 400
  | some path =>
    match S3Query.parse (c.formUrlencoded (r.query.getD [])) with
    | none => .refused 400
    | some params =>
      let (bucket, key) := bucketAndKey path
      if key = [] then serveBucket r.method bucket params (r.body.getD [])
      else serveKey r.method bucket key params r.headers (r.body.getD [])

def handleRoot (c : Crates) (r : Request) : Service :=
  let q := c.formUrlencoded (r.query.getD [])
  match S3Query.parse q, StsQueryParams.parse q with
  | some params, some stsParams =>
    if params.action = some "AssumeRoleWithWebIdentity".toList then .sts stsParams
    else if r.method = .get then .listBuckets
    else .refused 405
  | _, _ => .refused 400

theorem handleRequest_operation {c : Crates} {r : Request} {rest : Text} {op : Operation}
    (h : handleRequest c r rest = .operation op) :
    ∃ path params, percentDecode rest = some path ∧
      S3Query.parse (c.formUrlencoded (r.query.getD [])) = some params ∧
      ((bucketAndKey path).2 = [] ∧
          serveBucket r.method (bucketAndKey path).1 params (r.body.getD []) = .operation op ∨
        (bucketAndKey path).2 ≠ [] ∧
          serveKey r.method (bucketAndKey path).1 (bucketAndKey path).2 params r.headers
            (r.body.getD []) = .operation op) := by
  unfold handleRequest at h
  split at h
  · cases h
  · rename_i path hpt
    split at h
    · cases h
    · rename_i params hp
      refine ⟨path, params, hpt, hp, ?_⟩
      by_cases hk : (bucketAndKey path).2 = []
      · exact .inl ⟨hk, by simpa [hk] using h⟩
      · exact .inr ⟨hk, by simpa [hk] using h⟩

def route (c : Crates) (r : Request) : Service :=
  match r.path with
  | ['/'] => handleRoot c r
  | '/' :: rest => handleRequest c r rest
  | _ => .refused 404

theorem route_operation {c : Crates} {r : Request} {op : Operation} (h : route c r = .operation op) :
    ∃ rest, rest ≠ [] ∧ r.path = '/' :: rest ∧ handleRequest c r rest = .operation op := by
  unfold route at h
  split at h
  · unfold handleRoot at h
    simp only at h
    split at h
    · split_ifs at h
    · cases h
  · rename_i rest hne hp
    refine ⟨rest, ?_, hp, h⟩
    rintro rfl
    exact hne rfl
  · cases h

/-- The two routes that are not behind the middleware. -/
def isStatusPath (path : Text) : Bool := path = "/health" || path = "/metrics"

end RustHadoop.S3
