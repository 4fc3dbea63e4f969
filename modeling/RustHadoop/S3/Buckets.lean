import RustHadoop.S3.Uploads

/-!
# Handlers of buckets

Policies and markers of buckets, and the listings of `handlers.rs`.  `HashSet`s are lists without repetitions here,
so the order of what they give is the order of insertion.
-/

namespace RustHadoop.S3

open Texts

variable (bucket : Text)

def policyPath : Text := objectPath bucket ".s3_bucket_policy"

def bucketPolicyNotFound : Reply :=
  some ⟨404, [("content-type", "application/xml")],
    .text ("<Error><Code>NoSuchBucketPolicy</Code><Message>The bucket policy does not exist</Message><BucketName>"
      ++ bucket
      ++ "</BucketName></Error>")⟩

variable (g : Gateway)

def getBucketPolicy (bucket : Text) : Handler Reply := do
  match ← call (.content (policyPath bucket)) with
  | .ok data =>
    if g.crates.isJson data then return some ⟨200, [("content-type", "application/json")], .bytes data⟩
    else return bucketPolicyNotFound bucket
  | .error _ => return bucketPolicyNotFound bucket

def putBucketPolicy (bucket : Text) (body : Bytes) : Handler Reply := do
  match g.crates.readPolicy body with
  | none =>
    return some ⟨400, [("content-type", "application/xml")],
      .text "<Error><Code>MalformedPolicy</Code><Message>Bucket policy must be valid JSON</Message></Error>"⟩
  | some _ =>
    match ← call (.create (policyPath bucket) body) with
    | .ok () => return emptyResponse 204
    | .error _ =>
      return some ⟨500, [("content-type", "application/xml")],
        .text "<Error><Code>InternalError</Code><Message>Failed to store bucket policy</Message></Error>"⟩

def deleteBucketPolicy : Handler Reply := do
  attempt (.delete (policyPath bucket))
  return emptyResponse 204

def createBucket : Handler Reply := do
  match ← call (.create (objectPath bucket keepMarker) []) with
  | .ok () => return emptyResponse 200
  | .error e => return emptyResponse (if "already exists".toList <:+: e then 409 else 500)

def isEmptyListing : List Text → Bool
  | [] => true
  | [f] => decide (keepMarker <:+ f)
  | _ => false

def deleteBucket : Handler Reply := do
  match ← call (.list ('/' :: bucket)) with
  | .error _ => return emptyResponse 404
  | .ok files =>
    if isEmptyListing files then
      attempt (.delete (objectPath bucket keepMarker))
      return emptyResponse 204
    else return xmlResponse 409 (.error "BucketNotEmpty" "The bucket you tried to delete is not empty" bucket)

def headBucket : Handler Reply := do
  match ← call (.list ('/' :: bucket)) with
  | .ok _ => return emptyResponse 200
  | .error _ => return emptyResponse 404

/-- `trim_matches('/')` -/
def trimSlashes (t : Text) : Text := ((t.dropWhile (· = '/')).reverse.dropWhile (· = '/')).reverse

def listBuckets : Handler Reply := do
  match ← call .listAll with
  | .error _ => return emptyResponse 500
  | .ok files =>
    let names := files.map fun f => ((splitOnce '/' (trimSlashes f)).map fun p => p.1).getD (trimSlashes f)
    return xmlResponse 200 (.listAllMyBuckets (names.filter fun n => n ≠ []).dedup)

/-- Files that are not objects of their own. -/
def isInternal (f : Text) : Bool :=
  decide (keepMarker <:+ f) || decide (mpuMarker <:+ f) || decide (".meta".toList <:+ f)

def dropStart? (start t : Text) : Option Text := if start <+: t then some (t.drop start.length) else none

def findText? (needle : Text) : Text → Option Nat
  | [] => if needle = [] then some 0 else none
  | c :: t => if needle <+: c :: t then some 0 else (findText? needle t).map fun n => n + 1

/-- The common prefix that a key falls under: up to the first delimiter behind the prefix that was asked for. -/
def commonPrefix? (keyPrefix delimiter : Option Text) (key : Text) : Option Text :=
  delimiter.bind fun d =>
    let skipped := (keyPrefix.getD []).length
    (findText? d (key.drop skipped)).map fun n => key.take (skipped + n + d.length)

/-- A key is looked at only if it begins with the prefix that was asked for. -/
def wanted (keyPrefix : Option Text) (key : Text) : Bool := keyPrefix.all fun p => decide (p <+: key)

def objectEntry (f key : Text) : Handler ObjectEntry := do
  match ← call (.info f) with
  | .ok (some info) =>
    return ⟨key, if 0 < info.createdAtMs then g.crates.formatIsoDate
      (info.createdAtMs / 1000) else "2025-01-01T00:00:00.000Z",
      if info.etagMd5 = [] then emptyEtag else '"' :: (info.etagMd5 ++ ['"']), info.content.length⟩
  | _ => return ⟨key, "2025-01-01T00:00:00.000Z", emptyEtag, 0⟩

structure Listed where
  objects : List ObjectEntry
  commonPrefixes : List Text

def Listed.addPrefix (l : Listed) (p : Text) : Listed :=
  if p ∈ l.commonPrefixes then l else { l with commonPrefixes := l.commonPrefixes ++ [p] }

/-- `trim_end_matches` of a text: every copy of it at the end goes. -/
def trimEnd (ending : Text) : Nat → Text → Text
  | 0, t => t
  | fuel + 1, t =>
      if ending ≠ [] ∧ ending <:+ t then trimEnd ending fuel (t.take (t.length - ending.length)) else t

/-- The objects uploaded in parts that a listing shows, by the paths of their markers. -/
def mpuObjects (files : List Text) : List Text :=
  ((files.filter fun f => mpuMarker <:+ f).map fun f =>
    let t := trimSlashes f
    trimEnd ('/' :: mpuMarker) t.length t).dedup

/-- `Path::parent` of a path without slashes at its ends and without `.` in it. -/
def parentOf (path : Text) : Text := ((joinSegments (segments path).dropLast).reverse.dropWhile (· = '/')).reverse

def listFile (bucket : Text) (params : S3Query) (mpu : List Text) (l : Listed) (f : Text) : Handler Listed := do
  if isInternal f then return l
  else
    match dropStart? ('/' :: (bucket ++ ['/'])) f with
    | none => return l
    | some key =>
      if parentOf (trimSlashes f) ∈ mpu then return l
      else if !wanted params.keyPrefix key then return l
      else
        match commonPrefix? params.keyPrefix params.delimiter key with
        | some p => return l.addPrefix p
        | none => return { l with objects := l.objects ++ [← objectEntry g f key] }

def listUploaded (bucket : Text) (params : S3Query) (l : Listed) (path : Text) : Handler Listed := do
  match dropStart? (bucket ++ ['/']) path with
  | none => return l
  | some key =>
    if !wanted params.keyPrefix key then return l
    else
      let sidecar ← readSidecar g.crates path
      let etag := (sidecar.bind fun m => m.get etagKey).getD "\"000-MPU\""
      return { l with objects := l.objects ++ [⟨key, "2025-01-01T00:00:00.000Z", etag, 0⟩] }

def listObjects (bucket : Text) (params : S3Query) : Handler Reply := do
  match ← call (.list ('/' :: bucket)) with
  | .error _ => return emptyResponse 500
  | .ok files =>
    let mpu := mpuObjects files
    let l ← files.foldlM (listFile g bucket params mpu) ⟨[], []⟩
    let l ← mpu.foldlM (listUploaded g bucket params) l
    return xmlResponse 200 (.listBucket ⟨bucket, params.keyPrefix.getD [], l.objects, l.commonPrefixes⟩)

structure Page where
  listed : Listed
  keyCount : Int
  nextToken : Option Text
  isTruncated : Bool

/-- The loop over the files of a page; `previous` is the file before. -/
def listPage (g : Gateway) (bucket : Text) (params : S3Query) (maxKeys : Int) :
    Option Text → List Text → Page → Handler Page
  | _, [], page => return page
  | previous, f :: rest, page => do
    let bucketPrefix := '/' :: (bucket ++ ['/'])
    if maxKeys ≤ page.keyCount then
      return { page with isTruncated := true, nextToken := previous.bind (dropStart? bucketPrefix) }
    else if isInternal f then listPage g bucket params maxKeys (some f) rest page
    else
      match dropStart? bucketPrefix f with
      | none => listPage g bucket params maxKeys (some f) rest page
      | some key =>
        if !wanted params.keyPrefix key then listPage g bucket params maxKeys (some f) rest page
        else
          match commonPrefix? params.keyPrefix params.delimiter key with
          | some p =>
              listPage g bucket params maxKeys (some f) rest { page with listed := page.listed.addPrefix p }
          | none =>
            let entry ← objectEntry g f key
            listPage g bucket params maxKeys (some f) rest
              { page with
                listed := { page.listed with objects := page.listed.objects ++ [entry] }
                keyCount := page.keyCount + 1 }

def listObjectsV2 (bucket : Text) (params : S3Query) : Handler Reply := do
  match ← call .listAll with
  | .error _ => return emptyResponse 500
  | .ok all =>
    let files := sortTexts (all.filter fun f => '/' :: (bucket ++ ['/']) <+: f)
    let marker := ((params.startAfter).or params.continuationToken).getD []
    let skipped := if marker = [] then [] else files.takeWhile fun f => ¬ objectPath bucket marker < f
    let rest := files.drop skipped.length
    let maxKeys := params.maxKeys.getD 1000
    -- before the first file `i - 1` wraps around and finds nothing
    let page ← listPage g bucket params maxKeys skipped.getLast? rest ⟨⟨[], []⟩, 0, none, false⟩
    return xmlResponse 200
      (.listBucketV2 ⟨bucket, params.keyPrefix.getD [], maxKeys, page.isTruncated, page.listed.objects,
      page.listed.commonPrefixes, page.keyCount, params.continuationToken, page.nextToken, params.startAfter⟩)

def Operation.run : Operation → Handler Reply
  | .getBucketPolicy bucket => S3.getBucketPolicy g bucket
  | .putBucketPolicy bucket body => S3.putBucketPolicy g bucket body
  | .deleteBucketPolicy bucket => S3.deleteBucketPolicy bucket
  | .createBucket bucket => S3.createBucket bucket
  | .deleteBucket bucket => S3.deleteBucket bucket
  | .headBucket bucket => S3.headBucket bucket
  | .listObjects bucket params => S3.listObjects g bucket params
  | .listObjectsV2 bucket params => S3.listObjectsV2 g bucket params
  | .initiateMultipartUpload bucket key => S3.initiateMultipartUpload bucket key
  | .deleteMultipleObjects bucket body => S3.deleteMultipleObjects g bucket body
  | .uploadPart _ _ uploadId partNumber body => S3.uploadPart g uploadId partNumber body
  | .completeMultipartUpload bucket key uploadId => S3.completeMultipartUpload g bucket key uploadId
  | .abortMultipartUpload _ _ uploadId => S3.abortMultipartUpload uploadId
  | .copyObject bucket key source => S3.copyObject g bucket key source
  | .putObject bucket key body headers => S3.putObject g bucket key body headers
  | .getObject bucket key headers => S3.getObject g bucket key headers
  | .deleteObject bucket key => S3.deleteObject bucket key
  | .headObject bucket key => S3.headObject g bucket key

end RustHadoop.S3
