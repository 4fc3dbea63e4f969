import RustHadoop.S3.Store
import RustHadoop.S3.Dispatch

/-!
# Responses

What handlers answer with.  A document is printed by `quick_xml`, which prints every document below; a handler that
panics gives no response.
-/

namespace RustHadoop.S3

open Texts

structure ObjectEntry where
  key : Text
  lastModified : Text
  etag : Text
  size : Nat
deriving DecidableEq

structure ListBucketResult where
  name : Text
  keyPrefix : Text
  contents : List ObjectEntry
  commonPrefixes : List Text
deriving DecidableEq

structure ListBucketResultV2 where
  name : Text
  keyPrefix : Text
  maxKeys : Int
  isTruncated : Bool
  contents : List ObjectEntry
  commonPrefixes : List Text
  keyCount : Int
  continuationToken : Option Text
  nextContinuationToken : Option Text
  startAfter : Option Text
deriving DecidableEq

inductive Document
  | listAllMyBuckets (names : List Text)
  | listBucket (result : ListBucketResult)
  | listBucketV2 (result : ListBucketResultV2)
  | initiateMultipartUpload (bucket key uploadId : Text)
  | completeMultipartUpload (location bucket key etag : Text)
  /-- the keys that were deleted, and the others with code and message -/
  | deleteObjects (deleted : List Text) (errors : List (Text × Text × Text))
  | copyObject (lastModified etag : Text)
  | error (code message resource : Text)
deriving DecidableEq

inductive ResponseBody
  | empty
  | bytes (b : Bytes)
  | text (t : Text)
  | xml (d : Document)
deriving DecidableEq

structure Response where
  status : Nat
  headers : List (Text × Text)
  body : ResponseBody
deriving DecidableEq

/-- What a handler ends with; `none` if it panics. -/
abbrev Reply := Option Response

def succeeded (x : Reply) : Bool := x.any fun r => r.status = 200

def emptyResponse (status : Nat) : Reply := some ⟨status, [], .empty⟩

def xmlResponse (status : Nat) (d : Document) : Reply :=
  some ⟨status, [("content-type", "application/xml")], .xml d⟩

def insertHeader (name value : Text) (headers : List (Text × Text)) : List (Text × Text) :=
  headers.filter (fun h => h.1 ≠ name) ++ [(name, value)]

/-- A handler that goes on after an error does not look at it. -/
def attempt (o : DfsOp) : Handler Unit := do
  let _ ← call o
  return ()

def objectPath (bucket key : Text) : Text := '/' :: objectName bucket key

def metaPath (path : Text) : Text := path ++ ".meta"

/-- The files that belong to the object at a path: its own, its sidecar, and those below it. -/
def OwnFile (path f : Text) : Prop := f = path ∨ f = metaPath path ∨ path ++ ['/'] <+: f

instance (path f : Text) : Decidable (OwnFile path f) := inferInstanceAs (Decidable (_ ∨ _ ∨ _))

namespace Metadata

def get (m : Metadata) (key : Text) : Option Text := (m.find? fun e => e.1 = key).map fun e => e.2

def insert (m : Metadata) (key value : Text) : Metadata := m.filter (fun e => e.1 ≠ key) ++ [(key, value)]

end Metadata

def etagKey : Text := "ETag"

def dekKey : Text := "x-amz-sse-encrypted-dek"

/-- The sidecar of a file, if there is one that can be read. -/
def readSidecar (c : Crates) (path : Text) : Handler (Option Metadata) := do
  match ← call (.content (metaPath path)) with
  | .ok content => return c.readMetadata content
  | .error _ => return none

/-- `"<md5 in hexadecimal digits>"` -/
def quotedMd5 (c : Crates) (content : Bytes) : Text := '"' :: (hexEncode (c.md5 content) ++ ['"'])

def emptyEtag : Text := "\"d41d8cd98f00b204e9800998ecf8427e\""

/-- The two ends of a header `bytes=a-b`, as texts. -/
def rangeParts (headers : HeaderMap) : Option (Text × Text) :=
  match headers.getStr "range" with
  | some value =>
    if "bytes=".toList <+: value then
      match (value.drop 6).splitOn '-' with
      | [a, b] => some (a, b)
      | _ => none
    else none
  | none => none

/-- The first and the last byte of a range; `total - 1` wraps around at 0. -/
def byteRange (total : Nat) (parts : Text × Text) : Option (Nat × Nat) :=
  let last := (total + 2 ^ 64 - 1) % 2 ^ 64
  let first := (unsigned? 64 parts.1).getD 0
  let final := min ((unsigned? 64 parts.2).getD last) last
  if first ≤ final then some (first, final) else none

def contentRange (first final total : Nat) : Text :=
  "bytes " ++ natText first ++ "-" ++ natText final ++ "/" ++ natText total

end RustHadoop.S3
