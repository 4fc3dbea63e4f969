import RustHadoop.S3.Objects

/-!
# Handlers of multipart uploads

The parts of an upload are files below `/.s3_mpu/<upload id>`, each with a file for its entity tag.  Completing the
upload puts a marker below the path of the object and moves the parts next to it.
-/

namespace RustHadoop.S3

open Texts Threads

def mpuDir (uploadId : Text) : Text := "/.s3_mpu/" ++ uploadId

/-- `/` between a directory and a name. -/
def child (dir name : Text) : Text := dir ++ '/' :: name

def partPath (uploadId : Text) (partNumber : Int) : Text := child (mpuDir uploadId) (intText partNumber)

def etagSuffix : Text := ".etag"

def initiateMultipartUpload (bucket key : Text) : Handler Reply := do
  let uploadId : Text ← call .uuid
  attempt (.create (child (mpuDir uploadId) keepMarker) [])
  return xmlResponse 200 (.initiateMultipartUpload bucket key uploadId)

def uploadPart (g : Gateway) (uploadId : Text) (partNumber : Int) (body : Bytes) : Handler Reply := do
  let path := partPath uploadId partNumber
  let etag := quotedMd5 g.crates body
  match ← call (.create path body) with
  | .error _ => return emptyResponse 500
  | .ok () =>
    attempt (.create (path ++ etagSuffix) (utf8 etag))
    return some ⟨200, [("etag", etag)], .empty⟩

/-- `trim_matches('"')` -/
def trimQuotes (t : Text) : Text := ((t.dropWhile (· = '"')).reverse.dropWhile (· = '"')).reverse

def etagDigest (content : Bytes) : Option Bytes := (utf8? content).bind fun t => hexDecode (trimQuotes t)

/-- The number in the name of an entity tag file. -/
def etagNumber? (f : Text) : Option Int :=
  if etagSuffix <:+ f then signed? 32 ((fileName f).take ((fileName f).length - etagSuffix.length)) else none

/-- The digests of the parts of an upload, with their numbers. -/
def readEtags : List Text → Handler (List (Int × Bytes))
  | [] => return []
  | f :: rest => do
    match etagNumber? f with
    | none => readEtags rest
    | some n =>
      match (okay (← call (.content f))).bind etagDigest with
      | none => readEtags rest
      | some digest => return (n, digest) :: (← readEtags rest)

def mpuEtag (c : Crates) (parts : List (Int × Bytes)) : Text :=
  let sorted := parts.insertionSort fun a b => a.1 ≤ b.1
  '"' :: (hexEncode (c.md5 (sorted.flatMap fun p => p.2)) ++ "-" ++ natText parts.length ++ ['"'])

/-- Move the parts to their places and delete the entity tag files. -/
def moveParts (destDir : Text) (files : List Text) : Handler Unit :=
  Prog.each (fun f =>
    if keepMarker <:+ f then return ()
    else if etagSuffix <:+ f then attempt (.delete f)
    else attempt (.rename f (child destDir (fileName f)))) files

def deleteExisting (path : Text) (files : List Text) : Handler Unit :=
  if path ∈ files then attempt (.delete path) else return ()

def completeMultipartUpload (g : Gateway) (bucket key uploadId : Text) : Handler Reply := do
  let dir := mpuDir uploadId
  let parts ← readEtags ((okay (← call (.list dir))).getD [])
  let etag := mpuEtag g.crates parts
  let destDir := objectPath bucket key
  let existing := (okay (← call (.list destDir))).getD []
  deleteExisting destDir existing
  match ← call (.create (child destDir mpuMarker) []) with
  | .error _ => return emptyResponse 500
  | .ok () =>
    moveParts destDir ((okay (← call (.list dir))).getD [])
    attempt (.delete (child dir keepMarker))
    attempt (.create (metaPath destDir) (g.crates.printMetadata (Metadata.insert [] etagKey etag)))
    return xmlResponse 200 (.completeMultipartUpload ("http://localhost:9000" ++ destDir) bucket key etag)

def abortMultipartUpload (uploadId : Text) : Handler Reply := do
  Prog.each (fun f => attempt (.delete f)) ((okay (← call (.list (mpuDir uploadId)))).getD [])
  return emptyResponse 204

end RustHadoop.S3
