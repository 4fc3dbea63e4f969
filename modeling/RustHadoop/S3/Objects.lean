import RustHadoop.S3.Responses

/-!
# Handlers of objects

`put_object`, `copy_object`, `get_object`, `head_object`, `delete_object` and `delete_multiple_objects` of
`handlers.rs`, with `SseManager` of `dfs/common/src/auth/sse.rs`.
-/

namespace RustHadoop.S3

open Texts Threads

/-- `encrypt_object`: the nonce and the ciphertext, and the wrapped key of the object. -/
def SseManager.encryptObject (c : Crates) (m : SseManager) (plaintext : Bytes) :
    Handler (Option (Bytes × Text)) := do
  let dek : Bytes ← call (.random 32)
  let dataNonce : Bytes ← call (.random 12)
  match c.aesEncrypt dek dataNonce plaintext with
  | none => return none
  | some dataCiphertext =>
    let kekNonce : Bytes ← call (.random 12)
    match c.aesEncrypt m.kek kekNonce dek with
    | none => return none
    | some encryptedDek => return some (dataNonce ++ dataCiphertext, c.base64Encode (kekNonce ++ encryptedDek))

def SseManager.decryptObject (c : Crates) (m : SseManager) (ciphertext : Bytes) (dekB64 : Text) :
    Option Bytes := do
  let dekBlob ← c.base64Decode dekB64
  if dekBlob.length < 60 then none
  else
    let dek ← c.aesDecrypt m.kek (dekBlob.take 12) (dekBlob.drop 12)
    if dek.length ≠ 32 then none
    else if ciphertext.length < 28 then none
    else c.aesDecrypt dek (ciphertext.take 12) (ciphertext.drop 12)

variable (g : Gateway)

/-- What is written for a body, and the wrapped key if it is encrypted; nothing if encryption fails. -/
def sealBody (body : Bytes) : Handler (Option (Bytes × Option Text)) := do
  match g.sseManager with
  | none => return some (body, none)
  | some m => return (← m.encryptObject g.crates body).map fun (ciphertext, dek) => (ciphertext, some dek)

/-- The body behind what was written. -/
def openBody (dek : Option Text) (content : Bytes) : Option Bytes :=
  match dek, g.sseManager with
  | some dek, some m => m.decryptObject g.crates content dek
  | _, _ => some content

def lineEnd? : Bytes → Option Nat
  | 13 :: 10 :: _ => some 0
  | _ :: rest => (lineEnd? rest).map fun n => n + 1
  | [] => none

/-- `usize::from_str_radix` with base 16; what cannot be read is 0. -/
def chunkSize (t : Text) : Nat :=
  let digits := match t with
    | '+' :: t => t
    | t => t
  if digits = [] then 0
  else ((digits.foldl (fun n d => n.bind fun n => (hexDigit? d).map fun d => n * 16 + d) (some 0)).filter
    fun n => decide (n < 2 ^ 64)).getD 0

/-- The chunks of a body, each with the line before it, up to the first that is empty or cut short; `none` if the
index behind a chunk lies outside of the body, where `decode_chunked_payload` panics. -/
def splitChunks : Nat → Bytes → Option (List (Text × Bytes))
  | 0, _ => some []
  | fuel + 1, current =>
    match lineEnd? current with
    | none => some []
    | some n =>
      let header := (utf8? (current.take n)).getD []
      let size := chunkSize ((header.splitOn ';').headD [])
      let rest := current.drop (n + 2)
      if size = 0 then some []
      else if rest.length < size then some []
      else if rest.length < size + 2 then none
      else (splitChunks fuel (rest.drop (size + 2))).map fun chunks => (header, rest.take size) :: chunks

def payloadChunks (body : Bytes) : Option (List (Text × Bytes)) := splitChunks (body.length + 1) body

def decodeChunkedPayload (body : Bytes) : Option Bytes :=
  (payloadChunks body).map fun chunks => chunks.flatMap fun c => c.2

def streamingPayload : Text := "STREAMING-AWS4-HMAC-SHA256-PAYLOAD"

/-- What `put_object` takes for the body of the object; `none` if it panics. -/
def putPayload (headers : HeaderMap) (body : Bytes) : Option Bytes :=
  if headers.getStr "x-amz-content-sha256" = some streamingPayload then decodeChunkedPayload body else some body

def replaceSidecar (c : Crates) (path : Text) (m : Metadata) : Handler Unit := do
  attempt (.delete (metaPath path))
  attempt (.create (metaPath path) (c.printMetadata m))

/-- The sidecar of a put: entity tag, metadata headers of the request, wrapped key. -/
def putMetadata (etag : Text) (headers : HeaderMap) (dek : Option Text) : Metadata :=
  let fromHeaders := headers.foldl (fun m h =>
    if "x-amz-meta-".toList <+: h.1 then
      match toStr h.2 with
      | some value => m.insert h.1 value
      | none => m
    else m) (Metadata.insert [] etagKey etag)
  match dek with
  | some dek => fromHeaders.insert dekKey dek
  | none => fromHeaders

/-- Create a file; if it exists, delete it and try once more. -/
def createOver (path : Text) (content : Bytes) : Handler (Except Text Unit) := do
  match ← call (.create path content) with
  | .ok () => return .ok ()
  | .error e =>
    if "already exists".toList <:+: e then
      attempt (.delete path)
      call (.create path content)
    else return .error e

def putObject (bucket key : Text) (body : Bytes) (headers : HeaderMap) : Handler Reply := do
  let destPath := objectPath bucket key
  match putPayload headers body with
  | none => return none
  | some body =>
    let etag := quotedMd5 g.crates body
    match ← sealBody g body with
    | none => return emptyResponse 500
    | some (writeBody, dek) =>
      match ← createOver destPath writeBody with
      | .error _ => return emptyResponse 500
      | .ok () =>
        replaceSidecar g.crates destPath (putMetadata etag headers dek)
        return some
          ⟨200, ("etag", etag) ::
            (if dek.isSome then [("x-amz-server-side-encryption", "AES256")] else []), .empty⟩

def copyObject (g : Gateway) (bucket key source : Text) : Handler Reply := do
  let dest := objectPath bucket key
  let sourcePath := '/' :: copySource g.crates source
  match ← call (.download sourcePath) with
  | .error _ => return emptyResponse 404
  | .ok srcBody =>
    let srcDek := (← readSidecar g.crates sourcePath).bind fun m => m.get dekKey
    match openBody g srcDek srcBody with
    | none => return emptyResponse 500
    | some plain =>
      let etag := quotedMd5 g.crates plain
      match ← sealBody g plain with
      | none => return emptyResponse 500
      | some (writeBody, dek) =>
        match ← call (.create dest writeBody) with
        | .error _ => return emptyResponse 500
        | .ok () =>
          replaceSidecar g.crates dest (putMetadata etag [] dek)
          let now : Nat ← call .now
          return xmlResponse 200 (.copyObject (g.crates.formatRfc3339 (Int.ofNat now)) etag)

def mpuMarker : Text := ".s3_mpu_completed"

def keepMarker : Text := ".s3keep"

def fileName (path : Text) : Text := (segments path).getLastD []

/-- The number of a listed file, if it is taken for a part of the object. -/
def partNumber? (fullPath f : Text) : Option Int :=
  if fullPath <+: f ∧ ¬ keepMarker <:+ f ∧ ¬ mpuMarker <:+ f then signed? 32 (fileName f) else none

def partFiles (fullPath : Text) (files : List Text) : List Text :=
  let numbered := files.filterMap fun f => (partNumber? fullPath f).map fun n => (n, f)
  (numbered.insertionSort fun a b => a.1 ≤ b.1).map fun p => p.2

/-- The parts one after another.  A part that cannot be read is left out; `none` if one cannot be decrypted. -/
def readParts (g : Gateway) (dek : Option Text) : List Text → Handler (Option Bytes)
  | [] => return some []
  | path :: rest => do
    match ← call (.download path) with
    | .error _ => readParts g dek rest
    | .ok content =>
      match openBody g dek content with
      | none => return none
      | some plain => return (← readParts g dek rest).map fun others => plain ++ others

/-- Headers of a response that come from the sidecar. -/
def sidecarHeaders (m : Metadata) : List (Text × Text) :=
  m.foldl (fun headers (name, value) =>
    if name ≠ etagKey ∧ name ≠ dekKey ∧ "x-amz-meta-".toList <+: name then
      match headerName? name, isHeaderValue value with
      | some name, true => insertHeader name value headers
      | _, _ => headers
    else headers) []

def sseHeaders (dek : Option Text) (headers : List (Text × Text)) : List (Text × Text) :=
  if dek.isSome then insertHeader "x-amz-server-side-encryption" "AES256" headers else headers

/-- What is known about an object before its bytes are read. -/
structure ObjectHead where
  etag : Text
  lastModified : Text
  dek : Option Text
  extra : List (Text × Text)

def defaultModified : Text := "Wed, 01 Jan 2025 00:00:00 GMT"

/-- From what the master says about the file, and from the sidecar, which goes first. -/
def objectHead (c : Crates) (info : Option StoredFile) (sidecar : Option Metadata) : ObjectHead :=
  let infoEtag := match info with
    | some f => if f.etagMd5 = [] then emptyEtag else '"' :: (f.etagMd5 ++ ['"'])
    | none => emptyEtag
  let dek := sidecar.bind fun m => m.get dekKey
  { etag := (sidecar.bind fun m => m.get etagKey).getD infoEtag
    lastModified := match info with
      | some f => if 0 < f.createdAtMs then c.formatHttpDate (f.createdAtMs / 1000) else defaultModified
      | none => defaultModified
    dek := dek
    extra := sseHeaders dek (sidecarHeaders (sidecar.getD [])) }

/-- Headers are parsed from texts, and one that is not a header value panics. -/
def ObjectHead.valid (head : ObjectHead) : Bool := isHeaderValue head.etag && isHeaderValue head.lastModified

def ObjectHead.headers (head : ObjectHead) : List (Text × Text) :=
  insertHeader "last-modified" head.lastModified (insertHeader "etag" head.etag head.extra)

/-- The whole content or the part of it that the range asks for; slicing panics if the content is empty. -/
def rangedResponse (withLength : Bool) (head : ObjectHead) (content : Bytes) (range : Option (Text × Text)) :
    Reply :=
  match range.bind (byteRange content.length) with
  | some (first, final) =>
    if content.length ≤ final then none
    else
      let slice := (content.drop first).take (final - first + 1)
      some ⟨206, insertHeader "content-length" (natText slice.length)
        (insertHeader "content-range" (contentRange first final content.length) head.headers), .bytes slice⟩
  | none =>
    let headers :=
      if withLength then insertHeader "content-length" (natText content.length) head.headers else head.headers
    some ⟨200, headers, .bytes content⟩

/-- The optimized range read of an object that is not encrypted; `none` where it falls back to the whole file. -/
def readRanged (path : Text) (head : ObjectHead) (parts : Text × Text) : Handler (Option Reply) := do
  match ← call (.info path) with
  | .ok (some _) =>
    match ← call (.download path) with
    | .error _ => return none
    | .ok whole =>
      match byteRange whole.length parts with
      | none => return none
      | some (first, final) =>
        let length := final - first + 1
        match ← call (.readRange path first length) with
        | .error _ => return none
        | .ok data =>
          return some (some ⟨206, insertHeader "content-length" (natText length)
            (insertHeader "content-range" (contentRange first final whole.length) head.headers), .bytes data⟩)
  | _ => return none

/-- The branch of `get_object` for objects that were uploaded in parts. -/
def getParts (head : ObjectHead) (parts : List Text) (headers : HeaderMap) : Handler Reply := do
  match ← readParts g head.dek parts with
  | none => return emptyResponse 500
  | some combined => return rangedResponse false head combined (rangeParts headers)

def getWhole (path : Text) (head : ObjectHead) (headers : HeaderMap) : Handler Reply := do
  match ← call (.download path) with
  | .error _ => return emptyResponse 404
  | .ok raw =>
    match openBody g head.dek raw with
    | none => return emptyResponse 500
    | some plain => return rangedResponse true head plain (rangeParts headers)

def getSingle (path : Text) (head : ObjectHead) (headers : HeaderMap) : Handler Reply := do
  match head.dek, rangeParts headers with
  | none, some parts =>
    match ← readRanged path head parts with
    | some reply => return reply
    | none => getWhole g path head headers
  | _, _ => getWhole g path head headers

def isMultipart (fullPath : Text) (files : List Text) : Bool :=
  files.any fun f => decide (fullPath <+: f) && decide (mpuMarker <:+ f)

def getObject (bucket key : Text) (headers : HeaderMap) : Handler Reply := do
  let fullPath := objectPath bucket key
  let files := (okay (← call (.list fullPath))).getD []
  let info := (okay (← call (.info fullPath))).join
  let sidecar ← readSidecar g.crates fullPath
  let head := objectHead g.crates info sidecar
  if !head.valid then return none
  else if isMultipart fullPath files then getParts g head (partFiles fullPath files) headers
  else getSingle g fullPath head headers

def headResponse (head : ObjectHead) (length : Nat) : Reply :=
  if head.valid then
    some ⟨200, ("etag", head.etag) :: ("content-length", natText length) :: ("last-modified", head.lastModified) ::
      ("content-type", "application/octet-stream") :: head.extra, .empty⟩
  else none

def headObject (bucket key : Text) : Handler Reply := do
  let path := objectPath bucket key
  let files := (okay (← call (.list path))).getD []
  if files.any fun f => decide (mpuMarker <:+ f) then
    let head := objectHead g.crates none (← readSidecar g.crates path)
    let now : Nat ← call .now
    return headResponse { head with lastModified := g.crates.formatHttpDate now } 0
  else
    match ← call (.info path) with
    | .ok (some info) =>
      return headResponse (objectHead g.crates (some info) (← readSidecar g.crates path)) info.content.length
    | .ok none =>
      if ['/'] <:+ path then
        match ← call (.list path) with
        | .ok (_ :: _) => return some ⟨200, [("content-length", "0")], .empty⟩
        | _ => return emptyResponse 404
      else return emptyResponse 404
    | .error _ => return emptyResponse 500

/-- Delete the listed files that begin with the path. -/
def deleteListed (path : Text) (files : List Text) : Handler Unit :=
  Prog.each (fun f => if path <+: f then attempt (.delete f) else return ()) files

def deleteObject (bucket key : Text) : Handler Reply := do
  let path := objectPath bucket key
  attempt (.delete path)
  let files := (okay (← call (.list path))).getD []
  deleteListed path files
  attempt (.delete (metaPath path))
  return emptyResponse 204

/-- The loop of `delete_multiple_objects`: keys that are gone, and errors. -/
def deleteKeysOf (bucket : Text) : List Text → Handler (List Text × List (Text × Text × Text))
  | [] => return ([], [])
  | key :: rest => do
    match ← call (.delete (objectPath bucket key)) with
    | .ok () =>
      let (deleted, errors) ← deleteKeysOf bucket rest
      return (key :: deleted, errors)
    | .error e =>
      let (deleted, errors) ← deleteKeysOf bucket rest
      if "not found".toList <:+: e then return (key :: deleted, errors)
      else return (deleted, (key, "InternalError".toList, e) :: errors)

def deleteMultipleObjects (bucket : Text) (body : Bytes) : Handler Reply := do
  match (utf8? body).bind g.crates.readDelete with
  | none => return emptyResponse 400
  | some keys =>
    let (deleted, errors) ← deleteKeysOf bucket keys
    return xmlResponse 200 (.deleteObjects deleted errors)

end RustHadoop.S3
