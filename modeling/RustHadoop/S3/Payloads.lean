import RustHadoop.S3.Effects
import RustHadoop.S3.Gateway
import RustHadoop.S3.Reference

/-!
# What is signed and what is stored

The signature of a request covers the header `x-amz-content-sha256`, not the body.  The header is the digest of the
body, or it says that the body comes in chunks that are signed one by one.  Neither the middleware nor a handler
compares the body with it: `ChunkVerifier` is not used.

So what is stored fits to the header exactly if the body that was sent does (`payload_signed_iff`).
-/

namespace RustHadoop.S3

open Texts Function

/-- The digest in the header, if it is one. -/
def signedDigest (r : Request) : Option Bytes :=
  ((r.headers.getStr "x-amz-content-sha256").bind hexDecode).filter fun d => d.length = 32

def isStreaming (r : Request) : Prop := r.headers.getStr "x-amz-content-sha256" = some streamingPayload

variable (g : Gateway)

/-- The verifier at the first chunk: its predecessor is the request. -/
def firstVerifier (s : Session) : ChunkVerifier where
  signingKey :=
    deriveSigningKey g.crates s.principal.secretKey s.credentials.date s.credentials.region s.credentials.service
  timestamp := s.credentials.timestamp
  scope := s.credentials.scope
  prevSignature := s.credentials.signature

/-- `chunk-signature` in the line before a chunk. -/
def chunkSignature (header : Text) : Option Text :=
  ((header.splitOn ';').drop 1).findSome? fun field =>
    if "chunk-signature=".toList <+: field then some (field.drop 16) else none

def ChunksVerify (c : Crates) : ChunkVerifier → List (Text × Bytes) → Prop
  | _, [] => True
  | v, (header, data) :: rest =>
    ∃ signature, chunkSignature header = some signature ∧ (v.verifyChunk c data signature).1 = true ∧
      ChunksVerify c (v.verifyChunk c data signature).2 rest

/-- The payload is what the header of the request speaks of. -/
def PayloadSigned (r : Request) (s : Session) (payload : Bytes) : Prop :=
  (∀ d, signedDigest r = some d → g.crates.sha256 payload = d) ∧
    (isStreaming r → ∃ chunks, payloadChunks (r.body.getD []) = some chunks ∧
      payload = chunks.flatMap (fun c => c.2) ∧
      ChunksVerify g.crates (firstVerifier g s) chunks)

/-- The bytes that a put or an upload of a part hands on to the DFS, sealed or not. -/
def Operation.payload : Operation → Option Bytes
  | .putObject _ _ body headers => putPayload headers body
  | .uploadPart _ _ _ _ body => some body
  | _ => none

def Operation.target : Operation → Text
  | .putObject bucket key _ _ => objectPath bucket key
  | .uploadPart _ _ uploadId partNumber _ => partPath uploadId partNumber
  | _ => []

/-- The content of the file for a payload.  Parts are not sealed. -/
def Operation.StoredAs (payload content : Bytes) : Operation → Prop
  | .putObject _ _ _ _ => ∃ dek, Seals g payload content dek
  | _ => content = payload

/-- The body that was sent is what the header says.  A chunked body is not decoded for a part, so that only an
empty one is. -/
def BodySigned (r : Request) (s : Session) : Operation → Prop
  | .putObject _ _ body _ =>
    (∀ d, signedDigest r = some d → g.crates.sha256 body = d) ∧
      (isStreaming r → ∀ chunks, payloadChunks body = some chunks →
        ChunksVerify g.crates (firstVerifier g s) chunks)
  | .uploadPart _ _ _ _ body =>
    (∀ d, signedDigest r = some d → g.crates.sha256 body = d) ∧ (isStreaming r → body = [])
  | _ => True

variable {payload : Bytes} {op : Operation}

section

variable {g : Gateway} {r : Request} {s : Session} {clock : Clock} {cache : SigningKeyCache}

theorem checkAuth_body (body : Option Bytes) :
    checkAuth g clock cache { r with body := body } = checkAuth g clock cache r := rfl

theorem signedDigest_of_streaming (h : isStreaming r) : signedDigest r = none := by
  have hh : hexDecode streamingPayload = none := by decide
  rw [signedDigest, show r.headers.getStr "x-amz-content-sha256" = some streamingPayload from h,
    Option.bind_some, hh]
  rfl

variable {chunks : List (Text × Bytes)} {body : Bytes}

private theorem length_splitChunks {fuel : Nat} (h : splitChunks fuel body = some chunks) :
    (chunks.flatMap fun c => c.2).length + chunks.length ≤ body.length := by
  induction fuel generalizing body chunks with
  | zero =>
    cases h
    simp
  | succ fuel ih =>
    unfold splitChunks at h
    split at h
    · cases h
      simp
    · rename_i n hn
      dsimp only at h
      split_ifs at h with hz hs hc
      · cases h
        simp
      · cases h
        simp
      · obtain ⟨rest, hr, rfl⟩ := Option.map_eq_some_iff.1 h
        have hlen := ih hr
        simp only [List.length_drop] at hlen hs hc
        simp only [List.flatMap_cons, List.length_append, List.length_take, List.length_drop, List.length_cons]
        omega

private theorem eq_nil_of_payloadChunks (h : payloadChunks body = some chunks)
    (heq : body = chunks.flatMap fun c => c.2) : body = [] := by
  have hlen := length_splitChunks h
  rw [← heq] at hlen
  have hn : chunks = [] := List.length_eq_zero_iff.1 (by omega)
  rw [heq, hn]
  rfl

private theorem payload_of_route (hop : route g.crates r = .operation op)
    (hp : op.payload = some payload) : (∃ bucket key, op = .putObject bucket key (r.body.getD []) r.headers) ∨
      ∃ bucket key uploadId n, op = .uploadPart bucket key uploadId n (r.body.getD []) := by
  obtain ⟨rest, -, -, hop⟩ := route_operation hop
  obtain ⟨path, params, -, -, hop⟩ := handleRequest_operation hop
  rcases hop with ⟨-, hop⟩ | ⟨-, hop⟩
  · unfold serveBucket at hop
    repeat' split at hop
    all_goals cases hop <;> cases hp
  · unfold serveKey serveObject at hop
    repeat' split at hop
    all_goals cases hop <;> first | exact .inl ⟨_, _, rfl⟩ | exact .inr ⟨_, _, _, _, rfl⟩ | cases hp

private theorem stored_of_runs {shardOf : Text → Nat} {e e' : Dfs} {x : Reply}
    (hp : op.payload = some payload) (h : (calm g.crates shardOf).Runs e (op.run g) e' x)
    (hx : succeeded x = true) : ∃ content, e'.look op.target = some content ∧ op.StoredAs g payload content := by
  cases op with
  | putObject bucket key body headers =>
    rcases runs_putObject h with ⟨hf, -⟩ | ⟨-, payload', content, dek, hput, hs, hl⟩
    · rw [hf] at hx
      cases hx
    · cases hput.symm.trans hp
      refine ⟨content, ?_, dek, hs⟩
      have hne : objectPath bucket key ≠ metaPath (objectPath bucket key) := by simp [metaPath]
      show e'.look (objectPath bucket key) = _
      rw [hl, update_of_ne hne, update_self]
  | uploadPart bucket key uploadId n body =>
    cases hp
    rcases runs_uploadPart h with ⟨hf, -, -⟩ | ⟨-, -, etag, hl⟩
    · rw [hf] at hx
      cases hx
    · have hne : partPath uploadId n ≠ partPath uploadId n ++ etagSuffix := by simp [etagSuffix]
      refine ⟨_, ?_, rfl⟩
      show e'.look (partPath uploadId n) = _
      rw [hl, update_of_ne hne, update_self]
  | _ => cases hp

end

/-- What an accepted request stores is signed exactly if its body is. -/
theorem payload_signed_iff (g : Gateway) (clock : Clock) (cache : SigningKeyCache) (r : Request) (s : Session)
    (hverified : (checkAuth g clock cache r).1 = .ok (.verified s)) {op : Operation}
    (hop : route g.crates r = .operation op) {payload : Bytes} (hpayload : op.payload = some payload) :
    (PayloadSigned g r s payload ↔ BodySigned g r s op) ∧
      (∀ body, (checkAuth g clock cache { r with body := body }).1 = .ok (.verified s)) ∧
      ∀ shardOf e e' x, (calm g.crates shardOf).Runs e (op.run g) e' x → succeeded x = true →
        ∃ content, e'.look op.target = some content ∧ op.StoredAs g payload content := by
  refine ⟨?_, fun body => hverified, fun _ _ _ _ => stored_of_runs hpayload⟩
  unfold PayloadSigned
  rcases payload_of_route hop hpayload with ⟨bucket, key, rfl⟩ | ⟨bucket, key, uploadId, n, rfl⟩
  · by_cases hs : isStreaming r
    · have hchunks : decodeChunkedPayload (r.body.getD []) = some payload := by
        rw [← hpayload]
        exact (if_pos hs).symm
      obtain ⟨chunks, hsplit, rfl⟩ := Option.map_eq_some_iff.1 hchunks
      simp only [BodySigned, signedDigest_of_streaming hs, hs, hsplit, true_implies, Option.some.injEq,
        exists_eq_left',
        forall_eq', reduceCtorEq, false_implies, implies_true, true_and]
    · have hbody : payload = r.body.getD [] := Option.some.inj (hpayload.symm.trans (if_neg hs))
      simp only [BodySigned, hs, hbody, false_implies, and_true]
  · cases hpayload
    refine and_congr_right fun _ => imp_congr_right fun _ => ⟨?_, ?_⟩
    · rintro ⟨chunks, hchunks, heq, -⟩
      exact eq_nil_of_payloadChunks hchunks heq
    · intro hnil
      rw [hnil]
      exact ⟨[], by decide, rfl, trivial⟩

def payloadA : Text := "559aead08264d5795d3909718cdd05abd49572e84fe55590eef31a88a08fdffd"

def payloadB : Text := "df7e70e5021544f4834bbee64a9e3789febc4be81470df629cad6ddb03320a5c"

def bodyDigest : Text := "adaa4bcfa68c461057b095568b1138b7bb933cbbb72eb1d68cfc89c5c3d4c8cb"

def bodySignature : Text := "8333c257b96314e668308a100b8795cb7cf7e2e7057e97347622f5a11ed79ef8"

def bodyHashes : List (Bytes × Bytes) :=
  [(utf8 (canonicalForm "PUT" "/b/a" "" payloadA), digest bodyDigest), ([65], digest payloadA),
    ([66], digest payloadB)]

def bodyCrates : Crates :=
  { plainCrates with
    sha256 := tableHash bodyHashes
    hmac := tableHmac (staticChain ++ [signedWith staticKey bodyDigest bodySignature]) }

def bodyPut (body : Bytes) : Request := ⟨.put, none, "/b/a", none, signedHeaders payloadA bodySignature, some body⟩

def bodySession : Session := ⟨signedCredentials bodySignature, ⟨staticSecret, none, none⟩⟩

private theorem bodyHashes_injective : Injective bodyCrates.sha256 := by
  have hs : (bodyHashes.map Prod.snd).Nodup ∧ ∀ e ∈ bodyHashes, e.2.length = 32 := by
    unfold bodyHashes payloadA payloadB bodyDigest
    repeat rw [String.toList_ofList]
    decide +kernel
  exact tableHash_injective hs.1 hs.2

theorem checkAuth_bodyPut (body : Bytes) :
    (checkAuth (staticGateway bodyCrates) ⟨0, 0, 0, 0⟩ .default (bodyPut body)).1 = .ok
    (.verified bodySession) := by
  have he : (checkAuth (staticGateway bodyCrates) ⟨0, 0, 0, 0⟩ .default (bodyPut [])).1 = .ok
      (.verified bodySession) := by
    unfold staticGateway bodyCrates bodyHashes bodyPut bodySession signedHeaders canonicalForm staticChain
      keyChain signedWith
      payloadA payloadB bodyDigest bodySignature staticKey staticSecret scopedDigest signedCredentials
    repeat rw [String.toList_ofList]
    decide +kernel
  have hr : bodyPut body = { bodyPut [] with body := some body } := rfl
  rw [hr, checkAuth_body]
  exact he

theorem signedDigest_bodyPut (body : Bytes) : signedDigest (bodyPut body) = some (digest payloadA) := by
  rfl

theorem sha256_bodyA : bodyCrates.sha256 [65] = digest payloadA := by
  rfl

theorem payload_signed_iff_same : PayloadSigned (staticGateway bodyCrates) (bodyPut [65]) bodySession [65] := by
  have hroute : route bodyCrates (bodyPut [65]) = .operation (.putObject "b" "a" [65] (bodyPut [65]).headers) := by
    rfl
  have hpayload : (Operation.putObject "b" "a" [65] (bodyPut [65]).headers).payload = some [65] := by
    rfl
  refine (payload_signed_iff (staticGateway bodyCrates) ⟨0, 0, 0, 0⟩ .default (bodyPut [65]) bodySession
    (checkAuth_bodyPut [65])
    hroute hpayload).1.2 ⟨fun d hd => ?_, fun hs => ?_⟩
  · rw [signedDigest_bodyPut] at hd
    cases hd
    exact sha256_bodyA
  · cases (signedDigest_of_streaming hs).symm.trans (signedDigest_bodyPut [65])

/-- The body `B` is accepted and stored with the digest of `A` in the header. -/
theorem other_body_stored : Injective bodyCrates.sha256 ∧
      (checkAuth (staticGateway bodyCrates) ⟨0, 0, 0, 0⟩ .default (bodyPut [66])).1 = .ok (.verified bodySession) ∧
      signedDigest (bodyPut [66]) = some (digest payloadA) ∧
      ∃ e' x, (calm bodyCrates fun _ => 0).Runs .empty
          (handle (staticGateway bodyCrates) ⟨0, 0, 0, 0⟩ .default (bodyPut [66])).1 e' x ∧
        e'.look (objectPath "b" "a") = some [66] ∧ bodyCrates.sha256 [66] ≠ digest payloadA := by
  refine ⟨bodyHashes_injective, checkAuth_bodyPut _, signedDigest_bodyPut _, _, _,
    runs_execCalm bodyCrates (fun _ => 0) (fun _ => []) _ .empty, ?_, ?_⟩
  · rw [handle_of_checkAuth (checkAuth_bodyPut _)]
    rfl
  · rw [← sha256_bodyA]
    exact fun h => absurd (bodyHashes_injective h) (by decide)

end RustHadoop.S3
