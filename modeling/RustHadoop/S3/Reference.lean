import RustHadoop.Lib.Tables
import RustHadoop.S3.Signing

/-!
# Crates for concrete requests

What the crates compute on plain inputs: query strings without plus signs, ASCII texts.  Hash functions are without
collisions; a concrete request brings a table with their values at the inputs it needs.  Readers of formats know
nothing until a request brings the documents it is about.
-/

namespace RustHadoop.S3

open Texts Tables

def decodeParameter (t : Text) : Text := (percentDecode t).getD t

def plainQuery (raw : Text) : Pairs :=
  ((raw.splitOn '&').filter fun s => s ≠ []).map fun s =>
    let (name, value) := (splitOnce '=' s).getD (s, [])
    (decodeParameter name, decodeParameter value)

/-- A hash with values of 32 bytes at the inputs of the table only. -/
def tableHash (entries : List (Bytes × Bytes)) : Bytes → Bytes := lookupOr entries (marked 0 33)

def tableHmac (entries : List (Bytes × Bytes × Bytes)) (key message : Bytes) : Bytes :=
  tableHash (entries.map fun e => (paired 0 1 e.1 e.2.1, e.2.2)) (paired 0 1 key message)

def plainCrates : Crates where
  formUrlencoded := plainQuery
  percentDecodeLossy := decodeParameter
  toLowercase t := t.map asciiLower
  sha256 := tableHash []
  hmac := tableHmac []
  md5 := marked 0 17
  aesEncrypt _ _ _ := none
  aesDecrypt _ _ _ := none
  base64Encode _ := []
  base64Decode _ := none
  regex _ := none
  parseRfc3339 _ := none
  parseDateTime _ := none
  parseNaive _ := none
  formatRfc3339 _ := []
  formatHttpDate _ := []
  formatIsoDate _ := []
  readPolicy _ := none
  isJson _ := false
  readSession _ := none
  printMetadata _ := []
  readMetadata _ := none
  readDelete _ := none

theorem tableHash_injective {entries : List (Bytes × Bytes)} (hv : (entries.map Prod.snd).Nodup)
    (hl : ∀ e ∈ entries, e.2.length = 32) : Function.Injective (tableHash entries) := by
  refine lookupOr_injective hv (marked_injective 0 33) fun a hmem => ?_
  obtain ⟨e, he, heq⟩ := List.mem_map.1 hmem
  have hlen := hl e he
  rw [heq, length_marked] at hlen
  omega

theorem tableHmac_injective {entries : List (Bytes × Bytes × Bytes)} (hv : (entries.map fun e => e.2.2).Nodup)
    (hl : ∀ e ∈ entries, e.2.2.length = 32) {k k' m m' : Bytes}
    (h : tableHmac entries k m = tableHmac entries k' m') : k = k' ∧ m = m' := by
  refine paired_injective (by decide) (tableHash_injective ?_ ?_ h)
  · rw [List.map_map]
    exact hv
  · intro e he
    obtain ⟨e', he', rfl⟩ := List.mem_map.1 he
    exact hl e' he'

/-! ### Signed requests

The requests below have the access key of one user, one date, and `host` and `x-amz-date` as their signed headers.
The digits are those of SHA-256 and HMAC-SHA256. -/

def digest (t : Text) : Bytes := (hexDecode t).getD []

def signedHeaders (payloadHash signature : Text) : HeaderMap :=
  [("host", utf8 "localhost:9000"), ("x-amz-date", utf8 "20240220T010203Z"),
    ("x-amz-content-sha256", utf8 payloadHash),
    ("authorization", utf8 ("AWS4-HMAC-SHA256 Credential=AKIDEXAMPLE/20240220/us-east-1/s3/aws4_request, "
      ++ "SignedHeaders=host;x-amz-date, Signature=" ++ signature))]

def signedCredentials (signature : Text) : ParsedCredentials :=
  ⟨"AKIDEXAMPLE", "20240220", "us-east-1", "s3", ["host", "x-amz-date"], signature, "20240220T010203Z"⟩

def canonicalForm (method path query payloadHash : Text) : Text :=
  method ++ '\n' :: path ++ '\n' :: query ++
    "\nhost:localhost:9000\nx-amz-date:20240220T010203Z\n\nhost;x-amz-date\n"
    ++ payloadHash

def scopedDigest (canonicalDigest : Text) : Text :=
  "AWS4-HMAC-SHA256\n20240220T010203Z\n20240220/us-east-1/s3/aws4_request\n" ++ canonicalDigest

/-- HMAC-SHA256 along the derivation from a secret to its signing key. -/
def keyChain (secretKey kDate kRegion kService kSigning : Text) : List (Bytes × Bytes × Bytes) :=
  [(utf8 ("AWS4" ++ secretKey), utf8 "20240220", digest kDate), (digest kDate, utf8 "us-east-1", digest kRegion),
    (digest kRegion, utf8 "s3", digest kService), (digest kService, utf8 "aws4_request", digest kSigning)]

def staticSecret : Text := "wJalrXUtnFEMI"

def staticKey : Text := "fbdf4aafaff80a791d00f929c60f17fec68acaf4c63cc83dc58bdaa6e1da613f"

def staticChain : List (Bytes × Bytes × Bytes) :=
  keyChain staticSecret "7dcc9ca428f747663a11702580fbb4e56201efb5b6de6a7633abfe300240d62a"
    "62c356a0c9457466207e91fc66320cdd8d1ce0d1f3c60c19f494bfb6f9b31394"
    "5aaeed5cef7b371b92d8a461cf1c0a6f9f14b7db5eeaa97711777949aad8a6aa" staticKey

def sessionSecret : Text := "kQ3vT8mN1xZ5bR7cW2yL9pD4fG6hJ0sA1eU8iO3t"

def sessionKey : Text := "a3ef0a32519fab63055c78637b6844653d2e8070a2675af21024a5d8e5aab400"

def sessionChain : List (Bytes × Bytes × Bytes) :=
  keyChain sessionSecret "c5d66e003097fad92c9863cb5bd3ff40458848a7e8d72ec0a91cfd82a32e91f3"
    "8c62b0d05d9d2263cfc8b7adf2867c9b0dc2a6be6c61261e06b2e73a8b188d72"
    "dfbd0af468d1aaff0bf8b49108c70ba0d6f79b657fbdd561203a7a17657d4fde" sessionKey

/-- The message that is signed, and its signature with a key. -/
def signedWith (key canonicalDigest signature : Text) : Bytes × Bytes × Bytes :=
  (digest key, utf8 (scopedDigest canonicalDigest), digest signature)

/-- Crates that know the digest of one canonical request and its signature by the static user. -/
def signedCrates (canonical canonicalDigest signature : Text) : Crates :=
  { plainCrates with
    sha256 := tableHash [(utf8 canonical, digest canonicalDigest)]
    hmac := tableHmac (staticChain ++ [signedWith staticKey canonicalDigest signature]) }

/-- The token of the session, its content, and the text and the ciphertext in between. -/
def sessionToken : Text :=
  "AAAAAQABAgMEBQYHCAkKC2Ojmx9xbIYoBdzHpsA5HpTbWND9IgsWXCz0WcjhuwgqrE1qwOOqXI2rlqbVLpLBbJ9VJVvu94/HQjng"
    ++ "tM2OKrcXemHurTBPolF5nsx1u03FnDqB7jV8Fob14RFZZ0EwbZWVbG9nWn8lsUQ9JV47ULepOlOr595kyFglM8zpW4c+eaEpqU7d"
    ++ "Lz7e2ND/WdRxE7GkqvVtT3IAyn19FroblAzQfs3/ip3DQ4YiwVIcMqTkbGzztyyQcwbjb2mdzvlWJWm9TAQzRdVJyxftT8I="

def sessionData : StsSessionData := ⟨"arn:dfs:iam:::role/r", sessionSecret, 4102444800, ⟨"u", "i", []⟩⟩

def sessionJson : Text :=
  "\x7b\"role_arn\":\"arn:dfs:iam:::role/r\",\"temp_secret_key\":\"kQ3vT8mN1xZ5bR7cW2yL9pD4fG"
    ++ "6hJ0sA1eU8iO3t\",\"expiration\":4102444800,\"claims\":\x7b\"sub\":\"u\",\"aud\":\"a\",\"iss\":\"i\","
    ++ "\"exp\":0,\"iat\":0,\"groups\":[]\x7d\x7d"

def sessionCiphertext : Bytes :=
  digest ("63a39b1f716c862805dcc7a6c0391e94db58d0fd220b165c2cf459c8e1bb082aac4d6ac0e3aa5c8dab96a6d52e92c16c"
    ++ "9f55255beef78fc74239e0b4cd8e2ab7177a61eead304fa251799ecc75bb4dc59c3a81ee357c1686f5e111596741306d"
    ++ "95956c6f675a7f25b1443d255e3b50b7a93a53abe7de64c8582533cce95b873e79a129a94edd2f3eded8d0ff59d47113"
    ++ "b1a4aaf56d4f7200ca7d7d16ba1b940cd07ecdff8a9dc3438622c1521c32a4e46c6cf3b72c907306e36f699dcef95625"
    ++ "69bd4c043345d549cb17ed4fc2")

variable (c : Crates)

def sessionCrates : Crates :=
  { c with
    base64Decode := fun t =>
      if t = sessionToken then some (digest "00000001000102030405060708090a0b" ++ sessionCiphertext) else none
    aesDecrypt := fun key nonce text =>
      if key = List.replicate 32 7 ∧ nonce = digest "000102030405060708090a0b" ∧ text = sessionCiphertext then
        some (utf8 sessionJson)
      else none
    readSession := fun json => if json = utf8 sessionJson then some sessionData else none }

def staticGateway : Gateway where
  crates := c
  authEnabled := true
  credentialProvider := envCredentialProvider (some "AKIDEXAMPLE".toList) (some staticSecret)
  serverRegion := "us-east-1"
  requireTls := false
  allowUnsignedPayload := false
  stsTokenManager := none
  policyEvaluator := none
  sseManager := none

def openGateway : Gateway := { staticGateway c with authEnabled := false }

/-- A gateway that also accepts the tokens of sessions. -/
def sessionGateway : Gateway :=
  { staticGateway (sessionCrates c) with stsTokenManager := some ⟨[(1, List.replicate 32 7)], 1⟩ }

end RustHadoop.S3
