import RustHadoop.Chunk.Checksums
import RustHadoop.Lib.Text

/-!
# The S3 gateway: requests, documents and configuration

The data of `dfs/s3_server/src` and `dfs/common/src/auth`.  Texts are lists of characters (`Texts.Text`), instants
are counted in nanoseconds.

What the gateway takes from crates is collected in `Crates`: hash functions, ciphers, readers and printers of
formats, and the Unicode tables behind `to_lowercase`.  A body that cannot be read to its end, or that is larger
than 1 GiB, is `none`.  Metrics, traces and the audit log are left out.
-/

namespace RustHadoop.S3

open Texts

inductive Method
  | get
  | put
  | delete
  | head
  | post
  | other (name : Text)
deriving DecidableEq, Repr

def Method.asStr : Method → Text
  | .get => "GET"
  | .put => "PUT"
  | .delete => "DELETE"
  | .head => "HEAD"
  | .post => "POST"
  | .other name => name

/-- Header lines with their names in lower case; a value is any sequence of bytes. -/
abbrev HeaderMap := List (Text × Bytes)

namespace HeaderMap

def get (h : HeaderMap) (name : Text) : Option Bytes := (h.find? fun e => e.1 = name).map fun e => e.2

def getAll (h : HeaderMap) (name : Text) : List Bytes := (h.filter fun e => e.1 = name).map fun e => e.2

def containsKey (h : HeaderMap) (name : Text) : Bool := h.any fun e => e.1 = name

end HeaderMap

/-- `HeaderValue::to_str`: the value as a text if it consists of visible ASCII characters, blanks and tabs. -/
def toStr (value : Bytes) : Option Text :=
  if value.all fun b =>
    (0x20 ≤ b && b < 0x7F) || b = 0x09 then some (value.map fun b => Char.ofNat b.toNat) else none

def asciiLower (c : Char) : Char := if 'A' ≤ c ∧ c ≤ 'Z' then Char.ofNat (c.toNat + 32) else c

/-- `HeaderName` from a text: a token, in lower case -/
def headerName? (t : Text) : Option Text :=
  if t ≠ [] ∧ t.all fun c => c.isAlphanum || c ∈ "!#$%&'*+-.^_|~".toList ++
    [Char.ofNat 96] then some (t.map asciiLower) else none

/-- `HeaderValue` from a text: no control characters -/
def isHeaderValue (t : Text) : Bool := (utf8 t).all fun b => (0x20 ≤ b && b ≠ 0x7F) || b = 0x09

def HeaderMap.getStr (h : HeaderMap) (name : Text) : Option Text := (h.get name).bind toStr

structure Request where
  method : Method
  scheme : Option Text
  path : Text
  query : Option Text
  headers : HeaderMap
  body : Option Bytes
deriving DecidableEq

/-- A query string that has been read, in the order of its parameters. -/
abbrev Pairs := List (Text × Text)

/-- The value of a parameter in a `BTreeMap`, where the last of several counts. -/
def Pairs.get (q : Pairs) (name : Text) : Option Text := (q.reverse.find? fun e => e.1 = name).map fun e => e.2

def Pairs.containsKey (q : Pairs) (name : Text) : Bool := q.any fun e => e.1 = name

structure ParsedCredentials where
  accessKey : Text
  date : Text
  region : Text
  service : Text
  signedHeaders : List Text
  signature : Text
  timestamp : Text
deriving DecidableEq

structure SigningInput where
  method : Text
  path : Text
  queryString : Text
  headers : List (Text × List Text)
  signedHeadersList : Text
  payloadHash : Text
deriving DecidableEq

inductive AuthError
  | missingAuth
  | invalidAccessKey (accessKey : Text)
  | signatureDoesNotMatch (canonicalRequest stringToSign : Text)
  | requestTimeTooSkewed (serverTime requestTime : Int)
  | invalidCredentialScope (expected received : Text)
  | insecureTransport
  | invalidToken (text : Text)
  | expiredToken
  | internalError (text : Text)
deriving DecidableEq

/-- `ActionValue` and `ResourceValue`: a pattern or several. -/
inductive Patterns
  | single (pattern : Text)
  | multiple (patterns : List Text)
deriving DecidableEq

structure EvaluationContext where
  principalId : Text
  groups : List Text
  claims : List (Text × Text)
deriving DecidableEq

/-- The conditions of a statement: for each operator the keys with their expected values. -/
abbrev Condition := List (Text × List (Text × List Text))

structure Statement where
  effect : Text
  actions : Patterns
  resources : Option Patterns
  condition : Option Condition
deriving DecidableEq

structure Role where
  roleName : Text
  arn : Text
  assumeRolePolicy : List Statement
  /-- the statements of each managed policy -/
  policies : List (List Statement)
deriving DecidableEq

structure IamConfig where
  roles : List Role
deriving DecidableEq

/-- `PrincipalValue` with `AwsPrincipal` and `StringOrVec` inside. -/
inductive PrincipalValue
  | wildcard
  | single (principal : Text)
  | aws (principals : Patterns)
deriving DecidableEq

structure BucketStatement where
  effect : Text
  principal : PrincipalValue
  actions : Patterns
  resources : Option Patterns
deriving DecidableEq

structure BucketPolicyDocument where
  version : Text
  statements : List BucketStatement
deriving DecidableEq

structure Claims where
  sub : Text
  iss : Text
  groups : List Text
deriving DecidableEq

def Claims.toPolicyContext (c : Claims) : EvaluationContext where
  principalId := c.sub
  groups := c.groups
  claims := [("iss", c.iss), ("sub", c.sub)]

structure StsSessionData where
  roleArn : Text
  tempSecretKey : Text
  expiration : Nat
  claims : Claims
deriving DecidableEq

structure StsTokenManager where
  keys : List (Nat × Bytes)
  activeKid : Nat

structure SseManager where
  kek : Bytes

abbrev Metadata := List (Text × Text)

structure Crates where
  /-- `form_urlencoded`: the decoded parameters of a query string -/
  formUrlencoded : Text → Pairs
  /-- `percent_decode_str` with `decode_utf8_lossy` -/
  percentDecodeLossy : Text → Text
  /-- `str::to_lowercase` -/
  toLowercase : Text → Text
  sha256 : Bytes → Bytes
  /-- HMAC-SHA256 of a message under a key -/
  hmac : Bytes → Bytes → Bytes
  md5 : Bytes → Bytes
  /-- AES-256-GCM with key, nonce and text -/
  aesEncrypt : Bytes → Bytes → Bytes → Option Bytes
  aesDecrypt : Bytes → Bytes → Bytes → Option Bytes
  base64Encode : Bytes → Text
  base64Decode : Text → Option Bytes
  /-- a compiled regular expression -/
  regex : Text → Option (Text → Bool)
  /-- `DateTime::parse_from_rfc3339` -/
  parseRfc3339 : Text → Option Int
  /-- `DateTime::parse_from_str` with the format `%Y%m%dT%H%M%SZ` -/
  parseDateTime : Text → Option Int
  /-- `NaiveDateTime::parse_from_str` with the same format -/
  parseNaive : Text → Option Int
  formatRfc3339 : Int → Text
  formatHttpDate : Nat → Text
  formatIsoDate : Nat → Text
  readPolicy : Bytes → Option BucketPolicyDocument
  isJson : Bytes → Bool
  readSession : Bytes → Option StsSessionData
  printMetadata : Metadata → Bytes
  readMetadata : Bytes → Option Metadata
  /-- the keys of a `DeleteObjectsRequest` -/
  readDelete : Text → Option (List Text)

/-- `AppState`, without the client and the cache. -/
structure Gateway where
  crates : Crates
  authEnabled : Bool
  credentialProvider : Text → Option Text
  serverRegion : Text
  requireTls : Bool
  allowUnsignedPayload : Bool
  stsTokenManager : Option StsTokenManager
  policyEvaluator : Option IamConfig
  sseManager : Option SseManager

/-- `EnvCredentialProvider`: one pair of keys from the environment. -/
def envCredentialProvider (accessKey secretKey : Option Text) (key : Text) : Option Text :=
  match accessKey, secretKey with
  | some ak, some sk => if key = ak then some sk else none
  | _, _ => none

end RustHadoop.S3
