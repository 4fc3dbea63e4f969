import RustHadoop.Lib.Lru
import RustHadoop.S3.Dispatch
import RustHadoop.S3.Policy
import RustHadoop.S3.Signing

/-!
# The middleware

`auth_middleware` up to the point where the bucket's policy is fetched, with the cache of signing keys as its
state.  What it reads from clocks is one argument, with the instants of the two accesses to the cache.  The lock
around the cache is never poisoned: nothing panics while it is held.
-/

namespace RustHadoop.S3

open Texts

structure CacheEntry where
  key : Bytes
  expiry : Nat

abbrev SigningKeyCache := Lru (Text × Text) CacheEntry

namespace SigningKeyCache

/-- `Default`: room for 100 keys. -/
def default : SigningKeyCache := Lru.empty 100 (by decide)

def get (cache : SigningKeyCache) (now : Nat) (accessKey date : Text) : Option Bytes × SigningKeyCache :=
  match Lru.get cache (accessKey, date) with
  | (some entry, cache) =>
      if now < entry.expiry then (some entry.key, cache) else (none, cache.pop (accessKey, date))
  | (none, cache) => (none, cache)

def dayInNanos : Nat := 24 * 3600 * 10 ^ 9

def insert (cache : SigningKeyCache) (now : Nat) (accessKey date : Text) (signingKey : Bytes) : SigningKeyCache :=
  cache.put (accessKey, date) ⟨signingKey, now + dayInNanos⟩

end SigningKeyCache

/-- What a request reads from clocks: wall clock in nanoseconds and in seconds, and the monotonic clock at each
access to the cache. -/
structure Clock where
  now : Int
  seconds : Nat
  lookup : Nat
  insertion : Nat

def stsMark : Text := "Action=AssumeRoleWithWebIdentity"

/-- Step 1.5: the text anywhere in the query. -/
def skipsAuth (r : Request) : Bool := r.query.any fun query => decide (stsMark <:+: query)

variable (c : Crates)

def queryParams (r : Request) : Pairs := c.formUrlencoded (r.query.getD [])

def isTls (r : Request) : Bool :=
  r.scheme = some "https".toList || r.headers.getStr "x-forwarded-proto" = some "https".toList

def isPresigned (q : Pairs) : Bool := q.containsKey "X-Amz-Expires" && q.containsKey "X-Amz-Algorithm"

/-- The instant of a timestamp, as steps 4 and 5 read it. -/
def requestTime (timestamp : Text) : Option Int := (c.parseRfc3339 timestamp).or (c.parseDateTime timestamp)

def secondInNanos : Int := 10 ^ 9

def presignedIsExpired (timestamp : Text) (expiresSecs now : Int) : Bool :=
  match (c.parseRfc3339 timestamp).or (c.parseNaive timestamp) with
  | some time => time + expiresSecs * secondInNanos < now
  | none => true

/-- Step 5 for a request that says how long it is valid. -/
def checkExpiry (q : Pairs) (timestamp : Text) (now : Int) : Except AuthError Unit :=
  match (q.get "X-Amz-Expires").bind (signed? 64) with
  | some n =>
    if n ≤ 0 then .error .missingAuth
    else if 604800 < n then .error .missingAuth
    else if presignedIsExpired c timestamp n now then .error .expiredToken
    else .ok ()
  | none => .error .missingAuth

/-- Step 5 for other requests: at most 15 full minutes apart. -/
def checkSkew (time now : Int) : Except AuthError Unit :=
  if 15 < ((now - time).tdiv (60 * secondInNanos)).natAbs then .error (.requestTimeTooSkewed now time) else .ok ()

/-- Step 5; a timestamp that cannot be read is let through unless the request is presigned. -/
def checkTime (q : Pairs) (timestamp : Text) (now : Int) : Except AuthError Unit :=
  match requestTime c timestamp with
  | some time => if isPresigned q then checkExpiry c q timestamp now else checkSkew time now
  | none => if isPresigned q then .error .missingAuth else .ok ()

variable (g : Gateway)

def checkScope (cr : ParsedCredentials) : Except AuthError Unit :=
  if cr.region ≠ g.serverRegion ∨ cr.service ≠ "s3" then
    .error (.invalidCredentialScope (cr.date ++ "/" ++ g.serverRegion ++ "/s3/aws4_request") cr.scope)
  else .ok ()

def checkedCredentials (clock : Clock) (r : Request) : Except AuthError ParsedCredentials :=
  let q := queryParams g.crates r
  if g.requireTls && !isTls r then .error .insecureTransport
  else
    match parseCredentials r.headers q with
    | none => .error .missingAuth
    | some cr => do
      checkTime g.crates q cr.timestamp clock.now
      checkScope g cr
      return cr

def keyId (bytes : Bytes) : Nat := bytes.foldl (fun n b => n * 256 + b.toNat) 0

/-- `decrypt_token`; what the crates say in their errors is left out. -/
def StsTokenManager.decryptToken (m : StsTokenManager) (token : Text) : Except AuthError StsSessionData :=
  match c.base64Decode token with
  | none => .error (.invalidToken "Invalid base64")
  | some combined =>
    if combined.length < 16 then .error (.invalidToken "Token too short")
    else
      match m.keys.lookup (keyId (combined.take 4)) with
      | none => .error (.invalidToken "Unknown KID")
      | some key =>
        match c.aesDecrypt key ((combined.drop 4).take 12) (combined.drop 16) with
        | none => .error (.invalidToken "Decryption failed")
        | some plaintext =>
          match c.readSession plaintext with
          | none => .error (.invalidToken "Failed to parse decrypted STS data")
          | some data => .ok data

/-- What is known about the caller once the secret is resolved; static credentials have no role. -/
structure Principal where
  secretKey : Text
  roleArn : Option Text
  context : Option EvaluationContext
deriving DecidableEq

def stsToken (r : Request) (q : Pairs) : Option Text :=
  (r.headers.getStr "x-amz-security-token").or (q.get "X-Amz-Security-Token")

def resolveSecretKey (clock : Clock) (token : Option Text) (cr : ParsedCredentials) : Except AuthError Principal :=
  match token with
  | some token =>
    match g.stsTokenManager with
    | none => .error (.internalError "STS is not enabled on this server")
    | some m => do
      let data ← m.decryptToken g.crates token
      if data.expiration < clock.seconds then .error .expiredToken
      else .ok ⟨data.tempSecretKey, some data.roleArn, some data.claims.toPolicyContext⟩
  | none =>
    match g.credentialProvider cr.accessKey with
    | some k => .ok ⟨k, none, none⟩
    | none => .error (.invalidAccessKey cr.accessKey)

def resolved (clock : Clock) (r : Request) : Except AuthError (ParsedCredentials × Principal) := do
  let cr ← checkedCredentials g clock r
  let principal ← resolveSecretKey g clock (stsToken r (queryParams g.crates r)) cr
  return (cr, principal)

/-- The signing key: from the cache, or derived from the secret and put there. -/
def signingKey (clock : Clock) (cache : SigningKeyCache) (cr : ParsedCredentials) (secretKey : Text) :
    Bytes × SigningKeyCache :=
  match cache.get clock.lookup cr.accessKey cr.date with
  | (some key, cache) => (key, cache)
  | (none, cache) =>
    let key := deriveSigningKey g.crates secretKey cr.date cr.region cr.service
    (key, cache.insert clock.insertion cr.accessKey cr.date key)

def checkSignature (r : Request) (cr : ParsedCredentials) (key : Bytes) : Except AuthError Unit :=
  let input := buildSigningInput g.crates r cr
  if input.payloadHash = unsignedPayload ∧ g.allowUnsignedPayload = false ∧
    isPresigned (queryParams g.crates r) = false then
    .error .missingAuth
  else verifySignatureWithKey g.crates input cr key

structure Session where
  credentials : ParsedCredentials
  principal : Principal
deriving DecidableEq

def authenticate (clock : Clock) (cache : SigningKeyCache) (r : Request) :
    Except AuthError Session × SigningKeyCache :=
  match resolved g clock r with
  | .error e => (.error e, cache)
  | .ok (cr, principal) =>
    let (key, cache) := signingKey g clock cache cr principal.secretKey
    ((checkSignature g r cr key).map fun _ => ⟨cr, principal⟩, cache)

/-- The action and the resource that policies are evaluated on. -/
def evaluatedPair (r : Request) : S3Action × Text :=
  resolveS3ActionAndResource r.method r.path (queryParams c r)

def roleAllows (r : Request) (p : Principal) : Bool :=
  match p.roleArn, g.policyEvaluator, p.context with
  | some role, some config, some ctx =>
    let (action, resource) := evaluatedPair g.crates r
    config.evaluate g.crates action.text resource role ctx
  | _, _, _ => true

/-- Why a request is handed on to its handler. -/
inductive Admission
  | unchecked
  /-- the query has the text of a request for a session token -/
  | skipped
  | verified (s : Session)
deriving DecidableEq

def checkAuth (clock : Clock) (cache : SigningKeyCache) (r : Request) :
    Except AuthError Admission × SigningKeyCache :=
  if g.authEnabled = false then (.ok .unchecked, cache)
  else if skipsAuth r then (.ok .skipped, cache)
  else
    match authenticate g clock cache r with
    | (.error e, cache) => (.error e, cache)
    | (.ok s, cache) => (if roleAllows g r s.principal then .ok (.verified s) else .error .missingAuth, cache)

def checkAuthAll (g : Gateway) : SigningKeyCache → List (Clock × Request) → List (Except AuthError Admission)
  | _, [] => []
  | cache, (clock, r) :: history =>
    let (result, cache) := checkAuth g clock cache r
    result :: checkAuthAll g cache history

end RustHadoop.S3
