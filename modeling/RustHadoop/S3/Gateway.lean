import RustHadoop.S3.Buckets
import RustHadoop.S3.Middleware

/-!
# The gateway

A request from the middleware to the answer of its handler: steps 1 to 10 (`checkAuth`), the policy of the bucket
(step 11), and the handler that the router finds.
-/

namespace RustHadoop.S3

open Threads

variable (g : Gateway)

variable (r : Request)

/-- Whether the document that was fetched denies the request; one that cannot be fetched or read denies nothing. -/
def documentDenies (p : Principal) (fetched : Option Bytes) : Bool :=
  match fetched.bind g.crates.readPolicy with
  | some document =>
    let (action, resource) := evaluatedPair g.crates r
    document.evaluate g.crates p.roleArn action.text resource = .explicitDeny
  | none => false

/-- Step 11: whether the request passes. -/
def checkBucketPolicy (p : Principal) : Handler Bool := do
  if (queryParams g.crates r).containsKey "policy" then return true
  else
    match bucketFromPath r.path with
    | none => return true
    | some bucket => return !documentDenies g r p (okay (← call (.content (policyPath bucket))))

inductive Answer
  | rejected (e : AuthError)
  | replied (x : Reply)
  | sts (params : StsQueryParams)
deriving DecidableEq

def forward : Handler Answer := do
  match route g.crates r with
  | .operation op => return .replied (← op.run g)
  | .listBuckets => return .replied (← listBuckets)
  | .sts params => return .sts params
  | .refused code => return .replied (emptyResponse code)
  | .panicked => return .replied none

def serveAdmitted : Admission → Handler Answer
  | .verified s => do
    if ← checkBucketPolicy g r s.principal then forward g r else return .rejected .missingAuth
  | .unchecked => forward g r
  | .skipped => forward g r

/-- A request, with the cache of signing keys before and after. -/
def handle (clock : Clock) (cache : SigningKeyCache) (r : Request) : Handler Answer × SigningKeyCache :=
  match checkAuth g clock cache r with
  | (.error e, cache) => (return .rejected e, cache)
  | (.ok a, cache) => (serveAdmitted g r a, cache)

theorem handle_of_checkAuth {g : Gateway} {clock : Clock} {cache : SigningKeyCache} {r : Request} {a : Admission}
    (h : (checkAuth g clock cache r).1 = .ok a) : (handle g clock cache r).1 = serveAdmitted g r a := by
  unfold handle
  rcases hv : checkAuth g clock cache r with ⟨x, cache'⟩
  rw [hv] at h
  cases h
  rfl

/-- Requests one after another, each with its clock. -/
inductive Serves (V : Environment Dfs DfsOp DfsOp.Result Empty Empty) (g : Gateway) :
    SigningKeyCache → Dfs → List (Clock × Request) → SigningKeyCache → Dfs → Prop
  | nil {cache : SigningKeyCache} {e : Dfs} : Serves V g cache e [] cache e
  | cons {cache cache' : SigningKeyCache} {e e1 e' : Dfs} {clock : Clock} {r : Request} {x : Answer}
      {history : List (Clock × Request)} (hr : V.Runs e (handle g clock cache r).1 e1 x)
      (hrest : Serves V g (handle g clock cache r).2 e1 history cache' e') :
      Serves V g cache e ((clock, r) :: history) cache' e'

end RustHadoop.S3
