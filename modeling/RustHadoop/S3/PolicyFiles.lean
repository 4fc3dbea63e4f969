import RustHadoop.S3.Denial
import RustHadoop.S3.Footprints

/-!
# Who changes the policy of a bucket

The policy of a bucket is a file among those of its objects.  Here the footprint of every operation is compared
with the names that the operation has for the middleware (`Operation.spares_of_names`) and with that file.  Calls
may fail and leave the files they are given in any state.
-/

namespace RustHadoop.S3

open Texts List

/-- A handler leaves a file alone that lies neither at or below a name of its operation nor among the uploads. -/
theorem Operation.spares_of_names {g : Gateway} {op : Operation} {f : Text}
    (hn : ∀ name ∈ op.names g.crates, ¬ '/' :: name <+: f) (hu : ∀ uploadId, ¬ mpuDir uploadId <+: f) :
    (op.footprint g).Spares f ∧ ¬ (op.footprint g).downloads f := by
  have hat : ∀ p q : Text, ¬ p <+: f → f ≠ p ++ q := fun _ _ hp h => hp (h ▸ prefix_append _ _)
  have hm : ∀ p, ¬ p <+: f → f ≠ p ∧ f ≠ metaPath p ∧ ∀ x, f ≠ child p x :=
    fun p hp => ⟨fun h => hp (h ▸ prefix_rfl), hat _ _ hp, fun _ => hat _ _ hp⟩
  have hp : ∀ id n, f ≠ partPath id n ∧ f ≠ partPath id n ++ etagSuffix := fun id n =>
    ⟨(hm _ (hu id)).2.2 _, fun h => hu id (h ▸ (prefix_append _ _).trans (prefix_append _ _))⟩
  have hb : ∀ b key, ¬ '/' :: b <+: f → f ≠ objectPath b key := fun b key h => hat ('/' :: b) ('/' :: key) h
  cases op <;> simp only [names, mem_cons, not_mem_nil, mem_map] at hn <;>
    simp only [footprint, Footprint.Spares, objectWrites, policyPath]
  all_goals grind [objectPath]

def policyName : Text := ".s3_bucket_policy"

/-- The operation may change the policy of the bucket. -/
def Operation.TouchesPolicy (c : Crates) (bucket : Text) : Operation → Prop
  | .putBucketPolicy b _ | .deleteBucketPolicy b => b = bucket
  | .putObject b key _ _ | .copyObject b key _ => b = bucket ∧ key = policyName
  | .completeMultipartUpload b key uploadId =>
    b = bucket ∧ key = policyName ∨ bucket = ".s3_mpu" ∧ uploadId <+: policyName
  | .abortMultipartUpload _ _ uploadId => bucket = ".s3_mpu" ∧ uploadId <+: policyName
  | .deleteObject b key => b = bucket ∧ key <+: policyName
  | .deleteMultipleObjects b body => b = bucket ∧ policyName ∈ deleteKeys c body
  | _ => False

variable {uploadId : Text}

section

variable {bucket b key : Text}

theorem policyPath_eq (bucket : Text) : policyPath bucket = '/' :: (bucket ++ '/' :: policyName) := rfl

private theorem not_suffix_policyPath (bucket ending : Text) (hlen : ending.length ≤ policyName.length)
    (h : ¬ ending <:+ policyName) : ¬ ending <:+ policyPath bucket := by
  intro hs
  have hp : policyName <:+ policyPath bucket := ⟨'/' :: (bucket ++ ['/']), by simp [policyPath_eq]⟩
  exact h (suffix_of_suffix_length_le hs hp hlen)

private theorem policyPath_ne_metaPath (f : Text) : policyPath bucket ≠ metaPath f := by
  intro h
  refine not_suffix_policyPath bucket ".meta" (by decide) (by decide) ?_
  rw [h]
  exact suffix_append _ _

section

variable (hb : '/' ∉ b) (hbucket : '/' ∉ bucket)
include hb hbucket

theorem objectPath_prefix_policyPath :
    objectPath b key <+: policyPath bucket ↔ b = bucket ∧ key <+: policyName := by
  constructor
  · rintro ⟨t, ht⟩
    have heq : b ++ '/' :: (key ++ t) = bucket ++ '/' :: policyName := by
      simpa [objectPath, objectName, policyPath_eq] using ht
    obtain ⟨rfl, hk⟩ := append_sep_inj hb hbucket heq
    exact ⟨rfl, t, hk⟩
  · rintro ⟨rfl, t, ht⟩
    exact ⟨t, by simp [objectPath, objectName, policyPath_eq, ← ht]⟩

theorem policyPath_eq_objectPath : policyPath bucket = objectPath b key ↔ b = bucket ∧ key = policyName := by
  constructor
  · intro h
    have hp : objectPath b key <+: policyPath bucket := h ▸ prefix_rfl
    obtain ⟨rfl, -⟩ := (objectPath_prefix_policyPath hb hbucket).1 hp
    exact ⟨rfl, by simpa [objectPath, objectName, policyPath_eq] using h.symm⟩
  · rintro ⟨rfl, rfl⟩
    rfl

private theorem policyPath_ne_child (name : Text) : policyPath bucket ≠ child (objectPath b key) name := by
  intro h
  have h : policyPath bucket = objectPath b (child key name) := by simpa [objectPath, objectName, child] using h
  have hs : '/' ∈ policyName := by
    rw [← ((policyPath_eq_objectPath hb hbucket).1 h).2]
    simp [child]
  exact absurd hs (by decide)

end

private theorem mpuDir_prefix_policyPath (hbucket : '/' ∉ bucket)
    (h : mpuDir uploadId <+: policyPath bucket) : bucket = ".s3_mpu" ∧ uploadId <+: policyName := by
  have h : objectPath ".s3_mpu" uploadId <+: policyPath bucket := h
  obtain ⟨rfl, hid⟩ := (objectPath_prefix_policyPath (by decide) hbucket).1 h
  exact ⟨rfl, hid⟩

private theorem policyPath_ne_partPath {partNumber : Int} (hbucket : '/' ∉ bucket) :
    policyPath bucket ≠ partPath uploadId partNumber :=
  have hb : '/' ∉ ".s3_mpu".toList := by decide
  policyPath_ne_child hb hbucket (intText partNumber)

end

private theorem Operation.spares {g : Gateway} {bucket : Text} (hbucket : '/' ∉ bucket) {op : Operation}
    (hb : '/' ∉ op.bucket)
    (h : ¬ op.TouchesPolicy g.crates bucket) : (op.footprint g).Spares (policyPath bucket) := by
  have hs : Text → ¬ False ∧ ¬ False := fun _ => ⟨not_false, not_false⟩
  have hm : ∀ f, policyPath bucket ≠ metaPath f := policyPath_ne_metaPath
  have hk : ∀ dir, policyPath bucket ≠ child dir keepMarker := by
    intro dir heq
    refine not_suffix_policyPath bucket keepMarker (by decide) (by decide) ?_
    exact heq ▸ ⟨dir ++ ['/'], by simp [child]⟩
  cases op with
  | putBucketPolicy b body =>
    refine ⟨?_, not_false, hs⟩
    rintro content ⟨heq, -⟩
    exact h ((policyPath_eq_objectPath hb hbucket).1 heq).1
  | deleteBucketPolicy b =>
    refine ⟨fun _ => not_false, fun heq => ?_, hs⟩
    exact h ((policyPath_eq_objectPath hb hbucket).1 heq).1
  | createBucket b => exact ⟨fun _ heq => hk ('/' :: b) heq.1, not_false, hs⟩
  | deleteBucket b => exact ⟨fun _ => not_false, hk ('/' :: b), hs⟩
  | initiateMultipartUpload b key =>
    refine ⟨?_, not_false, hs⟩
    rintro content ⟨uploadId, heq, -⟩
    exact hk _ heq
  | deleteMultipleObjects b body =>
    refine ⟨fun _ => not_false, ?_, hs⟩
    rintro ⟨key, hkey, heq⟩
    obtain ⟨rfl, rfl⟩ := (policyPath_eq_objectPath hb hbucket).1 heq
    exact h ⟨rfl, hkey⟩
  | uploadPart b key uploadId n body =>
    refine ⟨?_, not_false, hs⟩
    rintro content (⟨heq, -⟩ | ⟨heq, -⟩)
    · exact policyPath_ne_partPath hbucket heq
    · refine not_suffix_policyPath bucket etagSuffix (by decide) (by decide) ?_
      exact heq ▸ suffix_append _ _
  | completeMultipartUpload b key uploadId =>
    refine ⟨?_, ?_, fun f => ⟨?_, ?_⟩⟩
    · rintro content (⟨heq, -⟩ | ⟨heq, -⟩)
      · exact policyPath_ne_child hb hbucket _ heq
      · exact hm _ heq
    · rintro (heq | hp)
      · exact h (.inl ((policyPath_eq_objectPath hb hbucket).1 heq))
      · exact h (.inr (mpuDir_prefix_policyPath hbucket hp))
    · rintro ⟨hp, -⟩
      exact h (.inr (mpuDir_prefix_policyPath hbucket hp))
    · rintro ⟨-, -, heq⟩
      exact policyPath_ne_child hb hbucket _ heq
  | abortMultipartUpload b key uploadId =>
    exact ⟨fun _ => not_false, fun hp => h (mpuDir_prefix_policyPath hbucket hp), hs⟩
  | copyObject b key source =>
    refine ⟨?_, hm _, hs⟩
    rintro content (⟨heq, -⟩ | ⟨heq, -⟩)
    · exact h ((policyPath_eq_objectPath hb hbucket).1 heq)
    · exact hm _ heq
  | putObject b key body headers =>
    refine ⟨?_, ?_, hs⟩
    · rintro content (⟨heq, -⟩ | ⟨heq, -⟩)
      · exact h ((policyPath_eq_objectPath hb hbucket).1 heq)
      · exact hm _ heq
    · rintro (heq | heq)
      · exact h ((policyPath_eq_objectPath hb hbucket).1 heq)
      · exact hm _ heq
  | deleteObject b key =>
    exact ⟨fun _ => not_false, fun hp => h ((objectPath_prefix_policyPath hb hbucket).1 hp), hs⟩
  | _ => exact ⟨fun _ => not_false, not_false, hs⟩

def Operation.isPolicy : Operation → Bool
  | .putBucketPolicy _ _ | .deleteBucketPolicy _ => true
  | _ => false

/-- The evaluated action is one of the two that change the policy of this bucket. -/
def PolicyRequest (c : Crates) (bucket : Text) (r : Request) : Prop :=
  evaluatedPair c r = (.putBucketPolicy, arn bucket) ∨ evaluatedPair c r = (.deleteBucketPolicy, arn bucket)

/-- The request touches policies only as a plain policy operation. -/
def SafeForPolicies (c : Crates) (r : Request) : Prop :=
  ∀ op bucket, route c r = .operation op → op.TouchesPolicy c bucket →
    op.isPolicy = true ∧ PlainPath (r.path.drop 1) ∧ PlainArguments c (queryParams c r) op

section

variable {g : Gateway} {r : Request} {bucket : Text}

private theorem policyRequest_of_touches {op : Operation} (hop : route g.crates r = .operation op)
    (hs : SafeForPolicies g.crates r) (ht : op.TouchesPolicy g.crates bucket) :
    PolicyRequest g.crates bucket r := by
  obtain ⟨hp, hpl⟩ := hs op bucket hop ht
  obtain ⟨ha, hn⟩ := (plain_iff_authorizes hop).1 hpl
  cases op with
  | putBucketPolicy b body =>
    have hb : b = bucket := ht
    subst hb
    exact .inl (Prod.ext (Option.some.inj ha).symm (hn b mem_cons_self))
  | deleteBucketPolicy b =>
    have hb : b = bucket := ht
    subst hb
    exact .inr (Prod.ext (Option.some.inj ha).symm (hn b mem_cons_self))
  | _ => cases hp

theorem lookup_policyPath_of_runs {clock : Clock} {cache : SigningKeyCache} {shardOf : Text → Nat} {e e' : Dfs}
    {x : Answer}
    (hbucket : '/' ∉ bucket) (hsf : SafeForPolicies g.crates r) (ho : ¬ PolicyRequest g.crates bucket r)
    (hr : (faulty shardOf).Runs e (handle g clock cache r).1 e' x) :
    e'.files.lookup (policyPath bucket) = e.files.lookup (policyPath bucket) := by
  obtain ⟨F, hF, hs⟩ : ∃ F, Performs F (forward g r) (fun _ => True) ∧ F.Spares (policyPath bucket) := by
    rcases performs_forward g r with ⟨op, hop, hF⟩ | hF
    · refine ⟨_, hF, Operation.spares hbucket (slash_notMem_bucket hop) fun ht => ?_⟩
      exact ho (policyRequest_of_touches hop hsf ht)
    · exact ⟨{}, hF, fun _ => not_false, not_false, fun _ => ⟨not_false, not_false⟩⟩
  exact (performs_handle hF).lookup_eq hs hr

end

/-- As long as requests touch policies only by plain policy operations, the policy of a bucket changes only by
requests that were evaluated as such for this bucket. -/
theorem policy_changed_by_policy_request (g : Gateway) (shardOf : Text → Nat) {cache cache' : SigningKeyCache}
    {e e' : Dfs} {history : List (Clock × Request)} (hserves : Serves (faulty shardOf) g cache e history cache' e')
    (hsafe : ∀ h ∈ history, SafeForPolicies g.crates h.2) {bucket : Text} (hbucket : '/' ∉ bucket)
    (hchanged : e'.files.lookup (policyPath bucket) ≠ e.files.lookup (policyPath bucket)) :
    ∃ h ∈ history, PolicyRequest g.crates bucket h.2 := by
  by_contra hnone
  push Not at hnone
  refine hchanged ?_
  clear hchanged
  induction hserves with
  | nil => rfl
  | cons hr _ ih =>
    rw [← lookup_policyPath_of_runs hbucket (hsafe _ mem_cons_self) (hnone _ mem_cons_self) hr]
    exact ih (fun h hh => hsafe h (mem_cons_of_mem _ hh)) fun h hh => hnone h (mem_cons_of_mem _ hh)

def policyPut : Request := ⟨.put, none, "/b", some "policy".toList, [], some denyAllText⟩

theorem policy_changed_by_policy_request_put :
    ∃ h ∈ [((⟨0, 0, 0, 0⟩ : Clock), policyPut)], PolicyRequest denyCrates "b" h.2 := by
  have hrun := faulty_of_calm (runs_execCalm denyCrates (fun _ => 0) (fun _ => [])
    (handle (openGateway denyCrates) ⟨0, 0, 0, 0⟩ .default policyPut).1 .empty)
  refine policy_changed_by_policy_request (openGateway denyCrates) (fun _ => 0) (.cons hrun .nil) ?_ (by decide) ?_
  · intro h hmem op bucket hop _
    rw [mem_singleton.1 hmem] at hop ⊢
    have hput : route denyCrates policyPut = .operation (.putBucketPolicy "b" denyAllText) := by rfl
    cases hput.symm.trans hop
    exact ⟨rfl, ⟨by decide, .inl (by decide)⟩, by decide, by decide⟩
  · unfold policyPut denyAllText
    repeat rw [String.toList_ofList]
    decide +kernel

def tamperPayload : Text := "a1535685a7f6d42702b0f533cded98acf0609374442ce4f22289c33127a3ffb5"

def tamperDigest : Text := "1787d6b492988be33f8edbc121153a4ff9f5a110ffda0653ff59717973aac8f3"

def tamperSignature : Text := "74be7c9621b0cb57e5f2fe51142a8535f86139215f058bbca4068e0c75aba789"

def tamperCrates : Crates :=
  { signedCrates (canonicalForm "PUT" "/b/.s3_bucket_policy" "" tamperPayload) tamperDigest tamperSignature with
    readPolicy := fun text => if text = denyAllText then some denyAll else none }

def tamperPut : Request :=
  ⟨.put, none, "/b/.s3_bucket_policy", none, signedHeaders tamperPayload tamperSignature, some denyAllText⟩

/-- Putting an object sets the policy of the bucket. -/
theorem put_object_sets_policy : (checkAuth (staticGateway tamperCrates) ⟨0, 0, 0, 0⟩ .default tamperPut).1 =
        .ok (.verified ⟨signedCredentials tamperSignature, ⟨staticSecret, none, none⟩⟩) ∧
      evaluatedPair tamperCrates tamperPut = (.putObject, arn "b/.s3_bucket_policy") ∧
      ∃ e' x, (calm tamperCrates fun _ => 0).Runs .empty
          (handle (staticGateway tamperCrates) ⟨0, 0, 0, 0⟩ .default tamperPut).1 e' x ∧
        Dfs.empty.read (policyPath "b") = none ∧
        (e'.read (policyPath "b")).bind tamperCrates.readPolicy = some denyAll := by
  have hverified : (checkAuth (staticGateway tamperCrates) ⟨0, 0, 0, 0⟩ .default tamperPut).1 =
      .ok (.verified ⟨signedCredentials tamperSignature, ⟨staticSecret, none, none⟩⟩) := by
    unfold staticGateway tamperCrates signedCrates tamperPut signedHeaders canonicalForm staticChain
      keyChain signedWith
      tamperPayload tamperDigest tamperSignature staticKey staticSecret scopedDigest signedCredentials
    repeat rw [String.toList_ofList]
    decide +kernel
  refine ⟨hverified, by rfl, _, _, runs_execCalm tamperCrates (fun _ => 0) (fun _ => []) _ .empty, by rfl, ?_⟩
  rw [handle_of_checkAuth hverified]
  rfl

end RustHadoop.S3
