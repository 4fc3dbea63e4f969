import RustHadoop.S3.Types

/-!
# Policies

The two evaluators of `dfs/common/src/auth`: `PolicyEvaluator` for the policies of a role (`policy.rs`) and
`BucketPolicyEvaluator` for the document stored in a bucket (`bucket_policy.rs`).  Both go through statements in
order, and the first Deny that applies decides.
-/

namespace RustHadoop.S3

open Texts

/-- `str::replace` of a character -/
def replaceChar (c : Char) (by_ : Text) (t : Text) : Text := t.flatMap fun d => if d = c then by_ else [d]

variable (c : Crates)

def matchesWildcard (pattern target : Text) : Bool :=
  if pattern = "*" then true
  else
    let regexPattern := replaceChar '?' "." (replaceChar '*' ".*" (replaceChar '.' "\\." pattern))
    match c.regex ("^" ++ regexPattern ++ "$") with
    | some isMatch => isMatch target
    | none => pattern = target

def Patterns.contains (target : Text) : Patterns → Bool
  | .single pattern => matchesWildcard c pattern target
  | .multiple patterns => patterns.any fun pattern => matchesWildcard c pattern target

/-- The values in the context that a key of a condition is about. -/
def EvaluationContext.actualValues (ctx : EvaluationContext) (key : Text) : List Text :=
  if key = "OIDC_ISSUER:groups" then ctx.groups
  else if "OIDC_ISSUER:".toList <+: key then
    ((ctx.claims.find? fun e => e.1 = key.drop 12).map fun e => e.2).toList
  else []

def evaluateKey (operator : Text) (actual expected : List Text) : Bool :=
  if operator = "StringEquals" then
    match actual with
    | [] => false
    | v :: _ => v ∈ expected
  else if operator = "ForAnyValue:StringEquals" then actual.any fun v => v ∈ expected
  else false

def evaluateCondition (condition : Condition) (ctx : EvaluationContext) : Bool :=
  condition.all fun (operator, keys) => keys.all fun (key, expected) =>
    evaluateKey operator (ctx.actualValues key) expected

def Statement.applies (s : Statement) (action resource : Text) (ctx : EvaluationContext) : Bool :=
  s.actions.contains c action && (s.resources.all fun r => r.contains c resource)
    && s.condition.all fun condition => evaluateCondition condition ctx

/-- The loop of `evaluate_statements`; `allow` is whether an Allow has been met. -/
def evaluateStatements (c : Crates) (action resource : Text) (ctx : EvaluationContext) :
    List Statement → Bool → Bool
  | [], allow => allow
  | s :: rest, allow =>
    if !s.applies c action resource ctx then evaluateStatements c action resource ctx rest allow
    else if s.effect = "Deny" then false
    else if s.effect = "Allow" then evaluateStatements c action resource ctx rest true
    else evaluateStatements c action resource ctx rest allow

def IamConfig.evaluate (config : IamConfig) (action resource roleArn : Text) (ctx : EvaluationContext) : Bool :=
  match config.roles.find? fun r => r.arn = roleArn with
  | some role => evaluateStatements c action resource ctx role.policies.flatten false
  | none => false

inductive PolicyResult
  | allow
  | explicitDeny
  | notApplicable
deriving DecidableEq, Repr

/-- A single pattern for principals; a request without a role matches only the star. -/
def principalMatches (principalArn : Option Text) (pattern : Text) : Bool :=
  pattern = "*" || principalArn.any fun p => matchesWildcard c pattern p

def PrincipalValue.matches (principalArn : Option Text) : PrincipalValue → Bool
  | .wildcard => true
  | .single pattern => principalMatches c principalArn pattern
  | .aws (.single pattern) => principalMatches c principalArn pattern
  | .aws (.multiple patterns) => patterns.any (principalMatches c principalArn)

def BucketStatement.applies (s : BucketStatement) (principalArn : Option Text) (action resource : Text) : Bool :=
  s.principal.matches c principalArn && s.actions.contains c action && s.resources.all fun r =>
    r.contains c resource

def BucketPolicyDocument.evaluateFrom (c : Crates) (principalArn : Option Text) (action resource : Text) :
    List BucketStatement → Bool → PolicyResult
  | [], allow => if allow then .allow else .notApplicable
  | s :: rest, allow =>
    if !s.applies c principalArn action resource then evaluateFrom c principalArn action resource rest allow
    else if s.effect = "Deny" then .explicitDeny
    else if s.effect = "Allow" then evaluateFrom c principalArn action resource rest true
    else evaluateFrom c principalArn action resource rest allow

def BucketPolicyDocument.evaluate (d : BucketPolicyDocument) (principalArn : Option Text)
    (action resource : Text) : PolicyResult :=
  evaluateFrom c principalArn action resource d.statements false

/-- A Deny statement of the document applies. -/
def BucketPolicyDocument.Denies (d : BucketPolicyDocument) (principalArn : Option Text) (action resource : Text) :
    Prop :=
  ∃ s ∈ d.statements, s.effect = "Deny" ∧ s.applies c principalArn action resource = true

instance (c : Crates) (d : BucketPolicyDocument) (principalArn : Option Text) (action resource : Text) :
    Decidable (d.Denies c principalArn action resource) :=
  inferInstanceAs (Decidable (∃ s ∈ d.statements, _))

variable {principalArn : Option Text} {c : Crates}

private theorem evaluateFrom_eq_explicitDeny {action resource : Text}
    {statements : List BucketStatement} {allow : Bool} :
    BucketPolicyDocument.evaluateFrom c principalArn action resource statements allow = .explicitDeny ↔
      ∃ s ∈ statements, s.effect = "Deny" ∧ s.applies c principalArn action resource = true := by
  induction statements generalizing allow with
  | nil => cases allow <;> simp [BucketPolicyDocument.evaluateFrom]
  | cons s rest ih =>
    unfold BucketPolicyDocument.evaluateFrom
    rw [List.exists_mem_cons_iff]
    by_cases ha : s.applies c principalArn action resource = true
    · rw [ha]
      by_cases hdn : s.effect = "Deny"
      · simp only [hdn, Bool.not_true, Bool.false_eq_true, if_false, if_true, true_and, true_or]
      · simp only [hdn, Bool.not_true, Bool.false_eq_true, if_false, false_and, false_or]
        split
        · exact ih
        · exact ih
    · simp only [ha, Bool.not_false, if_true, and_false, Bool.false_eq_true, false_or]
      exact ih

theorem BucketPolicyDocument.evaluate_eq_explicitDeny {d : BucketPolicyDocument} {action resource : Text} :
    d.evaluate c principalArn action resource = .explicitDeny ↔ d.Denies c principalArn action resource :=
  evaluateFrom_eq_explicitDeny

end RustHadoop.S3
