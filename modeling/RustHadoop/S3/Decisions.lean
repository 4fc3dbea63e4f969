import RustHadoop.S3.Policy

/-!
# Decisions about a role

`evaluate_statements` goes through the statements of a role until a Deny applies.  What it decides is a matter of
which statements apply, not of their order (`evaluate_iff`).

A condition with an operator that the evaluator does not know never holds.  This is safe for an Allow.  A Deny with
such a condition is lost, which matters exactly if the other statements permit the action
(`unsupported_operator_safe_iff`).
-/

namespace RustHadoop.S3

open Texts List

section

variable (c : Crates) (action resource : Text) (ctx : EvaluationContext)

def Statement.Grants (s : Statement) : Prop := s.effect = "Allow" ∧ s.applies c action resource ctx = true

def Statement.Forbids (s : Statement) : Prop := s.effect = "Deny" ∧ s.applies c action resource ctx = true

def Permits (statements : List Statement) : Prop :=
  (∃ s ∈ statements, s.Grants c action resource ctx) ∧ ∀ s ∈ statements, ¬ s.Forbids c action resource ctx

variable {c action resource ctx} {statements : List Statement}

private theorem evaluateStatements_from (allow : Bool) :
    evaluateStatements c action resource ctx statements allow = true ↔
      (allow = true ∨ ∃ s ∈ statements, s.Grants c action resource ctx) ∧
        ∀ s ∈ statements, ¬ s.Forbids c action resource ctx := by
  induction statements generalizing allow with
  | nil => simp [evaluateStatements]
  | cons s rest ih =>
    unfold evaluateStatements
    simp only [exists_mem_cons_iff, forall_mem_cons]
    unfold Statement.Grants Statement.Forbids at ih ⊢
    by_cases happ : s.applies c action resource ctx = true
    · rw [happ]
      by_cases hdn : s.effect = "Deny"
      · simp only [hdn, Bool.not_true, Bool.false_eq_true, if_false, if_true, and_self, not_true_eq_false,
          false_and, and_false]
      · by_cases ha : s.effect = "Allow"
        · rw [if_neg (by simp), if_neg hdn, if_pos ha, ih]
          tauto
        · rw [if_neg (by simp), if_neg hdn, if_neg ha, ih]
          tauto
    · simp only [happ, Bool.not_false, if_true, ih, and_false, Bool.false_eq_true, false_or,
        not_false_eq_true, true_and]

theorem evaluateStatements_iff :
    evaluateStatements c action resource ctx statements false = true ↔
      Permits c action resource ctx statements := by
  rw [evaluateStatements_from]
  simp [Permits]

theorem Permits.perm {statements' : List Statement} (h : statements'.Perm statements) :
    Permits c action resource ctx statements' ↔ Permits c action resource ctx statements := by
  simp only [Permits, h.mem_iff]

theorem permits_cons {s : Statement} : Permits c action resource ctx (s :: statements) ↔
      (s.Grants c action resource ctx ∨ ∃ t ∈ statements, t.Grants c action resource ctx) ∧
        ¬ s.Forbids c action resource ctx ∧ ∀ t ∈ statements, ¬ t.Forbids c action resource ctx := by
  simp only [Permits, exists_mem_cons_iff, forall_mem_cons]

private theorem evaluate_of_role {config : IamConfig} (hu : (config.roles.map Role.arn).Nodup) {role : Role}
    (hr : role ∈ config.roles) :
    config.evaluate c action resource role.arn ctx = true ↔
      Permits c action resource ctx role.policies.flatten := by
  have hfn : config.roles.find? (fun r => r.arn = role.arn) = some role := by
    rcases hf : config.roles.find? (fun r => r.arn = role.arn) with _ | r
    · simpa using find?_eq_none.1 hf role hr
    · have ha : r.arn = role.arn := by simpa using find?_some hf
      rw [inj_on_of_nodup_map hu (mem_of_find?_eq_some hf) hr ha] at hf
      exact hf
  rw [IamConfig.evaluate, hfn]
  exact evaluateStatements_iff

end

/-- A role is granted what some Allow in its policies applies to and no Deny.  So the order of statements and
policies does not matter, one more Deny takes away, and one more Allow gives. -/
theorem evaluate_iff (c : Crates) {config : IamConfig} (huniq : (config.roles.map Role.arn).Nodup)
    (action resource roleArn : Text) (ctx : EvaluationContext) :
    (config.evaluate c action resource roleArn ctx = true ↔
      ∃ role ∈ config.roles, role.arn = roleArn ∧ Permits c action resource ctx role.policies.flatten) ∧
    ∀ config' : IamConfig, (config'.roles.map Role.arn).Nodup → ∀ role ∈ config.roles, ∀ role' ∈ config'.roles,
      role.arn = roleArn → role'.arn = roleArn →
      (role'.policies.flatten.Perm role.policies.flatten →
        config'.evaluate c action resource roleArn ctx = config.evaluate c action resource roleArn ctx) ∧
      ∀ s, role'.policies.flatten.Perm (s :: role.policies.flatten) →
        (s.effect = "Deny" → config'.evaluate c action resource roleArn ctx = true →
          config.evaluate c action resource roleArn ctx = true) ∧
        (s.effect = "Allow" → config.evaluate c action resource roleArn ctx = true →
          config'.evaluate c action resource roleArn ctx = true) := by
  refine ⟨⟨fun h => ?_, ?_⟩, ?_⟩
  · rcases hf : config.roles.find? (fun r => r.arn = roleArn) with _ | role
    · simp [IamConfig.evaluate, hf] at h
    · have harn : role.arn = roleArn := by simpa using find?_some hf
      have hmem := mem_of_find?_eq_some hf
      exact ⟨role, hmem, harn, (evaluate_of_role huniq hmem).1 (harn ▸ h)⟩
  · rintro ⟨role, hmem, rfl, h⟩
    exact (evaluate_of_role huniq hmem).2 h
  · rintro config' huniq' role hrole role' hrole' rfl harn
    have hold : config.evaluate c action resource role.arn ctx = true ↔ _ := evaluate_of_role huniq hrole
    have hnew : config'.evaluate c action resource role'.arn ctx = true ↔ _ := evaluate_of_role huniq' hrole'
    rw [harn] at hnew
    refine ⟨fun hperm => ?_, fun s hperm => ?_⟩
    · rw [Bool.eq_iff_iff, hold, hnew, Permits.perm hperm]
    · rw [hold, hnew, Permits.perm hperm, permits_cons]
      constructor
      · rintro hdeny ⟨hgrants | hgrants, -, hno⟩
        · rw [Statement.Grants, hdeny] at hgrants
          exact absurd hgrants.1 (by decide)
        · exact ⟨hgrants, hno⟩
      · rintro hallow ⟨hgrants, hno⟩
        refine ⟨.inr hgrants, fun hforbids => ?_, hno⟩
        rw [Statement.Forbids, hallow] at hforbids
        exact absurd hforbids.1 (by decide)

/-- A role that may do everything, with or without a statement that denies it to the group `g` by the given
operator. -/
def openRole (extra : List Statement) : Role :=
  ⟨"r", "arn", [], [[⟨"Allow", .single "*", none, none⟩], extra]⟩

def denyGroup (operator : Text) : Statement :=
  ⟨"Deny", .single "*", none, some [(operator, [("OIDC_ISSUER:groups", ["g"])])]⟩

def groupContext : EvaluationContext := ⟨"p", ["g"], []⟩

theorem evaluate_iff_openRole :
    ([openRole []].map Role.arn).Nodup ∧
    ∀ c, IamConfig.evaluate c ⟨[openRole []]⟩ "s3:Get" "x" "arn" groupContext = true := by
  have huniq : ([openRole []].map Role.arn).Nodup := by simp
  refine ⟨huniq, fun c => (evaluate_iff c huniq "s3:Get" "x" "arn" groupContext).1.2 ?_⟩
  refine ⟨openRole [], by simp, rfl, ?_, ?_⟩
  · exact ⟨_, by simp [openRole]; rfl, rfl, rfl⟩
  · simp [openRole, Statement.Forbids]

def Supported (operator : Text) : Prop := operator = "StringEquals" ∨ operator = "ForAnyValue:StringEquals"

private theorem evaluateCondition_unsupported {op : Text} (h : ¬ Supported op) {keys : List (Text × List Text)}
    (hk : keys ≠ []) (front back : Condition) (ctx : EvaluationContext) :
    evaluateCondition (front ++ (op, keys) :: back) ctx = false := by
  obtain ⟨k, rest, rfl⟩ := exists_cons_of_ne_nil hk
  have hkey : ∀ actual expected, evaluateKey op actual expected = false := by
    intro actual expected
    simp only [Supported, not_or] at h
    simp only [evaluateKey, if_neg h.1, if_neg h.2]
  simp [evaluateCondition, hkey]

/-- The operator of a condition is replaced by one that is not supported.  This turns a denied request into an
allowed one exactly if the condition had something to compare, its statement denied the request, and nothing else
does. -/
theorem unsupported_operator_safe_iff (c : Crates) (action resource : Text) (ctx : EvaluationContext)
    (before after : List Statement)
    (s : Statement) {op op' : Text} {keys : List (Text × List Text)} {front back : Condition}
    (hs : s.condition = some (front ++ (op, keys) :: back)) (hop : ¬ Supported op') :
    (evaluateStatements c action resource ctx (before ++ s :: after) false = false →
      evaluateStatements c action resource ctx
        (before ++ { s with condition := some (front ++ (op', keys) :: back) } :: after) false = false) ↔
    ¬ (keys ≠ [] ∧ s.Forbids c action resource ctx ∧ Permits c action resource ctx (before ++ after)) := by
  rw [← not_iff_not, not_not, Classical.not_imp, ← Bool.not_eq_true, ← Bool.not_eq_true, not_not,
    evaluateStatements_iff,
    evaluateStatements_iff, Permits.perm perm_middle, Permits.perm perm_middle, permits_cons, permits_cons]
  generalize hs' : { s with condition := some (front ++ (op', keys) :: back) } = s'
  have heffect : s'.effect = s.effect := by rw [← hs']
  by_cases hkeys : keys = []
  · -- without keys the operator is not looked at
    have happ : s'.applies c action resource ctx = s.applies c action resource ctx := by
      simp [← hs', Statement.applies, hs, hkeys, evaluateCondition]
    have hgrants : s'.Grants c action resource ctx = s.Grants c action resource ctx := by
      rw [Statement.Grants, heffect, happ, Statement.Grants]
    have hforbids : s'.Forbids c action resource ctx = s.Forbids c action resource ctx := by
      rw [Statement.Forbids, heffect, happ, Statement.Forbids]
    rw [hgrants, hforbids, not_and_self_iff, false_iff]
    exact fun h => h.1 hkeys
  · have happ : ¬ s'.applies c action resource ctx = true := by
      simp [← hs', Statement.applies, evaluateCondition_unsupported hop hkeys]
    constructor
    · rintro ⟨hold, hgrants | hgrants, -, hno⟩
      · exact absurd hgrants.2 happ
      · refine ⟨hkeys, ?_, hgrants, hno⟩
        by_contra hforbids
        exact hold ⟨.inr hgrants, hforbids, hno⟩
    · rintro ⟨-, hforbids, hgrants, hno⟩
      exact ⟨fun h => h.2.1 hforbids, .inr hgrants, fun h => happ h.2, hno⟩

/-- The group is denied everything by `StringEquals`, and nothing by `StringLike`. -/
theorem unsupported_operator_allows : ¬ Supported "StringLike" ∧
      (∀ c, evaluateStatements c "s3:Get" "x" groupContext
        (openRole [denyGroup "StringEquals"]).policies.flatten false = false) ∧
      ∀ c, evaluateStatements c "s3:Get" "x" groupContext
        (openRole [denyGroup "StringLike"]).policies.flatten false = true := by
  refine ⟨by simp [Supported], fun c => rfl, fun c => rfl⟩

/-- A Deny alone grants nothing, whatever becomes of it. -/
theorem unsupported_operator_safe_iff_alone : ¬ Supported "StringLike" ∧
      ∀ c, evaluateStatements c "s3:Get" "x" groupContext [denyGroup "StringLike"] false = false := by
  have hop : ¬ Supported "StringLike" := by simp [Supported]
  refine ⟨hop, fun c => (unsupported_operator_safe_iff c "s3:Get" "x" groupContext [] [] (denyGroup "StringEquals")
    (show _ = some ([] ++ _ :: []) from rfl) hop).2 ?_ rfl⟩
  simp [Permits]

end RustHadoop.S3
