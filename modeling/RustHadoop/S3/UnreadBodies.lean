import RustHadoop.S3.Payloads

/-!
# Bodies that cannot be read

`handle_request` reads the whole body first.  If the stream breaks off, or if it is longer than a gigabyte, it goes
on with an empty body (`unwrap_or_default`).  So a put whose body could not be read is refused exactly if it is
refused whatever its body is, or if an empty body will not do (`unread_body_refused_iff`).
-/

namespace RustHadoop.S3

open Texts Threads Environment Prog.Performs Runs

/-- An answer that says that something went wrong. -/
def Answer.isError : Answer → Bool
  | .rejected _ => true
  | .replied none => true
  | .replied (some r) => decide (400 ≤ r.status)
  | .sts _ => false

/-- The put is refused whatever its body is, or because a policy must not be empty, or because a copy onto itself
is refused. -/
def Service.RefusesUnread (c : Crates) : Service → Prop
  | .refused _ | .panicked | .operation (.putBucketPolicy _ _) => True
  | .operation (.copyObject bucket key source) => '/' :: copySource c source = objectPath bucket key
  | _ => False

/-- AES-GCM does not refuse short texts. -/
def Gateway.Encrypts (g : Gateway) : Prop :=
  g.sseManager ≠ none → ∀ key nonce plain, plain.length ≤ 32 → g.crates.aesEncrypt key nonce plain ≠ none

/-- What becomes of a put with this body. -/
inductive PutService (headers : HeaderMap) (body : Bytes) : Service → Prop
  | refused {code : Nat} (h : 400 ≤ code) : PutService headers body (.refused code)
  | panicked : PutService headers body .panicked
  | sts {params : StsQueryParams} : PutService headers body (.sts params)
  | createBucket {bucket : Text} : PutService headers body (.operation (.createBucket bucket))
  | putBucketPolicy {bucket : Text} : PutService headers body (.operation (.putBucketPolicy bucket body))
  | uploadPart {bucket key id : Text} {n : Int} :
      PutService headers body (.operation (.uploadPart bucket key id n body))
  | copyObject {bucket key source : Text} : PutService headers body (.operation (.copyObject bucket key source))
  | putObject {bucket key : Text} : PutService headers body (.operation (.putObject bucket key body headers))

variable {bucket key source : Text} {answer : Answer}

section

variable {g : Gateway} {clock : Clock} {cache : SigningKeyCache} {r : Request} {a : Admission}
  {shardOf : Text → Nat} {e e' : Dfs}
  {x : Reply}

private theorem put_serveBucket (bucket : Text) (params : S3Query) (headers : HeaderMap) (body : Bytes) :
    PutService headers body (serveBucket .put bucket params body) := by
  unfold serveBucket
  by_cases hp : params.policy.isSome
  · rw [if_pos hp]
    exact .putBucketPolicy
  · rw [if_neg hp]
    exact .createBucket

private theorem put_serveObject (bucket key : Text) (headers : HeaderMap) (body : Bytes) :
    PutService headers body (serveObject .put bucket key headers body) := by
  unfold serveObject
  dsimp only
  split
  · split
    · exact .copyObject
    · exact .panicked
  · exact .putObject

private theorem put_serveKey (bucket key : Text) (params : S3Query) (headers : HeaderMap) (body : Bytes) :
    PutService headers body (serveKey .put bucket key params headers body) := by
  unfold serveKey
  rw [if_neg (by simp), if_neg (by simp)]
  split
  · cases params.partNumber with
    | none => exact put_serveObject bucket key headers body
    | some n => exact .uploadPart
  · exact put_serveObject bucket key headers body

private theorem put_route (hp : r.method = .put) : PutService r.headers (r.body.getD []) (route g.crates r) := by
  unfold route
  split
  · unfold handleRoot
    dsimp only
    rw [hp]
    split
    · split_ifs with ha hg
      · exact .sts
      · cases hg
      · exact .refused (by decide)
    · exact .refused (by decide)
  · unfold handleRequest
    split
    · exact .refused (by decide)
    · split
      · exact .refused (by decide)
      · dsimp only
        rw [hp]
        split_ifs
        · exact put_serveBucket _ _ _ _
        · exact put_serveKey _ _ _ _ _
  · exact .refused (by decide)

private theorem runs_handle_of_forward (ha : (checkAuth g clock cache r).1 = .ok a)
    (hp : ∀ f content, e.read f = some content → g.crates.readPolicy content = none)
    (h : (calm g.crates shardOf).Runs e (forward g r) e' answer) :
    (calm g.crates shardOf).Runs e (handle g clock cache r).1 e' answer := by
  rw [handle_of_checkAuth ha]
  cases a with
  | unchecked => exact h
  | skipped => exact h
  | verified s =>
    have hc : (calm g.crates shardOf).Runs e (checkBucketPolicy g r s.principal) e true := by
      unfold checkBucketPolicy
      split_ifs
      · exact .ret
      · split
        · exact .ret
        · rename_i bucket _
          obtain ⟨y, e1, hy⟩ := calm_total g.crates shardOf e (.content (policyPath bucket))
          obtain ⟨hr, rfl⟩ := okay_of_content hy
          have hdn : documentDenies g r s.principal (okay y) = false := by
            unfold documentDenies
            rw [hr]
            cases hcn : e1.read (policyPath bucket) with
            | none => rfl
            | some content => rw [Option.bind_some, hp _ content hcn]
          refine runs_call_bind.2 ⟨y, e1, hy, ?_⟩
          rw [hdn]
          exact .ret
    exact hc.bind h

private theorem handle_of_error {error : AuthError} (h : (checkAuth g clock cache r).1 = .error error) :
    (handle g clock cache r).1 = pure (.rejected error) := by
  unfold handle
  rcases hc : checkAuth g clock cache r with ⟨y, cache'⟩
  rw [hc] at h
  cases h
  rfl

private theorem runs_serveAdmitted (h : (calm g.crates shardOf).Runs e (serveAdmitted g r a) e' answer) :
    answer = .rejected .missingAuth ∧ e' = e ∨ (calm g.crates shardOf).Runs e (forward g r) e' answer := by
  cases a with
  | unchecked => exact .inr h
  | skipped => exact .inr h
  | verified s =>
    obtain ⟨e1, passes, hc, h1⟩ := bind_iff.1 h
    have he : e1 = e := by
      unfold checkBucketPolicy at hc
      split_ifs at hc
      · exact (ret_iff.1 hc).1
      · split at hc
        · exact (ret_iff.1 hc).1
        · obtain ⟨y, e2, hy, h2⟩ := runs_call_bind.1 hc
          obtain ⟨-, rfl⟩ := okay_of_content hy
          exact (ret_iff.1 h2).1
    subst he
    cases passes with
    | true => exact .inr h1
    | false =>
      obtain ⟨rfl, rfl⟩ := ret_iff.1 h1
      exact .inl ⟨rfl, rfl⟩

private theorem putPayload_nil (headers : HeaderMap) : putPayload headers [] = some [] := by
  unfold putPayload
  split_ifs
  · rfl
  · rfl

theorem draws_sealBody_some (he : g.Encrypts) {payload : Bytes} (hs : payload.length ≤ 32) :
    Draws (sealBody g payload) fun sealed => sealed ≠ none := by
  unfold sealBody
  split
  · exact Option.some_ne_none _
  · rename_i m hm
    have hsm := he (hm ▸ Option.some_ne_none m)
    have hdr : Draws (m.encryptObject g.crates payload) fun sealed => sealed ≠ none := by
      refine bind (Draws.random 32) fun key hk => bind (Draws.random 12) fun nonce _ => ?_
      split
      · rename_i hn
        exact absurd hn (hsm _ _ _ hs)
      · refine bind (Draws.random 12) fun kekNonce _ => ?_
        split
        · rename_i hn
          exact absurd hn (hsm _ _ _ hk.le)
        · exact Option.some_ne_none _
    exact bind hdr fun sealed hsm hn => hsm (Option.map_eq_none_iff.1 hn)

private theorem succeeded_putObject (he : g.Encrypts)
    {headers : HeaderMap} (h : (calm g.crates shardOf).Runs e (putObject g bucket key [] headers) e' x) :
    succeeded x = true := by
  unfold putObject at h
  rw [putPayload_nil] at h
  obtain ⟨e1, sealed, hs, h1⟩ := bind_iff.1 h
  obtain ⟨rfl, hsm⟩ := (draws_sealBody_some he (by decide)).runs hs
  obtain ⟨⟨content, dek⟩, rfl⟩ := Option.ne_none_iff_exists'.1 hsm
  obtain ⟨e2, y, hc, h2⟩ := bind_iff.1 h1
  obtain ⟨rfl, -⟩ := runs_createOver hc
  obtain ⟨e3, _, -, h3⟩ := bind_iff.1 h2
  obtain ⟨-, rfl⟩ := ret_iff.1 h3
  rfl

private theorem succeeded_uploadPart {id : Text} {n : Int} {body : Bytes}
    (h : (calm g.crates shardOf).Runs .empty (uploadPart g id n body) e' x) : succeeded x = true := by
  obtain ⟨y, e1, hc, h1⟩ := runs_call_bind.1 h
  rcases look_of_create hc with ⟨-, rfl, -⟩ | ⟨hs, -⟩
  · obtain ⟨e2, _, -, h2⟩ := bind_iff.1 h1
    obtain ⟨-, rfl⟩ := ret_iff.1 h2
    rfl
  · exact absurd rfl hs

private theorem succeeded_createBucket (h : (calm g.crates shardOf).Runs .empty (createBucket bucket) e' x) :
    succeeded x = true := by
  obtain ⟨y, e1, hc, h1⟩ := runs_call_bind.1 h
  rcases look_of_create hc with ⟨-, rfl, -⟩ | ⟨hs, -⟩
  · obtain ⟨-, rfl⟩ := ret_iff.1 h1
    rfl
  · exact absurd rfl hs

/-- A copy is refused if its source cannot be read or opened, if it cannot be sealed, or if there is a file at its
target. -/
theorem reply_of_copyObject (he : g.Encrypts)
    (h : (calm g.crates shardOf).Runs e (copyObject g bucket key source) e' x) :
    succeeded x = true ∨ x = emptyResponse 404 ∧ e.read ('/' :: copySource g.crates source) = none ∨
      x = emptyResponse 500 ∧ ∃ raw, e.read ('/' :: copySource g.crates source) = some raw ∧
        ((∀ plain,
          openBody g (((e.read (metaPath ('/' :: copySource g.crates source))).bind g.crates.readMetadata).bind
            fun m => m.get dekKey) raw = some plain → 32 < plain.length) ∨
              e.look (objectPath bucket key) ≠ none) := by
  obtain ⟨y, e1, hdw, h1⟩ := runs_call_bind.1 h
  obtain ⟨hr, hf, -⟩ := okay_of_download hdw
  cases y with
  | error text =>
    obtain ⟨-, rfl⟩ := ret_iff.1 h1
    exact .inr (.inl ⟨rfl, hr.symm⟩)
  | ok raw =>
    obtain ⟨e2, sidecar, hs, h2⟩ := bind_iff.1 h1
    obtain ⟨rfl, rfl⟩ := runs_readSidecar hs
    rw [read_eq_of_files hf] at h2
    dsimp only at h2
    split at h2
    · rename_i ho
      obtain ⟨-, rfl⟩ := ret_iff.1 h2
      exact .inr (.inr ⟨rfl, raw, hr.symm, .inl fun plain hp => nomatch ho.symm.trans hp⟩)
    · rename_i plain ho
      obtain ⟨e3, sealed, hsl, h3⟩ := bind_iff.1 h2
      obtain ⟨rfl, -⟩ := draws_sealBody.runs hsl
      cases sealed with
      | none =>
        obtain ⟨-, rfl⟩ := ret_iff.1 h3
        refine .inr (.inr ⟨rfl, raw, hr.symm, .inl fun plain' hp => ?_⟩)
        cases ho.symm.trans hp
        by_contra hsh
        exact ((draws_sealBody_some he (not_lt.1 hsh)).runs hsl).2 rfl
      | some sealed =>
        obtain ⟨z, e4, hc, h4⟩ := runs_call_bind.1 h3
        rcases look_of_create hc with ⟨-, rfl, -⟩ | ⟨hne, rfl, rfl⟩
        · obtain ⟨e5, _, -, h5⟩ := bind_iff.1 h4
          obtain ⟨now, e6, -, h6⟩ := runs_call_bind.1 h5
          obtain ⟨-, rfl⟩ := ret_iff.1 h6
          exact .inl rfl
        · obtain ⟨-, rfl⟩ := ret_iff.1 h4
          exact .inr (.inr ⟨rfl, raw, hr.symm, .inr (look_eq_of_files hf ▸ hne)⟩)

def oneFile (c : Crates) (path : Text) : Dfs := .ofFiles c [(path, [65])]

theorem read_oneFile {path f : Text} : (oneFile g.crates path).read f = if f = path then some [65] else none := by
  split_ifs with hf
  · subst hf
    rw [Dfs.read, Dfs.look, oneFile, Dfs.ofFiles, List.foldr_cons, AList.lookup_insert]
    rfl
  · rw [Dfs.read, Dfs.look, oneFile, Dfs.ofFiles, List.foldr_cons, AList.lookup_insert_ne hf]
    rfl

theorem succeeded_copyObject (he : g.Encrypts) (hne : '/' :: copySource g.crates source ≠ objectPath bucket key)
    (h : (calm g.crates shardOf).Runs (oneFile g.crates ('/' :: copySource g.crates source))
      (copyObject g bucket key source) e' x) :
    succeeded x = true := by
  have hm : metaPath ('/' :: copySource g.crates source) ≠ '/' :: copySource g.crates source := by simp [metaPath]
  rcases reply_of_copyObject he h with hx | ⟨-, hn⟩ | ⟨-, raw, hraw, hr⟩
  · exact hx
  · rw [read_oneFile, if_pos rfl] at hn
    cases hn
  · rw [read_oneFile, if_pos rfl] at hraw
    cases hraw
    rcases hr with ho | hl
    · rw [read_oneFile, if_neg hm] at ho
      exact absurd (ho [65] rfl) (by decide)
    · refine absurd ?_ hl
      rw [Dfs.look, oneFile, Dfs.ofFiles, List.foldr_cons, AList.lookup_insert_ne hne.symm]
      rfl

private theorem isError_of_succeeded (h : succeeded x = true) : (Answer.replied x).isError = false := by
  cases x with
  | none => cases h
  | some r =>
    have hs : r.status = 200 := of_decide_eq_true h
    simp [Answer.isError, hs]

/-- Behind the middleware, a put whose body cannot be read and that does not ask for a session token is refused and
leaves all files if and only if it does not get to an operation that can do with an empty body. -/
theorem unread_body_refused_iff (g : Gateway) (clock : Clock) (cache : SigningKeyCache) (r : Request)
    (hput : r.method = .put) (hbody : r.body = none) (hsts : ∀ params, route g.crates r ≠ .sts params)
    (hempty : g.crates.readPolicy [] = none) (hjunk : g.crates.readPolicy [65] = none) (hencrypt : g.Encrypts) :
    (isStatusPath r.path = false → ∀ shardOf e e' answer,
        (calm g.crates shardOf).Runs e (handle g clock cache r).1 e' answer →
          e'.files = e.files ∧ answer.isError = true) ↔
      isStatusPath r.path = true ∨ (∃ error, (checkAuth g clock cache r).1 = .error error) ∨
        (route g.crates r).RefusesUnread g.crates := by
  rcases isStatusPath r.path with _ | _
  swap
  · exact iff_of_true nofun (.inl rfl)
  rw [forall_prop_of_true rfl, or_iff_right Bool.false_ne_true]
  have hservice : PutService r.headers [] (route g.crates r) := by
    have hroute := put_route (g := g) hput
    rwa [hbody] at hroute
  constructor
  · intro h
    rcases hauth : (checkAuth g clock cache r).1 with error | a
    · exact .inl ⟨error, rfl⟩
    · refine .inr ?_
      -- a run that succeeds
      have hnot : ∀ {op : Operation} {e : Dfs}, route g.crates r = .operation op →
          (∀ f content, e.read f = some content → g.crates.readPolicy content = none) →
            ¬ succeeded (execCalm g.crates (fun _ => 0) (fun _ => []) (op.run g) e).1 = true := by
        intro op e hroute hpolicy hok
        have hrun := runs_execCalm g.crates (fun _ => 0) (fun _ => []) (op.run g) e
        generalize execCalm g.crates (fun _ => 0) (fun _ => []) (op.run g) e = out at hok hrun
        have hforward : (calm g.crates fun _ => 0).Runs e (forward g r) out.2 (.replied out.1) := by
          unfold forward
          rw [hroute]
          exact hrun.bind .ret
        have herror := (h _ _ _ _ (runs_handle_of_forward hauth hpolicy hforward)).2
        rw [isError_of_succeeded hok] at herror
        cases herror
      have hnone : ∀ f content, Dfs.empty.read f = some content → g.crates.readPolicy content = none :=
        fun f content hcontent => nomatch hcontent
      generalize hroute : route g.crates r = service at hservice
      cases hservice with
      | refused _ => trivial
      | panicked => trivial
      | putBucketPolicy => trivial
      | @sts params => exact absurd hroute (hsts params)
      | createBucket => exact absurd (succeeded_createBucket (runs_execCalm _ _ _ _ _)) (hnot hroute hnone)
      | uploadPart => exact absurd (succeeded_uploadPart (runs_execCalm _ _ _ _ _)) (hnot hroute hnone)
      | putObject => exact absurd (succeeded_putObject hencrypt (runs_execCalm _ _ _ _ _)) (hnot hroute hnone)
      | copyObject =>
        by_contra hne
        refine hnot hroute (fun f content hcontent => ?_)
          (succeeded_copyObject hencrypt hne (runs_execCalm _ _ _ _ _))
        rw [read_oneFile] at hcontent
        split_ifs at hcontent
        cases hcontent
        exact hjunk
  · intro h shardOf e e' answer hrun
    rcases hauth : (checkAuth g clock cache r).1 with error | a
    · rw [handle_of_error hauth] at hrun
      obtain ⟨rfl, rfl⟩ := ret_iff.1 hrun
      exact ⟨rfl, rfl⟩
    · rw [handle_of_checkAuth hauth] at hrun
      rcases runs_serveAdmitted hrun with ⟨rfl, rfl⟩ | hforward
      · exact ⟨rfl, rfl⟩
      · have hrefuses : (route g.crates r).RefusesUnread g.crates := by
          refine h.resolve_left ?_
          rintro ⟨error, herror⟩
          rw [hauth] at herror
          cases herror
        unfold forward at hforward
        generalize route g.crates r = service at hservice hrefuses hforward
        cases hservice with
        | refused hcode =>
          obtain ⟨rfl, rfl⟩ := ret_iff.1 hforward
          exact ⟨rfl, decide_eq_true hcode⟩
        | panicked =>
          obtain ⟨rfl, rfl⟩ := ret_iff.1 hforward
          exact ⟨rfl, rfl⟩
        | @putBucketPolicy bucket =>
          obtain ⟨e1, x, hx, h1⟩ := bind_iff.1 hforward
          obtain ⟨rfl, rfl⟩ := ret_iff.1 h1
          replace hx : (calm g.crates shardOf).Runs e (putBucketPolicy g bucket []) e' x := hx
          unfold putBucketPolicy at hx
          rw [hempty] at hx
          obtain ⟨rfl, rfl⟩ := ret_iff.1 hx
          exact ⟨rfl, rfl⟩
        | @copyObject bucket key source =>
          obtain ⟨e1, x, hx, h1⟩ := bind_iff.1 hforward
          obtain ⟨rfl, rfl⟩ := ret_iff.1 h1
          -- what can be read stands in the way of the copy
          rcases runs_copyObject hx with ⟨hx', hfiles⟩ | ⟨-, raw, -, -, -, hread, -, -, hfree, -⟩
          · rcases reply_of_copyObject hencrypt hx with hok | ⟨rfl, -⟩ | ⟨rfl, -⟩
            · rw [hx'] at hok
              cases hok
            · exact ⟨hfiles, rfl⟩
            · exact ⟨hfiles, rfl⟩
          · rw [show '/' :: copySource g.crates source = objectPath bucket key from hrefuses, Dfs.read, hfree]
              at hread
            cases hread
        | sts | createBucket | uploadPart | putObject => exact hrefuses.elim

end

/-- `PUT /b?policy` without a readable body. -/
theorem unread_policy_refused :
    route plainCrates ⟨.put, none, "/b", some "policy", [], none⟩ = .operation (.putBucketPolicy "b" []) ∧
      ∀ shardOf e e' answer, (calm plainCrates shardOf).Runs e
        (handle (openGateway plainCrates) ⟨0, 0, 0, 0⟩ .default
        ⟨.put, none, "/b", some "policy", [], none⟩).1 e' answer → e'.files = e.files ∧ answer.isError = true := by
  have hroute :
      route plainCrates ⟨.put, none, "/b", some "policy", [], none⟩ = .operation (.putBucketPolicy "b" []) := by
    rfl
  refine ⟨hroute, (unread_body_refused_iff (openGateway plainCrates) ⟨0, 0, 0, 0⟩ .default
    ⟨.put, none, "/b", some "policy", [], none⟩ rfl rfl (fun _ h => nomatch hroute.symm.trans h) (by rfl) (by rfl)
    (fun hm => absurd rfl hm)).2 (.inr (.inr ?_)) (by decide)⟩
  show (route plainCrates _).RefusesUnread plainCrates
  rw [hroute]
  trivial

/-- `PUT /b/a`, signed for the body `A`, which breaks off. -/
def brokenPut : Request := { bodyPut [65] with body := none }

def brokenAnswer : Answer × Dfs :=
  execCalm bodyCrates (fun _ => 0) (fun _ => [])
    (serveAdmitted (staticGateway bodyCrates) brokenPut (.verified bodySession))
    (oneFile bodyCrates (objectPath "b" "a"))

/-- The object of before is replaced by an empty one. -/
theorem unread_body_stored :
    (checkAuth (staticGateway bodyCrates) ⟨0, 0, 0, 0⟩ .default brokenPut).1 = .ok (.verified bodySession) ∧
      (calm bodyCrates fun _ => 0).Runs (oneFile bodyCrates (objectPath "b" "a"))
        (handle (staticGateway bodyCrates) ⟨0, 0, 0, 0⟩ .default brokenPut).1 brokenAnswer.2 brokenAnswer.1 ∧
      brokenAnswer.1.isError = false ∧
        (oneFile bodyCrates (objectPath "b" "a")).look (objectPath "b" "a") = some [65] ∧
      brokenAnswer.2.look (objectPath "b" "a") = some [] := by
  have hauth :
      (checkAuth (staticGateway bodyCrates) ⟨0, 0, 0, 0⟩ .default brokenPut).1 = .ok (.verified bodySession) := by
    rw [brokenPut, checkAuth_body]
    exact checkAuth_bodyPut [65]
  refine ⟨hauth, ?_, rfl, rfl, rfl⟩
  rw [handle_of_checkAuth hauth]
  exact runs_execCalm bodyCrates (fun _ => 0) (fun _ => []) _ _

end RustHadoop.S3
