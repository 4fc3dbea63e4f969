import RustHadoop.S3.Middleware
import RustHadoop.S3.Reference

/-!
# Who gets past the middleware

With authentication on, a request is handed on either because its signature was verified or because its query
contains the text of a request for a session token.  The text is looked for in the whole query of any request,
whereas the router sends only requests for the root with that very parameter to `handle_sts`
(`verified_or_sts_iff`).

`/health` and `/metrics` are not behind the middleware.  Steps 1 to 10 of the middleware are meant here.  Step 11
follows for verified requests and can only turn them away.
-/

namespace RustHadoop.S3

open Texts

/-- The router hands the request to a bucket or object operation or to `list_buckets`. -/
def Service.ReachesData (s : Service) : Prop := s = .listBuckets ∨ ∃ op, s = .operation op

/-- The signature of the request verifies under the signing key the middleware took for it. -/
structure SignatureVerified (g : Gateway) (clock : Clock) (cache : SigningKeyCache) (r : Request) (s : Session) :
    Prop where
  resolved : resolved g clock r = .ok (s.credentials, s.principal)
  signature : verifySignatureWithKey g.crates (buildSigningInput g.crates r s.credentials) s.credentials
      (signingKey g clock cache s.credentials s.principal.secretKey).1 = .ok ()

section

variable {g : Gateway} {clock : Clock} {cache : SigningKeyCache} {r : Request}

theorem bind_eq_ok {ε α β : Type} {x : Except ε α} {f : α → Except ε β} {b : β} :
    (x >>= f) = .ok b ↔ ∃ a, x = .ok a ∧ f a = .ok b := by
  cases x with
  | error e =>
    constructor
    · intro h
      cases h
    · rintro ⟨a, h, -⟩
      cases h
  | ok a =>
    constructor
    · intro h
      exact ⟨a, rfl, h⟩
    · rintro ⟨_, h, h'⟩
      cases h
      exact h'

variable {cr : ParsedCredentials}

theorem checkScope_eq_ok_iff : checkScope g cr = .ok () ↔ cr.region = g.serverRegion ∧ cr.service = "s3" := by
  unfold checkScope
  split_ifs with hne
  · refine iff_of_false (fun h => nomatch h) fun ⟨hr, hs⟩ => ?_
    exact hne.elim (fun h => h hr) fun h => h hs
  · rw [not_or, not_not, not_not] at hne
    exact iff_of_true rfl hne

theorem resolved_eq_ok_iff {p : Principal} : resolved g clock r = .ok (cr, p) ↔
      (g.requireTls && !isTls r) = false ∧ parseCredentials r.headers (queryParams g.crates r) = some cr ∧
        checkTime g.crates (queryParams g.crates r) cr.timestamp clock.now = .ok () ∧
        (cr.region = g.serverRegion ∧ cr.service = "s3") ∧
        resolveSecretKey g clock (stsToken r (queryParams g.crates r)) cr = .ok p := by
  have hc : checkedCredentials g clock r = .ok cr ↔
      (g.requireTls && !isTls r) = false ∧ parseCredentials r.headers (queryParams g.crates r) = some cr ∧
        checkTime g.crates (queryParams g.crates r) cr.timestamp clock.now = .ok () ∧
          checkScope g cr = .ok () := by
    unfold checkedCredentials
    simp only
    split_ifs with htls
    · exact iff_of_false (fun h => nomatch h) fun h => by rw [htls] at h; exact nomatch h.1
    · rw [and_iff_right (Bool.eq_false_iff.2 htls)]
      split
      · rename_i hn
        exact iff_of_false (fun h => nomatch h) fun h => by rw [hn] at h; exact nomatch h.1
      · rename_i cr' hcr
        rw [hcr]
        constructor
        · intro h
          obtain ⟨_, ht, h⟩ := bind_eq_ok.1 h
          obtain ⟨_, hs, h⟩ := bind_eq_ok.1 h
          cases h
          exact ⟨rfl, ht, hs⟩
        · rintro ⟨heq, ht, hs⟩
          cases heq
          exact bind_eq_ok.2 ⟨_, ht, bind_eq_ok.2 ⟨_, hs, rfl⟩⟩
  rw [checkScope_eq_ok_iff] at hc
  constructor
  · intro h
    obtain ⟨cr', hcr, h⟩ := bind_eq_ok.1 h
    obtain ⟨p', hp, h⟩ := bind_eq_ok.1 h
    cases h
    obtain ⟨htls, hpr, ht, hs⟩ := hc.1 hcr
    exact ⟨htls, hpr, ht, hs, hp⟩
  · rintro ⟨htls, hpr, ht, hs, hp⟩
    exact bind_eq_ok.2 ⟨cr, hc.2 ⟨htls, hpr, ht, hs⟩, bind_eq_ok.2 ⟨p, hp, rfl⟩⟩

theorem checkAuth_eq_verified_iff {s : Session} : (checkAuth g clock cache r).1 = .ok (.verified s) ↔
      g.authEnabled = true ∧ skipsAuth r = false ∧ resolved g clock r = .ok (s.credentials, s.principal) ∧
        checkSignature g r s.credentials
          (signingKey g clock cache s.credentials s.principal.secretKey).1 = .ok () ∧
        roleAllows g r s.principal = true := by
  unfold checkAuth
  split_ifs with ha hs
  · refine iff_of_false (fun h => nomatch h) fun h => ?_
    rw [h.1] at ha
    cases ha
  · refine iff_of_false (fun h => nomatch h) fun h => ?_
    rw [h.2.1] at hs
    cases hs
  · rw [and_iff_right (by simpa using ha), and_iff_right (by simpa using hs)]
    unfold authenticate
    rcases hres : resolved g clock r with err | ⟨cr, p⟩
    · exact iff_of_false (fun h => nomatch h) fun h => nomatch h.1
    · rcases hsig : checkSignature g r cr (signingKey g clock cache cr p.secretKey).1 with err | u
      · simp only [hsig, Except.map]
        refine iff_of_false (fun h => nomatch h) fun h => ?_
        cases h.1
        rw [hsig] at h
        exact nomatch h.2.1
      · simp only [hsig, Except.map]
        constructor
        · intro h
          split_ifs at h with hr
          cases h
          exact ⟨rfl, hsig, hr⟩
        · rintro ⟨heq, -, hr⟩
          cases heq
          rw [if_pos hr]

private theorem checkSignature_eq_ok {key : Bytes} (h : checkSignature g r cr key = .ok ()) :
    verifySignatureWithKey g.crates (buildSigningInput g.crates r cr) cr key = .ok () := by
  unfold checkSignature at h
  simp only at h
  split_ifs at h
  exact h

private theorem authenticate_eq_ok {s : Session} (h : (authenticate g clock cache r).1 = .ok s) :
    SignatureVerified g clock cache r s := by
  unfold authenticate at h
  split at h
  · cases h
  · rename_i cr principal hr
    simp only at h
    rcases hc : checkSignature g r cr (signingKey g clock cache cr principal.secretKey).1 with e | u
    · rw [hc] at h
      cases h
    · rw [hc] at h
      cases h
      exact ⟨hr, checkSignature_eq_ok hc⟩

private theorem checkAuth_eq_ok {a : Admission} (ha : g.authEnabled = true) (hsk : skipsAuth r = false)
    (h : (checkAuth g clock cache r).1 = .ok a) : ∃ s, a = .verified s ∧ SignatureVerified g clock cache r s := by
  unfold checkAuth at h
  rw [if_neg (by rw [ha]; decide), if_neg (by rw [hsk]; decide)] at h
  split at h
  · cases h
  · rename_i s cache' hs
    simp only at h
    split_ifs at h
    cases h
    exact ⟨s, rfl, authenticate_eq_ok (by rw [hs])⟩

theorem checkAuth_of_skipsAuth (ha : g.authEnabled = true) (hs : skipsAuth r = true) :
    checkAuth g clock cache r = (.ok .skipped, cache) := by
  unfold checkAuth
  rw [if_neg (by rw [ha]; decide), if_pos hs]

private theorem handleRequest_ne_sts {c : Crates} {rest : Text} {params : StsQueryParams} :
    handleRequest c r rest ≠ .sts params := by
  have ho : ∀ {bucket key : Text} {headers : HeaderMap} {body : Bytes},
      serveObject r.method bucket key headers body ≠ .sts params := by
    intro bucket key headers body
    unfold serveObject
    repeat' split
    all_goals simp
  unfold handleRequest
  split
  · simp
  · split
    · simp
    · simp only
      split_ifs
      · unfold serveBucket
        repeat' split
        all_goals simp
      · unfold serveKey
        repeat' split
        all_goals first | exact ho | simp

private theorem route_eq_sts {c : Crates} : (∃ params, route c r = .sts params) ↔
    r.path = "/" ∧ ∃ params stsParams, S3Query.parse (queryParams c r) = some params ∧
      StsQueryParams.parse (queryParams c r) = some stsParams ∧
      params.action = some "AssumeRoleWithWebIdentity".toList := by
  constructor
  · rintro ⟨stsParams, h⟩
    unfold route at h
    split at h
    · rename_i hpt
      refine ⟨hpt, ?_⟩
      unfold handleRoot at h
      simp only at h
      split at h
      · rename_i params stsParams' hp hs
        split_ifs at h with ha
        exact ⟨params, stsParams', hp, hs, ha⟩
      · cases h
    · exact absurd h handleRequest_ne_sts
    · cases h
  · rintro ⟨hpt, params, stsParams, hp, hs, ha⟩
    refine ⟨stsParams, ?_⟩
    have hr : route c r = handleRoot c r := by
      unfold route
      rw [hpt]
      rfl
    rw [hr, handleRoot]
    unfold queryParams at hp hs
    simp only [hp, hs]
    exact if_pos ha

end

/-- Behind the middleware, data is reached with a verified signature only, and nothing else than `handle_sts`
without one. -/
def VerifiedOrSts (g : Gateway) (clock : Clock) (cache : SigningKeyCache) (r : Request) : Prop :=
  isStatusPath r.path = false → ∀ a, (checkAuth g clock cache r).1 = .ok a →
    ((route g.crates r).ReachesData → ∃ s, a = .verified s ∧ SignatureVerified g clock cache r s) ∧
      ((∀ s, a ≠ .verified s) → ∃ params, route g.crates r = .sts params)

/-- With authentication on, exactly the requests whose query contains the text of a request for a session token may
get past the middleware unsigned to anything but `handle_sts`: all of them that are not such a request for the
root. -/
theorem verified_or_sts_iff (g : Gateway) (clock : Clock) (cache : SigningKeyCache) (r : Request)
    (hauth : g.authEnabled = true) :
    VerifiedOrSts g clock cache r ↔ isStatusPath r.path = true ∨ skipsAuth r = false ∨
        r.path = "/" ∧ ∃ params stsParams, S3Query.parse (queryParams g.crates r) = some params ∧
          StsQueryParams.parse (queryParams g.crates r) = some stsParams ∧
          params.action = some "AssumeRoleWithWebIdentity".toList := by
  rw [← route_eq_sts]
  rcases hskip : skipsAuth r with _ | _
  · refine iff_of_true (fun _ a ha => ?_) (.inr (.inl rfl))
    obtain ⟨s, rfl, hs⟩ := checkAuth_eq_ok hauth hskip ha
    exact ⟨fun _ => ⟨s, rfl, hs⟩, fun h => absurd rfl (h s)⟩
  · rw [VerifiedOrSts, checkAuth_of_skipsAuth hauth hskip]
    constructor
    · intro h
      rcases hstatus : isStatusPath r.path with _ | _
      · exact .inr (.inr ((h hstatus .skipped rfl).2 fun s hs => by cases hs))
      · exact .inl rfl
    · rintro (hstatus | h | ⟨params, hparams⟩) hbehind a ha
      · exact nomatch hstatus.symm.trans hbehind
      · cases h
      · refine ⟨fun hdata => ?_, fun _ => ⟨params, hparams⟩⟩
        rw [hparams] at hdata
        rcases hdata with hdata | ⟨op, hdata⟩ <;> cases hdata

def canonicalGet : Text := canonicalForm "GET" "/b/a" "" emptyHash

def canonicalGetDigest : Text := "fdf1266b9da0737e6e83e0b5116697b56f2a484353450d11a81d515bbd0ec78b"

def getSignature : Text := "436adaf4d66874924fb7a3b13ae8f8c840e00defd12f9f8087a2c39f4bff80ea"

/-- A request for an object, signed by the static user. -/
def signedGet : Request := ⟨.get, none, "/b/a", none, signedHeaders emptyHash getSignature, none⟩

def getSession : Session := ⟨signedCredentials getSignature, ⟨staticSecret, none, none⟩⟩

def getCrates : Crates := signedCrates canonicalGet canonicalGetDigest getSignature

/-- A signed request gets to `get_object`. -/
theorem verified_or_sts_iff_signed :
    (checkAuth (staticGateway getCrates) ⟨0, 0, 0, 0⟩ .default signedGet).1 = .ok (.verified getSession) ∧
      route getCrates signedGet = .operation (.getObject "b" "a" signedGet.headers) ∧
      VerifiedOrSts (staticGateway getCrates) ⟨0, 0, 0, 0⟩ .default signedGet := by
  refine ⟨?_, rfl, (verified_or_sts_iff (staticGateway getCrates) _ .default signedGet rfl).2 (.inr (.inl rfl))⟩
  unfold staticGateway getCrates signedCrates signedGet getSession signedHeaders signedCredentials
    staticChain keyChain
    signedWith staticKey staticSecret canonicalGet canonicalForm canonicalGetDigest scopedDigest emptyHash
      getSignature
  repeat rw [String.toList_ofList]
  decide +kernel

def queryGet (path query : Text) : Request := ⟨.get, none, path, some query, [], none⟩

/-- Nobody signed this request for an object, and it is handed to `get_object`. -/
theorem unsigned_read :
    route plainCrates (queryGet "/b/a" "Action=AssumeRoleWithWebIdentity") = .operation (.getObject "b" "a" []) ∧
      ¬ VerifiedOrSts (staticGateway plainCrates) ⟨0, 0, 0, 0⟩ .default
        (queryGet "/b/a" "Action=AssumeRoleWithWebIdentity") := by
  have hroute : route plainCrates (queryGet "/b/a" "Action=AssumeRoleWithWebIdentity") =
      .operation (.getObject "b" "a" []) := by decide
  refine ⟨hroute, fun h => ?_⟩
  obtain ⟨s, hs, -⟩ :=
    (h (by decide) .skipped (congrArg Prod.fst (checkAuth_of_skipsAuth rfl (by decide)))).1 (.inr ⟨_, hroute⟩)
  cases hs

end RustHadoop.S3
