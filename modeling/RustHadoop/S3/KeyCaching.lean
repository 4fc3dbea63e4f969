import RustHadoop.S3.Authentication

/-!
# The cache of signing keys

A signing key is kept under the access key and the date of the request it was derived for.  It also depends on the
secret, which a session token brings with it whatever access key stands next to it, and it is kept before the
signature is checked.

A history of requests sees no cache as long as no two of its requests resolve different secrets for the same access
key and date (`cache_transparent`).
-/

namespace RustHadoop.S3

open Texts

variable {g : Gateway}

/-- The request with this clock resolves these credentials and this principal, and is not let through before. -/
def Resolves (g : Gateway) (e : Clock × Request) (cr : ParsedCredentials) (p : Principal) : Prop :=
  skipsAuth e.2 = false ∧ resolved g e.1 e.2 = .ok (cr, p)

/-- The key that belongs to the credentials and the secret. -/
def ownKey (g : Gateway) (cr : ParsedCredentials) (secretKey : Text) : Bytes :=
  deriveSigningKey g.crates secretKey cr.date cr.region cr.service

/-- Two requests with the same access key and date never resolve different secrets. -/
def SecretsAgree (g : Gateway) (history : List (Clock × Request)) : Prop :=
  ∀ e ∈ history, ∀ e' ∈ history, ∀ cr p cr' p', Resolves g e cr p → Resolves g e' cr' p' →
    cr.accessKey = cr'.accessKey → cr.date = cr'.date → p.secretKey = p'.secretKey

/-- Every key in the cache is the own key of a request of the history. -/
def CacheSound (g : Gateway) (history : List (Clock × Request)) (cache : SigningKeyCache) : Prop :=
  ∀ entry ∈ cache.entries, ∃ e ∈ history, ∃ cr p, Resolves g e cr p ∧ entry.1 = (cr.accessKey, cr.date) ∧
    entry.2.key = ownKey g cr p.secretKey

variable {cr : ParsedCredentials} {p : Principal}

private theorem scope_of_resolved {clock : Clock} {r : Request}
    (h : resolved g clock r = .ok (cr, p)) : cr.region = g.serverRegion ∧ cr.service = "s3" :=
  (resolved_eq_ok_iff.1 h).2.2.2.1

private theorem SigningKeyCache.get_spec (cache : SigningKeyCache) (now : Nat) (accessKey date : Text) :
    (∀ key, (cache.get now accessKey date).1 = some key → ∃ entry ∈ cache.entries, entry.1 = (accessKey, date) ∧
      entry.2.key = key) ∧ ∀ entry ∈ (cache.get now accessKey date).2.entries, entry ∈ cache.entries := by
  obtain ⟨hf, hsub⟩ := Lru.get_spec (c := cache) (k := (accessKey, date))
  unfold SigningKeyCache.get
  split
  · rename_i entry cache' hg
    rw [hg] at hf hsub
    split_ifs
    · refine ⟨fun key hk => ?_, hsub⟩
      cases hk
      exact ⟨_, hf entry rfl, rfl, rfl⟩
    · exact ⟨fun key hk => (nomatch hk), fun e he => hsub e (Lru.mem_pop he)⟩
  · rename_i cache' hg
    rw [hg] at hsub
    exact ⟨fun key hk => (nomatch hk), hsub⟩

variable {history : List (Clock × Request)} {cache : SigningKeyCache} {e : Clock × Request}

private theorem signingKey_of_cacheSound
    (ha : SecretsAgree g history) (hc : CacheSound g history cache) (he : e ∈ history) (hr : Resolves g e cr p) :
    (signingKey g e.1 cache cr p.secretKey).1 = ownKey g cr p.secretKey ∧
      CacheSound g history (signingKey g e.1 cache cr p.secretKey).2 := by
  obtain ⟨hf, hsub⟩ := cache.get_spec e.1.lookup cr.accessKey cr.date
  unfold signingKey
  split
  · rename_i key cache' hg
    rw [hg] at hf hsub
    refine ⟨?_, fun entry hen => hc entry (hsub entry hen)⟩
    -- the entry was made for a request with the same secret
    obtain ⟨entry, hen, hn, hk⟩ := hf key rfl
    obtain ⟨e', he', cr', p', hr', hn', hk'⟩ := hc entry hen
    obtain ⟨hak, hdt⟩ := Prod.mk.inj (hn.symm.trans hn')
    obtain ⟨hrg, hs⟩ := scope_of_resolved hr.2
    obtain ⟨hrg', hs'⟩ := scope_of_resolved hr'.2
    rw [← hk, hk', ownKey, ownKey, ← hdt, hrg, hrg', hs, hs', ha e he e' he' cr p cr' p' hr hr' hak hdt]
  · rename_i cache' hg
    rw [hg] at hsub
    refine ⟨rfl, fun entry hen => ?_⟩
    rcases Lru.mem_put hen with rfl | hen
    · exact ⟨e, he, cr, p, hr, rfl, rfl⟩
    · exact hc entry (hsub entry hen)

/-- Steps 8 and 9 with the secret itself. -/
def checkBySecret (g : Gateway) (r : Request) (cr : ParsedCredentials) (secretKey : Text) :
    Except AuthError Unit :=
  let input := buildSigningInput g.crates r cr
  if input.payloadHash = unsignedPayload ∧ g.allowUnsignedPayload = false ∧
    isPresigned (queryParams g.crates r) = false then
    .error .missingAuth
  else verifySignature g.crates input cr secretKey

theorem checkSignature_ownKey (r : Request) (cr : ParsedCredentials) (secretKey : Text) :
    checkSignature g r cr (ownKey g cr secretKey) = checkBySecret g r cr secretKey := rfl

def checkAuthBySecret (g : Gateway) (clock : Clock) (r : Request) : Except AuthError Admission :=
  if g.authEnabled = false then .ok .unchecked
  else if skipsAuth r then .ok .skipped
  else
    match resolved g clock r with
    | .error e => .error e
    | .ok (cr, p) =>
      match checkBySecret g r cr p.secretKey with
      | .error e => .error e
      | .ok _ => if roleAllows g r p then .ok (.verified ⟨cr, p⟩) else .error .missingAuth

theorem checkAuth_of_cacheSound
    (ha : SecretsAgree g history) (hc : CacheSound g history cache) (he : e ∈ history) :
    (checkAuth g e.1 cache e.2).1 = checkAuthBySecret g e.1 e.2 ∧
    CacheSound g history (checkAuth g e.1 cache e.2).2 := by
  unfold checkAuth checkAuthBySecret
  split_ifs with hat hsk
  · exact ⟨rfl, hc⟩
  · exact ⟨rfl, hc⟩
  · unfold authenticate
    rcases hres : resolved g e.1 e.2 with err | ⟨cr, p⟩
    · exact ⟨rfl, hc⟩
    · have hr : Resolves g e cr p := ⟨by simpa using hsk, hres⟩
      obtain ⟨hk, hs⟩ := signingKey_of_cacheSound ha hc he hr
      simp only [hk, checkSignature_ownKey]
      rcases checkBySecret g e.2 cr p.secretKey with err | u
      · exact ⟨rfl, hs⟩
      · exact ⟨rfl, hs⟩

private theorem checkAuthAll_of_cacheSound (ha : SecretsAgree g history) :
    ∀ {rest : List (Clock × Request)} {cache : SigningKeyCache}, (∀ e ∈ rest, e ∈ history) →
      CacheSound g history cache →
      checkAuthAll g cache rest = rest.map fun e => checkAuthBySecret g e.1 e.2 := by
  intro rest
  induction rest with
  | nil => exact fun _ _ => rfl
  | cons e rest ih =>
    intro cache hsub hc
    obtain ⟨hr, hs⟩ := checkAuth_of_cacheSound ha hc (hsub e List.mem_cons_self)
    show (checkAuth g e.1 cache e.2).1 :: checkAuthAll g (checkAuth g e.1 cache e.2).2 rest = _
    rw [List.map_cons, hr, ih (fun e he => hsub e (List.mem_cons_of_mem _ he)) hs]

theorem cacheSound_default (history : List (Clock × Request)) : CacheSound g history .default :=
  fun _ he => absurd he List.not_mem_nil

private theorem checkAuth_default (clock : Clock) (r : Request) :
    (checkAuth g clock .default r).1 = checkAuthBySecret g clock r := by
  have ha : SecretsAgree g [(clock, r)] := by
    intro e he e' he' cr p cr' p' hr hr' _ _
    rw [List.mem_singleton] at he he'
    subst he he'
    cases hr.2.symm.trans hr'.2
    rfl
  exact (checkAuth_of_cacheSound ha (cacheSound_default _) List.mem_cons_self).1

/-- Every request of a history is decided as with an empty cache, that is by the secret resolved for it. -/
theorem cache_transparent (g : Gateway) (history : List (Clock × Request)) (hagree : SecretsAgree g history) :
    checkAuthAll g .default history = history.map (fun e => (checkAuth g e.1 .default e.2).1) ∧
      checkAuthAll g .default history = history.map fun e => checkAuthBySecret g e.1 e.2 := by
  have hall := checkAuthAll_of_cacheSound hagree (fun _ he => he) (cacheSound_default history)
  refine ⟨?_, hall⟩
  rw [hall]
  exact List.map_congr_left fun e _ => (checkAuth_default e.1 e.2).symm

private theorem secretKey_of_token {clock clock' : Clock} {token : Option Text} {cr' : ParsedCredentials}
    {p' : Principal}
    (h : resolveSecretKey g clock token cr = .ok p) (h' : resolveSecretKey g clock' token cr' = .ok p')
    (hak : cr.accessKey = cr'.accessKey) : p.secretKey = p'.secretKey := by
  unfold resolveSecretKey at h h'
  cases token with
  | none =>
    cases hk : g.credentialProvider cr.accessKey with
    | none => simp [hk] at h
    | some key =>
      simp only [hk, ← hak] at h h'
      cases h
      cases h'
      rfl
  | some token =>
    cases hm : g.stsTokenManager with
    | none => simp [hm] at h
    | some m =>
      simp only [hm] at h h'
      cases hd : m.decryptToken g.crates token with
      | error err => simp [hd, bind, Except.bind] at h
      | ok data =>
        simp only [hd, bind, Except.bind] at h h'
        split_ifs at h h'
        cases h
        cases h'
        rfl

/-- The secrets agree if requests with the same access key bring the same token, or all of them none. -/
theorem secretsAgree_of_tokens
    (h : ∀ e ∈ history, ∀ e' ∈ history, ∀ cr p cr' p', Resolves g e cr p → Resolves g e' cr' p' →
      cr.accessKey = cr'.accessKey →
        stsToken e.2 (queryParams g.crates e.2) = stsToken e'.2 (queryParams g.crates e'.2)) :
    SecretsAgree g history := by
  intro e he e' he' cr p cr' p' hr hr' hak _
  have hp := (resolved_eq_ok_iff.1 hr.2).2.2.2.2
  rw [h e he e' he' cr p cr' p' hr hr' hak] at hp
  exact secretKey_of_token hp (resolved_eq_ok_iff.1 hr'.2).2.2.2.2 hak

def borrowedSignature : Text := "a565306e15205bbf2e3037f6982b2607ab763ffce995effc22d8cd57ea327c5a"

def borrowedHmacs : List (Bytes × Bytes × Bytes) :=
  staticChain ++ sessionChain ++ [signedWith staticKey canonicalGetDigest getSignature,
      signedWith sessionKey canonicalGetDigest borrowedSignature]

def borrowedCrates : Crates :=
  { plainCrates with
    sha256 := tableHash [(utf8 canonicalGet, digest canonicalGetDigest)]
    hmac := tableHmac borrowedHmacs }

/-- A request with the access key of the static user, signed with the secret of a session, with or without its
token. -/
def borrowedKey (withToken : Bool) : Request :=
  { method := .get
    scheme := none
    path := "/b/a"
    query := none
    headers := (if withToken then [("x-amz-security-token".toList, utf8 sessionToken)] else []) ++
      signedHeaders emptyHash borrowedSignature
    body := none }

private theorem borrowedHmacs_spec :
    (borrowedHmacs.map fun e => e.2.2).Nodup ∧ ∀ e ∈ borrowedHmacs, e.2.2.length = 32 := by
  unfold borrowedHmacs staticChain sessionChain keyChain signedWith staticKey sessionKey borrowedSignature
  repeat rw [String.toList_ofList]
  decide +kernel

private theorem borrowedHmacs_injective {k k' m m' : Bytes}
    (h : tableHmac borrowedHmacs k m = tableHmac borrowedHmacs k' m') :
    k = k' ∧ m = m' := tableHmac_injective borrowedHmacs_spec.1 borrowedHmacs_spec.2 h

/-- Two requests with the token: the second one finds the key of the first in the cache. -/
theorem cache_transparent_session :
    SecretsAgree (sessionGateway borrowedCrates)
      [(⟨0, 0, 0, 0⟩, borrowedKey true), (⟨0, 0, 0, 0⟩, borrowedKey true)] ∧
    ((checkAuth (sessionGateway borrowedCrates) ⟨0, 0, 0, 0⟩ .default (borrowedKey true)).2.get 0
      (signedCredentials borrowedSignature).accessKey (signedCredentials borrowedSignature).date).1 = some
        (digest sessionKey) ∧
    checkAuthAll (sessionGateway borrowedCrates) .default
        [(⟨0, 0, 0, 0⟩, borrowedKey true), (⟨0, 0, 0, 0⟩, borrowedKey true)] =
      .replicate 2 (.ok (.verified ⟨signedCredentials borrowedSignature,
        ⟨sessionSecret, some sessionData.roleArn, some sessionData.claims.toPolicyContext⟩⟩)) := by
  have hagree : SecretsAgree (sessionGateway borrowedCrates)
      [(⟨0, 0, 0, 0⟩, borrowedKey true), (⟨0, 0, 0, 0⟩, borrowedKey true)] :=
    secretsAgree_of_tokens fun e he e' he' _ _ _ _ _ _ _ => by simp_all
  rw [(cache_transparent _ _ hagree).1]
  refine ⟨hagree, ?_⟩
  unfold sessionGateway staticGateway sessionCrates borrowedKey signedHeaders borrowedCrates borrowedHmacs
    staticChain sessionChain keyChain signedWith staticKey sessionKey staticSecret sessionToken borrowedSignature
    sessionJson sessionCiphertext sessionData sessionSecret canonicalGet canonicalForm canonicalGetDigest
    signedCredentials emptyHash
  repeat rw [String.toList_ofList]
  decide +kernel

/-- The session token leaves its key behind, under the name of the static user.  The second request has no token;
it is signed with the secret of the session and passes as the static user, and with an empty cache it does not. -/
theorem borrowed_key_accepted :
    (∀ secretKey secretKey' date region service, deriveSigningKey borrowedCrates secretKey date region service =
      deriveSigningKey borrowedCrates secretKey' date region service → secretKey = secretKey') ∧
    checkAuthAll (sessionGateway borrowedCrates) .default
        [(⟨0, 0, 0, 0⟩, borrowedKey true), (⟨0, 0, 0, 0⟩, borrowedKey false)] =
      [.ok (.verified ⟨signedCredentials borrowedSignature,
          ⟨sessionSecret, some sessionData.roleArn, some sessionData.claims.toPolicyContext⟩⟩),
        .ok (.verified ⟨signedCredentials borrowedSignature, ⟨staticSecret, none, none⟩⟩)] ∧
    (checkAuth (sessionGateway borrowedCrates) ⟨0, 0, 0, 0⟩ .default (borrowedKey false)).1 =
      .error (.signatureDoesNotMatch canonicalGet (scopedDigest canonicalGetDigest)) := by
  refine ⟨fun _ _ _ _ _ => deriveSigningKey_injective borrowedHmacs_injective, ?_⟩
  unfold sessionGateway staticGateway sessionCrates borrowedKey signedHeaders borrowedCrates borrowedHmacs
    staticChain sessionChain keyChain signedWith staticKey sessionKey staticSecret sessionToken borrowedSignature
    sessionJson sessionCiphertext sessionData sessionSecret canonicalGet canonicalForm canonicalGetDigest
    scopedDigest signedCredentials emptyHash
  repeat rw [String.toList_ofList]
  decide +kernel

end RustHadoop.S3
