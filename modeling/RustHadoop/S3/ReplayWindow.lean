import RustHadoop.S3.KeyCaching

/-!
# The replay window

A request that does not say how long it is valid is to be rejected when its timestamp and the clock are 16 minutes
apart.  The middleware reads timestamps in RFC 3339 and, so it looks, in the format `20240220T010203Z` of Signature
Version 4.  But `DateTime::parse_from_str` needs an offset from UTC in what it parses, and the format has none, so
it never succeeds, and a timestamp that is not read is not checked (`checkTime`).

`replay_window_iff` says that exactly the timestamps in RFC 3339 are held against the clock.  What else is signed
may be sent again at any time.
-/

namespace RustHadoop.S3

open Texts

/-- The instant that a timestamp denotes, in either format. -/
def instant? (c : Crates) (timestamp : Text) : Option Int := (c.parseRfc3339 timestamp).or (c.parseNaive timestamp)

variable (clock : Clock)

/-- Less than 16 minutes before or after the instant. -/
def Clock.Near (instant : Int) : Prop := (clock.now - instant).natAbs < 16 * 60 * 10 ^ 9

/-- Both readings of the wall clock are of the same instant. -/
def Clock.Consistent : Prop := clock.seconds = (clock.now / secondInNanos).toNat

def Clock.setWall (now : Int) : Clock := { clock with now := now, seconds := (now / secondInNanos).toNat }

private theorem Clock.setWall_consistent (now : Int) : (clock.setWall now).Consistent := rfl

section

variable {g : Gateway} {clock : Clock} {r : Request}

theorem checkSkew_eq_ok {instant : Int} (h : checkSkew instant clock.now = .ok ()) : clock.Near instant := by
  unfold checkSkew at h
  split_ifs at h with hs
  rw [Int.natAbs_tdiv] at hs
  have hm : (60 * secondInNanos).natAbs = 60 * 10 ^ 9 := rfl
  rw [hm, not_lt] at hs
  have hlt := (Nat.div_lt_iff_lt_mul (by decide)).1 (Nat.lt_succ_of_le hs)
  unfold Clock.Near
  omega

private theorem isPresigned_of_no_expires {q : Pairs} (h : q.containsKey "X-Amz-Expires" = false) :
    isPresigned q = false := by
  rw [isPresigned, h, Bool.false_and]

private theorem requestTime_eq {c : Crates} (hc : ∀ t, c.parseDateTime t = none) (timestamp : Text) :
    requestTime c timestamp = c.parseRfc3339 timestamp := by
  rw [requestTime, hc, Option.or_none]

theorem resolveSecretKey_earlier {token : Option Text} {cr : ParsedCredentials} {p : Principal} {clock' : Clock}
    (hle : clock'.seconds ≤ clock.seconds) (h : resolveSecretKey g clock token cr = .ok p) :
    resolveSecretKey g clock' token cr = .ok p := by
  unfold resolveSecretKey at h ⊢
  split at h
  · split at h
    · cases h
    · obtain ⟨data, hdt, h⟩ := bind_eq_ok.1 h
      split_ifs at h with he
      refine bind_eq_ok.2 ⟨data, hdt, ?_⟩
      rw [if_neg (by omega)]
      exact h
  · exact h

theorem accepted_earlier {cache : SigningKeyCache} {s : Session}
    (hp : isPresigned (queryParams g.crates r) = false)
    (ht : requestTime g.crates s.credentials.timestamp = none) (hc : clock.Consistent) {now : Int}
    (hle : now ≤ clock.now) (h : (checkAuth g clock cache r).1 = .ok (.verified s)) :
    (checkAuth g (clock.setWall now) cache r).1 = .ok (.verified s) := by
  obtain ⟨ha, hsk, hr, hs, hrl⟩ := checkAuth_eq_verified_iff.1 h
  obtain ⟨htls, hpr, -, hsc, hsr⟩ := resolved_eq_ok_iff.1 hr
  have hu : checkTime g.crates (queryParams g.crates r) s.credentials.timestamp now = .ok () := by
    unfold checkTime
    rw [ht, hp]
    rfl
  have hsn : (clock.setWall now).seconds ≤ clock.seconds := by
    rw [hc]
    exact Int.toNat_le_toNat (Int.ediv_le_ediv (by decide) hle)
  -- the signing key is looked up by the other clock, which stays as it was
  exact checkAuth_eq_verified_iff.2 ⟨ha, hsk,
    resolved_eq_ok_iff.2 ⟨htls, hpr, hu, hsc, resolveSecretKey_earlier hsn hsr⟩, hs, hrl⟩

end

/-- A header-signed request that is accepted somewhere is only ever accepted near its own time, exactly if its
timestamp is in RFC 3339. -/
theorem replay_window_iff (g : Gateway) (hchrono : ∀ t, g.crates.parseDateTime t = none) {r : Request}
    (hexpires : (queryParams g.crates r).containsKey "X-Amz-Expires" = false) {clock : Clock}
    (hclock : clock.Consistent)
    {cache : SigningKeyCache} {s : Session} (haccepted : (checkAuth g clock cache r).1 = .ok (.verified s)) :
    (∀ clock' cache' s', clock'.Consistent → (checkAuth g clock' cache' r).1 = .ok (.verified s') →
        ∃ t, instant? g.crates s'.credentials.timestamp = some t ∧ clock'.Near t) ↔
      g.crates.parseRfc3339 s.credentials.timestamp ≠ none := by
  have hpresigned := isPresigned_of_no_expires hexpires
  constructor
  · intro hwindow hnone
    obtain ⟨t, ht, -⟩ := hwindow clock cache s hclock haccepted
    have hunread : requestTime g.crates s.credentials.timestamp = none := by rw [requestTime_eq hchrono, hnone]
    have hearlier :=
      accepted_earlier hpresigned hunread hclock (min_le_left clock.now (t - 16 * 60 * 10 ^ 9)) haccepted
    obtain ⟨t', ht', hnear⟩ := hwindow _ cache s (Clock.setWall_consistent _ _) hearlier
    cases ht.symm.trans ht'
    have hfar := min_le_right clock.now (t - 16 * 60 * 10 ^ 9)
    unfold Clock.Near Clock.setWall at hnear
    dsimp only at hnear
    omega
  · intro hsome clock' cache' s' _ h
    obtain ⟨-, hparse, -⟩ := resolved_eq_ok_iff.1 (checkAuth_eq_verified_iff.1 haccepted).2.2.1
    obtain ⟨-, hparse', htime, -⟩ := resolved_eq_ok_iff.1 (checkAuth_eq_verified_iff.1 h).2.2.1
    obtain ⟨t, ht⟩ := Option.ne_none_iff_exists'.1 hsome
    have hsame : s'.credentials = s.credentials := Option.some.inj (hparse'.symm.trans hparse)
    rw [hsame] at htime ⊢
    unfold checkTime at htime
    rw [requestTime_eq hchrono, ht, hpresigned] at htime
    exact ⟨t, by rw [instant?, ht, Option.some_or], checkSkew_eq_ok htime⟩

/-- 20 February 2024, 01:02:03, in nanoseconds. -/
def signingInstant : Int := 1708390923 * 10 ^ 9

def clockAfter (seconds : Nat) : Clock := ⟨(1708390923 + seconds) * 10 ^ 9, 1708390923 + seconds, 0, 0⟩

def timedCrates (c : Crates) : Crates :=
  { c with
    parseRfc3339 := fun t => if t = "2024-02-20T01:02:03Z".toList then some signingInstant else none
    parseNaive := fun t => if t = "20240220T010203Z".toList then some signingInstant else none }

def rfcCanonical : Text :=
  "GET\n/b/a\n\nhost:localhost:9000\nx-amz-date:2024-02-20T01:02:03Z\n\nhost;x-amz-date\n" ++ emptyHash

def rfcDigest : Text := "6213b3185a0111077bb70a8d1b0efe1acec96461d1ce5c07251802d0272b9578"

def rfcSignature : Text := "1c411956bfac1a3fb3bd31c583fecf32559db250b53af96b93e3d468c867e480"

def rfcCrates : Crates :=
  timedCrates { plainCrates with
    sha256 := tableHash [(utf8 rfcCanonical, digest rfcDigest)]
    hmac := tableHmac (staticChain ++ [(digest staticKey,
      utf8 ("AWS4-HMAC-SHA256\n2024-02-20T01:02:03Z\n20240220/us-east-1/s3/aws4_request\n" ++ rfcDigest),
        digest rfcSignature)]) }

def rfcGet : Request :=
  { method := .get
    scheme := none
    path := "/b/a"
    query := none
    headers := [("host", utf8 "localhost:9000"), ("x-amz-date", utf8 "2024-02-20T01:02:03Z"),
      ("x-amz-content-sha256", utf8 emptyHash),
      ("authorization", utf8 ("AWS4-HMAC-SHA256 Credential=AKIDEXAMPLE/20240220/us-east-1/s3/aws4_request, "
        ++ "SignedHeaders=host;x-amz-date, Signature=" ++ rfcSignature))]
    body := none }

def rfcSession : Session :=
  ⟨⟨"AKIDEXAMPLE", "20240220", "us-east-1", "s3", ["host", "x-amz-date"], rfcSignature, "2024-02-20T01:02:03Z"⟩,
    ⟨staticSecret, none, none⟩⟩

/-- It is accepted when it is sent, and never more than 16 minutes from that. -/
theorem replay_window_rfc :
    (checkAuth (staticGateway rfcCrates) (clockAfter 0) .default rfcGet).1 = .ok (.verified rfcSession) ∧
      ∀ clock' cache' s', clock'.Consistent →
        (checkAuth (staticGateway rfcCrates) clock' cache' rfcGet).1 = .ok (.verified s') →
        ∃ t, instant? rfcCrates s'.credentials.timestamp = some t ∧ clock'.Near t := by
  have haccepted :
      (checkAuth (staticGateway rfcCrates) (clockAfter 0) .default rfcGet).1 = .ok (.verified rfcSession) := by
    unfold staticGateway rfcCrates timedCrates rfcGet rfcSession rfcCanonical rfcDigest rfcSignature staticChain
      keyChain staticKey
      staticSecret emptyHash
    repeat rw [String.toList_ofList]
    decide +kernel
  have hclock : (clockAfter 0).Consistent := rfl
  have hrfc : rfcCrates.parseRfc3339 rfcSession.credentials.timestamp = some signingInstant := by decide +kernel
  refine ⟨haccepted, (replay_window_iff (staticGateway rfcCrates) (fun _ => rfl) rfl hclock haccepted).2 ?_⟩
  exact fun hnone => nomatch hrfc.symm.trans hnone

/-- It is accepted when it is sent, and still after a year. -/
theorem replayed_after_a_year :
    instant? (timedCrates getCrates) getSession.credentials.timestamp = some signingInstant ∧
      (checkAuth (staticGateway (timedCrates getCrates)) (clockAfter 0) .default signedGet).1 = .ok
        (.verified getSession) ∧
      (checkAuth (staticGateway (timedCrates getCrates)) (clockAfter 31536000) .default signedGet).1 = .ok
        (.verified getSession) ∧
      ¬ (clockAfter 31536000).Near signingInstant := by
  have hlate : (checkAuth (staticGateway (timedCrates getCrates)) (clockAfter 31536000) .default signedGet).1 =
      .ok (.verified getSession) := by
    unfold staticGateway timedCrates getCrates signedCrates signedGet getSession signedHeaders signedCredentials
      staticChain keyChain signedWith staticKey staticSecret canonicalGet canonicalForm canonicalGetDigest
        scopedDigest
      emptyHash getSignature
    repeat rw [String.toList_ofList]
    decide +kernel
  have hinstant : instant? (timedCrates getCrates) getSession.credentials.timestamp = some signingInstant :=
    by decide +kernel
  have hearly := accepted_earlier rfl (by decide +kernel) (rfl : (clockAfter 31536000).Consistent)
    (by decide : signingInstant ≤ _) hlate
  exact ⟨hinstant, hearly, hlate, by unfold Clock.Near clockAfter signingInstant; decide⟩

end RustHadoop.S3
