import RustHadoop.S3.Interference
import RustHadoop.S3.Reads
import RustHadoop.S3.Retrieval

/-!
# Deleting several objects

`delete_multiple_objects` deletes the file of every key and nothing else.  It reports keys as deleted whose
sidecars, parts and markers are still there (`batch_deletes_iff`).
-/

namespace RustHadoop.S3

open Texts Threads Environment List Runs

variable {g : Gateway} {shardOf : Text → Nat} {e e' : Dfs} {bucket key : Text} {keys : List Text} {x : Reply}

/-- Of an object in parts: its parts, and what makes `get_object` take it for one. -/
def PartFile (shardOf : Text → Nat) (e : Dfs) (path f : Text) : Prop :=
  Under shardOf path f ∧ mpuMarker <:+ f ∨ Marked shardOf e path ∧ ∃ n, IsI32 n ∧ f = child path (intText n)

/-- Of an object of `e` there is nothing in `e'` that could be read, and no sidecar or part. -/
structure Gone (g : Gateway) (shardOf : Text → Nat) (e e' : Dfs) (bucket key : Text) : Prop where
  unread : ∀ headers e1 x, (calm g.crates shardOf).Runs e' (getObject g bucket key headers) e1 x →
    delivered x = false
  sidecar : metaPath (objectPath bucket key) ∉ e'.files
  parts : Marked shardOf e (objectPath bucket key) → ∀ n, IsI32 n →
    child (objectPath bucket key) (intText n) ∉ e'.files

private theorem runs_deleteKeysOf {r : List Text × List (Text × Text × Text)}
    (h : (calm g.crates shardOf).Runs e (deleteKeysOf bucket keys) e' r) :
    r = (keys, []) ∧ ∀ f, f ∈ e'.files ↔ f ∈ e.files ∧ ∀ key ∈ keys, f ≠ objectPath bucket key := by
  induction keys generalizing e r with
  | nil =>
    obtain ⟨rfl, rfl⟩ := ret_iff.1 h
    simp
  | cons key rest ih =>
    obtain ⟨y, e1, hy, h1⟩ := runs_call_bind.1 h
    have hmem : ∀ f, f ∈ e1.files ↔ f ∈ e.files ∧ f ≠ objectPath bucket key := by
      intro f
      rw [← AList.lookup_isSome, lookup_of_delete hy, ← AList.lookup_isSome]
      split_ifs with hf <;> simp [hf]
    have hr : ∃ d, (calm g.crates shardOf).Runs e1 (deleteKeysOf bucket rest) e' d ∧ r = (key :: d.1, d.2) := by
      change if objectPath bucket key ∈ e.files then _ else _ at hy
      split_ifs at hy
      · obtain ⟨rfl, -⟩ := hy
        obtain ⟨e2, d, hd, h2⟩ := bind_iff.1 h1
        obtain ⟨rfl, rfl⟩ := ret_iff.1 h2
        exact ⟨d, hd, rfl⟩
      · obtain ⟨rfl, -⟩ := hy
        obtain ⟨e2, d, hd, h2⟩ := bind_iff.1 h1
        obtain ⟨rfl, rfl⟩ := ret_iff.1 (runs_ite_pos (by decide) h2)
        exact ⟨d, hd, rfl⟩
    obtain ⟨d, hd, rfl⟩ := hr
    obtain ⟨rfl, hfl⟩ := ih hd
    refine ⟨rfl, fun f => ?_⟩
    rw [hfl, hmem, forall_mem_cons, and_assoc]

private theorem not_delivered_of_unmarked (hm : ¬ Marked shardOf e (objectPath bucket key))
    (hfl : objectPath bucket key ∉ e.files)
    {headers : HeaderMap} (h : (calm g.crates shardOf).Runs e (getObject g bucket key headers) e' x) :
    delivered x = false := by
  have hr : e.read (objectPath bucket key) = none := by
    rw [Dfs.read, Dfs.look, AList.lookup_eq_none.2 hfl]
    rfl
  have hwh : ∀ {head x}, (calm g.crates shardOf).Runs e (getWhole g (objectPath bucket key) head headers) e' x →
      delivered x = false := by
    intro head x hw
    obtain ⟨y, e1, hy, h1⟩ := runs_call_bind.1 hw
    obtain ⟨hdw, -, -⟩ := okay_of_download hy
    rw [hr] at hdw
    split at h1
    · obtain ⟨-, rfl⟩ := ret_iff.1 h1
      rfl
    · cases hdw
  obtain ⟨files, hf, ⟨-, rfl⟩ | ⟨-, hrun⟩⟩ := runs_getObject h
  · rfl
  · replace hrun := runs_ite_neg (fun hml => hm ((isMultipart_iff hf).1 hml)) hrun
    unfold getSingle at hrun
    split at hrun
    · obtain ⟨e1, y, hy, h1⟩ := bind_iff.1 hrun
      obtain ⟨info, e2, ⟨rfl, rfl⟩, h2⟩ := runs_call_bind.1 hy
      rw [AList.lookup_eq_none.2 hfl] at h2
      obtain ⟨rfl, rfl⟩ := ret_iff.1 h2
      exact hwh h1
    · exact hwh hrun

private theorem delivered_of_marked (hfl : objectPath bucket key ∉ e.files)
    (hs : metaPath (objectPath bucket key) ∉ e.files) (hm : Marked shardOf e (objectPath bucket key))
    (h : (calm g.crates shardOf).Runs e (getObject g bucket key []) e' x) : delivered x = true := by
  have hh : e.head g.crates (objectPath bucket key) = ⟨emptyEtag, defaultModified, none, []⟩ := by
    rw [Dfs.head, AList.lookup_eq_none.2 hfl, Dfs.read, Dfs.look, AList.lookup_eq_none.2 hs]
    rfl
  obtain ⟨files, hf, ⟨hi, -⟩ | ⟨-, hr⟩⟩ := runs_getObject h
  · rw [hh] at hi
    exact absurd hi (by decide)
  · replace hr := runs_ite_pos ((isMultipart_iff hf).2 hm) hr
    obtain ⟨fields, rfl⟩ := runs_getParts rfl (by rw [hh]) hr
    rfl

private theorem gone_iff (hfl : objectPath bucket key ∉ e'.files) : Gone g shardOf e e' bucket key ↔
      ∀ f ∈ e'.files, ¬ (f = metaPath (objectPath bucket key) ∨ PartFile shardOf e (objectPath bucket key) f) := by
  constructor
  · rintro ⟨hun, hs, hp⟩ f hf (rfl | ⟨hu, hmr⟩ | ⟨hmk, n, hn, rfl⟩)
    · exact hs hf
    · have hrun := runs_execCalm g.crates shardOf (fun _ => []) (getObject g bucket key []) e'
      have hr := delivered_of_marked hfl hs ⟨f, hf, hu, hmr⟩ hrun
      rw [hun [] _ _ hrun] at hr
      cases hr
    · exact hp hmk n hn hf
  · intro h
    refine ⟨fun headers e1 x hrun => not_delivered_of_unmarked ?_ hfl hrun, fun hf => h _ hf (.inl rfl),
      fun hmk n hn hf => h _ hf (.inr (.inr ⟨hmk, n, hn, rfl⟩))⟩
    rintro ⟨m, hm, hu, hmr⟩
    exact h m hm (.inr (.inl ⟨hu, hmr⟩))

private theorem runs_deleteMultipleObjects {body : Bytes} (hk : (utf8? body).bind g.crates.readDelete = some keys)
    (h : (calm g.crates shardOf).Runs e (deleteMultipleObjects g bucket body) e' x) :
    x = xmlResponse 200 (.deleteObjects keys []) ∧ ∀ f, f ∈ e'.files ↔
      f ∈ e.files ∧ ∀ key ∈ keys, f ≠ objectPath bucket key := by
  unfold deleteMultipleObjects at h
  rw [hk] at h
  obtain ⟨e1, r, hr, h1⟩ := bind_iff.1 h
  obtain ⟨rfl, rfl⟩ := ret_iff.1 h1
  obtain ⟨rfl, hf⟩ := runs_deleteKeysOf hr
  exact ⟨rfl, hf⟩

/-- The keys that a batch reports as deleted are gone exactly if their sidecars and parts are deleted under keys of
their own. -/
theorem batch_deletes_iff {body : Bytes} (hkeys : (utf8? body).bind g.crates.readDelete = some keys) (e : Dfs) :
    ((calm g.crates shardOf).Ensures e (deleteMultipleObjects g bucket body) fun e' x => ∃ deleted errors,
        x = xmlResponse 200 (.deleteObjects deleted errors) ∧ ∀ key ∈ deleted, Gone g shardOf e e' bucket key) ↔
      ∀ key ∈ keys, ∀ f ∈ e.files, f = metaPath (objectPath bucket key) ∨
        PartFile shardOf e (objectPath bucket key) f →
        ∃ key' ∈ keys, f = objectPath bucket key' := by
  have hgone : ∀ {e' : Dfs}, (∀ f, f ∈ e'.files ↔ f ∈ e.files ∧ ∀ key ∈ keys, f ≠ objectPath bucket key) →
      ∀ key ∈ keys, (Gone g shardOf e e' bucket key ↔
        ∀ f ∈ e.files, f = metaPath (objectPath bucket key) ∨ PartFile shardOf e (objectPath bucket key) f →
          ∃ key' ∈ keys, f = objectPath bucket key') := by
    intro e' hfiles key hkey
    rw [gone_iff fun hf => ((hfiles _).1 hf).2 key hkey rfl]
    constructor
    · intro h f hf hleft
      by_contra hno
      exact h f ((hfiles f).2 ⟨hf, fun k hk heq => hno ⟨k, hk, heq⟩⟩) hleft
    · intro h f hf hleft
      obtain ⟨k, hk, heq⟩ := h f ((hfiles f).1 hf).1 hleft
      exact ((hfiles f).1 hf).2 k hk heq
  constructor
  · rintro ⟨⟨e', x, hrun⟩, h⟩ key hkey
    obtain ⟨hx, hfiles⟩ := runs_deleteMultipleObjects hkeys hrun
    obtain ⟨deleted, errors, hx', hdeleted⟩ := h e' x hrun
    rw [hx] at hx'
    cases hx'
    exact (hgone hfiles key hkey).1 (hdeleted key hkey)
  · intro h
    refine ⟨⟨_, _, runs_execCalm g.crates shardOf (fun _ => []) _ e⟩, fun e' x hrun => ?_⟩
    obtain ⟨hx, hfiles⟩ := runs_deleteMultipleObjects hkeys hrun
    exact ⟨keys, [], hx, fun key hkey => (hgone hfiles key hkey).2 (h key hkey)⟩

def deleteText : Text := "<Delete><Object><Key>a</Key></Object></Delete>"

def batchGateway : Gateway :=
  openGateway { plainCrates with readDelete := fun text => if text = deleteText then some ["a"] else none }

def plainObject : Dfs := .ofFiles plainCrates [("/b/a", [65])]

theorem batch_deletes_plain :
    (calm batchGateway.crates fun _ => 0).Ensures plainObject
    (deleteMultipleObjects batchGateway "b" (utf8 deleteText)) fun e' x =>
      ∃ deleted errors, x = xmlResponse 200 (.deleteObjects deleted errors) ∧
        ∀ key ∈ deleted, Gone batchGateway (fun _ => 0) plainObject e' "b" key := by
  have hkeys : (utf8? (utf8 deleteText)).bind batchGateway.crates.readDelete = some [['a']] := by
    decide +kernel
  refine (batch_deletes_iff hkeys plainObject).2 fun key hkey f hf _ => ⟨"a", by decide, ?_⟩
  exact mem_singleton.1 (AList.mem_keys.1 hf)

def inParts : Dfs := .ofFiles plainCrates [("/b/a/1", [65]), ("/b/a/.s3_mpu_completed", [])]

/-- An object in parts is reported as deleted, and read afterwards. -/
theorem batch_leaves_parts : ∃ e',
    (calm batchGateway.crates fun _ => 0).Runs inParts
    (deleteMultipleObjects batchGateway "b" (utf8 deleteText)) e'
        (xmlResponse 200 (.deleteObjects ["a"] [])) ∧
      child (objectPath "b" "a") (intText 1) ∈ e'.files ∧
      (∃ e1 x, (calm batchGateway.crates fun _ => 0).Runs e' (getObject batchGateway "b" "a" []) e1 x ∧
        x.map (fun r => (r.status, r.body)) = some (200, .bytes [65])) ∧
      ¬ Gone batchGateway (fun _ => 0) inParts e' "b" "a" := by
  have hrun :
    (execCalm batchGateway.crates (fun _ => 0) (fun _ => [])
      (deleteMultipleObjects batchGateway "b" (utf8 deleteText)) inParts).1 =
      xmlResponse 200 (.deleteObjects ["a"] []) := by
    decide +kernel
  have hpart : child (objectPath "b" "a") (intText 1) ∈
      (execCalm batchGateway.crates (fun _ => 0) (fun _ => [])
        (deleteMultipleObjects batchGateway "b" (utf8 deleteText)) inParts).2.files := by
    decide +kernel
  refine ⟨_, runs_of_execCalm hrun, hpart,
    ⟨_, _, runs_execCalm batchGateway.crates (fun _ => 0) (fun _ => []) _ _, ?_⟩, fun hgone => ?_⟩
  · decide +kernel
  · exact hgone.parts ⟨"/b/a/.s3_mpu_completed", by decide +kernel, ⟨by decide, rfl⟩, by decide⟩ 1
      ⟨by decide, by decide⟩ hpart

end RustHadoop.S3
