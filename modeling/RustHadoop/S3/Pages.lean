import RustHadoop.Lib.Cursor
import RustHadoop.S3.Buckets
import RustHadoop.S3.Effects
import RustHadoop.S3.Reference

/-!
# Listings page by page

`list_objects_v2` goes through the files of a bucket in their order, from the first one behind its marker, and
stops in front of a file once it has enough objects.  `runs_listPage` says what such a page is made of: a piece of
the files, cut right behind an object.  The marker of the next page is that object, so the next page goes on with
the next file.

Files under one common prefix lie next to each other (`object?_of_between`), so no cut separates them.
-/

namespace RustHadoop.S3

open Texts Threads Environment List

/-- The key of a file that a listing does not pass over. -/
def listedKey? (bucket : Text) (keyPrefix : Option Text) (f : Text) : Option Text :=
  if isInternal f then none else (dropStart? ('/' :: (bucket ++ ['/'])) f).filter (wanted keyPrefix)

/-- The common prefix that a file is listed under. -/
def group? (bucket : Text) (keyPrefix delimiter : Option Text) (f : Text) : Option Text :=
  (listedKey? bucket keyPrefix f).bind (commonPrefix? keyPrefix delimiter)

def object? (bucket : Text) (keyPrefix delimiter : Option Text) (f : Text) : Option Text :=
  (listedKey? bucket keyPrefix f).filter fun key => (commonPrefix? keyPrefix delimiter key).isNone

def Dfs.entry (e : Dfs) (g : Gateway) (f key : Text) : ObjectEntry :=
  (execCalm g.crates (fun _ => 0) (fun _ => []) (objectEntry g f key) e).1

def Dfs.entry? (e : Dfs) (g : Gateway) (bucket : Text) (keyPrefix delimiter : Option Text) (f : Text) :
    Option ObjectEntry :=
  (object? bucket keyPrefix delimiter f).map (e.entry g f)

variable {p key' : Text} {n : Nat}

section

variable {c : Crates} {g : Gateway} {shardOf : Text → Nat} {e e' : Dfs} {bucket : Text} {params : S3Query}
  {f key : Text}
  {keyPrefix delimiter : Option Text}

private theorem objectEntry_unique {x y : ObjectEntry} {e1 e2 : Dfs} {c1 c2 : Crates}
    {shardOf1 shardOf2 : Text → Nat} (h1 : (calm c1 shardOf1).Runs e (objectEntry g f key) e1 x)
    (h2 : (calm c2 shardOf2).Runs e (objectEntry g f key) e2 y) : e1 = e ∧ x = y ∧ x.key = key := by
  obtain ⟨info, e, ⟨rfl, rfl⟩, h1⟩ := runs_call_bind.1 h1
  obtain ⟨info, e, ⟨rfl, rfl⟩, h2⟩ := runs_call_bind.1 h2
  cases hf : e.files.lookup f with
  | none | some info =>
    rw [hf] at h1 h2
    obtain ⟨rfl, rfl⟩ := Runs.ret_iff.1 h1
    obtain ⟨-, rfl⟩ := Runs.ret_iff.1 h2
    exact ⟨rfl, rfl, rfl⟩

private theorem runs_objectEntry {x : ObjectEntry} (h : (calm c shardOf).Runs e (objectEntry g f key) e' x) :
    e' = e ∧ x = e.entry g f key := by
  obtain ⟨he, hx, -⟩ :=
    objectEntry_unique h (runs_execCalm g.crates (fun _ => 0) (fun _ => []) (objectEntry g f key) e)
  exact ⟨he, hx⟩

private theorem entry_key : (e.entry g f key).key = key :=
  have h := runs_execCalm g.crates (fun _ => 0) (fun _ => []) (objectEntry g f key) e
  (objectEntry_unique h h).2.2

private theorem mem_addPrefix {l : Listed} {q : Text} : q ∈ (l.addPrefix p).commonPrefixes ↔
    q ∈ l.commonPrefixes ∨ p = q := by
  unfold Listed.addPrefix
  split_ifs with hp
  · constructor
    · exact .inl
    · rintro (hq | rfl)
      · exact hq
      · exact hp
  · simp [eq_comm]

/-- A page has got what a piece of the files is listed as. -/
structure Page.Adds (g : Gateway) (e : Dfs) (bucket : Text) (params : S3Query) (taken : List Text)
    (page page' : Page) : Prop where
  objects : page'.listed.objects = page.listed.objects ++
    taken.filterMap (e.entry? g bucket params.keyPrefix params.delimiter)
  prefixes : ∀ p, p ∈ page'.listed.commonPrefixes ↔
    p ∈ page.listed.commonPrefixes ∨ ∃ f ∈ taken, group? bucket params.keyPrefix params.delimiter f = some p
  count : page'.keyCount = page.keyCount +
    (taken.filterMap (object? bucket params.keyPrefix params.delimiter)).length

private theorem Page.Adds.nil {page : Page} : page.Adds g e bucket params [] page := ⟨by simp, by simp, by simp⟩

private theorem Page.Adds.append {taken taken' : List Text} {page page1 page' : Page}
    (h : page.Adds g e bucket params taken page1)
    (h' : page1.Adds g e bucket params taken' page') : page.Adds g e bucket params (taken ++ taken') page' := by
  refine ⟨?_, fun p => ?_, ?_⟩
  · rw [h'.objects, h.objects, append_assoc, filterMap_append]
  · rw [h'.prefixes, h.prefixes, or_assoc]
    simp only [mem_append, or_and_right, exists_or]
  · rw [h'.count, h.count, filterMap_append, length_append]
    omega

section

variable {maxKeys : Int} {previous : Option Text} {files : List Text} {page page' : Page}

private theorem runs_listPage_cons (hr : page.keyCount < maxKeys)
    (h : (calm c shardOf).Runs e (listPage g bucket params maxKeys previous (f :: files) page) e' page') :
    ∃ page1 : Page, (calm c shardOf).Runs e (listPage g bucket params maxKeys (some f) files page1) e' page' ∧
      page.Adds g e bucket params [f] page1 ∧ page1.isTruncated = page.isTruncated ∧
        page1.nextToken = page.nextToken := by
  replace h := runs_ite_neg (not_le.2 hr) h
  have hps : listedKey? bucket params.keyPrefix f = none → page.Adds g e bucket params [f] page := by
    intro hn
    have ho : object? bucket params.keyPrefix params.delimiter f = none := by rw [object?, hn, Option.filter_none]
    exact ⟨by simp [Dfs.entry?, ho], by simp [group?, hn], by simp [ho]⟩
  by_cases hi : isInternal f = true
  · exact ⟨page, runs_ite_pos hi h, hps (if_pos hi), rfl, rfl⟩
  · replace h := runs_ite_neg hi h
    have hl : listedKey? bucket params.keyPrefix f = (dropStart? ('/' :: (bucket ++ ['/'])) f).filter
      (wanted params.keyPrefix) :=
      if_neg hi
    split at h
    · rename_i hdr
      exact ⟨page, h, hps (by rw [hl, hdr, Option.filter_none]), rfl, rfl⟩
    · rename_i key hdr
      rw [hdr] at hl
      by_cases hw : wanted params.keyPrefix key = true
      · rw [Option.filter_some_pos hw] at hl
        replace h := runs_ite_neg (by simp [hw]) h
        split at h
        · rename_i p hp
          have ho : object? bucket params.keyPrefix params.delimiter f = none := by
            rw [object?, hl, Option.filter_some, hp]
            rfl
          have hg : group? bucket params.keyPrefix params.delimiter f = some p := by
            rw [group?, hl, Option.bind_some, hp]
          refine ⟨_, h, ⟨?_, fun q => ?_, by simp [ho]⟩, rfl, rfl⟩
          · have hs : (page.listed.addPrefix p).objects = page.listed.objects := by
              unfold Listed.addPrefix
              split_ifs <;> rfl
            simp [Dfs.entry?, ho, hs]
          · simp [mem_addPrefix, hg]
        · rename_i hp
          have ho : object? bucket params.keyPrefix params.delimiter f = some key := by
            rw [object?, hl, Option.filter_some, hp]
            rfl
          have hg : group? bucket params.keyPrefix params.delimiter f = none := by
            rw [group?, hl, Option.bind_some, hp]
          obtain ⟨e1, entry, he, h1⟩ := Runs.bind_iff.1 h
          obtain ⟨rfl, rfl⟩ := runs_objectEntry he
          exact ⟨_, h1, ⟨by simp [Dfs.entry?, ho], by simp [hg], by simp [ho]⟩, rfl, rfl⟩
      · rw [Option.filter_some, if_neg hw] at hl
        exact ⟨page, runs_ite_pos (by simp [hw]) h, hps hl, rfl, rfl⟩

/-- The loop takes a piece of the files.  If it stops in front of another one, it has enough objects, and if it had
not enough before, the last file of the piece is an object. -/
theorem runs_listPage
    (h : (calm c shardOf).Runs e (listPage g bucket params maxKeys previous files page) e' page') :
    e' = e ∧ ∃ taken rest, files = taken ++ rest ∧ page.Adds g e bucket params taken page' ∧
      (maxKeys ≤ page.keyCount → taken = []) ∧
      (rest = [] ∧ page'.isTruncated = page.isTruncated ∧ page'.nextToken = page.nextToken ∨
        rest ≠ [] ∧ maxKeys ≤ page'.keyCount ∧ page'.isTruncated = true ∧
          page'.nextToken = (taken.getLast?.or previous).bind (dropStart? ('/' :: (bucket ++ ['/']))) ∧
          (page.keyCount < maxKeys → ∃ f, taken.getLast? = some f ∧
            object? bucket params.keyPrefix params.delimiter f ≠ none)) := by
  induction files generalizing previous page with
  | nil =>
    obtain ⟨rfl, rfl⟩ := Runs.ret_iff.1 h
    exact ⟨rfl, [], [], rfl, .nil, fun _ => rfl, .inl ⟨rfl, rfl, rfl⟩⟩
  | cons f files ih =>
    by_cases hf : maxKeys ≤ page.keyCount
    · obtain ⟨rfl, rfl⟩ := Runs.ret_iff.1 (runs_ite_pos hf h)
      exact ⟨rfl, [], f :: files, rfl, ⟨by simp, by simp, by simp⟩, fun _ => rfl,
        .inr ⟨cons_ne_nil _ _, hf, rfl, by simp, fun hlt => absurd hf (not_le.2 hlt)⟩⟩
    · obtain ⟨page1, h1, ha, ht, htk⟩ := runs_listPage_cons (not_le.1 hf) h
      obtain ⟨rfl, taken, rest, rfl, ha', hs, he⟩ := ih h1
      refine ⟨rfl, f :: taken, rest, rfl, ha.append ha', fun hge => absurd hge hf, ?_⟩
      rcases he with ⟨hnil, ht', htk'⟩ | ⟨hne, hge, ht', htk', hl⟩
      · exact .inl ⟨hnil, ht'.trans ht, htk'.trans htk⟩
      · refine .inr ⟨hne, hge, ht', ?_, fun _ => ?_⟩
        · rw [htk', getLast?_cons]
          cases taken.getLast? <;> rfl
        · rcases lt_or_ge page1.keyCount maxKeys with hlt | hle
          · obtain ⟨last, hl, ho⟩ := hl hlt
            exact ⟨last, by rw [getLast?_cons, hl]; rfl, ho⟩
          · -- `f` is the object that made the page full
            rw [hs hle]
            refine ⟨f, rfl, fun hn => hf ?_⟩
            rw [ha.count] at hle
            simpa [hn] using hle

end

def Dfs.bucketFiles (e : Dfs) (bucket : Text) : List Text :=
  sortTexts (e.files.keys.filter fun f => '/' :: (bucket ++ ['/']) <+: f)

private theorem objectPath_eq (bucket key : Text) : objectPath bucket key = '/' :: (bucket ++ ['/']) ++ key := by
  simp [objectPath, objectName]

private theorem mem_bucketFiles : f ∈ e.bucketFiles bucket ↔ f ∈ e.files ∧ '/' :: (bucket ++ ['/']) <+: f := by
  rw [Dfs.bucketFiles, sortTexts, mem_insertionSort, mem_filter, decide_eq_true_iff, AList.mem_keys]

private theorem bucketFiles_sorted : (e.bucketFiles bucket).Pairwise (· < ·) := by
  have hle : (e.bucketFiles bucket).Pairwise (· ≤ ·) := pairwise_insertionSort _ _
  have hn : (e.bucketFiles bucket).Nodup :=
    (perm_insertionSort _ _).nodup_iff.2 (e.files.keys_nodup.filter _)
  exact (hle.and hn).imp fun h => lt_of_le_of_ne h.1 h.2

private theorem sortTexts_eq_bucketFiles {all : List Text} (h : FullListing e.files all) :
    sortTexts (all.filter fun f => '/' :: (bucket ++ ['/']) <+: f) = e.bucketFiles bucket := by
  have hp : (all.filter fun f => '/' :: (bucket ++ ['/']) <+: f).Perm
      (e.files.keys.filter fun f => '/' :: (bucket ++ ['/']) <+: f) := by
    refine (perm_ext_iff_of_nodup (h.nodup.filter _) (e.files.keys_nodup.filter _)).2 fun f => ?_
    have hs : '/' :: (bucket ++ ['/']) <+: f → ['/'] <+: f := (prefix_append ['/'] _).trans
    simp only [mem_filter, decide_eq_true_iff, h.mem_iff, AList.mem_keys]
    exact ⟨fun hf => ⟨hf.1.1, hf.2⟩, fun hf => ⟨⟨hf.1, hs hf.2⟩, hf.2⟩⟩
  exact Perm.eq_of_pairwise (fun a b _ _ => le_antisymm) (pairwise_insertionSort _ _)
    (pairwise_insertionSort _ _) (((perm_insertionSort _ _).trans hp).trans (perm_insertionSort _ _).symm)

/-- The files that a request with a marker looks at. -/
def Dfs.filesAfter (e : Dfs) (bucket marker : Text) : List Text :=
  if marker = [] then e.bucketFiles bucket else Cursor.behind (objectPath bucket marker) (e.bucketFiles bucket)

/-- Where a request starts: `start-after` goes before the token. -/
def S3Query.marker (params : S3Query) : Text := (params.startAfter.or params.continuationToken).getD []

def pageReply (r : ListBucketResultV2) : Reply := xmlResponse 200 (.listBucketV2 r)

private theorem listedKey?_eq_some (h : listedKey? bucket keyPrefix f = some key) :
    isInternal f = false ∧ f = objectPath bucket key ∧ wanted keyPrefix key = true := by
  unfold listedKey? at h
  split_ifs at h with hi
  obtain ⟨hdr, hw⟩ := Option.filter_eq_some_iff.1 h
  unfold dropStart? at hdr
  split_ifs at hdr with hs
  obtain ⟨rest, rfl⟩ := hs
  rw [Option.some.injEq, drop_left] at hdr
  exact ⟨by simpa using hi, by rw [hdr, objectPath_eq], hw⟩

private theorem object?_eq_some (h : object? bucket keyPrefix delimiter f = some key) :
    isInternal f = false ∧ f = objectPath bucket key ∧ wanted keyPrefix key = true ∧
      commonPrefix? keyPrefix delimiter key = none := by
  obtain ⟨hk, hn⟩ := Option.filter_eq_some_iff.1 h
  obtain ⟨hi, hf, hw⟩ := listedKey?_eq_some hk
  exact ⟨hi, hf, hw, by simpa using hn⟩

theorem dropStart?_objectPath : dropStart? ('/' :: (bucket ++ ['/'])) (objectPath bucket key) = some key := by
  rw [objectPath_eq, dropStart?, if_pos (prefix_append _ _), drop_left]

section

variable {x : Reply} (h : (calm c shardOf).Runs e (listObjectsV2 g bucket params) e' x)
include h

private theorem runs_pageLoop :
    ∃ skipped page, e.bucketFiles bucket = skipped ++ e.filesAfter bucket params.marker ∧
      (calm c shardOf).Runs e (listPage g bucket params (params.maxKeys.getD 1000) skipped.getLast?
        (e.filesAfter bucket params.marker) ⟨⟨[], []⟩, 0, none, false⟩) e' page ∧
      x = pageReply
        ⟨bucket, params.keyPrefix.getD [], params.maxKeys.getD 1000, page.isTruncated, page.listed.objects,
        page.listed.commonPrefixes, page.keyCount, params.continuationToken, page.nextToken,
          params.startAfter⟩ := by
  obtain ⟨all, e1, ⟨⟨all, rfl, ha⟩, rfl⟩, h1⟩ := runs_call_bind.1 h
  obtain ⟨e2, page, hpg, h2⟩ := Runs.bind_iff.1 h1
  obtain ⟨rfl, rfl⟩ := Runs.ret_iff.1 h2
  rw [sortTexts_eq_bucketFiles ha] at hpg
  obtain ⟨p, hp⟩ : ∃ p : Text → Bool, p = fun f => decide ¬ objectPath bucket params.marker < f := ⟨_, rfl⟩
  have hs : (if params.marker = [] then [] else (e1.bucketFiles bucket).takeWhile p) ++
    e1.filesAfter bucket params.marker =
      e1.bucketFiles bucket := by
    unfold Dfs.filesAfter
    split_ifs
    · rfl
    · have hb :
          Cursor.behind (objectPath bucket params.marker)
            (e1.bucketFiles bucket) = (e1.bucketFiles bucket).dropWhile p := by
        rw [hp, Cursor.behind]
        congr 1
        funext f
        exact decide_eq_decide.2 Iff.rfl
      rw [hb, takeWhile_append_dropWhile]
  refine ⟨_, page, hs.symm, ?_, rfl⟩
  have hdr :=
    congrArg (List.drop (if params.marker = [] then [] else (e1.bucketFiles bucket).takeWhile p).length) hs
  rw [drop_left] at hdr
  rw [hdr, hp]
  exact hpg

/-- A page is a piece of the files behind the marker; if it is cut off, its token is the last file of the piece. -/
theorem runs_listObjectsV2 :
    e' = e ∧ ∃ r taken rest, x = pageReply r ∧ e.filesAfter bucket params.marker = taken ++ rest ∧
      r.contents = taken.filterMap (e.entry? g bucket params.keyPrefix params.delimiter) ∧
      (∀ p, p ∈ r.commonPrefixes ↔ ∃ f ∈ taken, group? bucket params.keyPrefix params.delimiter f = some p) ∧
      (0 < params.maxKeys.getD 1000 → rest = [] ∧ r.isTruncated = false ∨ rest ≠ [] ∧ r.isTruncated = true ∧
          params.maxKeys.getD 1000 ≤ (taken.filterMap (object? bucket params.keyPrefix params.delimiter)).length ∧
          ∃ key, taken.getLast? = some (objectPath bucket key) ∧
            object? bucket params.keyPrefix params.delimiter (objectPath bucket key) = some key ∧
              r.nextContinuationToken = some key) := by
  obtain ⟨skipped, page, -, hp, rfl⟩ := runs_pageLoop h
  obtain ⟨rfl, taken, rest, hfl, ha, -, he⟩ := runs_listPage hp
  refine ⟨rfl, _, taken, rest, rfl, hfl, by simpa using ha.objects, by simpa using ha.prefixes, fun hpos => ?_⟩
  rcases he with ⟨hnil, ht, -⟩ | ⟨hne, hge, ht, htk, hl⟩
  · exact .inl ⟨hnil, ht⟩
  · obtain ⟨f, hf, ho⟩ := hl hpos
    obtain ⟨key, hk⟩ := Option.ne_none_iff_exists'.1 ho
    obtain ⟨-, rfl, -⟩ := object?_eq_some hk
    have hc := ha.count
    rw [zero_add] at hc
    refine .inr ⟨hne, ht, hc ▸ hge, key, hf, hk, ?_⟩
    rw [hf] at htk
    exact htk.trans dropStart?_objectPath

end

private theorem findText?_of_prefix {needle t : Text} (h : needle <+: t) : findText? needle t = some 0 := by
  cases t with
  | nil => exact if_pos (prefix_nil.1 h)
  | cons a t => exact if_pos h

private theorem length_le_of_findText? {needle t : Text} (h : findText? needle t = some n) :
    n + needle.length ≤ t.length := by
  induction t generalizing n with
  | nil =>
    unfold findText? at h
    split_ifs at h with hnil
    cases h
    simp [hnil]
  | cons a t ih =>
    unfold findText? at h
    split_ifs at h with hs
    · cases h
      simpa using hs.length_le
    · obtain ⟨n, hn, rfl⟩ := Option.map_eq_some_iff.1 h
      have := ih hn
      simp only [length_cons]
      omega

private theorem findText?_congr {needle t t' : Text} (h : findText? needle t = some n)
    (hs : t.take (n + needle.length) <+: t') : findText? needle t' = some n := by
  induction t generalizing t' n with
  | nil =>
    unfold findText? at h
    split_ifs at h with hnil
    cases h
    exact findText?_of_prefix (hnil ▸ nil_prefix)
  | cons a t ih =>
    have hl := length_le_of_findText? h
    unfold findText? at h
    split_ifs at h with hnd
    · cases h
      rw [Nat.zero_add, ← prefix_iff_eq_take.1 hnd] at hs
      exact findText?_of_prefix hs
    · obtain ⟨n, hn, rfl⟩ := Option.map_eq_some_iff.1 h
      rw [show n + 1 + needle.length = n + needle.length + 1 by omega, take_succ_cons] at hs
      obtain ⟨t', rfl⟩ : ∃ u, t' = a :: u := by
        obtain ⟨u, rfl⟩ := hs
        exact ⟨_, rfl⟩
      have hr := (cons_prefix_cons.1 hs).2
      have hn' : ¬ needle <+: a :: t' := by
        intro hp
        -- the place in question lies inside of what both texts begin with
        have hsh : needle.length ≤ (a :: t.take (n + needle.length)).length := by
          rw [length_cons, length_take]
          rw [length_cons] at hl
          omega
        exact hnd ((prefix_of_prefix_length_le hp hs hsh).trans (cons_prefix_cons.2 ⟨rfl, take_prefix _ _⟩))
      rw [findText?, if_neg hn', ih hn hr]
      rfl

private theorem commonPrefix?_of_le (hw : wanted keyPrefix key = true)
    (h : commonPrefix? keyPrefix delimiter key = some p) (hp : p <+: key') :
    commonPrefix? keyPrefix delimiter key' = some p := by
  obtain ⟨d, rfl, hd⟩ := Option.bind_eq_some_iff.1 h
  obtain ⟨n, hn, rfl⟩ := Option.map_eq_some_iff.1 hd
  have hs : (keyPrefix.getD []).length ≤ key.length := by
    cases keyPrefix with
    | none => exact Nat.zero_le _
    | some start => exact (of_decide_eq_true hw : start <+: key).length_le
  have hl := length_le_of_findText? hn
  rw [length_drop] at hl
  obtain ⟨rest, rfl⟩ := hp
  have hdr : (key.drop (keyPrefix.getD []).length).take (n + d.length) <+:
      (key.take ((keyPrefix.getD []).length + n + d.length) ++ rest).drop (keyPrefix.getD []).length := by
    rw [drop_append_of_le_length (by rw [length_take]; omega), drop_take,
      show (keyPrefix.getD []).length + n + d.length - (keyPrefix.getD []).length = n + d.length by omega]
    exact prefix_append _ _
  unfold commonPrefix?
  simp only [Option.bind_some, findText?_congr hn hdr, Option.map_some]
  rw [take_append_of_le_length (by rw [length_take]; omega), take_take, Nat.min_self]

private theorem commonPrefix?_le (h : commonPrefix? keyPrefix delimiter key = some p) : p <+: key := by
  obtain ⟨d, -, hd⟩ := Option.bind_eq_some_iff.1 h
  obtain ⟨n, -, rfl⟩ := Option.map_eq_some_iff.1 hd
  exact take_prefix _ _

private theorem prefix_of_group? (h : group? bucket keyPrefix delimiter f = some p) :
    objectPath bucket p <+: f := by
  obtain ⟨key, hk, hb⟩ := Option.bind_eq_some_iff.1 h
  obtain ⟨-, rfl, -⟩ := listedKey?_eq_some hk
  rw [objectPath_eq, objectPath_eq]
  exact (prefix_append_right_inj _).2 (commonPrefix?_le hb)

private theorem object?_of_between {f1 f2 : Text} (h1 : f1 < f) (h2 : f < f2)
    (hp1 : group? bucket keyPrefix delimiter f1 = some p)
    (hp2 : group? bucket keyPrefix delimiter f2 = some p) : object? bucket keyPrefix delimiter f = none := by
  refine Option.eq_none_iff_forall_ne_some.2 fun key hkey => ?_
  obtain ⟨-, rfl, -, hn⟩ := object?_eq_some hkey
  obtain ⟨key1, hk, hbg⟩ := Option.bind_eq_some_iff.1 hp1
  obtain ⟨-, -, hw⟩ := listedKey?_eq_some hk
  have hb := Cursor.prefix_of_between h1 h2 (prefix_of_group? hp1) (prefix_of_group? hp2)
  rw [objectPath_eq, objectPath_eq] at hb
  rw [commonPrefix?_of_le hw hbg ((prefix_append_right_inj _).1 hb)] at hn
  cases hn

/-- The question for a page of a listing, without `start-after`. -/
def pageQuery (keyPrefix delimiter : Option Text) (maxKeys : Int) (token : Option Text) : S3Query :=
  ⟨none, none, none, none, none, keyPrefix, delimiter, some 2, token, none, some maxKeys, none⟩

/-- The pages that a client gets from `token` on, asking with each next token until a page is not cut off. -/
inductive Follows (c : Crates) (shardOf : Text → Nat) (g : Gateway) (e : Dfs) (bucket : Text)
    (query : Option Text → S3Query) :
    Option Text → List ListBucketResultV2 → Prop
  | last {token : Option Text} {r : ListBucketResultV2}
      (hrun : (calm c shardOf).Runs e (listObjectsV2 g bucket (query token)) e (pageReply r))
        (hend : r.isTruncated = false) :
      Follows c shardOf g e bucket query token [r]
  | more {token : Option Text} {next : Text} {r : ListBucketResultV2} {pages : List ListBucketResultV2}
      (hrun : (calm c shardOf).Runs e (listObjectsV2 g bucket (query token)) e (pageReply r))
        (hmore : r.isTruncated = true)
      (hnext : r.nextContinuationToken = some next)
        (hpages : Follows c shardOf g e bucket query (some next) pages) :
      Follows c shardOf g e bucket query token (r :: pages)

/-- However the gateway answers, the client gets pages and its tokens come to an end. -/
inductive Ends (c : Crates) (shardOf : Text → Nat) (g : Gateway) (e : Dfs) (bucket : Text)
    (query : Option Text → S3Query) :
    Option Text → Prop
  | intro {token : Option Text}
      (hpage : ∀ e' x, (calm c shardOf).Runs e (listObjectsV2 g bucket (query token)) e' x →
        e' = e ∧ ∃ r, x = pageReply r ∧ (r.isTruncated = true → r.nextContinuationToken ≠ none))
      (hnext : ∀ r next, (calm c shardOf).Runs e (listObjectsV2 g bucket (query token)) e (pageReply r) →
        r.isTruncated = true → r.nextContinuationToken = some next → Ends c shardOf g e bucket query (some next)) :
      Ends c shardOf g e bucket query token

private theorem objectPath_lt_iff : objectPath bucket key < objectPath bucket key' ↔ key < key' := by
  rw [objectPath_eq, objectPath_eq]
  induction '/' :: (bucket ++ ['/']) with
  | nil => rfl
  | cons a l ih => rw [cons_append, cons_append, cons_lt_cons_iff, ih]; simp

private theorem keys_filterMap_entry? (files : List Text) :
    (files.filterMap (e.entry? g bucket keyPrefix delimiter)).map (·.key) =
      files.filterMap (object? bucket keyPrefix delimiter) := by
  rw [map_filterMap]
  refine filterMap_congr fun f _ => ?_
  rw [Dfs.entry?, Option.map_map]
  cases object? bucket keyPrefix delimiter f with
  | none => rfl
  | some key => exact congrArg some entry_key

private theorem filesAfter_suffix (e : Dfs) (bucket marker : Text) :
    e.filesAfter bucket marker <:+ e.bucketFiles bucket := by
  unfold Dfs.filesAfter
  split_ifs
  · exact suffix_refl _
  · exact dropWhile_suffix _

private theorem pageReply_injective {r r' : ListBucketResultV2} (h : pageReply r = pageReply r') : r = r' := by
  simpa [pageReply, xmlResponse] using h

variable {m : Int} {token : Option Text} {r : ListBucketResultV2} {x : Reply}

private theorem page_step (hkeys : ∀ f ∈ e.files, f ≠ objectPath bucket []) (hm : 1 ≤ m)
    (h : (calm c shardOf).Runs e (listObjectsV2 g bucket (pageQuery keyPrefix delimiter m token)) e' x) :
    e' = e ∧ ∃ r taken rest, x = pageReply r ∧ e.filesAfter bucket (token.getD []) = taken ++ rest ∧
      r.contents = taken.filterMap (e.entry? g bucket keyPrefix delimiter) ∧
      (∀ p, p ∈ r.commonPrefixes ↔ ∃ f ∈ taken, group? bucket keyPrefix delimiter f = some p) ∧
      (rest = [] ∧ r.isTruncated = false ∨ r.isTruncated = true ∧ m ≤ taken.length ∧
        ∃ last next, taken.getLast? = some last ∧ object? bucket keyPrefix delimiter last ≠ none ∧
          r.nextContinuationToken = some next ∧ e.filesAfter bucket next = rest) := by
  obtain ⟨rfl, r, taken, rest, rfl, hf, hc, hp, he⟩ := runs_listObjectsV2 h
  refine ⟨rfl, r, taken, rest, rfl, hf, hc, hp, ?_⟩
  rcases he (by simpa [pageQuery] using by omega) with he | ⟨-, ht, hfl, key, hl, ho, htk⟩
  · exact .inl he
  · refine .inr ⟨ht, ?_, _, key, hl, Option.ne_none_iff_exists'.2 ⟨key, ho⟩, htk, ?_⟩
    · have hle := length_filterMap_le (object? bucket keyPrefix delimiter) taken
      have hfl : m ≤ (taken.filterMap (object? bucket keyPrefix delimiter)).length := hfl
      omega
    · obtain ⟨seen, hs⟩ := filesAfter_suffix e' bucket (token.getD [])
      rw [show (pageQuery keyPrefix delimiter m token).marker = token.getD [] from rfl] at hf
      rw [hf, ← append_assoc] at hs
      have hmem : objectPath bucket key ∈ e'.bucketFiles bucket := by
        rw [← hs]
        exact mem_append_left _ (mem_append_right _ (mem_of_getLast? hl))
      have hne : key ≠ [] := by
        rintro rfl
        exact hkeys _ (mem_bucketFiles.1 hmem).1 rfl
      rw [Dfs.filesAfter, if_neg hne, ← hs]
      refine Cursor.behind_append (hs ▸ bucketFiles_sorted) ?_
      rw [getLast?_append, hl]
      rfl

private theorem group?_of_cut {taken rest : List Text} {last f' : Text} (hs : (taken ++ rest).Pairwise (· < ·))
    (hl : taken.getLast? = some last) (ho : object? bucket keyPrefix delimiter last ≠ none) (hf : f ∈ taken)
    (hp : group? bucket keyPrefix delimiter f = some p) (hf' : f' ∈ rest) :
    group? bucket keyPrefix delimiter f' ≠ some p := by
  intro hp'
  obtain ⟨before, rfl⟩ := getLast?_eq_some_iff.1 hl
  obtain ⟨hb, -, hr⟩ := pairwise_append.1 hs
  have hlt' : last < f' := hr last (mem_append_right _ mem_cons_self) f' hf'
  rcases mem_append.1 hf with hf | hf
  · have hlt : f < last := (pairwise_append.1 hb).2.2 f hf last mem_cons_self
    exact ho (object?_of_between hlt hlt' hp hp')
  · rw [mem_singleton.1 hf] at hp
    obtain ⟨key, hk, hbg⟩ := Option.bind_eq_some_iff.1 hp
    exact ho (by rw [object?, hk, Option.filter_some, hbg]; rfl)

private theorem filesAfter_sorted {marker : Text} : (e.filesAfter bucket marker).Pairwise (· < ·) :=
  bucketFiles_sorted.sublist (filesAfter_suffix e bucket marker).sublist

variable {pages : List ListBucketResultV2}

section

variable (hkeys : ∀ f ∈ e.files, f ≠ objectPath bucket []) (hm : 1 ≤ m)
include hkeys hm

private theorem Follows.lists (h : Follows c shardOf g e bucket (pageQuery keyPrefix delimiter m) token pages) :
    pages.flatMap (·.contents) = (e.filesAfter bucket (token.getD [])).filterMap
      (e.entry? g bucket keyPrefix delimiter) ∧
      ∀ p, (∀ q ∈ pages, p ∈ q.commonPrefixes → ∃ f ∈ e.filesAfter bucket (token.getD []),
          group? bucket keyPrefix delimiter f = some p) ∧
        ((∃ f ∈ e.filesAfter bucket (token.getD []), group? bucket keyPrefix delimiter f = some p) →
          pages.countP (fun q => p ∈ q.commonPrefixes) = 1) := by
  induction h with
  | @last token r hrun he =>
    obtain ⟨-, r', taken, rest, hr, hfl, hc, hpr, hcut⟩ := page_step hkeys hm hrun
    obtain rfl := pageReply_injective hr
    obtain ⟨rfl, -⟩ | ⟨hmr, -⟩ := hcut
    · rw [append_nil] at hfl
      rw [hfl]
      refine ⟨by simpa using hc, fun p => ⟨?_, fun hp => ?_⟩⟩
      · intro q hq
        rw [mem_singleton.1 hq]
        exact (hpr p).1
      · simpa using (hpr p).2 hp
    · simp [he] at hmr
  | @more token next r pages hrun hmr hn hpg ih =>
    obtain ⟨-, r', taken, rest, hr, hfl, hc, hpr, hcut⟩ := page_step hkeys hm hrun
    obtain rfl := pageReply_injective hr
    obtain ⟨-, he⟩ | ⟨-, -, last, next', hl, ho, hn', hrs⟩ := hcut
    · simp [hmr] at he
    · obtain rfl : next = next' := by simpa [hn] using hn'
      rw [Option.getD_some, hrs] at ih
      obtain ⟨ihcontents, ihprefixes⟩ := ih
      have hs : (taken ++ rest).Pairwise (· < ·) := hfl ▸ filesAfter_sorted
      rw [hfl]
      refine ⟨by rw [flatMap_cons, hc, ihcontents, filterMap_append], fun p => ⟨?_, ?_⟩⟩
      · intro q hq hp
        rcases mem_cons.1 hq with rfl | hq
        · obtain ⟨f, hf, hg⟩ := (hpr p).1 hp
          exact ⟨f, mem_append_left _ hf, hg⟩
        · obtain ⟨f, hf, hg⟩ := (ihprefixes p).1 q hq hp
          exact ⟨f, mem_append_right _ hf, hg⟩
      · rintro ⟨f, hf, hg⟩
        rcases mem_append.1 hf with hf | hf
        · -- on this page, and on none of those that follow
          have hnn : pages.countP (fun q => p ∈ q.commonPrefixes) = 0 := by
            refine countP_eq_zero.2 fun q hq hp => ?_
            obtain ⟨f', hf', hg'⟩ := (ihprefixes p).1 q hq (by simpa using hp)
            exact group?_of_cut hs hl ho hf hg hf' hg'
          rw [countP_cons_of_pos (by simpa using (hpr p).2 ⟨f, hf, hg⟩), hnn]
        · have hnot : ¬ p ∈ r.commonPrefixes := by
            intro hp
            obtain ⟨f', hf', hg'⟩ := (hpr p).1 hp
            exact group?_of_cut hs hl ho hf' hg' hf hg
          rw [countP_cons_of_neg (by simpa using hnot)]
          exact (ihprefixes p).2 ⟨f, hf, hg⟩

private theorem ends_of_keys : Ends c shardOf g e bucket (pageQuery keyPrefix delimiter m) token := by
  induction hn : (e.filesAfter bucket (token.getD [])).length using Nat.strong_induction_on generalizing token with
  | _ n ih =>
    refine .intro (fun e' x hrun => ?_) fun r next hrun hmr hnx => ?_
    · obtain ⟨he, r, taken, rest, hx, -, -, -, hc⟩ := page_step hkeys hm hrun
      refine ⟨he, r, hx, fun hmr => ?_⟩
      obtain ⟨-, hend⟩ | ⟨-, -, last, next, -, -, hnx, -⟩ := hc
      · simp [hmr] at hend
      · simp [hnx]
    · obtain ⟨-, r', taken, rest, hr, hf, -, -, hc⟩ := page_step hkeys hm hrun
      obtain rfl := pageReply_injective hr
      obtain ⟨-, hend⟩ | ⟨-, hfl, last, next', -, -, hn', hrs⟩ := hc
      · simp [hmr] at hend
      · obtain rfl : next = next' := by simpa [hnx] using hn'
        refine ih _ ?_ rfl
        have hl := congrArg length hf
        rw [length_append] at hl
        rw [Option.getD_some, hrs]
        omega

end

theorem Ends.exists_follows {query : Option Text → S3Query} (h : Ends g.crates shardOf g e bucket query token) :
    ∃ pages, Follows g.crates shardOf g e bucket query token pages := by
  induction h with
  | @intro token hpg _ ih =>
    have hr := runs_execCalm g.crates shardOf (fun _ => []) (listObjectsV2 g bucket (query token)) e
    obtain ⟨he, r, hx, hn⟩ := hpg _ _ hr
    rw [he, hx] at hr
    cases hmr : r.isTruncated with
    | false => exact ⟨[r], .last hr hmr⟩
    | true =>
      obtain ⟨next, hn⟩ := Option.ne_none_iff_exists'.1 (hn hmr)
      obtain ⟨pages, hp⟩ := ih r next hr hmr hn
      exact ⟨r :: pages, .more hr hmr hn hp⟩

/-- Following the tokens of a listing comes to an end, and the pages are the listing: its objects in their order,
and each of its common prefixes once. -/
theorem pages_eq_listing (g : Gateway) (shardOf : Text → Nat) (e : Dfs) (bucket : Text)
    (keyPrefix delimiter : Option Text) (m : Int) (hkeys : ∀ f ∈ e.files, f ≠ objectPath bucket []) (hm : 1 ≤ m) :
    Ends g.crates shardOf g e bucket (pageQuery keyPrefix delimiter m) none ∧
      (∃ pages, Follows g.crates shardOf g e bucket (pageQuery keyPrefix delimiter m) none pages) ∧
      ∀ pages, Follows g.crates shardOf g e bucket (pageQuery keyPrefix delimiter m) none pages →
        ∀ M : Int, e.files.keys.length < M → ∀ e' x,
          (calm g.crates shardOf).Runs e (listObjectsV2 g bucket (pageQuery keyPrefix delimiter M none)) e' x →
            ∃ r, x = pageReply r ∧ r.isTruncated = false ∧ pages.flatMap (·.contents) = r.contents ∧
              (r.contents.map (·.key)).Pairwise (· < ·) ∧
              (∀ p ∈ r.commonPrefixes, pages.countP (fun q => p ∈ q.commonPrefixes) = 1) ∧
              ∀ q ∈ pages, ∀ p ∈ q.commonPrefixes, p ∈ r.commonPrefixes := by
  have hends : Ends g.crates shardOf g e bucket (pageQuery keyPrefix delimiter m) none := ends_of_keys hkeys hm
  refine ⟨hends, hends.exists_follows, fun pages hpages M hM e' x hrun => ?_⟩
  obtain ⟨hlist, hbegins⟩ := hpages.lists hkeys hm
  obtain ⟨-, r, taken, rest, hx, hfiles, hcontents, hprefixes, hcut⟩ := page_step hkeys (by omega) hrun
  have hall : rest = [] ∧ r.isTruncated = false := by
    refine hcut.resolve_right fun ⟨_, hfull, _⟩ => ?_
    have hlength : (taken ++ rest).length ≤ e.files.keys.length := by
      rw [← hfiles]
      refine (filesAfter_suffix e bucket _).length_le.trans ?_
      rw [Dfs.bucketFiles, sortTexts, length_insertionSort]
      exact length_filter_le _ _
    rw [length_append] at hlength
    omega
  obtain ⟨rfl, hend⟩ := hall
  rw [append_nil] at hfiles
  rw [hfiles] at hlist hbegins
  refine ⟨r, hx, hend, hlist.trans hcontents.symm, ?_, fun p hp => (hbegins p).2 ((hprefixes p).1 hp),
    fun q hq p hp => (hprefixes p).2 ((hbegins p).1 q hq hp)⟩
  rw [hcontents, keys_filterMap_entry?, pairwise_filterMap]
  refine (hfiles ▸ filesAfter_sorted : taken.Pairwise (· < ·)).imp fun hlt key hkey key' hkey' => ?_
  obtain ⟨-, rfl, -⟩ := object?_eq_some hkey
  obtain ⟨-, rfl, -⟩ := object?_eq_some hkey'
  exact objectPath_lt_iff.1 hlt

def folders : Dfs :=
  .ofFiles plainCrates [("/b/a", [65]), ("/b/d/x", [66]), ("/b/d/y", [67]), ("/b/e", [68]), ("/b/e.meta", [69])]

def foldersListing : ListBucketResultV2 :=
  ⟨"b", [], 10, false,
    [folders.entry (openGateway plainCrates) "/b/a" "a", folders.entry (openGateway plainCrates) "/b/e" "e"],
      ["d/".toList], 2,
    none, none, none⟩

/-- One object a page. -/
theorem pages_of_folders :
    Ends plainCrates (fun _ => 0) (openGateway plainCrates) folders "b" (pageQuery none (some "/") 1) none ∧
      ∀ pages, Follows plainCrates (fun _ => 0) (openGateway plainCrates) folders "b"
        (pageQuery none (some "/") 1) none pages →
        (pages.flatMap (·.contents)).map (·.key) = ["a".toList, "e".toList] ∧
          pages.countP (fun q => "d/".toList ∈ q.commonPrefixes) = 1 := by
  have hkeys : ∀ f ∈ folders.files, f ≠ objectPath "b" [] := by decide
  obtain ⟨hends, -, hpages⟩ :=
    pages_eq_listing (openGateway plainCrates) (fun _ => 0) folders "b" none (some "/") 1 hkeys (by decide)
  refine ⟨hends, fun pages h => ?_⟩
  have hrun : (execCalm plainCrates (fun _ => 0) (fun _ => [])
      (listObjectsV2 (openGateway plainCrates) "b" (pageQuery none (some "/") 10 none)) folders).1 = pageReply
        foldersListing := by
    rfl
  obtain ⟨r, hx, -, hcontents, -, hprefixes, -⟩ := hpages pages h 10 (by decide) _ _ (runs_of_execCalm hrun)
  obtain rfl := pageReply_injective hx
  exact ⟨congrArg (map (·.key)) hcontents, hprefixes _ (by decide)⟩

/-! ### Cut off without a token

The token is the file before the one at which the loop stops.  At the first file of the bucket `i - 1` underflows:
a debug build panics there, a release build finds no file. -/

def Resumable (x : Reply) : Prop := ∃ r, x = pageReply r ∧ (r.isTruncated = true → r.nextContinuationToken ≠ none)

private theorem resumable_iff (h : (calm c shardOf).Runs e (listObjectsV2 g bucket params) e' x) :
    Resumable x ↔ (e.bucketFiles bucket ≠ [] → e.filesAfter bucket params.marker = e.bucketFiles bucket →
      0 < params.maxKeys.getD 1000) := by
  obtain ⟨skipped, page, hsk, hl, rfl⟩ := runs_pageLoop h
  obtain ⟨-, taken, rest, hfl, -, hst, he⟩ := runs_listPage hl
  rcases he with ⟨rfl, ht, -⟩ | ⟨hne, -, ht, htk, hls⟩
  · refine iff_of_true ⟨_, rfl, fun hr => ?_⟩ fun hb hs => lt_of_not_ge fun hge => hb ?_
    · cases hr.symm.trans ht
    · rw [← hs, hfl, hst hge, append_nil]
  · constructor
    · rintro ⟨r, hr, hsp⟩ hb hs
      obtain rfl := pageReply_injective hr
      refine lt_of_not_ge fun hge => hsp ht ?_
      rw [hs] at hsk
      exact htk.trans (by rw [hst hge, append_left_eq_self.1 hsk.symm]; rfl)
    · intro hpos
      refine ⟨_, rfl, fun _ => ?_⟩
      rcases lt_or_ge 0 (params.maxKeys.getD 1000) with hlt | hge
      · obtain ⟨f, hf, ho⟩ := hls hlt
        obtain ⟨key, hk⟩ := Option.ne_none_iff_exists'.1 ho
        obtain ⟨-, rfl, -⟩ := object?_eq_some hk
        show page.nextToken ≠ none
        rw [htk, hf, Option.some_or, Option.bind_some, dropStart?_objectPath]
        exact Option.some_ne_none key
      · -- the file before the first one behind the marker
        rw [hst hge, nil_append] at hfl
        obtain ⟨f, hf⟩ : ∃ f, skipped.getLast? = some f := by
          refine Option.ne_none_iff_exists'.1 fun hn => not_lt.2 hge (hpos ?_ ?_)
          · rw [hsk, hfl]
            exact append_ne_nil_of_right_ne_nil _ hne
          · rw [hsk, getLast?_eq_none_iff.1 hn, nil_append]
        have hin : f ∈ e.bucketFiles bucket := hsk ▸ mem_append_left _ (mem_of_getLast? hf)
        show page.nextToken ≠ none
        rw [htk, hst hge, hf, getLast?_nil, Option.none_or, Option.bind_some, dropStart?,
          if_pos (mem_bucketFiles.1 hin).2]
        exact Option.some_ne_none _

/-- A listing answers, and says where to go on whenever it is cut off, exactly if it may list something or does not
start at the first file of the bucket. -/
theorem listing_resumable_iff (g : Gateway) (shardOf : Text → Nat) (e : Dfs) (bucket : Text) (params : S3Query) :
    ((calm g.crates shardOf).Ensures e (listObjectsV2 g bucket params) fun _ x => Resumable x) ↔
      (e.bucketFiles bucket ≠ [] → e.filesAfter bucket params.marker = e.bucketFiles bucket →
        0 < params.maxKeys.getD 1000) := by
  have hrun := runs_execCalm g.crates shardOf (fun _ => []) (listObjectsV2 g bucket params) e
  exact ⟨fun h => (resumable_iff hrun).1 (h.2 _ _ hrun), fun h =>
    ⟨⟨_, _, hrun⟩, fun _ _ hr => (resumable_iff hr).2 h⟩⟩

/-- With `max-keys=0` the listing is cut off in front of the first file, without a token. -/
theorem cut_off_without_token : ∃ e' r,
    (calm plainCrates fun _ => 0).Runs folders
    (listObjectsV2 (openGateway plainCrates) "b" (pageQuery none none 0 none)) e'
        (pageReply r) ∧
      r.isTruncated = true ∧ r.nextContinuationToken = none := by
  have hrun : (execCalm plainCrates (fun _ => 0) (fun _ => [])
      (listObjectsV2 (openGateway plainCrates) "b" (pageQuery none none 0 none)) folders).1 =
        pageReply ⟨"b", [], 0, true, [], [], 0, none, none, none⟩ := by
    rfl
  exact ⟨_, _, runs_of_execCalm hrun, rfl, rfl⟩

private theorem marker_lt_of_mem {o : ObjectEntry}
    (h : (calm c shardOf).Runs e (listObjectsV2 g bucket params) e' (pageReply r))
    (hmr : params.marker ≠ []) (ho : o ∈ r.contents) : params.marker < o.key := by
  obtain ⟨-, r', taken, rest, hr, hfl, hc, -⟩ := runs_listObjectsV2 h
  obtain rfl := pageReply_injective hr
  rw [hc] at ho
  obtain ⟨f, hf, he⟩ := mem_filterMap.1 ho
  obtain ⟨key, hk, rfl⟩ := Option.map_eq_some_iff.1 he
  obtain ⟨-, rfl, -⟩ := object?_eq_some hk
  rw [Dfs.filesAfter, if_neg hmr] at hfl
  have hb := hfl ▸ mem_append_left rest hf
  rw [entry_key]
  exact objectPath_lt_iff.1 (Cursor.lt_of_mem_behind bucketFiles_sorted hb)

private theorem lt_snoc_zero (s : Text) : s < s ++ ['\x00'] := by
  induction s with
  | nil => exact nil_lt_cons _ _
  | cons a s ih => exact cons_lt_cons_iff.2 (.inr ⟨rfl, ih⟩)

private theorem isInternal_snoc_zero (t : Text) : isInternal (t ++ ['\x00']) = false := by
  have he : ∀ {u : Text}, u.getLast? ≠ none → u.getLast? ≠ some '\x00' → ¬ u <:+ t ++ ['\x00'] := by
    rintro u hne hl ⟨v, hv⟩
    have heq := congrArg getLast? hv
    rw [getLast?_append, getLast?_concat] at heq
    obtain ⟨a, ha⟩ := Option.ne_none_iff_exists'.1 hne
    rw [ha, Option.some_or] at heq
    exact hl (ha.trans heq)
  rw [isInternal, decide_eq_false (he (by decide) (by decide)), decide_eq_false (he (by decide) (by decide)),
    decide_eq_false (he (by decide) (by decide))]
  rfl

private theorem not_lt_snoc_zero {s t : Text} (h : s < t) : ¬ t < s ++ ['\x00'] := by
  induction s generalizing t with
  | nil =>
    cases t with
    | nil => exact absurd h (not_lt_nil _)
    | cons a t =>
      rw [nil_append, cons_lt_cons_iff]
      rintro (hlt | ⟨-, hlt⟩)
      · exact Nat.not_lt_zero _ (Char.lt_def.1 hlt)
      · exact not_lt_nil _ hlt
  | cons b s ih =>
    cases t with
    | nil => exact absurd h (not_lt_nil _)
    | cons a t =>
      rw [cons_lt_cons_iff] at h
      rw [cons_append, cons_lt_cons_iff]
      rcases h with hba | ⟨rfl, hst⟩
      · rintro (hab | ⟨rfl, -⟩)
        · exact lt_asymm hba hab
        · exact lt_irrefl _ hba
      · rintro (hlt | ⟨-, hlt⟩)
        · exact lt_irrefl _ hlt
        · exact ih hst hlt

private theorem listed_single {all : S3Query}
    (ha : all.keyPrefix = none ∧ all.delimiter = none ∧ all.maxKeys = none)
    (hf : e.filesAfter bucket all.marker = [objectPath bucket key])
    (hi : isInternal (objectPath bucket key) = false)
    (h : (calm c shardOf).Runs e (listObjectsV2 g bucket all) e' (pageReply r)) :
    r.contents.map (·.key) = [key] := by
  obtain ⟨-, r', taken, rest, hr, ht, hc, -, hcut⟩ := runs_listObjectsV2 h
  obtain rfl := pageReply_injective hr
  obtain ⟨hk, hdl, hmax⟩ := ha
  have hrs : rest = [] := by
    rcases hcut (by rw [hmax]; decide) with ⟨hrs, -⟩ | ⟨-, -, hfl, -⟩
    · exact hrs
    · have hle := length_filterMap_le (object? bucket all.keyPrefix all.delimiter) taken
      have hl := congrArg length (hf.symm.trans ht)
      rw [hmax] at hfl
      simp only [length_append, length_singleton, Option.getD_none] at hl hfl
      omega
  have ho : object? bucket all.keyPrefix all.delimiter (objectPath bucket key) = some key := by
    rw [object?, listedKey?, if_neg (by simp [hi]), dropStart?_objectPath, hk, hdl]
    rfl
  rw [hrs, append_nil, hf] at ht
  rw [hc, ← ht, keys_filterMap_entry?, filterMap_cons, ho]
  rfl

/-- What every page asked for with the token and the `start-after` has. -/
def EveryPage (token : Text) (startAfter : Option Text) (P : S3Query → ListBucketResultV2 → Prop) : Prop :=
  ∀ (g : Gateway) (shardOf : Text → Nat) (e e' : Dfs) (bucket : Text) (params : S3Query) (r : ListBucketResultV2),
    params.continuationToken = some token → params.startAfter = startAfter →
      (calm g.crates shardOf).Runs e (listObjectsV2 g bucket params) e' (pageReply r) → P params r

private theorem token_lt_of_mem {token : Text} {startAfter : Option Text} (hne : token ≠ [])
    (hs : ∀ s, startAfter = some s → token ≤ s) :
    EveryPage token startAfter fun _ r => ∀ o ∈ r.contents, token < o.key := by
  rintro g shardOf e e' bucket params r ht rfl hrun o ho
  have hm : token ≤ params.marker := by
    cases h : params.startAfter with
    | none => simp [S3Query.marker, h, ht]
    | some s =>
      rw [S3Query.marker, h]
      exact hs s h
  refine hm.trans_lt (marker_lt_of_mem hrun ?_ ho)
  intro hnil
  rw [hnil] at hm
  obtain ⟨a, t, rfl⟩ := exists_cons_of_ne_nil hne
  exact not_lt.2 hm (nil_lt_cons a t)

/-- Every request with a token lists only what lies behind the token if and only if `start-after`, which goes
before the token, does not lie in front of it; and then the next token lies behind the token as well. -/
theorem token_passed_iff {token : Text} {startAfter : Option Text} (htoken : token ≠ []) :
    (EveryPage token startAfter (fun _ r => ∀ o ∈ r.contents, token < o.key) ↔
      ∀ s, startAfter = some s → token ≤ s) ∧
    ((∀ s, startAfter = some s → token ≤ s) → EveryPage token startAfter fun params r =>
      0 < params.maxKeys.getD 1000 → r.isTruncated = true →
        ∃ next, r.nextContinuationToken = some next ∧ token < next) := by
  refine ⟨⟨?_, token_lt_of_mem htoken⟩, ?_⟩
  · rintro h s rfl
    by_contra hlt
    -- one object right behind `s`
    let params : S3Query := ⟨none, none, none, none, none, none, none, some 2, some token, some s, none, none⟩
    let e : Dfs := .ofFiles plainCrates [(objectPath [] (s ++ ['\x00']), [65])]
    obtain ⟨-, r, taken, rest, hx, -⟩ := runs_listObjectsV2
      (runs_execCalm plainCrates (fun _ => 0) (fun _ => []) (listObjectsV2 (openGateway plainCrates) [] params) e)
    have hrun := runs_of_execCalm hx
    have hbucket : e.bucketFiles [] = [objectPath [] (s ++ ['\x00'])] := rfl
    have hfiles : e.filesAfter [] params.marker = [objectPath [] (s ++ ['\x00'])] := by
      have hbehind : objectPath [] s < objectPath [] (s ++ ['\x00']) :=
        objectPath_lt_iff.2 (lt_snoc_zero s)
      rw [show params.marker = s from rfl, Dfs.filesAfter, hbucket, Cursor.behind,
        dropWhile_cons_of_neg (by simpa using not_le.2 hbehind), ite_self]
    have hinternal : isInternal (objectPath [] (s ++ ['\x00'])) = false := by
      rw [objectPath_eq, ← append_assoc]
      exact isInternal_snoc_zero _
    have hkeys := listed_single ⟨rfl, rfl, rfl⟩ hfiles hinternal hrun
    obtain ⟨o, ho, hkey⟩ := mem_map.1 (hkeys ▸ mem_singleton_self (s ++ ['\x00']))
    exact not_lt_snoc_zero (not_le.1 hlt) (hkey ▸ h (openGateway plainCrates) _ _ _ _ params r rfl rfl hrun o ho)
  · intro hstart g shardOf e e' bucket params r htoken' hstart' hrun hpositive hcut
    obtain ⟨-, r', taken, rest, hr, -, hcontents, -, hpage⟩ := runs_listObjectsV2 hrun
    obtain rfl := pageReply_injective hr
    rcases hpage hpositive with ⟨-, huncut⟩ | ⟨-, -, -, key, hlast, hobject, hnext⟩
    · cases hcut.symm.trans huncut
    · refine ⟨key, hnext, ?_⟩
      -- the last file of the page is one of its objects
      have hmem : e.entry g (objectPath bucket key) key ∈ r.contents := by
        rw [hcontents]
        exact mem_filterMap.2 ⟨_, mem_of_getLast? hlast, congrArg (Option.map _) hobject⟩
      have hlt := token_lt_of_mem htoken hstart g _ _ _ _ params r htoken' hstart' hrun _ hmem
      rwa [entry_key] at hlt

def afterQuery (startAfter token : Text) : S3Query :=
  ⟨none, none, none, none, none, none, none, some 2, some token, some startAfter, some 1, none⟩

/-- With the token as `start-after`, the next object is listed. -/
theorem token_passed_folders : ∃ e' r,
    (calm plainCrates fun _ => 0).Runs folders
    (listObjectsV2 (openGateway plainCrates) "b" (afterQuery "a" "a")) e'
        (pageReply r) ∧
      r.contents.map (·.key) = ["d/x".toList] ∧ (∀ o ∈ r.contents, "a".toList < o.key) ∧
        ∃ next, r.nextContinuationToken = some next ∧ "a".toList < next := by
  have hrun : (execCalm plainCrates (fun _ => 0) (fun _ => [])
      (listObjectsV2 (openGateway plainCrates) "b" (afterQuery "a" "a")) folders).1 = pageReply ⟨"b", [], 1, true,
        [folders.entry (openGateway plainCrates) "/b/d/x" "d/x"], [], 1, some "a", some "d/x", some "a"⟩ := by
    rfl
  have hstart : ∀ s, some "a".toList = some s → "a".toList ≤ s := by
    rintro s ⟨⟩
    exact le_rfl
  obtain ⟨hpassed, hnext⟩ := @token_passed_iff "a".toList (some "a".toList) (by decide)
  exact ⟨_, _, runs_of_execCalm hrun, rfl,
    hpassed.2 hstart (openGateway plainCrates) _ _ _ _ (afterQuery "a" "a") _ rfl rfl (runs_of_execCalm hrun),
    hnext hstart (openGateway plainCrates) _ _ _ _ (afterQuery "a" "a") _ rfl rfl (runs_of_execCalm hrun)
      (by decide) rfl⟩

/-- With `start-after` in front of the first object, that object is listed with its own key as the token, and with
that token again and again. -/
theorem same_page_forever : ∃ e' r, (calm plainCrates fun _ => 0).Runs folders
        (listObjectsV2 (openGateway plainCrates) "b" { afterQuery "0" "a" with continuationToken := none }) e'
          (pageReply r) ∧
      r.isTruncated = true ∧ r.nextContinuationToken = some "a".toList ∧
      ∃ e'' r', (calm plainCrates fun _ => 0).Runs e'
        (listObjectsV2 (openGateway plainCrates) "b" (afterQuery "0" "a")) e''
          (pageReply r') ∧
        e'' = e' ∧ r'.contents = r.contents ∧ r'.contents.map (·.key) = ["a".toList] ∧ r'.isTruncated = true ∧
        r'.nextContinuationToken = some "a".toList := by
  have hrun : (execCalm plainCrates (fun _ => 0) (fun _ => [])
      (listObjectsV2 (openGateway plainCrates) "b" { afterQuery "0" "a" with continuationToken := none })
        folders).1 =
        pageReply ⟨"b", [], 1, true, [folders.entry (openGateway plainCrates) "/b/a" "a"], [], 1, none, some "a",
          some "0"⟩ := by
    rfl
  have hrun' : (execCalm plainCrates (fun _ => 0) (fun _ => [])
      (listObjectsV2 (openGateway plainCrates) "b" (afterQuery "0" "a")) folders).1 =
        pageReply
          ⟨"b", [], 1, true, [folders.entry (openGateway plainCrates) "/b/a" "a"], [], 1, some "a", some "a",
          some "0"⟩ := by
    rfl
  exact ⟨_, _, runs_of_execCalm hrun, rfl, rfl, _, _, runs_of_execCalm hrun', rfl, rfl, rfl, rfl, rfl⟩

end

end RustHadoop.S3
