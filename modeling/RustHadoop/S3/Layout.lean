import RustHadoop.S3.Uploads

/-!
# Which files belong to what

An object in one file has a sidecar, one that was uploaded in parts has a marker, a sidecar and its parts, an
upload has parts with entity tags, and a bucket has a file that keeps it.  `Root.Owns` says so.

The gateway finds files by the beginning of their paths.  A `Layout` is a choice of roots for which this finds
nothing wrong; roots none of whose paths begins another one are such a choice (`Layout.ofAntichain`).
-/

namespace RustHadoop.S3

open Texts List

theorem fileName_child {d n : Text} (hn : '/' ∉ n) : fileName (child d n) = n := by
  rw [fileName, child, segments_append_last d hn]
  simp

private theorem fileName_append (f : Text) {s : Text} (hs : '/' ∉ s) : fileName (f ++ s) = fileName f ++ s := by
  by_cases hf : '/' ∈ f
  · obtain ⟨d, n, hn, rfl⟩ : ∃ d n, '/' ∉ n ∧ f = child d n := by
      obtain ⟨n, d, hr, hn⟩ := eq_append_cons_of_mem (mem_reverse.2 hf)
      refine ⟨d.reverse, n.reverse, by simpa using hn, ?_⟩
      rw [← reverse_reverse f, hr]
      simp [child]
    have ha : child d n ++ s = child d (n ++ s) := by simp [child]
    rw [ha, fileName_child hn, fileName_child (by simp [hn, hs])]
  · have hfs : '/' ∉ f ++ s := by simp [hf, hs]
    rw [fileName, fileName, segments_of_notMem hf, segments_of_notMem hfs]
    rfl

theorem notMem_intText (n : Int) {c : Char} (hc : c.isDigit = false) (hm : c ≠ '-') (hp : c ≠ '+') :
    c ∉ intText n := by
  intro hmem
  rcases isDigit_of_mem_int? (int?_intText n) hmem with h | rfl | rfl
  · rw [hc] at h
    cases h
  · exact hp rfl
  · exact hm rfl

theorem dot_notMem_intText (n : Int) : '.' ∉ intText n := notMem_intText n (by decide) (by decide) (by decide)

theorem slash_notMem_intText (n : Int) : '/' ∉ intText n := notMem_intText n (by decide) (by decide) (by decide)

theorem partNumber?_of_dot {p f : Text} (h : '.' ∈ fileName f) : partNumber? p f = none := by
  unfold partNumber?
  split_ifs
  · refine Option.eq_none_iff_forall_ne_some.2 fun n hn => ?_
    rcases isDigit_of_mem_int? (Option.filter_eq_some_iff.1 hn).1 h with h | h | h <;> cases h
  · rfl

theorem dot_mem_fileName (f : Text) {s : Text} (hs : '/' ∉ s) (hdot : '.' ∈ s) : '.' ∈ fileName (f ++ s) := by
  rw [fileName_append f hs]
  exact mem_append_right _ hdot

def IsI32 (n : Int) : Prop := -(2 ^ 31 : Int) ≤ n ∧ n < 2 ^ 31

theorem partNumber?_child {p : Text} {n : Int} (hn : IsI32 n) : partNumber? p (child p (intText n)) = some n := by
  have hnm := fileName_child (d := p) (slash_notMem_intText n)
  have he : ∀ s : Text, '/' ∉ s → '.' ∈ s → ¬ s <:+ child p (intText n) := by
    rintro s hs hdot ⟨f, hf⟩
    have hmem := dot_mem_fileName f hs hdot
    rw [hf, hnm] at hmem
    exact dot_notMem_intText n hmem
  rw [partNumber?, if_pos ⟨prefix_append _ _, he _ (by decide) (by decide), he _ (by decide) (by decide)⟩, hnm]
  exact signed?_intText hn

inductive Root
  | plain (path : Text)
  | parts (path : Text)
  | upload (id : Text)
  | bucket (name : Text)

/-- The files that are there because of a root. -/
def Root.Owns : Root → Text → Prop
  | .plain p, f => f = p ∨ f = metaPath p
  | .parts p, f => f = p ∨ f = metaPath p ∨ f = child p mpuMarker ∨ ∃ n, f = child p (intText n)
  | .upload id, f => f = child (mpuDir id) keepMarker ∨ ∃ n, f = partPath id n ∨ f = partPath id n ++ etagSuffix
  | .bucket name, f => f = objectPath name keepMarker

/-- A listing for the path has the file, if there is one. -/
def Under (shardOf : Text → Nat) (path f : Text) : Prop := path <+: f ∧ shardOf f = shardOf path

/-- Roots that do not get into each other's way. -/
structure Layout (shardOf : Text → Nat) where
  roots : Set Root
  /-- no file belongs to two roots -/
  unique : ∀ r ∈ roots, ∀ r' ∈ roots, ∀ f, r.Owns f → r'.Owns f → r = r'
  /-- below the path of an object in one file there is no marker -/
  unmarked : ∀ p, .plain p ∈ roots → ∀ r ∈ roots, ∀ f, r.Owns f → Under shardOf p f → ¬ mpuMarker <:+ f
  /-- below the path of an object in parts only its own have numbers for names -/
  numbers :
    ∀ p, .parts p ∈ roots → ∀ r ∈ roots, ∀ f, r.Owns f → Under shardOf p f → partNumber? p f ≠ none → r = .parts p
  /-- below the directory of an upload are only its own files -/
  uploads : ∀ id, .upload id ∈ roots → ∀ r ∈ roots, ∀ f, r.Owns f → Under shardOf (mpuDir id) f → r = .upload id
  /-- markers and parts are on the shard that lists them -/
  markers_listed : ∀ p, .parts p ∈ roots → shardOf (child p mpuMarker) = shardOf p
  parts_listed : ∀ p, .parts p ∈ roots → ∀ n, shardOf (child p (intText n)) = shardOf p
  uploads_listed : ∀ id, .upload id ∈ roots → ∀ n, shardOf (partPath id n) = shardOf (mpuDir id)

def Root.base : Root → Text
  | .plain p | .parts p => p
  | .upload id => mpuDir id
  | .bucket name => objectPath name keepMarker

theorem Root.Owns.base_prefix {r : Root} {f : Text} (h : r.Owns f) : r.base <+: f := by
  cases r with
  | plain p =>
    rcases h with rfl | rfl
    · exact prefix_rfl
    · exact prefix_append _ _
  | parts p =>
    rcases h with rfl | rfl | rfl | ⟨n, rfl⟩
    · exact prefix_rfl
    · exact prefix_append _ _
    · exact prefix_append _ _
    · exact prefix_append _ _
  | upload id =>
    rcases h with rfl | ⟨n, rfl | rfl⟩
    · exact prefix_append _ _
    · exact prefix_append _ _
    · exact (prefix_append _ _).trans (prefix_append _ _)
  | bucket name =>
    cases h
    exact prefix_rfl

/-- Roots whose paths do not begin one another are a layout, if parts are on the shard of the path they are listed
for. -/
def Layout.ofAntichain {shardOf : Text → Nat} (roots : Set Root)
    (hanti : ∀ r ∈ roots, ∀ r' ∈ roots, r.base <+: r'.base → r = r')
    (hmarker : ∀ p, .plain p ∈ roots → ¬ mpuMarker <:+ p)
    (hparts : ∀ p, .parts p ∈ roots → ∀ f, p <+: f → shardOf f = shardOf p)
    (huploads : ∀ id, .upload id ∈ roots → ∀ f, mpuDir id <+: f → shardOf f = shardOf (mpuDir id)) :
    Layout shardOf :=
  have hsame : ∀ r ∈ roots, ∀ r' ∈ roots, ∀ f, r.base <+: f → r'.base <+: f → r = r' := by
    intro r hr r' hr' f h h'
    rcases prefix_or_prefix_of_prefix h h' with h | h
    · exact hanti r hr r' hr' h
    · exact (hanti r' hr' r hr h).symm
  { roots := roots
    unique := fun r hr r' hr' f h h' => hsame r hr r' hr' f h.base_prefix h'.base_prefix
    unmarked := by
      intro p hp r hr f hf hunder hsuffix
      cases hsame _ hp r hr f hunder.1 hf.base_prefix
      rcases hf with rfl | rfl
      · exact hmarker f hp hsuffix
      · exact absurd (suffix_of_suffix_length_le (suffix_append p ".meta".toList) hsuffix (by decide)) (by decide)
    numbers := fun p hp r hr f hf hunder _ => (hsame _ hp r hr f hunder.1 hf.base_prefix).symm
    uploads := fun id hid r hr f hf hunder => (hsame _ hid r hr f hunder.1 hf.base_prefix).symm
    markers_listed := fun p hp => hparts p hp _ (prefix_append _ _)
    parts_listed := fun p hp n => hparts p hp _ (prefix_append _ _)
    uploads_listed := fun id hid n => huploads id hid _ (prefix_append _ _) }

end RustHadoop.S3
