import RustHadoop.S3.Effects
import RustHadoop.S3.Reference

/-!
# Deleting an object

`delete_object` deletes the file of the object, whatever a listing of its path gives, and the sidecar.  The listing
is by beginnings of paths, so that it has the objects whose keys extend the deleted one
(`delete_leaves_others_iff`).
-/

namespace RustHadoop.S3

open Texts Threads Environment

variable {c : Crates} {shardOf : Text → Nat} {e e' : Dfs} {path : Text}

theorem lookup_of_attempt_delete (h : (calm c shardOf).Runs e (attempt (.delete path)) e' ()) (p : Text) :
    e'.files.lookup p = if p = path then none else e.files.lookup p := by
  obtain ⟨x, hx⟩ := runs_attempt h
  exact lookup_of_delete hx p

theorem lookup_of_deleteListed {files : List Text} (h : (calm c shardOf).Runs e (deleteListed path files) e' ())
    (p : Text) : e'.files.lookup p = if p ∈ files ∧ path <+: p then none else e.files.lookup p := by
  induction files generalizing e with
  | nil =>
    obtain ⟨rfl, -⟩ := Runs.ret_iff.1 h
    simp
  | cons f rest ih =>
    obtain ⟨e1, hf, hr⟩ := Runs.each_cons.1 h
    have hs : e1.files.lookup p = if p = f ∧ path <+: p then none else e.files.lookup p := by
      split_ifs at hf with hpre
      · rw [lookup_of_attempt_delete hf p]
        exact if_congr ⟨fun hp => ⟨hp, hp ▸ hpre⟩, fun hp => hp.1⟩ rfl rfl
      · obtain ⟨rfl, -⟩ := Runs.ret_iff.1 hf
        rw [if_neg]
        rintro ⟨rfl, hp⟩
        exact hpre hp
    rw [ih hr, hs]
    by_cases hpf : p = f
    · subst hpf
      by_cases hp : path <+: p <;> simp [hp]
    · simp [hpf]

private theorem lookup_of_deleteObject {bucket key : Text} {x : Reply}
    (h : (calm c shardOf).Runs e (deleteObject bucket key) e' x) (p : Text) :
    e'.files.lookup p =
      if p = objectPath bucket key ∨ p = metaPath (objectPath bucket key) ∨
          objectPath bucket key <+: p ∧ shardOf p = shardOf (objectPath bucket key) then none
      else e.files.lookup p := by
  unfold deleteObject at h
  generalize objectPath bucket key = path at *
  obtain ⟨e1, _, hdel, h⟩ := Runs.bind_iff.1 h
  obtain ⟨e2, fs, hls, h⟩ := Runs.bind_iff.1 h
  obtain ⟨e3, _, hl, h⟩ := Runs.bind_iff.1 h
  obtain ⟨e4, _, hmt, h⟩ := Runs.bind_iff.1 h
  obtain ⟨rfl, -⟩ := Runs.ret_iff.1 h
  obtain ⟨⟨fs, rfl, hfs⟩, rfl⟩ := Runs.perform_iff.1 hls
  rw [lookup_of_attempt_delete hmt, lookup_of_deleteListed hl, lookup_of_attempt_delete hdel]
  have hmem : p ∈ (okay (Except.ok fs)).getD [] ↔ p ∈ e2.files ∧ path <+: p ∧ shardOf p = shardOf path :=
    hfs.mem_iff p
  simp only [hmem]
  by_cases hp : p = path
  · simp [hp]
  · by_cases hin : p ∈ e2.files
    · by_cases hpre : path <+: p <;> by_cases hm : p = metaPath path <;> simp [hp, hin, hm, hpre]
    · -- a file that is not there is not there afterwards either
      have hn : e.files.lookup p = none := by
        rw [← AList.lookup_eq_none, lookup_of_attempt_delete hdel, if_neg hp] at hin
        exact hin
      simp [hn]

def LeavesOthers (path : Text) (files files' : Store) : Prop :=
  ∀ p, ¬ OwnFile path p → files'.lookup p = files.lookup p

/-- A delete leaves the other files alone exactly if its listing has no others. -/
theorem delete_leaves_others_iff (c : Crates) (shardOf : Text → Nat) (e : Dfs) (bucket key : Text) :
    (calm c shardOf).Ensures e (deleteObject bucket key)
        (fun e' _ => LeavesOthers (objectPath bucket key) e.files e'.files) ↔
      ∀ f ∈ e.files, objectPath bucket key <+: f → shardOf f = shardOf (objectPath bucket key) →
        OwnFile (objectPath bucket key) f := by
  have hrun := runs_execCalm c shardOf (fun _ => []) (deleteObject bucket key) e
  constructor
  · rintro ⟨-, h⟩ f hf hpre hshard
    by_contra hown
    have heq := h _ _ hrun f hown
    rw [lookup_of_deleteObject hrun, if_pos (.inr (.inr ⟨hpre, hshard⟩))] at heq
    exact AList.lookup_eq_none.1 heq.symm hf
  · intro h
    refine ⟨⟨_, _, hrun⟩, fun e' x hr p hown => ?_⟩
    rw [lookup_of_deleteObject hr]
    split_ifs with hp
    · rcases hp with rfl | rfl | ⟨hpre, hshard⟩
      · exact absurd (.inl rfl) hown
      · exact absurd (.inr (.inl rfl)) hown
      · exact (AList.lookup_eq_none.2 fun hf => hown (h p hf hpre hshard)).symm
    · rfl

def siblings : Dfs := .ofFiles plainCrates [("/b/a", [65]), ("/b/ab", [66])]

/-- Deleting `a` deletes `ab`. -/
theorem sibling_deleted : ∃ e',
    (calm plainCrates fun _ => 0).Runs siblings (deleteObject "b" "a") e' (emptyResponse 204) ∧
      ¬ OwnFile (objectPath "b" "a") (objectPath "b" "ab") ∧
      siblings.read (objectPath "b" "ab") = some [66] ∧ e'.read (objectPath "b" "ab") = none := by
  have hrun :
      (execCalm plainCrates (fun _ => 0) (fun _ => []) (deleteObject "b" "a") siblings).1 = emptyResponse 204 := by
    decide +kernel
  exact ⟨_, runs_of_execCalm hrun, by decide +kernel, by decide +kernel, by decide +kernel⟩

end RustHadoop.S3
