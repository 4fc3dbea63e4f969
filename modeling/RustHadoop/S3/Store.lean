import Mathlib.Algebra.GroupWithZero.Nat
import Mathlib.Algebra.Order.BigOperators.Group.List
import RustHadoop.Lib.Environment
import RustHadoop.S3.Signing

/-!
# The DFS behind the gateway

The gateway keeps everything in files of the DFS.  A handler is a program of calls to the client; `DfsOp` are the
calls, and what they do is said twice.

* `calm`: every call is carried out.  A new file has the content it was created with, a path that is taken is
  refused, and a listing gives the files of one shard that begin with the path, in any order (`master.rs`,
  `list_files`).  An empty file cannot be read: the chunk server has no byte at offset 0 of it.
  Entries without blocks, which a creation that failed may leave, come in `S3/Failures`.
* `faulty`: calls may fail, and a call that changes files may leave the paths it is given in any state.  Listings
  and reads that succeed are right.

Requests are served one after another.  Temporary files of the gateway and the clock of the DFS are left out; a
created file gets some time stamp.
-/

namespace RustHadoop.S3

open Texts Threads Environment List

structure StoredFile where
  content : Bytes
  etagMd5 : Text
  createdAtMs : Nat
deriving DecidableEq

abbrev Store := AList fun _ : Text => StoredFile

/-- The calls of handlers to the client of the DFS, and what else they draw from outside. -/
inductive DfsOp
  /-- `create_file`, `create_file_from_buffer` -/
  | create (path : Text) (content : Bytes)
  | delete (path : Text)
  | rename (source dest : Text)
  | list (path : Text)
  | listAll
  /-- `get_file_info`, `exists` -/
  | info (path : Text)
  /-- `get_file_content`: sidecars, policies, entity tags -/
  | content (path : Text)
  /-- `get_file`: the bytes of objects -/
  | download (path : Text)
  | readRange (path : Text) (offset length : Nat)
  | random (n : Nat)
  | uuid
  | now
deriving DecidableEq

/-- Errors are the texts they are printed as. -/
def DfsOp.Result : DfsOp → Type
  | .create _ _ | .delete _ | .rename _ _ => Except Text Unit
  | .list _ | .listAll => Except Text (List Text)
  | .info _ => Except Text (Option StoredFile)
  | .content _ | .download _ | .readRange _ _ _ => Except Text Bytes
  | .random _ => Bytes
  | .uuid => Text
  | .now => Nat

abbrev Handler (α : Type) := Prog DfsOp DfsOp.Result Empty Empty α

def call (o : DfsOp) : Handler o.Result := Prog.perform o

/-- What `if let Ok(..)` sees of a call. -/
def okay {α : Type} : Except Text α → Option α
  | .ok a => some a
  | .error _ => none

/-- What a handler may count on: listings have files that begin with the path, and random bytes are as many as were
asked for. -/
def Answers : (o : DfsOp) → o.Result → Prop
  | .list path, x => ∀ f ∈ (okay x).getD [], path <+: f
  | .random n, x => x.length = n
  | _, _ => True

/-- The files, the ids that were drawn, and a record of the paths that were downloaded. -/
structure Dfs where
  files : Store
  drawn : List Text
  downloads : List Text

def Dfs.empty : Dfs := ⟨∅, [], []⟩

variable (c : Crates)

def Dfs.ofFiles (files : List (Text × Bytes)) : Dfs :=
  ⟨files.foldr (fun f s => s.insert f.1 ⟨f.2, hexEncode (c.md5 f.2), 0⟩) ∅, [], []⟩

def Dfs.look (e : Dfs) (path : Text) : Option Bytes := (e.files.lookup path).map fun f => f.content

/-- A file can be read if it is not empty. -/
def Dfs.read (e : Dfs) (path : Text) : Option Bytes := (e.look path).filter fun content => content ≠ []

/-- The files that the shard of a path lists for it. -/
structure Listing (shardOf : Text → Nat) (files : Store) (path : Text) (result : List Text) : Prop where
  nodup : result.Nodup
  mem_iff : ∀ f, f ∈ result ↔ f ∈ files ∧ path <+: f ∧ shardOf f = shardOf path

structure FullListing (files : Store) (result : List Text) : Prop where
  nodup : result.Nodup
  mem_iff : ∀ f, f ∈ result ↔ f ∈ files ∧ ['/'] <+: f

def alreadyExists : Text := "Failed to create file: File already exists"

def notFound : Text := "Failed to delete file: File not found"

variable (shardOf : Text → Nat)

/-- `rename` within a shard replaces the target, across shards it is refused. -/
def renames (files : Store) (source dest : Text) : Bool :=
  decide (source ∈ files) && (shardOf source = shardOf dest || decide (dest ∉ files))

def renamed (files : Store) (source dest : Text) : Store :=
  match files.lookup source with
  | some f => (files.erase source).insert dest f
  | none => files

/-- What is created: `create_file_from_buffer` computes the MD5 of the content. -/
def storedFile (content : Bytes) (createdAtMs : Nat) : StoredFile :=
  ⟨content, hexEncode (c.md5 content), createdAtMs⟩

def CalmStep (e : Dfs) : (o : DfsOp) → o.Result → Dfs → Prop
  | .create path content, x, e' =>
    if path ∈ e.files then x = .error alreadyExists ∧ e' = e
    else x = .ok () ∧ ∃ t, e' = { e with files := e.files.insert path (storedFile c content t) }
  | .delete path, x, e' =>
    if path ∈ e.files then x = .ok () ∧
      e' = { e with files := e.files.erase path } else x = .error notFound ∧ e' = e
  | .rename source dest, x, e' =>
    if renames shardOf e.files source dest then
      x = .ok () ∧ e' = { e with files := renamed e.files source dest }
    else (∃ text, x = .error text) ∧ e' = e
  | .list path, x, e' => (∃ fs, x = .ok fs ∧ Listing shardOf e.files path fs) ∧ e' = e
  | .listAll, x, e' => (∃ fs, x = .ok fs ∧ FullListing e.files fs) ∧ e' = e
  | .info path, x, e' => x = .ok (e.files.lookup path) ∧ e' = e
  | .content path, x, e' =>
    (match e.read path with
      | some content => x = .ok content
      | none => ∃ text, x = .error text) ∧ e' = e
  | .download path, x, e' =>
    match e.read path with
    | some content => x = .ok content ∧ e' = { e with downloads := path :: e.downloads }
    | none => (∃ text, x = .error text) ∧ e' = e
  | .readRange path offset length, x, e' =>
    match (e.read path).filter fun content => offset < content.length with
    | some content => x = .ok ((content.drop offset).take length) ∧
        e' = { e with downloads := path :: e.downloads }
    | none => (∃ text, x = .error text) ∧ e' = e
  | .random n, x, e' => x.length = n ∧ e' = e
  | .uuid, x, e' => x ∉ e.drawn ∧ e' = { e with drawn := x :: e.drawn }
  | .now, _, e' => e' = e

def calm : Environment Dfs DfsOp DfsOp.Result Empty Empty where
  act := CalmStep c shardOf
  call _ _ r _ _ := r.elim

variable (ids : Nat → Text)

/-- An id that was not drawn before: the next of `ids`, or else a long one. -/
def freshId (drawn : List Text) : Text :=
  if ids drawn.length ∈ drawn then replicate ((drawn.map length).sum + 1) 'u' else ids drawn.length

def calmStep (e : Dfs) : (o : DfsOp) → o.Result × Dfs
  | .create path content =>
    if path ∈ e.files then (.error alreadyExists, e)
    else (.ok (), { e with files := e.files.insert path (storedFile c content 0) })
  | .delete path =>
    if path ∈ e.files then (.ok (), { e with files := e.files.erase path }) else (.error notFound, e)
  | .rename source dest =>
    if renames shardOf e.files source dest then (.ok (), { e with files := renamed e.files source dest }) else
      (.error [], e)
  | .list path => (.ok (e.files.keys.filter fun f => path <+: f ∧ shardOf f = shardOf path), e)
  | .listAll => (.ok (e.files.keys.filter fun f => ['/'] <+: f), e)
  | .info path => (.ok (e.files.lookup path), e)
  | .content path =>
    match e.read path with
    | some content => (.ok content, e)
    | none => (.error [], e)
  | .download path =>
    match e.read path with
    | some content => (.ok content, { e with downloads := path :: e.downloads })
    | none => (.error [], e)
  | .readRange path offset length =>
    match (e.read path).filter fun content => offset < content.length with
    | some content => (.ok ((content.drop offset).take length), { e with downloads := path :: e.downloads })
    | none => (.error [], e)
  | .random n => (replicate n 0, e)
  | .uuid => (freshId ids e.drawn, { e with drawn := freshId ids e.drawn :: e.drawn })
  | .now => ((0 : Nat), e)

private theorem freshId_notMem (drawn : List Text) : freshId ids drawn ∉ drawn := by
  unfold freshId
  split_ifs with h
  · intro hmem
    have hle := single_le_sum (fun _ _ => Nat.zero_le _) _ (mem_map_of_mem (f := length) hmem)
    rw [length_replicate] at hle
    omega
  · exact h

theorem calmStep_spec (e : Dfs) (o : DfsOp) :
    CalmStep c shardOf e o (calmStep c shardOf ids e o).1 (calmStep c shardOf ids e o).2 := by
  cases o with
  | create path content =>
    simp only [calmStep, CalmStep]
    split_ifs
    · exact ⟨rfl, rfl⟩
    · exact ⟨rfl, 0, rfl⟩
  | delete path =>
    simp only [calmStep, CalmStep]
    split_ifs <;> exact ⟨rfl, rfl⟩
  | rename source dest =>
    simp only [calmStep, CalmStep]
    split_ifs
    · exact ⟨rfl, rfl⟩
    · exact ⟨⟨_, rfl⟩, rfl⟩
  | list path =>
    exact ⟨⟨_, rfl, e.files.keys_nodup.filter _, fun f => by simp [AList.mem_keys]⟩, rfl⟩
  | listAll => exact ⟨⟨_, rfl, e.files.keys_nodup.filter _, fun f => by simp [AList.mem_keys]⟩, rfl⟩
  | info path => exact ⟨rfl, rfl⟩
  | content path | download path | readRange path offset length =>
    simp only [calmStep, CalmStep]
    split
    · exact ⟨rfl, rfl⟩
    · exact ⟨⟨_, rfl⟩, rfl⟩
  | random n => exact ⟨length_replicate .., rfl⟩
  | uuid => exact ⟨freshId_notMem ids e.drawn, rfl⟩
  | now => rfl

theorem calm_total (e : Dfs) (o : DfsOp) : ∃ x e', CalmStep c shardOf e o x e' :=
  ⟨_, _, calmStep_spec c shardOf (fun _ => []) e o⟩

def execCalm {α : Type} (p : Handler α) (e : Dfs) : α × Dfs :=
  p.exec (calmStep c shardOf ids) e

theorem runs_execCalm {α : Type} (p : Handler α) (e : Dfs) :
    (calm c shardOf).Runs e p (execCalm c shardOf ids p e).2 (execCalm c shardOf ids p e).1 :=
  Runs.exec (calmStep_spec c shardOf ids) p e

variable {c} {shardOf}

theorem runs_of_execCalm {α : Type} {ids : Nat → Text} {p : Handler α} {e : Dfs} {x : α}
    (h : (execCalm c shardOf ids p e).1 = x) : (calm c shardOf).Runs e p (execCalm c shardOf ids p e).2 x :=
  h ▸ runs_execCalm c shardOf ids p e

section

variable {e e' : Dfs} {o : DfsOp}

theorem runs_call {x : o.Result} : (calm c shardOf).Runs e (call o) e' x ↔ CalmStep c shardOf e o x e' :=
  Runs.perform_iff

theorem runs_call_bind {α : Type} {k : o.Result → Handler α} {a : α} :
    (calm c shardOf).Runs e (call o >>= k) e' a ↔
    ∃ x e1, CalmStep c shardOf e o x e1 ∧ (calm c shardOf).Runs e1 (k x) e' a := by
  rw [Runs.bind_iff]
  constructor
  · rintro ⟨e1, x, hx, hk⟩
    exact ⟨x, e1, runs_call.1 hx, hk⟩
  · rintro ⟨x, e1, hx, hk⟩
    exact ⟨e1, x, runs_call.2 hx, hk⟩

theorem lookup_of_delete {path : Text} {x : Except Text Unit} (h : CalmStep c shardOf e (.delete path) x e')
    (p : Text) : e'.files.lookup p = if p = path then none else e.files.lookup p := by
  change if path ∈ e.files then _ else _ at h
  split_ifs at h with hmem
  · rw [h.2]
    split_ifs with hp
    · rw [hp, AList.lookup_erase]
    · rw [AList.lookup_erase_ne hp]
  · rw [h.2]
    split_ifs with hp
    · rw [hp, AList.lookup_eq_none.2 hmem]
    · rfl

theorem okay_of_content {path : Text} {x : Except Text Bytes} (h : CalmStep c shardOf e (.content path) x e') :
    okay x = e.read path ∧ e' = e := by
  obtain ⟨hx, rfl⟩ := h
  split at hx
  · rename_i content hr
    rw [hx, hr]
    exact ⟨rfl, rfl⟩
  · rename_i hr
    obtain ⟨text, rfl⟩ := hx
    rw [hr]
    exact ⟨rfl, rfl⟩

end

def DfsOp.touches : DfsOp → List Text
  | .create path _ | .delete path => [path]
  | .rename source dest => [source, dest]
  | _ => []

def ChangesOnly (paths : List Text) (files files' : Store) : Prop := ∀ p ∉ paths, files'.lookup p = files.lookup p

/-- What is read is right, if anything is. -/
def Truthful (shardOf : Text → Nat) (files : Store) : (o : DfsOp) → o.Result → Prop
  | .list path, x => ∀ fs, x = .ok fs → Listing shardOf files path fs
  | .listAll, x => ∀ fs, x = .ok fs → FullListing files fs
  | .info path, x => ∀ i, x = .ok i → i = files.lookup path
  | .content path, x | .download path, x => ∀ b, x = .ok b → ∃ f ∈ files.lookup path, f.content = b
  | .random n, x => x.length = n
  | _, _ => True

def faulty (shardOf : Text → Nat) : Environment Dfs DfsOp DfsOp.Result Empty Empty where
  act e o x e' := Truthful shardOf e.files o x ∧ ChangesOnly o.touches e.files e'.files
  call _ _ r _ _ := r.elim

section

variable {e e' : Dfs} {o : DfsOp} {x : o.Result} (h : CalmStep c shardOf e o x e')
include h

theorem changesOnly_of_calmStep : ChangesOnly o.touches e.files e'.files := by
  intro p hp
  cases o with
  | create path content =>
    change if path ∈ e.files then _ else _ at h
    split_ifs at h
    · rw [h.2]
    · obtain ⟨-, t, rfl⟩ := h
      exact AList.lookup_insert_ne (ne_of_not_mem_cons hp)
  | delete path => rw [lookup_of_delete h, if_neg (ne_of_not_mem_cons hp)]
  | rename source dest =>
    change if renames shardOf e.files source dest then _ else _ at h
    split_ifs at h
    · rw [h.2]
      show (renamed e.files source dest).lookup p = _
      unfold renamed
      split
      · rw [AList.lookup_insert_ne (by simp_all [DfsOp.touches]), AList.lookup_erase_ne (ne_of_not_mem_cons hp)]
      · rfl
    · rw [h.2]
  | download path =>
    change (match e.read path with | some content => _ | none => _) at h
    split at h
    · rw [h.2]
    · rw [h.2]
  | readRange path offset length =>
    change (match (e.read path).filter _ with | some content => _ | none => _) at h
    split at h
    · rw [h.2]
    · rw [h.2]
  | uuid => rw [h.2]
  | now => rw [(h : e' = e)]
  | _ => rw [h.2]

theorem truthful_of_calmStep : Truthful shardOf e.files o x := by
  have hr : ∀ {path : Text} {b : Bytes}, e.read path = some b → ∃ f ∈ e.files.lookup path, f.content = b := by
    intro path b hb
    unfold Dfs.read Dfs.look at hb
    obtain ⟨f, hf, rfl⟩ := Option.map_eq_some_iff.1 (Option.filter_eq_some_iff.1 hb).1
    exact ⟨f, hf, rfl⟩
  cases o with
  | list path | listAll =>
    obtain ⟨⟨fs, rfl, hfs⟩, -⟩ := h
    intro fs' heq
    cases heq
    exact hfs
  | info path =>
    obtain ⟨rfl, -⟩ := h
    intro i heq
    cases heq
    rfl
  | content path =>
    obtain ⟨hx, -⟩ := h
    intro b heq
    subst heq
    split at hx
    · rename_i content hc
      cases hx
      exact hr hc
    · obtain ⟨text, hx⟩ := hx
      cases hx
  | download path =>
    intro b heq
    subst heq
    change (match e.read path with | some content => _ | none => _) at h
    split at h
    · rename_i content hc
      cases h.1
      exact hr hc
    · obtain ⟨⟨text, hx⟩, -⟩ := h
      cases hx
  | random n => exact h.1
  | _ => trivial

end

theorem faulty_of_calm {α : Type} {e e' : Dfs} {p : Handler α} {a : α}
    (h : (calm c shardOf).Runs e p e' a) : (faulty shardOf).Runs e p e' a := by
  refine h.mono (fun e1 o x e2 hx => ?_) fun _ _ r => r.elim
  exact ⟨truthful_of_calmStep hx, changesOnly_of_calmStep hx⟩

end RustHadoop.S3
