import RustHadoop.S3.Policy
import RustHadoop.S3.Reference

/-!
# Wildcards

A pattern stands for the texts that come from it when its stars and question marks are filled in (`Glob`).
`matches_wildcard` writes a regular expression for a pattern, and compares texts if the crate rejects the
expression. The dot of a regular expression is not a line feed, and characters that mean something to the crate are
not escaped, apart from the dot.
-/

namespace RustHadoop.S3

open Texts List

/-- The text fills in the pattern, with characters of a kind. -/
inductive Fills (ok : Char → Prop) : Text → Text → Prop
  | nil : Fills ok [] []
  | star {p t u : Text} (hu : ∀ b ∈ u, ok b) (h : Fills ok p t) : Fills ok ('*' :: p) (u ++ t)
  | one {p t : Text} {b : Char} (hb : ok b) (h : Fills ok p t) : Fills ok ('?' :: p) (b :: t)
  | char {p t : Text} {a : Char} (hstar : a ≠ '*') (hone : a ≠ '?') (h : Fills ok p t) : Fills ok (a :: p) (a :: t)

def Glob : Text → Text → Prop := Fills fun _ => True

variable {ok : Char → Prop}

private theorem Fills.glob {p t : Text} (h : Fills ok p t) : Glob p t := by
  induction h with
  | nil => exact .nil
  | star _ _ ih => exact .star (fun _ _ => trivial) ih
  | one _ _ ih => exact .one trivial ih
  | char hs ho _ ih => exact .char hs ho ih

private theorem glob_self (p : Text) : Glob p p := by
  induction p with
  | nil => exact .nil
  | cons a p ih =>
    by_cases hs : a = '*'
    · exact hs ▸ .star (u := ['*']) (fun _ _ => trivial) ih
    · by_cases ho : a = '?'
      · exact ho ▸ .one trivial ih
      · exact .char hs ho ih

private theorem glob_star (t : Text) : Glob ['*'] t := by
  have h : Glob ['*'] (t ++ []) := .star (fun _ _ => trivial) .nil
  rwa [append_nil] at h

/-- What the regular expressions of patterns are made of. -/
inductive Piece
  | literal (a : Char)
  | dot
  | dotStar

def Piece.text : Piece → Text
  | .literal a => if a = '.' then ['\\', '.'] else [a]
  | .dot => ['.']
  | .dotStar => ['.', '*']

/-- The texts that match pieces from beginning to end, as the crate documents it. -/
inductive Piece.Match : List Piece → Text → Prop
  | nil : Match [] []
  | literal {ps : List Piece} {t : Text} {a : Char} (h : Match ps t) : Match (.literal a :: ps) (a :: t)
  | dot {ps : List Piece} {t : Text} {b : Char} (hb : b ≠ '\n') (h : Match ps t) : Match (.dot :: ps) (b :: t)
  | dotStar {ps : List Piece} {t u : Text} (hu : ∀ b ∈ u, b ≠ '\n') (h : Match ps t) :
      Match (.dotStar :: ps) (u ++ t)

/-- The other characters that mean something in a regular expression; a closing bracket or brace does so only
behind an opening one. -/
def metacharacters : List Char := ['\\', '+', '(', ')', '|', '[', '\x7b', '^', '$']

def piece (a : Char) : Piece := if a = '*' then .dotStar else if a = '?' then .dot else .literal a

def expression (p : Text) : Text := '^' :: ((p.map piece).flatMap Piece.text ++ ['$'])

/-- All characters of the pattern but stars and question marks stand for themselves in its expression. -/
def Inert (p : Text) : Prop := ∀ a ∈ p, a ∉ metacharacters

/-- The crate does with the expression of an inert pattern what it documents. -/
def Documented (c : Crates) (p : Text) : Prop :=
  Inert p → ∃ matcher, c.regex (expression p) = some matcher ∧ ∀ t, matcher t = true ↔ Piece.Match (p.map piece) t

private theorem piece_char {a : Char} (hs : a ≠ '*') (ho : a ≠ '?') : piece a = .literal a := by
  rw [piece, if_neg hs, if_neg ho]

private theorem match_iff_fills {p t : Text} : Piece.Match (p.map piece) t ↔ Fills (· ≠ '\n') p t := by
  constructor
  · intro h
    induction p generalizing t with
    | nil =>
      cases h
      exact .nil
    | cons a p ih =>
      by_cases hs : a = '*'
      · subst hs
        cases h with
        | dotStar hu h => exact .star hu (ih h)
      · by_cases ho : a = '?'
        · subst ho
          cases h with
          | dot hb h => exact .one hb (ih h)
        · rw [map_cons, piece_char hs ho] at h
          cases h with
          | literal h => exact .char hs ho (ih h)
  · intro h
    induction h with
    | nil => exact .nil
    | star hu _ ih => exact .dotStar hu ih
    | one hb _ ih => exact .dot hb ih
    | char hs ho _ ih =>
      rw [map_cons, piece_char hs ho]
      exact .literal ih

private theorem replaced_eq (p : Text) :
    replaceChar '?' "." (replaceChar '*' ".*" (replaceChar '.' "\\." p)) = (p.map piece).flatMap Piece.text := by
  induction p with
  | nil => rfl
  | cons a p ih =>
    unfold replaceChar at ih ⊢
    rw [flatMap_cons, flatMap_append, flatMap_append, ih, map_cons, flatMap_cons]
    congr 1
    by_cases hdot : a = '.'
    · subst hdot
      decide
    · by_cases hs : a = '*'
      · subst hs
        decide
      · by_cases ho : a = '?'
        · subst ho
          decide
        · simp [hdot, hs, ho, piece_char, Piece.text]

private theorem matchesWildcard_eq {c : Crates} {p : Text} (hp : p ≠ "*") (t : Text) :
    matchesWildcard c p t =
      match c.regex (expression p) with | some isMatch => isMatch t | none => decide (p = t) := by
  unfold matchesWildcard expression
  rw [if_neg hp, replaced_eq]
  rfl

def oneRegex (regex : Text) (matcher : Text → Bool) : Crates :=
  { plainCrates with regex := fun r => if r = regex then some matcher else none }

private theorem fills_a {t : Text} : Fills ok "a*" t ↔ ∃ u, t = 'a' :: u ∧ ∀ b ∈ u, ok b := by
  constructor
  · intro h
    change Fills ok ['a', '*'] t at h
    cases h with
    | char _ _ h =>
      cases h with
      | star hu h =>
        cases h
        exact ⟨_, by rw [append_nil], hu⟩
      | char hs => exact absurd rfl hs
  · rintro ⟨u, rfl, hu⟩
    have h := Fills.star hu .nil
    rw [append_nil] at h
    exact .char (by decide) (by decide) h

private theorem inert_a : Inert "a*" := by simp [Inert, metacharacters]

private theorem documented_a : Documented (oneRegex "^a.*$" fun t => t.head? = some 'a' && t.tail.all (· ≠ '\n'))
    "a*" := by
  refine fun _ => ⟨_, rfl, fun t => ?_⟩
  rw [match_iff_fills, fills_a]
  cases t <;> simp

end RustHadoop.S3
