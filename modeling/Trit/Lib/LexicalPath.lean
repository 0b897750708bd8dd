import Mathlib.Data.List.Infix
import Mathlib.Tactic.Common

/-!
# Lexical paths

Paths as lists of parts over an arbitrary type of names, and where they lead from a working
directory when no part is a symbolic link.  A directory is the list of the names on the way to it
from the root.

* `Part`, `LexicalPath`: paths, absolute or relative;
* `resolve`: where a path leads, `..` at the root included;
* `namedPrefixes`: the directories on the way that a path names;
* `Below`: a directory is the proper prefix of another;
* `resolve_of_descends`: a relative path without `..` only leads down.
-/

variable {α : Type*}

/-- One part of a path: nothing or `.`, `..`, or a name. -/
inductive LexicalPath.Part (α : Type*)
  | here
  | up
  | name (a : α)
  deriving DecidableEq

/-- A path. -/
structure LexicalPath (α : Type*) where
  absolute : Bool
  parts : List (LexicalPath.Part α)
  deriving DecidableEq

namespace LexicalPath

/-- Is it a name? -/
def Part.isName : Part α → Bool
  | .name _ => true
  | _ => false

/-- The name, if it is one. -/
def Part.name? : Part α → Option α
  | .name a => some a
  | _ => none

/-- Where one part leads. -/
def follow (d : List α) : Part α → List α
  | .here => d
  | .up => d.dropLast
  | .name a => d ++ [a]

/-- Where a path leads from a working directory; an absolute path starts at the root. -/
def resolve (cwd : List α) (p : LexicalPath α) : List α :=
  p.parts.foldl follow (if p.absolute then [] else cwd)

/-- Does the last part name something? -/
def hasName (p : LexicalPath α) : Bool := (p.parts.getLast?.map Part.isName).getD false

/-- The prefixes of a path that end in a name. -/
def namedPrefixes (p : LexicalPath α) : List (LexicalPath α) :=
  (p.parts.inits.map fun parts => ⟨p.absolute, parts⟩).filter hasName

/-- A relative path without `..`. -/
def Descends (p : LexicalPath α) : Prop := p.absolute = false ∧ .up ∉ p.parts

/-- A directory or file that lies below a directory. -/
def Below (cwd d : List α) : Prop := cwd <+: d ∧ d ≠ cwd

instance [DecidableEq α] (cwd d : List α) : Decidable (Below cwd d) :=
  inferInstanceAs (Decidable (_ ∧ _))

theorem foldl_follow {parts : List (Part α)} (h : .up ∉ parts) (d : List α) :
    parts.foldl follow d = d ++ parts.filterMap Part.name? := by
  induction parts generalizing d with
  | nil => simp
  | cons part parts ih =>
    rw [List.mem_cons, not_or] at h
    rw [List.foldl_cons, ih h.2]
    cases part with
    | here => rfl
    | up => exact absurd rfl h.1
    | name a => simp [follow, Part.name?]

/-- A relative path without `..` only leads down. -/
theorem resolve_of_descends {p : LexicalPath α} (h : p.Descends) (cwd : List α) :
    p.resolve cwd = cwd ++ p.parts.filterMap Part.name? := by
  rw [resolve, h.1]
  exact foldl_follow h.2 cwd

end LexicalPath
