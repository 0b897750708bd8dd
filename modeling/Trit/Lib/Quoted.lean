import Mathlib.Data.List.Basic
import Mathlib.Tactic.SplitIfs

/-!
# Quoted strings

A string between two delimiters, in which the delimiter and the escape character are preceded by an
escape character.

* `quote`, `unquote`: writing and reading;
* `unquote_quote`: a string is read back, and what follows it is left;
* `mem_quote`: quoting adds nothing but the two characters.
-/

namespace Quoted

variable {α : Type*} [DecidableEq α] (delim escape : α)

/-- What stands between the delimiters. -/
def inner : List α → List α
  | [] => []
  | c :: s =>
      if c = delim ∨ c = escape then escape :: c :: inner s
      else c :: inner s

/-- A string with its delimiters. -/
def quote (s : List α) : List α := delim :: (inner delim escape s ++ [delim])

/-- The string up to the closing delimiter, and what follows it; the flag says that the next
character is escaped. -/
def uninner : Bool → List α → Option (List α × List α)
  | _, [] => none
  | true, c :: s => (uninner false s).map fun r => (c :: r.1, r.2)
  | false, c :: s =>
      if c = escape then uninner true s
      else if c = delim then some ([], s)
      else (uninner false s).map fun r => (c :: r.1, r.2)

/-- A string that begins with a delimiter. -/
def unquote : List α → Option (List α × List α)
  | [] => none
  | c :: s => if c = delim then uninner delim escape false s else none

variable {delim escape}

theorem uninner_inner (h : delim ≠ escape) (s rest : List α) :
    uninner delim escape false (inner delim escape s ++ delim :: rest) = some (s, rest) := by
  induction s with
  | nil => rw [inner, List.nil_append, uninner, if_neg h, if_pos rfl]
  | cons c s ih =>
    rw [inner]
    split_ifs with hc
    · rw [List.cons_append, List.cons_append, uninner, if_pos rfl, uninner, ih]
      rfl
    · rw [not_or] at hc
      rw [List.cons_append, uninner, if_neg hc.2, if_neg hc.1, ih]
      rfl

/-- A quoted string is read back, whatever follows it. -/
theorem unquote_quote (h : delim ≠ escape) (s rest : List α) :
    unquote delim escape (quote delim escape s ++ rest) = some (s, rest) := by
  rw [quote, List.cons_append, unquote, if_pos rfl, List.append_assoc]
  exact uninner_inner h s rest

theorem mem_inner {s : List α} {c : α} (h : c ∈ inner delim escape s) : c = escape ∨ c ∈ s := by
  induction s with
  | nil => cases h
  | cons d s ih =>
    rw [inner] at h
    split_ifs at h with hd
    · rcases List.mem_cons.mp h with rfl | h
      · exact Or.inl rfl
      · rcases List.mem_cons.mp h with rfl | h
        · exact Or.inr List.mem_cons_self
        · exact (ih h).imp id (List.mem_cons_of_mem d)
    · rcases List.mem_cons.mp h with rfl | h
      · exact Or.inr List.mem_cons_self
      · exact (ih h).imp id (List.mem_cons_of_mem d)

theorem mem_quote {s : List α} {c : α} (h : c ∈ quote delim escape s) :
    c = delim ∨ c = escape ∨ c ∈ s := by
  rcases List.mem_cons.mp h with h | h
  · exact Or.inl h
  · rcases List.mem_append.mp h with h | h
    · exact Or.inr (mem_inner h)
    · exact Or.inl (List.mem_singleton.mp h)

end Quoted
