import Mathlib.Data.List.Basic
import Mathlib.Tactic.SplitIfs

/-!
# Lines

A sequence of lines in one list, each followed by a separator.

* `putlines`: writing lines; `getlines`: reading them back, where the last one may lack its
  separator;
* `not_mem_of_mem_getlines`: no line that is read holds a separator;
* `getlines_putlines`: what is read back are the lines, split at the separators they hold.
-/

namespace Lines

variable {α : Type*}

/-- The lines in their order, each followed by the separator. -/
def putlines (sep : α) (ls : List (List α)) : List α := (ls.map (· ++ [sep])).flatten

@[simp] theorem putlines_nil (sep : α) : putlines sep [] = [] := rfl

@[simp] theorem putlines_cons (sep : α) (l : List α) (ls : List (List α)) :
    putlines sep (l :: ls) = l ++ sep :: putlines sep ls := by
  simp [putlines]

variable [DecidableEq α] {sep : α}

/-- The lines up to the separators; what follows the last separator is a line if it is not
empty. -/
def getlines (sep : α) : List α → List (List α)
  | [] => []
  | a :: as =>
      if a = sep then [] :: getlines sep as
      else match getlines sep as with
        | [] => [[a]]
        | l :: ls => (a :: l) :: ls

theorem not_mem_of_mem_getlines {as l : List α} (h : l ∈ getlines sep as) : sep ∉ l := by
  induction as generalizing l with
  | nil => cases h
  | cons a as ih =>
    rw [getlines] at h
    split_ifs at h with ha
    · rcases List.mem_cons.mp h with rfl | h
      · exact List.not_mem_nil
      · exact ih h
    · have hne : sep ∉ [a] := fun hmem => ha (List.mem_singleton.mp hmem).symm
      cases has : getlines sep as with
      | nil =>
        rw [has] at h
        obtain rfl := List.mem_singleton.mp h
        exact hne
      | cons k ls =>
        rw [has] at h ih
        rcases List.mem_cons.mp h with rfl | h
        · intro hmem
          rcases List.mem_cons.mp hmem with heq | hmem
          · exact ha heq.symm
          · exact ih List.mem_cons_self hmem
        · exact ih (List.mem_cons_of_mem _ h)

/-- A line and its separator in front of others: it is split where it holds separators itself. -/
theorem getlines_append_sep (l as : List α) :
    getlines sep (l ++ sep :: as) = l.splitOn sep ++ getlines sep as := by
  induction l with
  | nil => simp [getlines]
  | cons a l ih =>
    rw [List.cons_append, getlines, ih, List.splitOn_cons_eq_if_modifyHead]
    by_cases ha : a = sep
    · simp [ha]
    · rw [if_neg ha, if_neg (by simpa using ha)]
      cases hl : l.splitOn sep with
      | nil => exact absurd hl (List.splitOn_ne_nil sep l)
      | cons k ks => rfl

theorem getlines_putlines (ls : List (List α)) :
    getlines sep (putlines sep ls) = ls.flatMap (List.splitOn sep) := by
  induction ls with
  | nil => rfl
  | cons l ls ih => rw [putlines_cons, getlines_append_sep, ih, List.flatMap_cons]

/-- Lines without separators are read as they were written. -/
theorem getlines_putlines_of_not_mem {ls : List (List α)} (h : ∀ l ∈ ls, sep ∉ l) :
    getlines sep (putlines sep ls) = ls := by
  induction ls with
  | nil => rfl
  | cons l ls ih =>
    rw [putlines_cons, getlines_append_sep, List.splitOn_eq_singleton (h l List.mem_cons_self),
      ih fun k hk => h k (List.mem_cons_of_mem _ hk), List.singleton_append]

end Lines
