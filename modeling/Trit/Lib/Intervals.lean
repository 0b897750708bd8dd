import Mathlib.Data.List.Basic
import Mathlib.Tactic.SplitIfs

/-!
# Consecutive intervals

An interval of positions is given by its first position and its length.

* `Consecutive`: each interval of a list begins where the one before it ends;
* `Consecutive.pairwise`, `Consecutive.countP_eq`: they are disjoint, and hold each position once;
* `Consecutive.flatten_eq`: what they hold of a list is what lies between their ends.
-/

namespace Intervals

/-- The positions of an interval. -/
def Holds (p : ℕ) (i : ℕ × ℕ) : Prop := i.1 ≤ p ∧ p < i.1 + i.2

instance (p : ℕ) (i : ℕ × ℕ) : Decidable (Holds p i) := inferInstanceAs (Decidable (_ ∧ _))

/-- The part of a list that an interval holds. -/
def part {α : Type*} (l : List α) (i : ℕ × ℕ) : List α := (l.drop i.1).take i.2

/-- The intervals lead from the position `a` to the position `b`. -/
def Consecutive (a : ℕ) : List (ℕ × ℕ) → ℕ → Prop
  | [], b => a = b
  | i :: is, b => i.1 = a ∧ Consecutive (a + i.2) is b

variable {α : Type*} {a b : ℕ} {is : List (ℕ × ℕ)}

theorem Consecutive.le (h : Consecutive a is b) : a ≤ b := by
  induction is generalizing a with
  | nil => exact Nat.le_of_eq h
  | cons i is ih => exact Nat.le_trans (Nat.le_add_right a i.2) (ih h.2)

theorem Consecutive.concat (h : Consecutive a is b) (n : ℕ) :
    Consecutive a (is ++ [(b, n)]) (b + n) := by
  induction is generalizing a with
  | nil =>
    obtain rfl : a = b := h
    exact ⟨rfl, rfl⟩
  | cons i is ih => exact ⟨h.1, ih h.2⟩

theorem Consecutive.begin_le (h : Consecutive a is b) : ∀ i ∈ is, a ≤ i.1 := by
  induction is generalizing a with
  | nil => simp
  | cons i is ih =>
    intro j hj
    rcases List.mem_cons.mp hj with rfl | hj
    · exact Nat.le_of_eq h.1.symm
    · exact Nat.le_trans (Nat.le_add_right a i.2) (ih h.2 j hj)

theorem Consecutive.end_le (h : Consecutive a is b) : ∀ i ∈ is, i.1 + i.2 ≤ b := by
  induction is generalizing a with
  | nil => simp
  | cons i is ih =>
    intro j hj
    rcases List.mem_cons.mp hj with rfl | hj
    · rw [h.1]
      exact h.2.le
    · exact ih h.2 j hj

theorem Consecutive.pairwise (h : Consecutive a is b) :
    is.Pairwise fun i j => i.1 + i.2 ≤ j.1 := by
  induction is generalizing a with
  | nil => exact List.Pairwise.nil
  | cons i is ih =>
    refine List.Pairwise.cons (fun j hj => ?_) (ih h.2)
    rw [h.1]
    exact h.2.begin_le j hj

/-- Each position between the ends is in one of them, and no other one is in any. -/
theorem Consecutive.countP_eq (h : Consecutive a is b) (p : ℕ) :
    is.countP (fun i => Holds p i) = if a ≤ p ∧ p < b then 1 else 0 := by
  induction is generalizing a with
  | nil =>
    obtain rfl : a = b := h
    rw [List.countP_nil, if_neg (by omega)]
  | cons i is ih =>
    have hle := h.2.le
    have hholds : Holds p i ↔ a ≤ p ∧ p < a + i.2 := by rw [Holds, h.1]
    rw [List.countP_cons, ih h.2]
    simp only [decide_eq_true_eq, hholds]
    split_ifs <;> omega

/-- No position is held twice. -/
theorem Consecutive.countP_le (h : Consecutive a is b) (p : ℕ) :
    is.countP (fun i => Holds p i) ≤ 1 := by
  rw [h.countP_eq]
  split_ifs <;> omega

theorem Consecutive.flatten_eq (h : Consecutive a is b) (l : List α) :
    (is.map (part l)).flatten = part l (a, b - a) := by
  induction is generalizing a with
  | nil =>
    obtain rfl : a = b := h
    simp [part]
  | cons i is ih =>
    have hle := h.2.le
    have hsum : b - a = i.2 + (b - (a + i.2)) := by omega
    rw [List.map_cons, List.flatten_cons, ih h.2, part, part, part, h.1, hsum, List.take_add,
      List.drop_drop]

end Intervals
