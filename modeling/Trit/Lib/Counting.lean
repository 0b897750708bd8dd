import Mathlib.Algebra.BigOperators.Ring.Finset
import Mathlib.Data.Fintype.Basic

/-!
# Counting the indices in a class

A finite family `f : ι → β` changes one value at a time, and the values that satisfy a test are
counted.

* `count P f`: the number of indices whose value passes the test `P`;
* `count_update`: how one changed value moves the count;
* `exists_of_count_pos`: a positive count has an index behind it.
-/

namespace Counting

variable {ι β : Type*} [Fintype ι]

/-- The number of indices whose value passes the test. -/
def count (P : β → Bool) (f : ι → β) : ℕ := (Finset.univ.filter fun i => P (f i) = true).card

theorem exists_of_count_pos {P : β → Bool} {f : ι → β} (h : 0 < count P f) :
    ∃ i, P (f i) = true := by
  obtain ⟨i, hi⟩ := Finset.card_pos.mp h
  exact ⟨i, (Finset.mem_filter.mp hi).2⟩

variable [DecidableEq ι]

/-- The count, with the share of one index split off. -/
theorem count_eq_add_sum (P : β → Bool) (f : ι → β) (i : ι) :
    count P f = (P (f i)).toNat + ∑ j ∈ Finset.univ.erase i, (P (f j)).toNat := by
  have hite : ∀ b : Bool, (if b = true then 1 else 0) = b.toNat := by
    intro b
    cases b <;> rfl
  rw [count, Finset.card_filter, ← Finset.add_sum_erase _ _ (Finset.mem_univ i)]
  simp only [hite]

/-- Changing one value adds the new share and takes the old one away. -/
theorem count_update (P : β → Bool) (f : ι → β) (i : ι) (b : β) :
    count P (Function.update f i b) + (P (f i)).toNat = count P f + (P b).toNat := by
  have hrest : ∑ j ∈ Finset.univ.erase i, (P (Function.update f i b j)).toNat =
      ∑ j ∈ Finset.univ.erase i, (P (f j)).toNat := by
    refine Finset.sum_congr rfl fun j hj => ?_
    rw [Function.update_of_ne (Finset.ne_of_mem_erase hj)]
  rw [count_eq_add_sum P (Function.update f i b) i, count_eq_add_sum P f i, hrest,
    Function.update_self]
  omega

/-- A change within the class, or outside it, leaves the count alone. -/
theorem count_update_of_eq {P : β → Bool} {f : ι → β} {i : ι} {b : β} (h : P b = P (f i)) :
    count P (Function.update f i b) = count P f := by
  have hcount := count_update P f i b
  rw [h] at hcount
  omega

theorem count_update_of_enters {P : β → Bool} {f : ι → β} {i : ι} {b : β} (hi : P (f i) = false)
    (hb : P b = true) : count P (Function.update f i b) = count P f + 1 := by
  have hcount := count_update P f i b
  rw [hi, hb] at hcount
  exact hcount

theorem count_le_count_update (P : β → Bool) (f : ι → β) (i : ι) (b : β) :
    count P f ≤ count P (Function.update f i b) + 1 := by
  have hcount := count_update P f i b
  have hle := Bool.toNat_le (P (f i))
  omega

end Counting
