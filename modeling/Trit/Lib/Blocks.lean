import Mathlib.Data.List.Basic
import Mathlib.Tactic.Ring

/-!
# Cutting a list into blocks

`blocks size n l` are the first `n` blocks of `size` elements of `l`; the last one may be shorter.

* `getElem?_blocks`, `length_blocks`: the blocks one by one;
* `flatten_drop_blocks`: the blocks from the `k`-th on hold what is left of the list;
* `length_block`, `block_append`: the length of a block, and what follows it.
-/

namespace Blocks

variable {α : Type*}

/-- The `k`-th block of `size` elements. -/
def block (size : ℕ) (l : List α) (k : ℕ) : List α := (l.drop (k * size)).take size

/-- The first `n` blocks. -/
def blocks (size n : ℕ) (l : List α) : List (List α) := (List.range n).map (block size l)

@[simp] theorem length_blocks (size n : ℕ) (l : List α) : (blocks size n l).length = n := by
  simp [blocks]

theorem getElem?_blocks {size n k : ℕ} (l : List α) (h : k < n) :
    (blocks size n l)[k]? = some (block size l k) := by
  simp [blocks, List.getElem?_range h]

theorem length_block (size : ℕ) (l : List α) (k : ℕ) :
    (block size l k).length = min size (l.length - k * size) := by
  simp [block]

theorem block_append (size : ℕ) (l : List α) (k : ℕ) :
    block size l k ++ l.drop ((k + 1) * size) = l.drop (k * size) := by
  have h : l.drop ((k + 1) * size) = (l.drop (k * size)).drop size := by
    rw [List.drop_drop]
    congr 1
    ring
  rw [h, block, List.take_append_drop]

theorem flatten_drop_blocks {size n : ℕ} {l : List α} (hl : l.length ≤ n * size) {k : ℕ}
    (hk : k ≤ n) : ((blocks size n l).drop k).flatten = l.drop (k * size) := by
  induction hk using Nat.decreasingInduction with
  | self =>
    rw [List.drop_of_length_le (by simp), List.drop_of_length_le hl]
    rfl
  | of_succ k hk ih =>
    have hlt : k < (blocks size n l).length := by simpa using hk
    have hblock : (blocks size n l)[k] = block size l k :=
      Option.some.inj ((List.getElem?_eq_getElem hlt).symm.trans (getElem?_blocks l hk))
    rw [List.drop_eq_getElem_cons hlt, List.flatten_cons, ih, hblock, block_append]

/-- The position of a length among the multiples of the block size. -/
theorem length_block_of_mod {size n k len : ℕ} (hsize : 0 < size) (hlt : (n - 1) * size < len)
    (hle : len ≤ n * size) (hk : k < n) :
    min size (len - k * size) = if k + 1 = n ∧ len % size ≠ 0 then len % size else size := by
  have hsucc : (k + 1) * size = k * size + size := by ring
  by_cases hlast : k + 1 = n
  · subst hlast
    rw [Nat.add_sub_cancel] at hlt
    have hmod : len % size = (len - k * size) % size := by
      have h := Nat.add_mul_mod_self_right (len - k * size) k size
      rwa [Nat.sub_add_cancel hlt.le] at h
    by_cases hfull : len - k * size = size
    · rw [hfull, Nat.mod_self] at hmod
      simp [hmod, hfull]
    · have hrest : (len - k * size) % size = len - k * size := Nat.mod_eq_of_lt (by omega)
      rw [hrest] at hmod
      rw [if_pos ⟨rfl, by omega⟩, hmod, min_eq_right (by omega)]
  · have hstep : (k + 1) * size ≤ (n - 1) * size := Nat.mul_le_mul_right _ (by omega)
    rw [if_neg (fun h => hlast h.1), min_eq_left (by omega)]

end Blocks
