import Mathlib.Data.List.Basic
import Mathlib.Tactic.SplitIfs

/-!
# Blocks and their concatenation

A list of blocks of any lengths, whose concatenation is read from the front.

* `within`: how many blocks lie inside the first `n` elements of the concatenation;
* `Begun`: every block of the list begins before the position `n`;
* `within_of_position`, `forall_lt_iff`: both counted from the block that the position `n` is in.
-/

namespace Slices

variable {α : Type*} {n : ℕ} {as bs front rest : List (List α)} {b : List α}

/-- The number of blocks all of whose elements are among the first `n` of the concatenation. -/
def within : ℕ → List (List α) → ℕ
  | _, [] => 0
  | n, b :: bs => (if b.length ≤ n then 1 else 0) + within (n - b.length) bs

theorem within_append (n : ℕ) (as bs : List (List α)) :
    within n (as ++ bs) = within n as + within (n - as.flatten.length) bs := by
  induction as generalizing n with
  | nil => simp [within]
  | cons a as ih =>
    rw [List.cons_append, within, within, ih, List.flatten_cons, List.length_append,
      Nat.sub_add_eq]
    omega

/-- Blocks that fit into the first `n` elements are all inside. -/
theorem within_of_le (h : as.flatten.length ≤ n) : within n as = as.length := by
  induction as generalizing n with
  | nil => rfl
  | cons a as ih =>
    rw [List.flatten_cons, List.length_append] at h
    rw [within, if_pos (by omega), ih (by omega), List.length_cons]
    omega

/-- Nothing but empty blocks lies inside nothing. -/
theorem within_zero_eq_zero_iff : within 0 bs = 0 ↔ ∀ b ∈ bs, b ≠ [] := by
  induction bs with
  | nil => simp [within]
  | cons b bs ih =>
    rw [within, Nat.zero_sub, Nat.add_eq_zero_iff, ih, List.forall_mem_cons]
    simp

/-- Every block begins before the position `n`. -/
def Begun (n : ℕ) (bs : List (List α)) : Prop :=
  ∀ pre b post, bs = pre ++ b :: post → pre.flatten.length < n

theorem begun_nil (n : ℕ) : Begun n ([] : List (List α)) := by
  intro pre b post h
  simp at h

/-- One block more, when the others end before the position. -/
theorem Begun.concat (h : Begun n bs) (hlt : bs.flatten.length < n) (b : List α) :
    Begun n (bs ++ [b]) := by
  intro pre c post hsplit
  rcases List.eq_nil_or_concat post with rfl | ⟨post', d, rfl⟩
  · obtain ⟨rfl, -⟩ := List.append_inj' hsplit rfl
    exact hlt
  · rw [List.concat_eq_append, ← List.cons_append, ← List.append_assoc] at hsplit
    obtain ⟨hbs, -⟩ := List.append_inj' hsplit rfl
    exact h pre c post' hbs

/-- The position `n` is in the block `b`, `k` elements behind its front; if it is at the end of
the block, then the block is empty. -/
theorem within_of_position {k : ℕ} (hn : front.flatten.length + k = n) (hk : k ≤ b.length)
    (hb : k < b.length ∨ b = []) :
    within n (front ++ b :: rest) = front.length + within 0 (b :: rest) := by
  have hfront : within n front = front.length := within_of_le (by omega)
  have hsub : n - front.flatten.length = k := by omega
  rw [within_append, hfront, hsub, within, within]
  rcases hb with hlt | rfl
  · rw [if_neg (by omega), if_neg (by omega), Nat.sub_eq_zero_of_le (by omega), Nat.zero_sub]
  · obtain rfl : k = 0 := by simpa using hk
    rfl

/-- No empty block begins at or behind a position in `b` exactly if there is none from `b` on. -/
theorem forall_lt_iff {k : ℕ} (hn : front.flatten.length + k = n) (hk : k ≤ b.length)
    (hbegun : Begun n front) :
    (∀ pre post, front ++ b :: rest = pre ++ [] :: post → pre.flatten.length < n) ↔
      ∀ c ∈ b :: rest, c ≠ [] := by
  constructor
  · rintro h c hc rfl
    obtain ⟨pre, post, hsplit⟩ := List.append_of_mem hc
    have hlt := h (front ++ pre) post (by rw [hsplit, List.append_assoc])
    rw [List.flatten_append, List.length_append] at hlt
    -- the empty block is `b`, or stands behind it
    cases pre with
    | nil =>
      obtain ⟨rfl, -⟩ := List.cons.inj hsplit
      simp only [List.length_nil, Nat.le_zero_eq] at hk
      subst hk
      simp only [List.flatten_nil, List.length_nil] at hlt
      omega
    | cons d pre =>
      obtain ⟨rfl, -⟩ := List.cons.inj hsplit
      rw [List.flatten_cons, List.length_append] at hlt
      omega
  · intro h pre post hsplit
    rcases List.append_eq_append_iff.mp hsplit with ⟨mid, rfl, hmid⟩ | ⟨mid, hpre, hmid⟩
    · exact absurd rfl (h [] (hmid ▸ List.mem_append_right _ List.mem_cons_self))
    · cases mid with
      | nil => exact absurd rfl (h [] (by rw [List.nil_append] at hmid; simp [← hmid]))
      | cons d mid =>
        obtain ⟨rfl, hmid⟩ := List.cons.inj hmid
        exact hbegun pre [] mid hpre

end Slices
