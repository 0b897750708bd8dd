import Mathlib.Tactic.Common
import Mathlib.Tactic.Ring

/-!
# Little-endian byte strings

`leBytes w n` writes the low `w` bytes of `n`, least significant first; `leValue` reads a byte
string back.  Reading gives back what was written, as long as it fits the width.
-/

namespace LittleEndian

/-- The low `w` bytes of `n`, least significant first. -/
def leBytes : ℕ → ℕ → List UInt8
  | 0, _ => []
  | w + 1, n => UInt8.ofNat n :: leBytes w (n / 256)

/-- The number a little-endian byte string stands for. -/
def leValue : List UInt8 → ℕ
  | [] => 0
  | b :: bs => b.toNat + 256 * leValue bs

@[simp] theorem length_leBytes (w n : ℕ) : (leBytes w n).length = w := by
  induction w generalizing n with
  | zero => rfl
  | succ w ih => simp [leBytes, ih]

/-- Reading back what was written gives the number modulo the width. -/
theorem leValue_leBytes (w n : ℕ) : leValue (leBytes w n) = n % 256 ^ w := by
  induction w generalizing n with
  | zero => simp [leBytes, leValue, Nat.mod_one]
  | succ w ih =>
    rw [leBytes, leValue, ih, pow_succ, Nat.mul_comm (256 ^ w) 256, Nat.mod_mul]
    simp

theorem leValue_leBytes_of_lt {w n : ℕ} (h : n < 256 ^ w) : leValue (leBytes w n) = n := by
  rw [leValue_leBytes, Nat.mod_eq_of_lt h]

/-- A byte string stands for a number that fits its width. -/
theorem leValue_lt (bs : List UInt8) : leValue bs < 256 ^ bs.length := by
  induction bs with
  | nil => simp [leValue]
  | cons b bs ih =>
    have hb := b.toNat_lt
    rw [leValue, List.length_cons, pow_succ]
    omega

/-- Writing what was read gives the bytes back. -/
theorem leBytes_leValue (bs : List UInt8) : leBytes bs.length (leValue bs) = bs := by
  induction bs with
  | nil => rfl
  | cons b bs ih =>
    have hb := b.toNat_lt
    have hhead : UInt8.ofNat (b.toNat + 256 * leValue bs) = b := by
      rw [← UInt8.toNat_inj, UInt8.toNat_ofNat']
      omega
    have htail : (b.toNat + 256 * leValue bs) / 256 = leValue bs := by omega
    rw [List.length_cons, leValue, leBytes, hhead, htail, ih]

end LittleEndian
