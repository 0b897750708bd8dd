import Mathlib.Data.Int.Log
import Mathlib.Data.Rat.Floor
import Mathlib.Tactic.Linarith
import Mathlib.Tactic.Positivity
import Mathlib.Tactic.FieldSimp
import Mathlib.Tactic.Ring

/-!
# Double precision

Numbers of 53 significant binary digits, as rational numbers, and rounding to the nearest of them.
The range of the exponent is left out: neither overflow nor underflow is possible here.

* `roundEven`: rounding to the nearest integer, halves to the even one;
* `ofRat`: rounding to 53 significant digits;
* `roundEven_mono`, `ofRat_mono`: both are monotone;
* `ofRat_eq_self`: a number of at most 53 digits is kept; `abs_ofRat_sub_le_mul`: how far other
  numbers are moved;
* `Near`: what that makes of a chain of operations;
* `fixed`: a number in decimal notation with a given number of decimal places; `scaled`: the same
  number without the point.
-/

namespace Binary64

/-! ### Rounding to an integer -/

/-- The nearest integer; halves are rounded to the even one of their neighbours. -/
def roundEven (x : ℚ) : ℤ :=
  if x - ⌊x⌋ < 1 / 2 then ⌊x⌋
  else if 1 / 2 < x - ⌊x⌋ then ⌊x⌋ + 1
  else if ⌊x⌋ % 2 = 0 then ⌊x⌋
  else ⌊x⌋ + 1

variable {x y : ℚ}

@[simp] theorem roundEven_intCast (n : ℤ) : roundEven n = n := by
  simp [roundEven]

theorem floor_le_roundEven (x : ℚ) : ⌊x⌋ ≤ roundEven x := by
  unfold roundEven
  split_ifs <;> omega

theorem roundEven_le_floor_add_one (x : ℚ) : roundEven x ≤ ⌊x⌋ + 1 := by
  unfold roundEven
  split_ifs <;> omega

/-- No number is moved by more than a half. -/
theorem abs_roundEven_sub_le (x : ℚ) : |(roundEven x : ℚ) - x| ≤ 1 / 2 := by
  have hlow := Int.floor_le x
  have hhigh := Int.lt_floor_add_one x
  unfold roundEven
  rw [abs_le]
  split_ifs <;> push_cast <;> constructor <;> linarith

theorem roundEven_mono (h : x ≤ y) : roundEven x ≤ roundEven y := by
  rcases (Int.floor_mono h).lt_or_eq with hlt | heq
  · have hx := roundEven_le_floor_add_one x
    have hy := floor_le_roundEven y
    omega
  · -- between the same integers the three cases come in order
    unfold roundEven
    rw [← heq]
    split_ifs <;> first | omega | (exfalso; linarith)

/-! ### Rounding to 53 digits -/

/-- The distance of the doubles around `x`. -/
def ulp (x : ℚ) : ℚ := 2 ^ (Int.log 2 |x| - 52)

/-- The nearest double. -/
def ofRat (x : ℚ) : ℚ := roundEven (x / ulp x) * ulp x

theorem ulp_pos (x : ℚ) : 0 < ulp x := zpow_pos (by norm_num) _

@[simp] theorem ofRat_zero : ofRat 0 = 0 := by
  have hzero : roundEven 0 = 0 := by simpa using roundEven_intCast 0
  simp [ofRat, hzero]

/-- The doubles of the binade of a positive number, from below. -/
theorem mul_ulp (x : ℚ) : (2 : ℚ) ^ (52 : ℕ) * ulp x = 2 ^ Int.log 2 |x| := by
  rw [ulp, ← zpow_natCast, ← zpow_add₀ (by norm_num)]
  congr 1
  push_cast
  ring

theorem mul_ulp' (x : ℚ) : (2 : ℚ) ^ (53 : ℕ) * ulp x = 2 ^ (Int.log 2 |x| + 1) := by
  rw [ulp, ← zpow_natCast, ← zpow_add₀ (by norm_num)]
  congr 1
  push_cast
  ring

theorem zpow_log_le_ofRat (h : 0 < x) : 2 ^ Int.log 2 x ≤ ofRat x := by
  have habs : |x| = x := abs_of_pos h
  have hulp := ulp_pos x
  have hscale := mul_ulp x
  have hlog := Int.zpow_log_le_self (b := 2) (by norm_num) h
  rw [habs] at hscale
  have hle : ((2 ^ 52 : ℤ) : ℚ) ≤ x / ulp x := by
    rw [le_div_iff₀ hulp, Int.cast_pow, Int.cast_ofNat, hscale]
    exact_mod_cast hlog
  have hround := roundEven_mono hle
  rw [roundEven_intCast] at hround
  rw [← hscale, ofRat]
  refine mul_le_mul_of_nonneg_right ?_ hulp.le
  exact_mod_cast hround

theorem ofRat_le_zpow_log (h : 0 < x) : ofRat x ≤ 2 ^ (Int.log 2 x + 1) := by
  have habs : |x| = x := abs_of_pos h
  have hulp := ulp_pos x
  have hscale := mul_ulp' x
  have hlog := Int.lt_zpow_succ_log_self (b := 2) (by norm_num) x
  rw [habs] at hscale
  have hle : x / ulp x ≤ ((2 ^ 53 : ℤ) : ℚ) := by
    rw [div_le_iff₀ hulp, Int.cast_pow, Int.cast_ofNat, hscale]
    exact_mod_cast hlog.le
  have hround := roundEven_mono hle
  rw [roundEven_intCast] at hround
  rw [← hscale, ofRat]
  refine mul_le_mul_of_nonneg_right ?_ hulp.le
  exact_mod_cast hround

theorem ofRat_nonneg (h : 0 ≤ x) : 0 ≤ ofRat x := by
  rcases h.lt_or_eq with hpos | rfl
  · exact le_trans (zpow_pos (by norm_num) _).le (zpow_log_le_ofRat hpos)
  · exact ofRat_zero.ge

theorem ofRat_mono (hx : 0 ≤ x) (h : x ≤ y) : ofRat x ≤ ofRat y := by
  rcases hx.lt_or_eq with hpos | rfl
  swap
  · rw [ofRat_zero]
    exact ofRat_nonneg h
  have hy : 0 < y := lt_of_lt_of_le hpos h
  rcases (Int.log_mono_right (b := 2) hpos h).lt_or_eq with hlt | heq
  · calc ofRat x ≤ 2 ^ (Int.log 2 x + 1) := ofRat_le_zpow_log hpos
      _ ≤ 2 ^ Int.log 2 y := zpow_le_zpow_right₀ (by norm_num) (by omega)
      _ ≤ ofRat y := zpow_log_le_ofRat hy
  · have hulp : ulp y = ulp x := by rw [ulp, ulp, abs_of_pos hpos, abs_of_pos hy, heq]
    rw [ofRat, ofRat, hulp]
    refine mul_le_mul_of_nonneg_right ?_ (ulp_pos x).le
    exact_mod_cast roundEven_mono (div_le_div_of_nonneg_right h (ulp_pos x).le)

theorem ofRat_eq_self {m : ℕ} {e : ℤ} (hm : m < 2 ^ 53) : ofRat (m * 2 ^ e) = m * 2 ^ e := by
  rcases Nat.eq_zero_or_pos m with rfl | hpos
  · simp
  have htwo : (0 : ℚ) < 2 ^ e := zpow_pos (by norm_num) _
  obtain ⟨x, hx⟩ : ∃ x : ℚ, x = m * 2 ^ e := ⟨_, rfl⟩
  have hxpos : 0 < x := by
    rw [hx]
    exact mul_pos (by exact_mod_cast hpos) htwo
  -- the last digit is not beyond the distance of the doubles
  have hlog : Int.log 2 x - 52 ≤ e := by
    have hle := Int.zpow_log_le_self (b := 2) (by norm_num) hxpos
    have hlt : x < 2 ^ ((53 : ℕ) + e) := by
      rw [hx, zpow_add₀ (by norm_num), zpow_natCast]
      exact mul_lt_mul_of_pos_right (by exact_mod_cast hm) htwo
    have hexp := (zpow_lt_zpow_iff_right₀ (by norm_num : (1 : ℚ) < 2)).mp
      (lt_of_le_of_lt (by exact_mod_cast hle) hlt)
    push_cast at hexp
    omega
  obtain ⟨k, hk⟩ := Int.eq_ofNat_of_zero_le (Int.sub_nonneg.mpr hlog)
  have hsplit : (2 : ℚ) ^ e = 2 ^ k * 2 ^ (Int.log 2 x - 52) := by
    rw [← zpow_natCast, ← zpow_add₀ (by norm_num)]
    congr 1
    omega
  have hdiv : x / ulp x = ((m * 2 ^ k : ℤ) : ℚ) := by
    rw [div_eq_iff (ulp_pos x).ne', ulp, abs_of_pos hxpos]
    push_cast
    rw [mul_assoc, ← hsplit, hx]
  rw [← hx, ofRat, hdiv, roundEven_intCast, ← hdiv, div_mul_cancel₀ _ (ulp_pos x).ne']

theorem ofRat_natCast {n : ℕ} (h : n < 2 ^ 53) : ofRat n = n := by
  simpa using ofRat_eq_self (e := 0) h

/-- How far a number is moved. -/
theorem abs_ofRat_sub_le (x : ℚ) : |ofRat x - x| ≤ ulp x / 2 := by
  have hulp := ulp_pos x
  have hround := abs_roundEven_sub_le (x / ulp x)
  have hsub : ofRat x - x = (roundEven (x / ulp x) - x / ulp x) * ulp x := by
    rw [sub_mul, div_mul_cancel₀ _ hulp.ne', ofRat]
  rw [hsub, abs_mul, abs_of_pos hulp]
  calc |(roundEven (x / ulp x) : ℚ) - x / ulp x| * ulp x ≤ 1 / 2 * ulp x :=
        mul_le_mul_of_nonneg_right hround hulp.le
    _ = ulp x / 2 := by ring

/-- The relative error of a rounding. -/
def unit : ℚ := 1 / 2 ^ 53

/-- How far a number is moved, relative to itself. -/
theorem abs_ofRat_sub_le_mul (hx : 0 ≤ x) : |ofRat x - x| ≤ x * unit := by
  rcases hx.lt_or_eq with hpos | rfl
  swap
  · simp
  have hscale := mul_ulp x
  have hlog := Int.zpow_log_le_self (b := 2) (by norm_num) hpos
  rw [abs_of_pos hpos] at hscale
  have hulp : (2 : ℚ) ^ (52 : ℕ) * ulp x ≤ x := by
    rw [hscale]
    exact_mod_cast hlog
  refine (abs_ofRat_sub_le x).trans ?_
  rw [unit]
  linarith

/-! ### Chains of roundings -/

/-- `y` is `x` up to `k` roundings. -/
structure Near (k : ℕ) (x y : ℚ) : Prop where
  lower : x * (1 - unit) ^ k ≤ y
  upper : y ≤ x * (1 + unit) ^ k

namespace Near

variable {k : ℕ} {c : ℚ}

theorem refl (x : ℚ) : Near 0 x x := ⟨by simp, by simp⟩

theorem nonneg (h : Near k x y) (hx : 0 ≤ x) : 0 ≤ y := by
  have hunit : (0 : ℚ) ≤ 1 - unit := by norm_num [unit]
  exact le_trans (mul_nonneg hx (pow_nonneg hunit k)) h.lower

theorem mul (h : Near k x y) (hc : 0 ≤ c) : Near k (x * c) (y * c) where
  lower := by
    calc x * c * (1 - unit) ^ k = x * (1 - unit) ^ k * c := by ring
      _ ≤ y * c := mul_le_mul_of_nonneg_right h.lower hc
  upper := by
    calc y * c ≤ x * (1 + unit) ^ k * c := mul_le_mul_of_nonneg_right h.upper hc
      _ = x * c * (1 + unit) ^ k := by ring

theorem div (h : Near k x y) (hc : 0 ≤ c) : Near k (x / c) (y / c) := by
  rw [div_eq_mul_inv, div_eq_mul_inv]
  exact h.mul (inv_nonneg.mpr hc)

theorem round (h : Near k x y) (hx : 0 ≤ x) : Near (k + 1) x (ofRat y) := by
  have hmoved := abs_le.mp (abs_ofRat_sub_le_mul (h.nonneg hx))
  have hlow : (0 : ℚ) ≤ 1 - unit := by norm_num [unit]
  have hhigh : (0 : ℚ) ≤ 1 + unit := by norm_num [unit]
  constructor
  · calc x * (1 - unit) ^ (k + 1) = x * (1 - unit) ^ k * (1 - unit) := by ring
      _ ≤ y * (1 - unit) := mul_le_mul_of_nonneg_right h.lower hlow
      _ ≤ ofRat y := by linarith [hmoved.1]
  · calc ofRat y ≤ y * (1 + unit) := by linarith [hmoved.2]
      _ ≤ x * (1 + unit) ^ k * (1 + unit) := mul_le_mul_of_nonneg_right h.upper hhigh
      _ = x * (1 + unit) ^ (k + 1) := by ring

end Near

/-! ### Decimal notation -/

/-- A number in units of its last decimal place. -/
def scaled (places : ℕ) (x : ℚ) : ℕ := (roundEven (x * 10 ^ places)).toNat

/-- `std::fixed << std::setprecision(places)`: the nearest decimal number with that many places. -/
def fixed (places : ℕ) (x : ℚ) : String :=
  toString (scaled places x / 10 ^ places) ++ "." ++
    String.ofList ((Nat.toDigits 10 (scaled places x % 10 ^ places)).leftpad places '0')

end Binary64
