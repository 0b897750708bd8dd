import Mathlib.Data.Nat.Basic
import Mathlib.Data.List.TakeWhile
import Mathlib.Tactic.SplitIfs
import Mathlib.Tactic.NormNum

/-!
# Decimal numerals

Numbers as strings of decimal digits, as programs print and read them: with leading spaces, with a
sign, and with limits beyond which reading fails.

* `value`: the number that digits denote; `decimal`: the digits of a number;
* `value_decimal`: a number is read as it was printed;
* `read`: spaces, a sign and the longest run of digits; `toUnsigned`, `toSigned`: the number in so
  many bits, or an error.
-/

namespace Numerals

/-! ### Digits -/

/-- An ASCII digit. -/
def isDigit (c : UInt8) : Bool := 48 ≤ c && c ≤ 57

/-- The number that a string of digits denotes. -/
def value (digits : List UInt8) : ℕ := digits.foldl (fun n c => 10 * n + (c.toNat - 48)) 0

/-- The last digits of a number, as many as there is fuel for. -/
def decimalWithin : ℕ → ℕ → List UInt8
  | 0, _ => []
  | fuel + 1, n =>
      if n < 10 then [.ofNat (48 + n)]
      else decimalWithin fuel (n / 10) ++ [.ofNat (48 + n % 10)]

/-- The digits of a number, without leading zeros. -/
def decimal (n : ℕ) : List UInt8 := decimalWithin (n + 1) n

theorem value_append_singleton (digits : List UInt8) (c : UInt8) :
    value (digits ++ [c]) = 10 * value digits + (c.toNat - 48) := by
  rw [value, List.foldl_append]
  rfl

theorem toNat_digit {d : ℕ} (h : d < 10) : (UInt8.ofNat (48 + d)).toNat = 48 + d :=
  UInt8.toNat_ofNat_of_lt' (by show _ < 256; omega)

theorem isDigit_digit {d : ℕ} (h : d < 10) : isDigit (.ofNat (48 + d)) = true := by
  have hd := toNat_digit h
  simp only [isDigit, Bool.and_eq_true, decide_eq_true_eq, UInt8.le_iff_toNat_le, hd]
  exact ⟨Nat.le_add_right 48 d, by show _ ≤ 57; omega⟩

theorem value_decimalWithin {fuel n : ℕ} (h : n < fuel) : value (decimalWithin fuel n) = n := by
  induction fuel generalizing n with
  | zero => exact absurd h (Nat.not_lt_zero n)
  | succ fuel ih =>
    rw [decimalWithin]
    split_ifs with hn
    · show 10 * 0 + ((UInt8.ofNat (48 + n)).toNat - 48) = n
      rw [toNat_digit hn]
      omega
    · rw [value_append_singleton, toNat_digit (Nat.mod_lt n (by omega)), ih (by omega)]
      omega

/-- A number is read as it was printed. -/
theorem value_decimal (n : ℕ) : value (decimal n) = n := value_decimalWithin (Nat.lt_succ_self n)

theorem isDigit_of_mem_decimalWithin {fuel n : ℕ} {c : UInt8} (h : c ∈ decimalWithin fuel n) :
    isDigit c = true := by
  induction fuel generalizing n with
  | zero => cases h
  | succ fuel ih =>
    rw [decimalWithin] at h
    split_ifs at h with hn
    · rw [List.mem_singleton.mp h]
      exact isDigit_digit hn
    · rcases List.mem_append.mp h with h | h
      · exact ih h
      · rw [List.mem_singleton.mp h]
        exact isDigit_digit (Nat.mod_lt n (by omega))

theorem isDigit_of_mem_decimal {n : ℕ} {c : UInt8} (h : c ∈ decimal n) : isDigit c = true :=
  isDigit_of_mem_decimalWithin h

theorem decimal_ne_nil (n : ℕ) : decimal n ≠ [] := by
  rw [decimal, decimalWithin]
  split_ifs
  · exact List.cons_ne_nil _ _
  · exact List.append_ne_nil_of_right_ne_nil _ (List.cons_ne_nil _ _)

/-! ### Reading -/

/-- Why a string is not read. -/
inductive Error
  | invalidArgument
  | outOfRange
  deriving DecidableEq

/-- The sign in front of digits, and what follows it. -/
def sign : List UInt8 → Bool × List UInt8
  | 45 :: s => (true, s)
  | 43 :: s => (false, s)
  | s => (false, s)

/-- Is there a minus sign, and which number do the digits denote?  `none` without any digit. -/
def read (isSpace : UInt8 → Bool) (s : List UInt8) : Option (Bool × ℕ) :=
  let (negative, rest) := sign (s.dropWhile isSpace)
  let digits := rest.takeWhile isDigit
  if digits = [] then none else some (negative, value digits)

/-- The number in so many bits; a minus sign is taken modulo their range. -/
def toUnsigned (isSpace : UInt8 → Bool) (bits : ℕ) (s : List UInt8) : Except Error ℕ :=
  match read isSpace s with
  | none => .error .invalidArgument
  | some (negative, n) =>
      if 2 ^ bits ≤ n then .error .outOfRange
      else .ok (if negative then (2 ^ bits - n) % 2 ^ bits else n)

/-- The number in so many bits, one of them for the sign. -/
def toSigned (isSpace : UInt8 → Bool) (bits : ℕ) (s : List UInt8) : Except Error ℤ :=
  match read isSpace s with
  | none => .error .invalidArgument
  | some (negative, n) =>
      let z : ℤ := if negative then -n else n
      if z < -2 ^ (bits - 1) ∨ 2 ^ (bits - 1) ≤ z then .error .outOfRange else .ok z

variable {isSpace : UInt8 → Bool} {s : List UInt8}

theorem read_digits (hspace : ∀ c, isDigit c = true → isSpace c = false) (hne : s ≠ [])
    (hs : ∀ c ∈ s, isDigit c = true) : read isSpace s = some (false, value s) := by
  obtain ⟨c, rest, rfl⟩ := List.exists_cons_of_ne_nil hne
  have hc := hs c List.mem_cons_self
  have hdrop : (c :: rest).dropWhile isSpace = c :: rest := by
    rw [List.dropWhile_cons, hspace c hc]
    rfl
  have hsign : sign (c :: rest) = (false, c :: rest) := by
    unfold sign
    split
    · rename_i heq
      cases heq
      exact absurd hc (by decide)
    · rename_i heq
      cases heq
      exact absurd hc (by decide)
    · rfl
  have htake : (c :: rest).takeWhile isDigit = c :: rest := List.takeWhile_eq_self_iff.mpr hs
  simp only [read, hdrop, hsign, htake]
  rw [if_neg hne]

theorem toUnsigned_digits (hspace : ∀ c, isDigit c = true → isSpace c = false) (bits : ℕ)
    (hne : s ≠ []) (hs : ∀ c ∈ s, isDigit c = true) :
    toUnsigned isSpace bits s =
      if 2 ^ bits ≤ value s then .error .outOfRange else .ok (value s) := by
  rw [toUnsigned, read_digits hspace hne hs]
  rfl

theorem toSigned_digits (hspace : ∀ c, isDigit c = true → isSpace c = false) {bits : ℕ}
    (hne : s ≠ []) (hs : ∀ c ∈ s, isDigit c = true) (hlt : value s < 2 ^ (bits - 1)) :
    toSigned isSpace bits s = .ok (value s) := by
  rw [toSigned, read_digits hspace hne hs]
  have hcast : (value s : ℤ) < 2 ^ (bits - 1) := by exact_mod_cast hlt
  have hpos : (0 : ℤ) < 2 ^ (bits - 1) := pow_pos (by norm_num) _
  simp only [Bool.false_eq_true, if_false]
  exact if_neg (by omega)

end Numerals
