import Trit.Chunk
import Trit.Lib.LittleEndian
import Mathlib.Tactic.SplitIfs

/-!
# The compression library

The compression stage calls zlib, which is not part of the repository: `Zlib` states what the code
relies on.

* `Zlib`: `compressBound`, `compress`, `uncompress`, and their round trip;
* `storedBlocks`, `parseBlocks`: blocks of the deflate format that hold their bytes as they are;
* `Zlib.stored`: a zlib that only writes such blocks, as the real one does for bytes that it cannot
  compress.  It satisfies the laws.
-/

namespace Trit

open LittleEndian

/-- `Z_DATA_ERROR` and `Z_BUF_ERROR`. -/
def zDataError : ℤ := -3

@[inherit_doc zDataError]
def zBufError : ℤ := -5

/-- The functions of zlib that are used.  The first argument of `compress` and `uncompress` is the
size of the buffer for the result; an error is a return value other than `Z_OK`. -/
structure Zlib where
  compressBound : ℕ → ℕ
  compress : ℕ → Bytes → Except ℤ Bytes
  uncompress : ℕ → Bytes → Except ℤ Bytes
  /-- a buffer of the size of the bound suffices -/
  compress_bound : ∀ source, ∃ dest, compress (compressBound source.length) source = .ok dest
  /-- nothing is written behind the buffer -/
  compress_le : ∀ size source dest, compress size source = .ok dest → dest.length ≤ size
  /-- the format begins with a header -/
  compress_ne_nil : ∀ size source dest, compress size source = .ok dest → dest ≠ []
  /-- the round trip -/
  uncompress_compress : ∀ size source dest, compress size source = .ok dest →
    uncompress source.length dest = .ok source
  /-- data that is incomplete is an error -/
  uncompress_incomplete : ∀ size source dest part size', compress size source = .ok dest →
    part <+: dest → part ≠ dest → ∃ ret, uncompress size' part = .error ret

/-! ### Stored blocks -/

/-- A block that holds its bytes as they are. -/
def storedBlock (isFinal : Bool) (b : Bytes) : Bytes :=
  (if isFinal then 1 else 0) :: (leBytes 2 b.length ++ leBytes 2 (65535 - b.length) ++ b)

/-- Bytes as stored blocks of 16383 bytes. -/
def storedBlocks (s : Bytes) : Bytes :=
  if s.length ≤ 16383 then storedBlock true s
  else storedBlock false (s.take 16383) ++ storedBlocks (s.drop 16383)
termination_by s.length
decreasing_by
  rw [List.length_drop]
  omega

/-- The bytes of stored blocks, and what follows the last one. -/
def parseBlocks : Bytes → Option (Bytes × Bytes)
  | [] => none
  | first :: rest =>
      let n := leValue (rest.take 2)
      let body := rest.drop 4
      if first = 1 then some (body.take n, body.drop n)
      else (parseBlocks (body.drop n)).map fun r => (body.take n ++ r.1, r.2)
termination_by b => b.length
decreasing_by
  simp only [List.length_drop, List.length_cons]
  omega

theorem length_storedBlock (isFinal : Bool) (b : Bytes) :
    (storedBlock isFinal b).length = b.length + 5 := by
  rw [storedBlock, List.length_cons, List.length_append, List.length_append, length_leBytes,
    length_leBytes]
  omega

/-- Five more bytes for each block. -/
theorem length_storedBlocks (s : Bytes) :
    (storedBlocks s).length = s.length + 5 * ((s.length - 1) / 16383 + 1) := by
  induction hlength : s.length using Nat.strong_induction_on generalizing s with
  | _ n ih =>
    rw [storedBlocks]
    split_ifs with hle
    · rw [length_storedBlock]
      omega
    · have hdrop : (s.drop 16383).length = n - 16383 := by rw [List.length_drop, hlength]
      have htake : (s.take 16383).length = 16383 := by
        rw [List.length_take]
        omega
      rw [List.length_append, length_storedBlock, htake,
        ih (n - 16383) (by omega) (s.drop 16383) hdrop]
      omega

theorem parseBlocks_storedBlock (isFinal : Bool) {b : Bytes} (h : b.length < 65536) (rest : Bytes) :
    parseBlocks (storedBlock isFinal b ++ rest) =
      if isFinal then some (b, rest)
      else (parseBlocks rest).map fun r => (b ++ r.1, r.2) := by
  have htwo : (leBytes 2 b.length ++ (leBytes 2 (65535 - b.length) ++ (b ++ rest))).take 2 =
      leBytes 2 b.length := List.take_left' (length_leBytes _ _)
  have hfour : (leBytes 2 b.length ++ (leBytes 2 (65535 - b.length) ++ (b ++ rest))).drop 4 =
      b ++ rest := by
    rw [← List.append_assoc]
    exact List.drop_left' (by rw [List.length_append, length_leBytes, length_leBytes])
  rw [storedBlock, List.cons_append, List.append_assoc, List.append_assoc, parseBlocks]
  simp only [htwo, hfour, leValue_leBytes_of_lt (w := 2) h, List.take_left, List.drop_left]
  cases isFinal <;> simp

/-- Stored blocks are parsed, whatever follows them. -/
theorem parseBlocks_storedBlocks (s rest : Bytes) :
    parseBlocks (storedBlocks s ++ rest) = some (s, rest) := by
  induction hlength : s.length using Nat.strong_induction_on generalizing s with
  | _ n ih =>
    rw [storedBlocks]
    split_ifs with hle
    · rw [parseBlocks_storedBlock true (by omega), if_pos rfl]
    · have hdrop : (s.drop 16383).length = n - 16383 := by rw [List.length_drop, hlength]
      have htake : (s.take 16383).length < 65536 := by
        rw [List.length_take]
        omega
      rw [List.append_assoc, parseBlocks_storedBlock false htake,
        ih (n - 16383) (by omega) (s.drop 16383) hdrop]
      simp

/-- The two sums of Adler-32. -/
def adlerSums (s : Bytes) : ℕ × ℕ :=
  s.foldl (fun (a, b) c => ((a + c.toNat) % 65521, (b + (a + c.toNat) % 65521) % 65521)) (1, 0)

/-- The checksum behind the blocks. -/
def adler32 (s : Bytes) : Bytes :=
  (leBytes 4 ((adlerSums s).2 * 65536 + (adlerSums s).1)).reverse

/-- The header, the blocks and the checksum. -/
def storedStream (s : Bytes) : Bytes := [120, 156] ++ (storedBlocks s ++ adler32 s)

/-- Of stored streams, none is the beginning of another one. -/
theorem eq_of_storedStream_part {s t : Bytes} (h : storedStream t <+: storedStream s) : t = s := by
  obtain ⟨rest, hrest⟩ := h
  rw [storedStream, storedStream, List.append_assoc] at hrest
  have hblocks := List.append_cancel_left hrest
  rw [List.append_assoc] at hblocks
  have hparse := parseBlocks_storedBlocks t (adler32 t ++ rest)
  rw [hblocks, parseBlocks_storedBlocks, Option.some.injEq, Prod.mk.injEq] at hparse
  exact hparse.1.symm

theorem length_storedStream (s : Bytes) :
    (storedStream s).length = s.length + 5 * ((s.length - 1) / 16383 + 1) + 6 := by
  rw [storedStream, List.length_append, List.length_append, length_storedBlocks, adler32,
    List.length_reverse, length_leBytes]
  simp only [List.length_cons, List.length_nil]
  omega

/-- A zlib that only writes stored blocks. -/
def Zlib.stored : Zlib where
  compressBound n := n + n / 4096 + n / 16384 + n / 33554432 + 13
  compress size source :=
    if (storedStream source).length ≤ size then .ok (storedStream source) else .error zBufError
  uncompress size source :=
    match parseBlocks (source.drop 2) with
    | none => .error zDataError
    | some (dest, _) =>
        if storedStream dest = source then
          if dest.length ≤ size then .ok dest else .error zBufError
        else .error zDataError
  compress_bound source := by
    refine ⟨storedStream source, if_pos ?_⟩
    rw [length_storedStream]
    omega
  compress_le := by
    intro size source dest h
    split_ifs at h with hle
    cases h
    exact hle
  compress_ne_nil := by
    intro size source dest h
    split_ifs at h
    cases h
    exact List.cons_ne_nil _ _
  uncompress_compress := by
    intro size source dest h
    split_ifs at h
    cases h
    have hdrop : (storedStream source).drop 2 = storedBlocks source ++ adler32 source := rfl
    simp [hdrop, parseBlocks_storedBlocks]
  uncompress_incomplete := by
    intro size source dest part size' h hpart hne
    split_ifs at h
    cases h
    cases hparse : parseBlocks (part.drop 2) with
    | none => exact ⟨_, rfl⟩
    | some r =>
      have hstream : storedStream r.1 ≠ part := by
        rintro rfl
        rw [eq_of_storedStream_part hpart] at hne
        exact hne rfl
      exact ⟨zDataError, if_neg hstream⟩

end Trit
