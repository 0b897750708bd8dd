import Trit.Chunk
import Trit.Lib.LittleEndian
import Mathlib.Tactic.SplitIfs

/-!
# Serialization of values

`utils::serialize` and `utils::deserialize`: numbers are copied in native (little-endian) order,
strings byte by byte.  A read position is the suffix of the buffer behind it.
-/

namespace Trit

namespace Utils

open LittleEndian

/-- `MAX_UNCOMPRESSED_CHUNK_SIZE`. -/
def maxUncompressedChunkSize : UInt64 := 8192

/-- The bytes of a buffer up to a length, and the new read position: the common part of the two
`deserialize` functions. -/
def deserialize (length : ℕ) (it : Bytes) : Except Exception (Bytes × Bytes) :=
  if it.length < length then .error (.runtimeError "Invalid buffer size")
  else .ok (it.take length, it.drop length)

/-- `deserialize` into a number of `width` bytes. -/
def deserializeNat (width : ℕ) (it : Bytes) : Except Exception (ℕ × Bytes) :=
  (deserialize width it).map fun r => (leValue r.1, r.2)

/-- Reading what was written, whatever follows it. -/
theorem deserialize_append (b rest : Bytes) : deserialize b.length (b ++ rest) = .ok (b, rest) := by
  simp [deserialize]

theorem deserializeNat_leBytes {width n : ℕ} (h : n < 256 ^ width) (rest : Bytes) :
    deserializeNat width (leBytes width n ++ rest) = .ok (n, rest) := by
  have hd := deserialize_append (leBytes width n) rest
  rw [length_leBytes] at hd
  simp [deserializeNat, hd, Except.map, leValue_leBytes_of_lt h]

theorem deserializeNat_uint32 (n : UInt32) (rest : Bytes) :
    deserializeNat 4 (leBytes 4 n.toNat ++ rest) = .ok (n.toNat, rest) :=
  deserializeNat_leBytes n.toNat_lt rest

theorem deserializeNat_uint64 (n : UInt64) (rest : Bytes) :
    deserializeNat 8 (leBytes 8 n.toNat ++ rest) = .ok (n.toNat, rest) :=
  deserializeNat_leBytes n.toNat_lt rest

/-- What is read stands at the front of the buffer. -/
theorem deserialize_ok {length : ℕ} {it b rest : Bytes}
    (h : deserialize length it = .ok (b, rest)) : it = b ++ rest ∧ b.length = length := by
  unfold deserialize at h
  split_ifs at h with hlen
  cases h
  refine ⟨(List.take_append_drop length it).symm, ?_⟩
  rw [List.length_take]
  omega

theorem deserializeNat_ok {width n : ℕ} {it rest : Bytes}
    (h : deserializeNat width it = .ok (n, rest)) :
    it = leBytes width n ++ rest ∧ n < 256 ^ width := by
  unfold deserializeNat at h
  cases hd : deserialize width it with
  | error e =>
    rw [hd] at h
    cases h
  | ok r =>
    obtain ⟨b, rest'⟩ := r
    rw [hd] at h
    cases h
    obtain ⟨hit, rfl⟩ := deserialize_ok hd
    rw [leBytes_leValue]
    exact ⟨hit, leValue_lt b⟩

end Utils

end Trit
