import Mathlib.Data.List.Basic
import Mathlib.Tactic.Common

/-!
# Chunks, byte strings and exceptions

The values the transfer pipeline passes around.  A `std::string` and a `std::vector<uint8_t>`
are both a list of bytes; the sequence number, the compressed flag and the original size of a
chunk have the widths of `Chunk.h`.

* `Exception`: the exceptions the code throws, with their `what()` text;
* `Chunk`, `Chunk.plain`, `Chunk.packed`: the class and its two constructors;
* `Chunk.size`: the 16-bit size.
-/

namespace Trit

/-- A string or a buffer of bytes. -/
abbrev Bytes := List UInt8

/-- A byte string shown as text, one character for each byte. -/
def Bytes.text (b : Bytes) : String := String.ofList (b.map fun x => Char.ofNat x.toNat)

/-- The exceptions of the code; all of them derive from `std::exception`. -/
inductive Exception
  | runtimeError (what : String)
  | logicError (what : String)
  | invalidArgument (what : String)
  | lengthError (what : String)
  | systemError (what : String)
  | badAlloc
  deriving DecidableEq

namespace Exception

/-- The text an exception carries. -/
def what : Exception → String
  | runtimeError s | logicError s | invalidArgument s | lengthError s | systemError s => s
  | badAlloc => "std::bad_alloc"

end Exception

theorem Except.bind_eq_ok {ε α β : Type} {x : Except ε α} {f : α → Except ε β} {b : β} :
    x >>= f = .ok b ↔ ∃ a, x = .ok a ∧ f a = .ok b := by
  cases x with
  | error e => simp [bind, Except.bind]
  | ok a => simp [bind, Except.bind]

/-- `UINT16_MAX`. -/
def uint16Max : ℕ := 65535

/-- A chunk of the transfer. -/
structure Chunk where
  sequenceNum : UInt64
  compressed : Bool
  originalSize : UInt16
  data : Bytes
  deriving DecidableEq

namespace Chunk

/-- `Chunk(sequence_num, data)`: not compressed, the original size is that of the data. -/
def plain (sequenceNum : UInt64) (data : Bytes) : Chunk :=
  ⟨sequenceNum, false, UInt16.ofNat data.length, data⟩

/-- `Chunk(sequence_num, data, original_size)`: flagged as compressed. -/
def packed (sequenceNum : UInt64) (data : Bytes) (originalSize : UInt16) : Chunk :=
  ⟨sequenceNum, true, originalSize, data⟩

/-- `size()`: the data size, narrowed to 16 bits. -/
def size (c : Chunk) : UInt16 := UInt16.ofNat c.data.length

@[simp] theorem plain_sequenceNum (n : UInt64) (d : Bytes) : (plain n d).sequenceNum = n := rfl
@[simp] theorem plain_data (n : UInt64) (d : Bytes) : (plain n d).data = d := rfl
@[simp] theorem packed_sequenceNum (n : UInt64) (d : Bytes) (o : UInt16) :
    (packed n d o).sequenceNum = n := rfl
@[simp] theorem packed_data (n : UInt64) (d : Bytes) (o : UInt16) : (packed n d o).data = d := rfl

theorem size_toNat (c : Chunk) : c.size.toNat = c.data.length % 65536 := by
  simp [size]

/-- Up to 65535 bytes the 16-bit size is exact. -/
theorem size_toNat_of_le {c : Chunk} (h : c.data.length ≤ uint16Max) :
    c.size.toNat = c.data.length := by
  rw [size_toNat, Nat.mod_eq_of_lt (by unfold uint16Max at h; omega)]

end Chunk

end Trit
