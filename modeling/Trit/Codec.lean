import Trit.TransferRequest
import Trit.Lib.Positions

/-!
# The codec of requests

What `serialize` writes and what `deserialize` accepts.

* `serialize_ok_iff`: the requests that can be written;
* `serialize_of_deserialize`: what is accepted begins with what `serialize` writes;
* `Cursor.deserialize`: `deserialize` with its iterators, and `Cursor.tracks`: they stay inside the
  buffer;
* `codec_exact`: the codec is exact, no request that is written is a prefix of another one, and
  nothing else is accepted.
-/

namespace Trit

open LittleEndian Positions

namespace TransferRequest

/-! ### What is written -/

/-- `serialize` fails only at a path that is too long. -/
theorem serializeFileInfos_ok_iff (infos : List FileInfo) :
    (∃ bytes, serializeFileInfos infos = .ok bytes) ↔
      ∀ info ∈ infos, info.relativePath.length ≤ uint16Max := by
  induction infos with
  | nil => exact iff_of_true ⟨[], rfl⟩ (by simp)
  | cons info infos ih =>
    rw [serializeFileInfos, List.forall_mem_cons]
    by_cases hlong : uint16Max < info.relativePath.length
    · rw [if_pos hlong]
      refine iff_of_false ?_ fun h => absurd h.1 (Nat.not_le_of_lt hlong)
      rintro ⟨bytes, hbytes⟩
      cases hbytes
    · rw [if_neg hlong, ← ih, and_iff_right (Nat.le_of_not_lt hlong)]
      constructor
      · rintro ⟨bytes, hbytes⟩
        obtain ⟨rest, hrest, -⟩ := Except.bind_eq_ok.mp hbytes
        exact ⟨rest, hrest⟩
      · rintro ⟨rest, hrest⟩
        exact ⟨_, Except.bind_eq_ok.mpr ⟨rest, hrest, rfl⟩⟩

theorem serialize_ok_iff (r : TransferRequest) :
    (∃ bytes, serialize r = .ok bytes) ↔
      ∀ info ∈ r.fileInfos, info.relativePath.length ≤ uint16Max := by
  rw [← serializeFileInfos_ok_iff]
  constructor
  · rintro ⟨bytes, hbytes⟩
    obtain ⟨rest, hrest, -⟩ := Except.bind_eq_ok.mp hbytes
    exact ⟨rest, hrest⟩
  · rintro ⟨rest, hrest⟩
    exact ⟨_, Except.bind_eq_ok.mpr ⟨rest, hrest, rfl⟩⟩

/-! ### What is accepted -/

/-- The loop of `deserialize` accepts what the loop of `serialize` writes, and nothing else. -/
theorem serializeFileInfos_of_deserialize {n : ℕ} {it rest : Bytes} {infos : List FileInfo}
    (h : deserializeFileInfos n it = .ok (infos, rest)) :
    infos.length = n ∧ ∃ bytes, serializeFileInfos infos = .ok bytes ∧ it = bytes ++ rest := by
  induction n generalizing it infos with
  | zero =>
    cases h
    exact ⟨rfl, [], rfl, rfl⟩
  | succ n ih =>
    obtain ⟨⟨pathLength, it₁⟩, h₁, h⟩ := Except.bind_eq_ok.mp h
    obtain ⟨⟨path, it₂⟩, h₂, h⟩ := Except.bind_eq_ok.mp h
    obtain ⟨⟨size, it₃⟩, h₃, h⟩ := Except.bind_eq_ok.mp h
    obtain ⟨⟨later, it₄⟩, h₄, h⟩ := Except.bind_eq_ok.mp h
    cases h
    obtain ⟨hlen, bytes, hbytes, rfl⟩ := ih h₄
    obtain ⟨rfl, hlt⟩ := Utils.deserializeNat_ok h₁
    obtain ⟨rfl, rfl⟩ := Utils.deserialize_ok h₂
    obtain ⟨rfl, hsize⟩ := Utils.deserializeNat_ok h₃
    have hshort : ¬ uint16Max < path.length := by
      unfold uint16Max
      omega
    have htoNat : (UInt64.ofNat size).toNat = size :=
      UInt64.toNat_ofNat_of_lt' (by show size < 2 ^ 64; omega)
    refine ⟨by rw [List.length_cons, hlen], leBytes 2 path.length ++ path ++ leBytes 8 size ++
      bytes, ?_, by simp⟩
    simp only [serializeFileInfos, if_neg hshort, htoNat]
    exact Except.bind_eq_ok.mpr ⟨bytes, hbytes, rfl⟩

/-- An accepted buffer begins with what `serialize` writes for the request it decodes to. -/
theorem serialize_of_deserialize {buffer : Bytes} {r : TransferRequest}
    (h : deserialize buffer = .ok r) :
    r.fileInfos.length = r.numFiles.toNat ∧ ∃ bytes, serialize r = .ok bytes ∧
      bytes <+: buffer := by
  obtain ⟨⟨numFiles, it₁⟩, h₁, h⟩ := Except.bind_eq_ok.mp h
  obtain ⟨⟨transferSize, it₂⟩, h₂, h⟩ := Except.bind_eq_ok.mp h
  obtain ⟨⟨chunkSize, it₃⟩, h₃, h⟩ := Except.bind_eq_ok.mp h
  obtain ⟨⟨lastChunkSize, it₄⟩, h₄, h⟩ := Except.bind_eq_ok.mp h
  obtain ⟨⟨numChunks, it₅⟩, h₅, h⟩ := Except.bind_eq_ok.mp h
  obtain ⟨⟨infos, rest⟩, h₆, h⟩ := Except.bind_eq_ok.mp h
  cases h
  obtain ⟨hlen, bytes, hbytes, rfl⟩ := serializeFileInfos_of_deserialize h₆
  obtain ⟨rfl, hnum⟩ := Utils.deserializeNat_ok h₁
  obtain ⟨rfl, hsize⟩ := Utils.deserializeNat_ok h₂
  obtain ⟨rfl, hchunk⟩ := Utils.deserializeNat_ok h₃
  obtain ⟨rfl, hlast⟩ := Utils.deserializeNat_ok h₄
  obtain ⟨rfl, hchunks⟩ := Utils.deserializeNat_ok h₅
  have hnum32 : ∀ {n : ℕ}, n < 256 ^ 4 → (UInt32.ofNat n).toNat = n :=
    fun hn => UInt32.toNat_ofNat_of_lt' hn
  have hnum64 : ∀ {n : ℕ}, n < 256 ^ 8 → (UInt64.ofNat n).toNat = n :=
    fun hn => UInt64.toNat_ofNat_of_lt' hn
  refine ⟨by rw [hlen, hnum32 hnum], _, Except.bind_eq_ok.mpr ⟨bytes, hbytes, rfl⟩, rest, ?_⟩
  simp only [hnum32 hnum, hnum64 hsize, hnum32 hchunk, hnum32 hlast, hnum32 hchunks,
    List.append_assoc]

/-- No request that was written can be cut short: a proper prefix is not accepted. -/
theorem deserialize_of_proper_prefix {r : TransferRequest} {bytes part : Bytes}
    (hnum : r.fileInfos.length = r.numFiles.toNat) (h : serialize r = .ok bytes)
    (hpart : part <+: bytes) (hne : part ≠ bytes) : ∃ e, deserialize part = .error e := by
  cases hdec : deserialize part with
  | error e => exact ⟨e, rfl⟩
  | ok r' =>
    exfalso
    obtain ⟨hnum', bytes', hser', rest', rfl⟩ := serialize_of_deserialize hdec
    obtain ⟨rest, rfl⟩ := hpart
    -- the longer buffer decodes to the same request, so the two have been written alike
    have hlong := deserialize_serialize_append (rest' ++ rest) hnum' hser'
    rw [← List.append_assoc, deserialize_serialize hnum h] at hlong
    obtain rfl := Except.ok.inj hlong
    rw [hser'] at h
    have hlen := congrArg List.length (Except.ok.inj h)
    simp only [List.length_append] at hlen
    have hnil : rest = [] := List.eq_nil_of_length_eq_zero (by omega)
    exact hne (by rw [hnil, List.append_nil])

end TransferRequest

/-! ### The read positions -/

namespace Cursor

/-- `utils::deserialize` with its two iterators, as distances from the start of the buffer. -/
def read (buffer : Bytes) (length it : ℕ) : Noting Exception (Bytes × ℕ) := do
  let bufferDistance : ℤ := buffer.length - it
  if bufferDistance < 0 then
    throw (.runtimeError "Invalid iterator range (end before it)")
  if bufferDistance < length then
    throw (.runtimeError "Invalid buffer size")
  note (it + length)
  return ((buffer.drop it).take length, it + length)

/-- `utils::deserialize` into a number. -/
def readNat (buffer : Bytes) (width it : ℕ) : Noting Exception (ℕ × ℕ) := do
  let (bytes, it) ← read buffer width it
  return (leValue bytes, it)

/-- The loop of `deserialize`. -/
def deserializeFileInfos (buffer : Bytes) : ℕ → ℕ → Noting Exception (List FileInfo × ℕ)
  | 0, it => return ([], it)
  | n + 1, it => do
      let (pathLength, it) ← readNat buffer 2 it
      let (path, it) ← read buffer pathLength it
      let (size, it) ← readNat buffer 8 it
      let (infos, it) ← deserializeFileInfos buffer n it
      return (⟨path, .ofNat size⟩ :: infos, it)

/-- `deserialize`. -/
def deserialize (buffer : Bytes) : Noting Exception TransferRequest := do
  let (numFiles, it) ← readNat buffer 4 0
  let (transferSize, it) ← readNat buffer 8 it
  let (uncompressedChunkSize, it) ← readNat buffer 4 it
  let (uncompressedLastChunkSize, it) ← readNat buffer 4 it
  let (numChunks, it) ← readNat buffer 4 it
  let (fileInfos, _) ← deserializeFileInfos buffer numFiles it
  return ⟨.ofNat numFiles, .ofNat transferSize, .ofNat uncompressedChunkSize,
    .ofNat uncompressedLastChunkSize, .ofNat numChunks, fileInfos⟩

/-- A position stands for the rest of the buffer behind it. -/
def At {α : Type} (buffer : Bytes) (a : α × ℕ) (b : α × Bytes) : Prop :=
  a.2 ≤ buffer.length ∧ b = (a.1, buffer.drop a.2)

variable {buffer : Bytes}

theorem read_tracks {length it : ℕ} (hit : it ≤ buffer.length) :
    Tracks buffer.length (At buffer) (read buffer length it)
      (Utils.deserialize length (buffer.drop it)) := by
  have hneg : ¬ (buffer.length : ℤ) - it < 0 := by omega
  unfold read Utils.deserialize
  rw [List.length_drop]
  dsimp only
  rw [if_neg hneg]
  by_cases hlen : buffer.length - it < length
  · rw [if_pos (by omega), if_pos hlen]
    exact .throw _
  · rw [if_neg (by omega), if_neg hlen]
    refine .note (by omega) (.pure ⟨by show it + length ≤ _; omega, ?_⟩)
    rw [List.drop_drop]

theorem readNat_tracks (width : ℕ) {it : ℕ} (hit : it ≤ buffer.length) :
    Tracks buffer.length (At buffer) (readNat buffer width it)
      (Utils.deserializeNat width (buffer.drop it)) := by
  have hbind : Utils.deserializeNat width (buffer.drop it) =
      Utils.deserialize width (buffer.drop it) >>= fun r => .ok (leValue r.1, r.2) := by
    unfold Utils.deserializeNat
    cases Utils.deserialize width (buffer.drop it) <;> rfl
  rw [hbind]
  refine (read_tracks hit).bind ?_
  rintro ⟨b, it'⟩ - ⟨hle, rfl⟩
  exact .pure ⟨hle, rfl⟩

theorem deserializeFileInfos_tracks (n : ℕ) {it : ℕ} (hit : it ≤ buffer.length) :
    Tracks buffer.length (At buffer) (deserializeFileInfos buffer n it)
      (TransferRequest.deserializeFileInfos n (buffer.drop it)) := by
  induction n generalizing it with
  | zero => exact .pure ⟨hit, rfl⟩
  | succ n ih =>
    refine (readNat_tracks _ hit).bind ?_
    rintro ⟨pathLength, it₁⟩ - ⟨h₁, rfl⟩
    refine (read_tracks h₁).bind ?_
    rintro ⟨path, it₂⟩ - ⟨h₂, rfl⟩
    refine (readNat_tracks _ h₂).bind ?_
    rintro ⟨size, it₃⟩ - ⟨h₃, rfl⟩
    refine (ih h₃).bind ?_
    rintro ⟨infos, it₄⟩ - ⟨h₄, rfl⟩
    exact .pure ⟨h₄, rfl⟩

/-- With its iterators `deserialize` does what it does on the rest of the buffer, and no iterator
passes the end. -/
theorem tracks (buffer : Bytes) :
    Tracks buffer.length Eq (deserialize buffer) (TransferRequest.deserialize buffer) := by
  have hstart := readNat_tracks 4 (Nat.zero_le buffer.length)
  rw [List.drop_zero] at hstart
  refine hstart.bind ?_
  rintro ⟨numFiles, it₁⟩ - ⟨h₁, rfl⟩
  refine (readNat_tracks _ h₁).bind ?_
  rintro ⟨transferSize, it₂⟩ - ⟨h₂, rfl⟩
  refine (readNat_tracks _ h₂).bind ?_
  rintro ⟨chunkSize, it₃⟩ - ⟨h₃, rfl⟩
  refine (readNat_tracks _ h₃).bind ?_
  rintro ⟨lastChunkSize, it₄⟩ - ⟨h₄, rfl⟩
  refine (readNat_tracks _ h₄).bind ?_
  rintro ⟨numChunks, it₅⟩ - ⟨h₅, rfl⟩
  refine (deserializeFileInfos_tracks numFiles h₅).bind ?_
  rintro ⟨infos, it₆⟩ - ⟨h₆, rfl⟩
  exact .pure rfl

/-- Nothing is lost by leaving the iterators out. -/
theorem deserialize_eq (buffer : Bytes) :
    (deserialize buffer []).1 = TransferRequest.deserialize buffer ∧
      ∀ p ∈ (deserialize buffer []).2, p ≤ buffer.length := by
  obtain ⟨hbound, hrel⟩ := tracks buffer [] (by simp)
  refine ⟨?_, hbound⟩
  generalize (deserialize buffer []).1 = x at hrel
  generalize TransferRequest.deserialize buffer = y at hrel
  cases x with
  | ok r =>
    cases y with
    | ok r' => exact congrArg Except.ok hrel
    | error e => exact hrel.elim
  | error e =>
    cases y with
    | ok r' => exact hrel.elim
    | error e' => exact congrArg Except.error hrel

end Cursor

namespace TransferRequest

/-- The codec is exact and prefix-free.  A request whose paths are short enough is written, is read
back whatever follows it, and is not read from a proper prefix; one with a longer path is not
written.  What is read from any buffer begins with what is written for it, and no read position
passes the end of the buffer. -/
theorem codec_exact {r : TransferRequest} (hnum : r.fileInfos.length = r.numFiles.toNat) :
    ((∀ info ∈ r.fileInfos, info.relativePath.length ≤ uint16Max) →
      ∃ bytes, serialize r = .ok bytes ∧ (∀ rest, deserialize (bytes ++ rest) = .ok r) ∧
        ∀ part, part <+: bytes → part ≠ bytes → ∃ e, deserialize part = .error e) ∧
    ((∃ info ∈ r.fileInfos, uint16Max < info.relativePath.length) →
      ∃ e, serialize r = .error e) ∧
    ∀ buffer,
      ((∃ e, deserialize buffer = .error e) ∨
        ∃ r', deserialize buffer = .ok r' ∧ r'.fileInfos.length = r'.numFiles.toNat ∧
          ∃ bytes, serialize r' = .ok bytes ∧ bytes <+: buffer) ∧
      (Cursor.deserialize buffer []).1 = deserialize buffer ∧
      ∀ p ∈ (Cursor.deserialize buffer []).2, p ≤ buffer.length := by
  refine ⟨fun hshort => ?_, fun hlong => ?_, fun buffer => ⟨?_, Cursor.deserialize_eq buffer⟩⟩
  · obtain ⟨bytes, hser⟩ := (serialize_ok_iff r).mpr hshort
    exact ⟨bytes, hser, fun rest => deserialize_serialize_append rest hnum hser,
      fun part hpart hne => deserialize_of_proper_prefix hnum hser hpart hne⟩
  · obtain ⟨info, hmem, hlt⟩ := hlong
    cases hser : serialize r with
    | error e => exact ⟨e, rfl⟩
    | ok bytes =>
      have hle := (serialize_ok_iff r).mp ⟨bytes, hser⟩ info hmem
      exact absurd hlt (Nat.not_lt_of_le hle)
  · cases hdec : deserialize buffer with
    | error e => exact Or.inl ⟨e, rfl⟩
    | ok r' =>
      obtain ⟨hnum', bytes, hser, hprefix⟩ := serialize_of_deserialize hdec
      exact Or.inr ⟨r', rfl, hnum', bytes, hser, hprefix⟩

/-- A request for one file. -/
def oneFile : TransferRequest := ⟨1, 5, 5, 0, 1, [⟨[97], 5⟩]⟩

/-- It is read back from its 35 bytes, and from no fewer. -/
theorem codec_exact_oneFile : ∃ bytes, serialize oneFile = .ok bytes ∧ bytes.length = 35 ∧
    deserialize (bytes ++ [1, 2, 3]) = .ok oneFile ∧
    ∃ e, deserialize (bytes.take 34) = .error e := by
  obtain ⟨bytes, hser, hread, hcut⟩ := (codec_exact (r := oneFile) rfl).1 (by decide)
  have hlen : bytes.length = 35 := by
    have heq : serialize oneFile = .ok [1, 0, 0, 0, 5, 0, 0, 0, 0, 0, 0, 0, 5, 0, 0, 0, 0, 0, 0, 0,
        1, 0, 0, 0, 1, 0, 97, 5, 0, 0, 0, 0, 0, 0, 0] := by decide
    rw [← Except.ok.inj (heq.symm.trans hser)]
    rfl
  refine ⟨bytes, hser, hlen, hread [1, 2, 3], hcut _ (List.take_prefix 34 bytes) fun heq => ?_⟩
  have hcutLen := congrArg List.length heq
  rw [List.length_take, hlen] at hcutLen
  exact absurd hcutLen (by decide)

end TransferRequest

end Trit
