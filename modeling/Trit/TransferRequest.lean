import Trit.Utils
import Mathlib.Tactic.SplitIfs

/-!
# Transfer requests

`TransferRequest.cpp`: the list of files with the geometry of the chunks, and its wire format.

* `fromFilePaths`: the request for a list of paths;
* `serialize`, `deserialize`: the wire format;
* `deserialize_serialize`: what a request that was serialized decodes to.
-/

namespace Trit

open LittleEndian

/-- `TransferRequest::FileInfo`. -/
structure FileInfo where
  relativePath : Bytes
  size : UInt64
  deriving DecidableEq

/-- `TransferRequest`. -/
@[ext] structure TransferRequest where
  numFiles : UInt32
  transferSize : UInt64
  uncompressedChunkSize : UInt32
  uncompressedFinalChunkSize : UInt32
  numChunks : UInt32
  fileInfos : List FileInfo
  deriving DecidableEq

namespace TransferRequest

/-! ### Building a request -/

/-- The loop of `from_file_paths` over the paths, with its two accumulators.  `relative` is
`std::filesystem::relative` to the working directory, `fileSize` is `file_size`. -/
def addFileInfos {Path : Type} (relative : Path → Bytes)
    (fileSize : Path → Except Exception UInt64) :
    List Path → List FileInfo → UInt64 → Except Exception (List FileInfo × UInt64)
  | [], fileInfos, transferSize => .ok (fileInfos, transferSize)
  | path :: paths, fileInfos, transferSize => do
      let size ← fileSize path
      addFileInfos relative fileSize paths (fileInfos ++ [⟨relative path, size⟩])
        (transferSize + size)

/-- `from_file_paths`; the list is the set of paths in its iteration order. -/
def fromFilePaths {Path : Type} (relative : Path → Bytes)
    (fileSize : Path → Except Exception UInt64) (filePaths : List Path) :
    Except Exception TransferRequest := do
  let numFiles : UInt32 := .ofNat filePaths.length
  if numFiles = 0 then
    throw (.runtimeError "Cannot create transfer request from empty set of file paths")
  let (fileInfos, transferSize) ← addFileInfos relative fileSize filePaths [] 0
  if transferSize = 0 then
    throw (.runtimeError
      "Cannot create transfer request because size of transfer would be 0 bytes")
  let uncompressedChunkSize := (min transferSize Utils.maxUncompressedChunkSize).toUInt32
  let uncompressedLastChunkSize := (transferSize % uncompressedChunkSize.toUInt64).toUInt32
  let numChunks := ((transferSize + (uncompressedChunkSize - 1).toUInt64) /
    uncompressedChunkSize.toUInt64).toUInt32
  return ⟨numFiles, transferSize, uncompressedChunkSize, uncompressedLastChunkSize, numChunks,
    fileInfos⟩

/-- A request that `from_file_paths` returns, in terms of the two accumulators of its loop. -/
theorem fromFilePaths_ok {Path : Type} {relative : Path → Bytes}
    {fileSize : Path → Except Exception UInt64} {filePaths : List Path} {r : TransferRequest}
    (h : fromFilePaths relative fileSize filePaths = .ok r) :
    addFileInfos relative fileSize filePaths [] 0 = .ok (r.fileInfos, r.transferSize) ∧
      r.transferSize ≠ 0 ∧ r.numFiles = .ofNat filePaths.length ∧
      r.uncompressedChunkSize = (min r.transferSize Utils.maxUncompressedChunkSize).toUInt32 ∧
      r.uncompressedFinalChunkSize =
        (r.transferSize % r.uncompressedChunkSize.toUInt64).toUInt32 ∧
      r.numChunks = ((r.transferSize + (r.uncompressedChunkSize - 1).toUInt64) /
        r.uncompressedChunkSize.toUInt64).toUInt32 := by
  unfold fromFilePaths at h
  dsimp only at h
  split_ifs at h with hnum
  · cases h
  obtain ⟨⟨infos, size⟩, hadd, h⟩ := Except.bind_eq_ok.mp h
  dsimp only at h
  split_ifs at h with hzero
  · cases h
  cases h
  exact ⟨hadd, hzero, rfl, rfl, rfl, rfl⟩

/-- The loop of `from_file_paths` only looks at the relative paths and the sizes. -/
theorem addFileInfos_congr {Path Path' : Type} {relative : Path → Bytes}
    {fileSize : Path → Except Exception UInt64} {relative' : Path' → Bytes}
    {fileSize' : Path' → Except Exception UInt64} {paths : List Path} {paths' : List Path'}
    (h : paths.map (fun p => (relative p, fileSize p)) =
      paths'.map fun p => (relative' p, fileSize' p)) (infos : List FileInfo) (size : UInt64) :
    addFileInfos relative fileSize paths infos size =
      addFileInfos relative' fileSize' paths' infos size := by
  induction paths generalizing paths' infos size with
  | nil =>
    obtain rfl : paths' = [] := List.map_eq_nil_iff.mp h.symm
    rfl
  | cons path paths ih =>
    cases paths' with
    | nil => cases h
    | cons path' paths' =>
      obtain ⟨hpath, hrest⟩ := List.cons.inj h
      obtain ⟨hrelative, hsize⟩ := Prod.mk.inj hpath
      simp only [addFileInfos, hrelative, hsize, ih hrest]

theorem fromFilePaths_congr {Path Path' : Type} {relative : Path → Bytes}
    {fileSize : Path → Except Exception UInt64} {relative' : Path' → Bytes}
    {fileSize' : Path' → Except Exception UInt64} {paths : List Path} {paths' : List Path'}
    (h : paths.map (fun p => (relative p, fileSize p)) =
      paths'.map fun p => (relative' p, fileSize' p)) :
    fromFilePaths relative fileSize paths = fromFilePaths relative' fileSize' paths' := by
  have hlen := congrArg List.length h
  rw [List.length_map, List.length_map] at hlen
  simp only [fromFilePaths, hlen, addFileInfos_congr h]

theorem toNat_min (a b : UInt64) : (min a b).toNat = min a.toNat b.toNat := by
  have hmin : min a b = if a ≤ b then a else b := rfl
  rw [hmin]
  split_ifs with h
  · rw [UInt64.le_iff_toNat_le] at h
    omega
  · rw [UInt64.le_iff_toNat_le] at h
    omega

/-- The remainder by a 32-bit number fits into 32 bits. -/
theorem toNat_mod_toUInt32 (size : UInt64) {chunkSize : UInt32} (hpos : 0 < chunkSize.toNat) :
    (size % chunkSize.toUInt64).toUInt32.toNat = size.toNat % chunkSize.toNat := by
  rw [UInt64.toNat_toUInt32, UInt64.toNat_mod, UInt32.toNat_toUInt64]
  have hmod := Nat.mod_lt size.toNat hpos
  have hlt := chunkSize.toNat_lt
  omega

theorem toNat_div_toUInt32 {size : UInt64} {chunkSize : UInt32} (hpos : 0 < chunkSize.toNat)
    (hle : chunkSize.toNat ≤ 8192) (hsize : size.toNat ≤ 8192 * (2 ^ 32 - 1))
    (hquot : (size.toNat + (chunkSize.toNat - 1)) / chunkSize.toNat < 2 ^ 32) :
    ((size + (chunkSize - 1).toUInt64) / chunkSize.toUInt64).toUInt32.toNat =
      (size.toNat + (chunkSize.toNat - 1)) / chunkSize.toNat := by
  have hpred : (chunkSize - 1).toNat = chunkSize.toNat - 1 :=
    UInt32.toNat_sub_of_le _ _ (UInt32.le_iff_toNat_le.mpr hpos)
  have hsum : size.toNat + (chunkSize.toNat - 1) < 2 ^ 64 := by omega
  rw [UInt64.toNat_toUInt32, UInt64.toNat_div, UInt64.toNat_add, UInt32.toNat_toUInt64,
    UInt32.toNat_toUInt64, hpred, Nat.mod_eq_of_lt hsum, Nat.mod_eq_of_lt hquot]

/-- The numbers of a request that was returned: the chunk size, and the size of the last chunk. -/
theorem chunkSize_of_fromFilePaths {Path : Type} {relative : Path → Bytes}
    {fileSize : Path → Except Exception UInt64} {filePaths : List Path} {r : TransferRequest}
    (h : fromFilePaths relative fileSize filePaths = .ok r) :
    0 < r.transferSize.toNat ∧ r.uncompressedChunkSize.toNat = min r.transferSize.toNat 8192 ∧
      r.uncompressedFinalChunkSize.toNat =
        r.transferSize.toNat % r.uncompressedChunkSize.toNat := by
  obtain ⟨-, hzero, -, hchunk, hfinal, -⟩ := fromFilePaths_ok h
  have hpos : 0 < r.transferSize.toNat := by
    have hne : r.transferSize.toNat ≠ 0 := fun h0 => hzero (UInt64.toNat.inj h0)
    omega
  have hcs : r.uncompressedChunkSize.toNat = min r.transferSize.toNat 8192 := by
    have hmax : Utils.maxUncompressedChunkSize.toNat = 8192 := rfl
    rw [hchunk, UInt64.toNat_toUInt32, toNat_min, hmax]
    omega
  refine ⟨hpos, hcs, ?_⟩
  rw [hfinal, toNat_mod_toUInt32 _ (by omega)]

/-- The number of chunks, as long as it fits into 32 bits. -/
theorem numChunks_of_fromFilePaths {Path : Type} {relative : Path → Bytes}
    {fileSize : Path → Except Exception UInt64} {filePaths : List Path} {r : TransferRequest}
    (h : fromFilePaths relative fileSize filePaths = .ok r)
    (hsize : r.transferSize.toNat ≤ 8192 * (2 ^ 32 - 1)) :
    (r.transferSize.toNat + (r.uncompressedChunkSize.toNat - 1)) /
        r.uncompressedChunkSize.toNat < 2 ^ 32 ∧
      r.numChunks.toNat = (r.transferSize.toNat + (r.uncompressedChunkSize.toNat - 1)) /
        r.uncompressedChunkSize.toNat := by
  obtain ⟨-, -, -, -, -, hnum⟩ := fromFilePaths_ok h
  obtain ⟨hpos, hcs, -⟩ := chunkSize_of_fromFilePaths h
  have hcspos : 0 < r.uncompressedChunkSize.toNat := by omega
  have hquot : (r.transferSize.toNat + (r.uncompressedChunkSize.toNat - 1)) /
      r.uncompressedChunkSize.toNat < 2 ^ 32 := by
    rw [Nat.div_lt_iff_lt_mul hcspos]
    by_cases hbig : r.transferSize.toNat ≤ 8192
    · rw [hcs, min_eq_left hbig]
      omega
    · rw [hcs, min_eq_right (by omega)]
      omega
  refine ⟨hquot, ?_⟩
  rw [hnum, toNat_div_toUInt32 hcspos (by omega) hsize hquot]

/-- The number of chunks is that of the full chunks, rounded up. -/
theorem numChunks_bounds {Path : Type} {relative : Path → Bytes}
    {fileSize : Path → Except Exception UInt64} {filePaths : List Path} {r : TransferRequest}
    (h : fromFilePaths relative fileSize filePaths = .ok r)
    (hsize : r.transferSize.toNat ≤ 8192 * (2 ^ 32 - 1)) :
    r.transferSize.toNat ≤ r.numChunks.toNat * r.uncompressedChunkSize.toNat ∧
      r.numChunks.toNat * r.uncompressedChunkSize.toNat <
        r.transferSize.toNat + r.uncompressedChunkSize.toNat := by
  obtain ⟨hpos, hcs, -⟩ := chunkSize_of_fromFilePaths h
  have hcspos : 0 < r.uncompressedChunkSize.toNat := by omega
  have hdiv := Nat.div_mul_le_self
    (r.transferSize.toNat + (r.uncompressedChunkSize.toNat - 1)) r.uncompressedChunkSize.toNat
  have hlt := Nat.lt_div_mul_add
    (a := r.transferSize.toNat + (r.uncompressedChunkSize.toNat - 1)) hcspos
  rw [← (numChunks_of_fromFilePaths h hsize).2] at hdiv hlt
  omega

/-! ### The wire format -/

/-- The loop of `serialize` over the files. -/
def serializeFileInfos : List FileInfo → Except Exception Bytes
  | [] => .ok []
  | info :: infos => do
      if uint16Max < info.relativePath.length then
        throw (.runtimeError ("File path too large: " ++ info.relativePath.text))
      let rest ← serializeFileInfos infos
      return leBytes 2 info.relativePath.length ++ info.relativePath ++
        leBytes 8 info.size.toNat ++ rest

/-- `serialize`. -/
def serialize (r : TransferRequest) : Except Exception Bytes := do
  let fileInfos ← serializeFileInfos r.fileInfos
  return leBytes 4 r.numFiles.toNat ++ leBytes 8 r.transferSize.toNat ++
    leBytes 4 r.uncompressedChunkSize.toNat ++ leBytes 4 r.uncompressedFinalChunkSize.toNat ++
    leBytes 4 r.numChunks.toNat ++ fileInfos

/-- The loop of `deserialize` over the remaining `n` files. -/
def deserializeFileInfos : ℕ → Bytes → Except Exception (List FileInfo × Bytes)
  | 0, it => .ok ([], it)
  | n + 1, it => do
      let (pathLength, it) ← Utils.deserializeNat 2 it
      let (path, it) ← Utils.deserialize pathLength it
      let (size, it) ← Utils.deserializeNat 8 it
      let (infos, it) ← deserializeFileInfos n it
      return (⟨path, .ofNat size⟩ :: infos, it)

/-- `deserialize`. -/
def deserialize (buffer : Bytes) : Except Exception TransferRequest := do
  let (numFiles, it) ← Utils.deserializeNat 4 buffer
  let (transferSize, it) ← Utils.deserializeNat 8 it
  let (uncompressedChunkSize, it) ← Utils.deserializeNat 4 it
  let (uncompressedLastChunkSize, it) ← Utils.deserializeNat 4 it
  let (numChunks, it) ← Utils.deserializeNat 4 it
  let (fileInfos, _) ← deserializeFileInfos numFiles it
  return ⟨.ofNat numFiles, .ofNat transferSize, .ofNat uncompressedChunkSize,
    .ofNat uncompressedLastChunkSize, .ofNat numChunks, fileInfos⟩

/-- The loop of `deserialize` undoes the loop of `serialize`, and leaves what follows. -/
theorem deserializeFileInfos_append {infos : List FileInfo} {bytes : Bytes} (rest : Bytes)
    (h : serializeFileInfos infos = .ok bytes) :
    deserializeFileInfos infos.length (bytes ++ rest) = .ok (infos, rest) := by
  induction infos generalizing bytes with
  | nil =>
    cases h
    rfl
  | cons info infos ih =>
    rw [serializeFileInfos] at h
    by_cases hlong : uint16Max < info.relativePath.length
    · rw [if_pos hlong] at h
      cases h
    rw [if_neg hlong] at h
    obtain ⟨later, hlater, h⟩ := Except.bind_eq_ok.mp h
    cases h
    have hlength : info.relativePath.length < 256 ^ 2 := by
      unfold uint16Max at hlong
      omega
    simp only [List.length_cons, deserializeFileInfos, List.append_assoc,
      Utils.deserializeNat_leBytes hlength, Utils.deserialize_append,
      Utils.deserializeNat_uint64, ih hlater, bind, Except.bind]
    simp [pure, Except.pure]

/-- Lists of files are serialized one behind the other. -/
theorem serializeFileInfos_append_ok {infos later : List FileInfo} {bytes : Bytes}
    (h : serializeFileInfos (infos ++ later) = .ok bytes) :
    ∃ b c, serializeFileInfos infos = .ok b ∧ serializeFileInfos later = .ok c ∧
      bytes = b ++ c := by
  induction infos generalizing bytes with
  | nil => exact ⟨[], bytes, rfl, h, rfl⟩
  | cons info infos ih =>
    rw [List.cons_append, serializeFileInfos] at h
    by_cases hlong : uint16Max < info.relativePath.length
    · rw [if_pos hlong] at h
      cases h
    rw [if_neg hlong] at h
    obtain ⟨rest, hrest, h⟩ := Except.bind_eq_ok.mp h
    cases h
    obtain ⟨b, c, hb, hc, rfl⟩ := ih hrest
    refine ⟨leBytes 2 info.relativePath.length ++ info.relativePath ++
      leBytes 8 info.size.toNat ++ b, c, ?_, hc, by simp⟩
    rw [serializeFileInfos, if_neg hlong]
    exact Except.bind_eq_ok.mpr ⟨b, hb, rfl⟩

/-- What a request decodes to that counts no more files than it lists: the files that it counts. -/
theorem deserialize_serialize_take {r : TransferRequest} {bytes : Bytes} (rest : Bytes)
    (hnum : r.numFiles.toNat ≤ r.fileInfos.length) (h : serialize r = .ok bytes) :
    deserialize (bytes ++ rest) =
      .ok { r with fileInfos := r.fileInfos.take r.numFiles.toNat } := by
  obtain ⟨infos, hinfos, h⟩ := Except.bind_eq_ok.mp h
  cases h
  rw [← List.take_append_drop r.numFiles.toNat r.fileInfos] at hinfos
  obtain ⟨b, c, hb, -, rfl⟩ := serializeFileInfos_append_ok hinfos
  have hread := deserializeFileInfos_append (c ++ rest) hb
  rw [List.length_take, min_eq_left hnum] at hread
  simp only [deserialize, List.append_assoc, Utils.deserializeNat_uint32,
    Utils.deserializeNat_uint64, hread, bind, Except.bind]
  simp [pure, Except.pure]

/-- A request whose number of files is the length of its list survives the wire, whatever follows
it there. -/
theorem deserialize_serialize_append {r : TransferRequest} {bytes : Bytes} (rest : Bytes)
    (hnum : r.fileInfos.length = r.numFiles.toNat) (h : serialize r = .ok bytes) :
    deserialize (bytes ++ rest) = .ok r := by
  rw [deserialize_serialize_take rest (le_of_eq hnum.symm) h, ← hnum, List.take_length]

theorem deserialize_serialize {r : TransferRequest} {bytes : Bytes}
    (hnum : r.fileInfos.length = r.numFiles.toNat) (h : serialize r = .ok bytes) :
    deserialize bytes = .ok r := by
  rw [← List.append_nil bytes, deserialize_serialize_append [] hnum h]

/-- The loop of `from_file_paths` lists one file for each path, under its relative path. -/
theorem map_relativePath_addFileInfos {Path : Type} {relative : Path → Bytes}
    {fileSize : Path → Except Exception UInt64} {paths : List Path}
    {infos infos' : List FileInfo} {size size' : UInt64}
    (h : addFileInfos relative fileSize paths infos size = .ok (infos', size')) :
    infos'.map FileInfo.relativePath =
      infos.map FileInfo.relativePath ++ paths.map relative := by
  induction paths generalizing infos size with
  | nil =>
    cases h
    rw [List.map_nil, List.append_nil]
  | cons path paths ih =>
    obtain ⟨n, -, h⟩ := Except.bind_eq_ok.mp h
    rw [ih h, List.map_append, List.append_assoc]
    rfl

theorem length_addFileInfos {Path : Type} {relative : Path → Bytes}
    {fileSize : Path → Except Exception UInt64} {paths : List Path}
    {infos infos' : List FileInfo} {size size' : UInt64}
    (h : addFileInfos relative fileSize paths infos size = .ok (infos', size')) :
    infos'.length = infos.length + paths.length := by
  have hlength := congrArg List.length (map_relativePath_addFileInfos h)
  rwa [List.length_append, List.length_map, List.length_map, List.length_map] at hlength

theorem numFiles_of_fromFilePaths {Path : Type} {relative : Path → Bytes}
    {fileSize : Path → Except Exception UInt64} {filePaths : List Path} {r : TransferRequest}
    (h : fromFilePaths relative fileSize filePaths = .ok r) :
    r.numFiles = .ofNat r.fileInfos.length := by
  obtain ⟨hadd, -, hnum, -⟩ := fromFilePaths_ok h
  rw [hnum, length_addFileInfos hadd, List.length_nil, Nat.zero_add]

/-- What a request of `from_file_paths` decodes to: the same request, if and only if 32 bits count
its files; the same sizes in any case. -/
theorem decode_of_fromFilePaths {Path : Type} {relative : Path → Bytes}
    {fileSize : Path → Except Exception UInt64} {filePaths : List Path} {r : TransferRequest}
    {bytes : Bytes} (h : fromFilePaths relative fileSize filePaths = .ok r)
    (hser : serialize r = .ok bytes) :
    ∃ r', deserialize bytes = .ok r' ∧ r'.transferSize = r.transferSize ∧
      (∀ info ∈ r'.fileInfos, info ∈ r.fileInfos) ∧ (r' = r ↔ r.fileInfos.length < 2 ^ 32) := by
  have hnum : r.numFiles.toNat = r.fileInfos.length % 2 ^ 32 := by
    rw [numFiles_of_fromFilePaths h]
    rfl
  have hle : r.numFiles.toNat ≤ r.fileInfos.length := by
    rw [hnum]
    exact Nat.mod_le _ _
  have hdec := deserialize_serialize_take [] hle hser
  rw [List.append_nil] at hdec
  refine ⟨_, hdec, rfl,
    fun info hinfo => List.mem_of_mem_take hinfo, ?_⟩
  constructor
  · intro heq
    have hlen := congrArg (fun r => r.fileInfos.length) heq
    simp only [List.length_take] at hlen
    omega
  · intro hlt
    rw [Nat.mod_eq_of_lt hlt] at hnum
    simp [hnum]

end TransferRequest

end Trit
