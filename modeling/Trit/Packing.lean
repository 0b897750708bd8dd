import Trit.FileManager
import Trit.EncryptionManager
import Trit.Lib.Blocks
import Mathlib.Tactic.Ring

/-!
# The packing of a request

The chunks the sender cuts its files into, said without threads and buffers: the files of a request
one after the other, cut into blocks of the chunk size.

* `payload`, `packing`: the bytes of a transfer and its chunks;
* `Fits`: the numbers of a request agree with the files; `fits_of_fromFilePaths` says that those
  of `from_file_paths` do;
* `ReadFlow`: the chunker pushes the chunks of the packing in order;
* `ReadNumbers`: it numbers its chunks from 1, whatever the request says.
-/

namespace Trit

open Blocks

namespace FileManager

/-! ### The bytes of a transfer -/

/-- `file_size` of a file in the working directory. -/
def Disk.fileSize (disk : Disk) (relativePath : Bytes) : Except Exception UInt64 :=
  match disk relativePath with
  | some contents => .ok (.ofNat contents.length)
  | none => .error (noSuchFile relativePath)

/-- The contents of a list of files, one after the other. -/
def payload (disk : Disk) (infos : List FileInfo) : Bytes :=
  (infos.map fun info => (disk info.relativePath).getD []).flatten

@[simp] theorem payload_nil (disk : Disk) : payload disk [] = [] := rfl

theorem payload_cons {disk : Disk} {info : FileInfo} {infos : List FileInfo} {b : Bytes}
    (h : disk info.relativePath = some b) :
    payload disk (info :: infos) = b ++ payload disk infos := by
  simp [payload, h]

/-- A file of a transfer is no longer than the transfer. -/
theorem length_le_payload {disk : Disk} {infos : List FileInfo} {info : FileInfo} {b : Bytes}
    (hmem : info ∈ infos) (h : disk info.relativePath = some b) :
    b.length ≤ (payload disk infos).length := by
  induction infos with
  | nil => cases hmem
  | cons i infos ih =>
    have hsplit : payload disk (i :: infos) =
        (disk i.relativePath).getD [] ++ payload disk infos := rfl
    rw [hsplit, List.length_append]
    rcases List.mem_cons.mp hmem with rfl | hmem
    · rw [h, Option.getD_some]
      omega
    · have := ih hmem
      omega

/-- The numbers of a request agree with the files on the disk. -/
structure Fits (r : TransferRequest) (disk : Disk) : Prop where
  sizes : ∀ info ∈ r.fileInfos, ∃ b, disk info.relativePath = some b ∧
    b.length = info.size.toNat
  chunkSize_pos : 0 < r.uncompressedChunkSize.toNat
  chunkSize_le : r.uncompressedChunkSize.toNat ≤ 8192
  chunkSize_le_length : r.uncompressedChunkSize.toNat ≤ (payload disk r.fileInfos).length
  lt_length : (r.numChunks.toNat - 1) * r.uncompressedChunkSize.toNat <
    (payload disk r.fileInfos).length
  length_le : (payload disk r.fileInfos).length ≤
    r.numChunks.toNat * r.uncompressedChunkSize.toNat
  finalChunkSize : r.uncompressedFinalChunkSize.toNat =
    (payload disk r.fileInfos).length % r.uncompressedChunkSize.toNat

/-- The loop of `from_file_paths` lists the files with their sizes and adds the sizes up. -/
theorem addFileInfos_ok {Path : Type} {relative : Path → Bytes} {disk : Disk}
    {paths : List Path} {infos infos' : List FileInfo} {size size' : UInt64}
    (h : TransferRequest.addFileInfos relative (fun p => disk.fileSize (relative p)) paths infos
      size = .ok (infos', size')) :
    ∃ new, infos' = infos ++ new ∧ new.map FileInfo.relativePath = paths.map relative ∧
      (∀ info ∈ new, ∃ b, disk info.relativePath = some b ∧ info.size = .ofNat b.length) ∧
      size' = size + .ofNat (payload disk new).length := by
  induction paths generalizing infos size with
  | nil =>
    cases h
    exact ⟨[], by simp, rfl, by simp, by simp⟩
  | cons path paths ih =>
    obtain ⟨fileSize, hsize, h⟩ := Except.bind_eq_ok.mp h
    cases hb : disk (relative path) with
    | none => simp [Disk.fileSize, hb] at hsize
    | some b =>
      obtain rfl : .ofNat b.length = fileSize := by simpa [Disk.fileSize, hb] using hsize
      obtain ⟨new, rfl, hpaths, hfiles, rfl⟩ := ih h
      refine ⟨⟨relative path, .ofNat b.length⟩ :: new, by simp, by simp [hpaths], ?_, ?_⟩
      · intro info hmem
        rcases List.mem_cons.mp hmem with rfl | hmem
        · exact ⟨b, hb, rfl⟩
        · exact hfiles info hmem
      · have hb' : disk (FileInfo.mk (relative path) (.ofNat b.length)).relativePath = some b := hb
        rw [payload_cons hb', List.length_append, UInt64.ofNat_add, UInt64.add_assoc]

/-- The numbers that `from_file_paths` computes, as long as the number of chunks fits into 32
bits. -/
theorem fits_of_fromFilePaths {Path : Type} {relative : Path → Bytes} {disk : Disk}
    {paths : List Path} {r : TransferRequest}
    (h : TransferRequest.fromFilePaths relative (fun p => disk.fileSize (relative p)) paths =
      .ok r)
    (hsize : (payload disk r.fileInfos).length ≤ 8192 * (2 ^ 32 - 1)) : Fits r disk := by
  obtain ⟨hadd, -⟩ := TransferRequest.fromFilePaths_ok h
  obtain ⟨new, hinfos, -, hfiles, htotal⟩ := addFileInfos_ok hadd
  rw [List.nil_append] at hinfos
  rw [UInt64.zero_add, ← hinfos] at htotal
  rw [← hinfos] at hfiles
  have htoNat : r.transferSize.toNat = (payload disk r.fileInfos).length := by
    rw [htotal]
    exact UInt64.toNat_ofNat_of_lt' (by
      show (payload disk r.fileInfos).length < 2 ^ 64
      omega)
  rw [← htoNat] at hsize
  obtain ⟨hpos, hcs, hfinal⟩ := TransferRequest.chunkSize_of_fromFilePaths h
  obtain ⟨hle, hlt⟩ := TransferRequest.numChunks_bounds h hsize
  rw [htoNat] at hpos hcs hfinal hle hlt hsize
  refine ⟨?_, by omega, by omega, by omega, ?_, hle, hfinal⟩
  · intro info hmem
    obtain ⟨b, hb, hsz⟩ := hfiles info hmem
    have hlen := length_le_payload hmem hb
    refine ⟨b, hb, ?_⟩
    rw [hsz]
    exact (UInt64.toNat_ofNat_of_lt' (by show b.length < 2 ^ 64; omega)).symm
  · rw [Nat.sub_mul, Nat.one_mul]
    omega

/-! ### The packing -/

/-- The chunks of a transfer: the payload in blocks of the chunk size, numbered from 1. -/
def packing (r : TransferRequest) (disk : Disk) : List Chunk :=
  (List.range r.numChunks.toNat).map fun k =>
    .plain (.ofNat (k + 1)) (block r.uncompressedChunkSize.toNat (payload disk r.fileInfos) k)

@[simp] theorem length_packing (r : TransferRequest) (disk : Disk) :
    (packing r disk).length = r.numChunks.toNat := by
  simp [packing]

theorem getElem?_packing {r : TransferRequest} {k : ℕ} (disk : Disk) (h : k < r.numChunks.toNat) :
    (packing r disk)[k]? = some (.plain (.ofNat (k + 1))
      (block r.uncompressedChunkSize.toNat (payload disk r.fileInfos) k)) := by
  simp [packing, List.getElem?_range h]

namespace Fits

variable {r : TransferRequest} {disk : Disk}

theorem numChunks_pos (hr : Fits r disk) : 0 < r.numChunks.toNat := by
  have h := hr.length_le
  have h' := hr.lt_length
  by_contra h0
  rw [Nat.eq_zero_of_not_pos h0, Nat.zero_mul] at h
  omega

/-- The length of the `k`-th block, as the chunker computes it. -/
theorem length_block_eq (hr : Fits r disk) {k : ℕ} (hk : k < r.numChunks.toNat) :
    (block r.uncompressedChunkSize.toNat (payload disk r.fileInfos) k).length =
      if k + 1 = r.numChunks.toNat ∧ r.uncompressedFinalChunkSize.toNat ≠ 0 then
        r.uncompressedFinalChunkSize.toNat
      else r.uncompressedChunkSize.toNat := by
  rw [length_block, length_block_of_mod hr.chunkSize_pos hr.lt_length hr.length_le hk,
    hr.finalChunkSize]

/-- No chunk is empty, and none is larger than the chunk size. -/
theorem length_block_bounds (hr : Fits r disk) {k : ℕ} (hk : k < r.numChunks.toNat) :
    0 < (block r.uncompressedChunkSize.toNat (payload disk r.fileInfos) k).length ∧
      (block r.uncompressedChunkSize.toNat (payload disk r.fileInfos) k).length ≤
        r.uncompressedChunkSize.toNat := by
  have hpos := hr.chunkSize_pos
  refine ⟨?_, ?_⟩
  · rw [hr.length_block_eq hk]
    split_ifs with h
    · omega
    · exact hpos
  · rw [length_block]
    exact min_le_left _ _

end Fits

/-- The chunks of the packing pass the checks of `encrypt_chunk`. -/
theorem encryptable_of_mem_packing {r : TransferRequest} {disk : Disk} (hr : Fits r disk)
    {c : Chunk} (hc : c ∈ packing r disk) :
    EncryptionManager.Encryptable r.uncompressedChunkSize r.numChunks.toUInt64 c := by
  obtain ⟨k, hk, rfl⟩ := List.mem_map.mp hc
  rw [List.mem_range] at hk
  have hnum := r.numChunks.toNat_lt
  have hseq : (UInt64.ofNat (k + 1)).toNat = k + 1 :=
    UInt64.toNat_ofNat_of_lt' (by show k + 1 < 2 ^ 64; omega)
  refine ⟨?_, ?_, hr.chunkSize_le, (hr.length_block_bounds hk).2, rfl⟩
  · intro h0
    have h := congrArg UInt64.toNat h0
    rw [Chunk.plain_sequenceNum, hseq] at h
    exact absurd h (Nat.succ_ne_zero k)
  · rw [UInt64.le_iff_toNat_le, Chunk.plain_sequenceNum, hseq, UInt32.toNat_toUInt64]
    exact hk

/-! ### The chunker -/

/-- The buffer is filled with the first bytes of the `k`-th block, and `rest` goes on behind
them. -/
structure Filled (r : TransferRequest) (disk : Disk) (k : ℕ) (l : ReadLocals) (rest : Bytes) :
    Prop where
  sequenceCounter : l.sequenceCounter = .ofNat (k + 1)
  le : k ≤ r.numChunks.toNat
  length : l.buffer.length =
    if k + 1 = r.numChunks.toNat ∧ r.uncompressedFinalChunkSize.toNat ≠ 0 then
      r.uncompressedFinalChunkSize.toNat
    else r.uncompressedChunkSize.toNat
  capacity_pos : 0 < l.remainingBufferCapacity
  capacity_le : l.remainingBufferCapacity ≤ l.buffer.length
  bytes : l.buffer.take (l.buffer.length - l.remainingBufferCapacity) ++ rest =
    (payload disk r.fileInfos).drop (k * r.uncompressedChunkSize.toNat)

/-- The chunker has pushed the first chunks of the packing, and the rest of the payload is in its
buffer, in the current file and in the files to come. -/
def ReadFlow (r : TransferRequest) (disk : Disk) (pushed : List Chunk) (done : Bool) :
    Thread ReadPc → Prop
  | .running (.nextFile l infos) => (∀ info ∈ infos, info ∈ r.fileInfos) ∧ done = false ∧
      pushed <+: packing r disk ∧ Filled r disk pushed.length l (payload disk infos)
  | .running (.openFile l info infos) => (∀ i ∈ info :: infos, i ∈ r.fileInfos) ∧ done = false ∧
      pushed <+: packing r disk ∧
      Filled r disk pushed.length l (payload disk (info :: infos))
  | .running (.abortCheck l file n infos) | .running (.read l file n infos) =>
      (∀ info ∈ infos, info ∈ r.fileInfos) ∧ done = false ∧ pushed <+: packing r disk ∧
      file.length = n ∧ 0 < n ∧ Filled r disk pushed.length l (file ++ payload disk infos)
  | .running (.push c l file n infos) =>
      (∀ info ∈ infos, info ∈ r.fileInfos) ∧ done = false ∧
      pushed ++ [c] <+: packing r disk ∧ file.length = n ∧
      l.sequenceCounter = .ofNat (pushed.length + 2) ∧
      file ++ payload disk infos = (payload disk r.fileInfos).drop
        ((pushed.length + 1) * r.uncompressedChunkSize.toNat)
  | .returned => pushed = packing r disk ∧ done = true
  | .running .outputDone | .caught _ | .flagged _ => False

theorem ReadFlow.whileLoop {r : TransferRequest} {disk : Disk} {pushed : List Chunk}
    {l : ReadLocals} {file : Bytes} {infos : List FileInfo}
    (hinfos : ∀ info ∈ infos, info ∈ r.fileInfos) (hpushed : pushed <+: packing r disk)
    (h : Filled r disk pushed.length l (file ++ payload disk infos)) :
    ReadFlow r disk pushed false (.running (.whileLoop l file file.length infos)) := by
  unfold ReadPc.whileLoop
  split_ifs with hn
  · exact ⟨hinfos, rfl, hpushed, rfl, hn, h⟩
  · obtain rfl : file = [] := List.eq_nil_of_length_eq_zero (by omega)
    exact ⟨hinfos, rfl, hpushed, h⟩

theorem ReadFlow.initial {r : TransferRequest} {disk : Disk} (hr : Fits r disk) :
    ReadFlow r disk [] false (.running (.nextFile (.initial r) r.fileInfos)) := by
  have hpos := hr.chunkSize_pos
  refine ⟨fun _ h => h, rfl, List.nil_prefix, ⟨rfl, Nat.zero_le _, ?_, ?_, ?_, ?_⟩⟩
  · -- a single chunk is as long as the payload, and the remainder is zero
    have hblock := hr.length_block_eq hr.numChunks_pos
    have hle := hr.chunkSize_le_length
    rw [length_block, Nat.zero_mul, Nat.sub_zero, min_eq_left hle] at hblock
    rw [ReadLocals.initial, List.length_replicate]
    exact hblock
  · exact hpos
  · rw [ReadLocals.initial, List.length_replicate]
  · simp [ReadLocals.initial]

theorem ReadFlow.openForReading {r : TransferRequest} {disk : Disk} (hr : Fits r disk)
    {pushed : List Chunk} {done : Bool} {l : ReadLocals} {info : FileInfo}
    {infos : List FileInfo}
    (hi : ReadFlow r disk pushed done (.running (.openFile l info infos))) :
    ReadFlow r disk pushed done (FileManager.openForReading disk l info infos) := by
  obtain ⟨hinfos, rfl, hpushed, hfilled⟩ := hi
  obtain ⟨b, hb, hlen⟩ := hr.sizes info (hinfos info (List.mem_cons_self))
  rw [payload_cons hb] at hfilled
  rw [FileManager.openForReading, hb]
  show ReadFlow r disk pushed false (if b.length ≠ info.size.toNat then _ else _)
  rw [if_neg (not_not.mpr hlen)]
  exact ReadFlow.whileLoop (fun i h => hinfos i (List.mem_cons_of_mem _ h)) hpushed hfilled

theorem length_overwrite {buffer bytes : Bytes} {offset : ℕ}
    (h : offset + bytes.length ≤ buffer.length) :
    (overwrite buffer offset bytes).length = buffer.length := by
  simp only [overwrite, List.length_append, List.length_take, List.length_drop]
  omega

theorem take_overwrite {buffer bytes : Bytes} {offset : ℕ}
    (h : offset + bytes.length ≤ buffer.length) :
    (overwrite buffer offset bytes).take (offset + bytes.length) =
      buffer.take offset ++ bytes := by
  refine List.take_left' ?_
  rw [List.length_append, List.length_take, min_eq_left (by omega)]

theorem prefix_concat {α : Type} {l m : List α} {a : α} (h : l <+: m)
    (ha : m[l.length]? = some a) : l ++ [a] <+: m := by
  rw [List.prefix_iff_eq_take] at h ⊢
  rw [List.length_append, List.length_singleton, List.take_add_one, ha, ← h, Option.toList_some]

/-- A sequence number below 2^32 is the same in 32 and in 64 bits. -/
theorem toUInt64_ofNat {n : ℕ} (h : n < 2 ^ 32) :
    (UInt32.ofNat n).toUInt64 = UInt64.ofNat n := by
  apply UInt64.toNat.inj
  rw [UInt32.toNat_toUInt64, UInt32.toNat_ofNat_of_lt' h,
    UInt64.toNat_ofNat_of_lt' (by show n < 2 ^ 64; omega)]

/-- A buffer that holds the whole block is the next chunk, and the rest goes on behind it. -/
theorem Filled.complete {r : TransferRequest} {disk : Disk} (hr : Fits r disk)
    {pushed : List Chunk} {sequenceCounter : UInt32} {buffer rest : Bytes}
    (hpushed : pushed <+: packing r disk) (hlt : pushed.length < r.numChunks.toNat)
    (hseq : sequenceCounter = .ofNat (pushed.length + 1))
    (hlen : buffer.length = if pushed.length + 1 = r.numChunks.toNat ∧
      r.uncompressedFinalChunkSize.toNat ≠ 0 then r.uncompressedFinalChunkSize.toNat
      else r.uncompressedChunkSize.toNat)
    (hbytes : buffer ++ rest =
      (payload disk r.fileInfos).drop (pushed.length * r.uncompressedChunkSize.toNat)) :
    pushed ++ [.plain sequenceCounter.toUInt64 buffer] <+: packing r disk ∧
      rest = (payload disk r.fileInfos).drop
        ((pushed.length + 1) * r.uncompressedChunkSize.toNat) := by
  rw [← hr.length_block_eq hlt] at hlen
  rw [← block_append] at hbytes
  obtain ⟨hblock, hrest⟩ := List.append_inj hbytes hlen
  refine ⟨prefix_concat hpushed ?_, hrest⟩
  rw [getElem?_packing disk hlt, ← hblock, hseq]
  have hnum := r.numChunks.toNat_lt
  rw [toUInt64_ofNat (by omega)]

theorem ReadFlow.readIntoBuffer {r : TransferRequest} {disk : Disk} (hr : Fits r disk)
    {pushed : List Chunk} {done : Bool} {l : ReadLocals} {file : Bytes} {n : ℕ}
    {infos : List FileInfo}
    (hi : ReadFlow r disk pushed done (.running (.read l file n infos))) :
    ReadFlow r disk pushed done (FileManager.readIntoBuffer l file n infos) := by
  obtain ⟨hinfos, rfl, hpushed, rfl, hpos, hseq, hle, hlen, hcap, hcaple, hbytes⟩ := hi
  unfold FileManager.readIntoBuffer
  dsimp only
  -- `bytes` are read, `rest` stays in the file
  have hsplit := List.take_append_drop (min file.length l.remainingBufferCapacity) file
  have hread : (file.take (min file.length l.remainingBufferCapacity)).length =
      min file.length l.remainingBufferCapacity := by
    rw [List.length_take]
    omega
  generalize file.take (min file.length l.remainingBufferCapacity) = bytes at hsplit hread ⊢
  generalize file.drop (min file.length l.remainingBufferCapacity) = rest at hsplit ⊢
  rw [if_neg (not_not.mpr hread)]
  have hrest : file.length - bytes.length = rest.length := by
    rw [← hsplit, List.length_append]
    omega
  have hfit : l.buffer.length - l.remainingBufferCapacity + bytes.length ≤ l.buffer.length := by
    omega
  have hlen' := (length_overwrite hfit).trans hlen
  have hbytes' : (overwrite l.buffer (l.buffer.length - l.remainingBufferCapacity) bytes).take
      (l.buffer.length - l.remainingBufferCapacity + bytes.length) ++
        (rest ++ payload disk infos) = (payload disk r.fileInfos).drop
          (pushed.length * r.uncompressedChunkSize.toNat) := by
    rw [take_overwrite hfit, ← hbytes, ← hsplit, List.append_assoc, List.append_assoc]
  rw [hrest]
  split_ifs with hfull
  · -- the buffer is full: it is the next chunk
    -- a byte has been read, so the blocks of the payload have not all been pushed
    have hlt : pushed.length < r.numChunks.toNat := by
      by_contra hge
      have hend : (payload disk r.fileInfos).drop
          (pushed.length * r.uncompressedChunkSize.toNat) = [] := by
        rw [show pushed.length = r.numChunks.toNat by omega]
        exact List.drop_of_length_le hr.length_le
      rw [hend, List.append_eq_nil_iff, List.append_eq_nil_iff] at hbytes
      rw [hbytes.2.1] at hpos
      exact absurd hpos (lt_irrefl 0)
    rw [List.take_of_length_le (by rw [length_overwrite hfit]; omega)] at hbytes'
    obtain ⟨hc, hdrop⟩ := Filled.complete hr hpushed hlt hseq hlen' hbytes'
    refine ⟨hinfos, rfl, hc, rfl, ?_, hdrop⟩
    show l.sequenceCounter + 1 = .ofNat (pushed.length + 1 + 1)
    rw [hseq, UInt32.ofNat_add (pushed.length + 1) 1]
    rfl
  · refine ReadFlow.whileLoop hinfos hpushed
      ⟨hseq, hle, hlen', Nat.pos_of_ne_zero hfull, ?_, ?_⟩
    · rw [length_overwrite hfit]
      show l.remainingBufferCapacity - bytes.length ≤ _
      omega
    · rw [length_overwrite hfit, ← hbytes']
      show (overwrite _ _ _).take
        (l.buffer.length - (l.remainingBufferCapacity - bytes.length)) ++ _ = _
      rw [show l.buffer.length - (l.remainingBufferCapacity - bytes.length) =
        l.buffer.length - l.remainingBufferCapacity + bytes.length by omega]

theorem ReadFlow.afterPush {r : TransferRequest} {disk : Disk} (hr : Fits r disk)
    {pushed : List Chunk} {done : Bool} {c : Chunk} {l : ReadLocals} {file : Bytes} {n : ℕ}
    {infos : List FileInfo}
    (hi : ReadFlow r disk pushed done (.running (.push c l file n infos))) :
    ReadFlow r disk (pushed ++ [c]) done
      (.running (.whileLoop (.afterPush r l.sequenceCounter) file n infos)) := by
  obtain ⟨hinfos, rfl, hpushed, rfl, hseq, hbytes⟩ := hi
  have hle := hpushed.length_le
  rw [List.length_append, List.length_singleton, length_packing] at hle
  refine ReadFlow.whileLoop hinfos hpushed ⟨?_, ?_, ?_, ?_, ?_, ?_⟩
  · rw [List.length_append, List.length_singleton]
    exact hseq
  · rw [List.length_append, List.length_singleton]
    exact hle
  · -- the counter is compared in 32 bits, where it may have wrapped around
    have hnum := r.numChunks.toNat_lt
    have hpos := hr.numChunks_pos
    have hlast : l.sequenceCounter = r.numChunks ↔ pushed.length + 2 = r.numChunks.toNat := by
      rw [hseq, ← UInt32.toNat_inj, UInt32.toNat_ofNat']
      omega
    have hfinal : r.uncompressedFinalChunkSize ≠ 0 ↔
        r.uncompressedFinalChunkSize.toNat ≠ 0 := by
      rw [Ne, ← UInt32.toNat_inj]
      rfl
    rw [List.length_append, List.length_singleton]
    simp only [ReadLocals.afterPush, List.length_replicate, newBufferSize, hlast, hfinal]
  · have hcs := hr.chunkSize_pos
    show 0 < newBufferSize r l.sequenceCounter
    unfold newBufferSize
    split_ifs with h
    · exact Nat.pos_of_ne_zero fun h0 => h.2 (UInt32.toNat_inj.mp h0)
    · exact hcs
  · simp [ReadLocals.afterPush]
  · rw [List.length_append, List.length_singleton, ← hbytes]
    simp [ReadLocals.afterPush]

/-- At the end of the list of files everything has been pushed. -/
theorem ReadFlow.finished {r : TransferRequest} {disk : Disk} (hr : Fits r disk)
    {pushed : List Chunk} {done : Bool} {l : ReadLocals}
    (hi : ReadFlow r disk pushed done (.running (.nextFile l []))) :
    pushed = packing r disk := by
  obtain ⟨-, -, hpushed, hseq, hle, hlen, hcap, hcaple, hbytes⟩ := hi
  by_cases hlt : pushed.length < r.numChunks.toNat
  · -- a block that is not complete yet has bytes to come
    exfalso
    rw [← hr.length_block_eq hlt] at hlen
    have hb := congrArg List.length hbytes
    rw [payload_nil, List.append_nil, List.length_take] at hb
    have hrest := congrArg List.length
      (block_append r.uncompressedChunkSize.toNat (payload disk r.fileInfos) pushed.length)
    rw [List.length_append] at hrest
    omega
  · refine hpushed.eq_of_length ?_
    rw [length_packing]
    omega

theorem ReadFlow.move {capacity : ℕ} {r : TransferRequest} {v v' : View capacity Disk}
    {pc : ReadPc} {t : Thread ReadPc} (h : ReadMove r false none v pc t v')
    (hr : Fits r v.world)
    (hi : ReadFlow r v.world v.output.queue.pushed v.output.done (.running pc)) :
    ReadFlow r v.world v'.output.queue.pushed v'.output.done t ∧ v'.world = v.world := by
  cases h with
  | finished l hpc => subst hpc; exact ⟨⟨ReadFlow.finished hr hi, rfl⟩, rfl⟩
  | abortFile l info infos hpc ha => cases ha
  | goOnFile l info infos hpc => subst hpc; exact ⟨hi, rfl⟩
  | opened l info infos hpc => subst hpc; exact ⟨ReadFlow.openForReading hr hi, rfl⟩
  | openFault l info infos x hpc hf => cases hf
  | abortRead l file n infos hpc ha => cases ha
  | goOnRead l file n infos hpc => subst hpc; exact ⟨hi, rfl⟩
  | read l file n infos hpc => subst hpc; exact ⟨ReadFlow.readIntoBuffer hr hi, rfl⟩
  | readFault l file n infos x hpc hf => cases hf
  | pushed c l file n infos q hpc hq =>
    subst hpc
    refine ⟨?_, rfl⟩
    show ReadFlow r v.world q.pushed v.output.done _
    rw [BoundedThreadSafeQueue.pushed_push hq]
    exact ReadFlow.afterPush hr hi
  | aborted hpc => subst hpc; exact hi.elim

theorem ReadFlow.pushed_isPrefix {r : TransferRequest} {disk : Disk} {pushed : List Chunk}
    {done : Bool} {t : Thread ReadPc} (h : ReadFlow r disk pushed done t) :
    pushed <+: packing r disk := by
  cases t with
  | running pc =>
    cases pc with
    | nextFile l infos => exact h.2.2.1
    | openFile l info infos => exact h.2.2.1
    | abortCheck l file n infos => exact h.2.2.1
    | read l file n infos => exact h.2.2.1
    | push c l file n infos => exact (List.prefix_append _ _).trans h.2.2.1
    | outputDone => exact h.elim
  | returned => exact h.1 ▸ List.prefix_rfl
  | caught e => exact h.elim
  | flagged e => exact h.elim

theorem ReadFlow.thrown {r : TransferRequest} {disk : Disk} {pushed : List Chunk} {done : Bool}
    {t : Thread ReadPc} (h : ReadFlow r disk pushed done t) : t.thrown = false := by
  cases t with
  | running pc => rfl
  | returned => rfl
  | caught e => exact h.elim
  | flagged e => exact h.elim

/-- While the chunker runs, its output goes on. -/
theorem ReadFlow.done_eq_false {r : TransferRequest} {disk : Disk} {pushed : List Chunk}
    {done : Bool} {pc : ReadPc} (h : ReadFlow r disk pushed done (.running pc)) :
    done = false := by
  cases pc with
  | outputDone => exact h.elim
  | _ => exact h.2.1

theorem ReadFlow.returned_of_done {r : TransferRequest} {disk : Disk} {pushed : List Chunk}
    {done : Bool} {t : Thread ReadPc} (h : ReadFlow r disk pushed done t)
    (hdone : done = true) : t = .returned := by
  rcases Thread.cases_of_not_thrown h.thrown with ⟨pc, rfl⟩ | ht
  · cases h.done_eq_false.symm.trans hdone
  · exact ht

/-! ### The sequence numbers -/

/-- The chunks are numbered from 1, as far as 32 bits count. -/
def Numbered (cs : List Chunk) : Prop :=
  ∀ i c, cs[i]? = some c → c.sequenceNum = (UInt32.ofNat (i + 1)).toUInt64

theorem Numbered.concat {cs : List Chunk} {c : Chunk} (h : Numbered cs)
    (hc : c.sequenceNum = (UInt32.ofNat (cs.length + 1)).toUInt64) : Numbered (cs ++ [c]) := by
  intro i d hd
  by_cases hi : i < cs.length
  · rw [List.getElem?_append_left hi] at hd
    exact h i d hd
  · rw [List.getElem?_append_right (by omega), List.getElem?_singleton] at hd
    split_ifs at hd with h0
    cases hd
    rw [hc, show i = cs.length by omega]

theorem Numbered.of_isPrefix {cs ds : List Chunk} (h : Numbered ds) (hp : cs <+: ds) :
    Numbered cs := by
  intro i c hc
  refine h i c ?_
  obtain ⟨rest, rfl⟩ := hp
  obtain ⟨hi, -⟩ := List.getElem?_eq_some_iff.mp hc
  rw [List.getElem?_append_left hi, hc]

/-- Up to `num_chunks` of them the numbers do not wrap around. -/
theorem Numbered.map_sequenceNum {cs : List Chunk} (h : Numbered cs)
    (hlen : cs.length < 2 ^ 32) :
    cs.map Chunk.sequenceNum = (List.range cs.length).map fun k => UInt64.ofNat (k + 1) := by
  refine List.ext_getElem (by simp) fun i hi hi' => ?_
  rw [List.length_map] at hi
  rw [List.getElem_map, List.getElem_map, List.getElem_range,
    h i _ (List.getElem?_eq_getElem hi)]
  exact toUInt64_ofNat (by omega)

/-- Of numbered chunks, at most `num_chunks` can be encrypted: a later number is out of range,
also when it has wrapped around. -/
theorem Numbered.length_le {ss : SecretStream} {m m' : EncryptionManager ss}
    {cs ds : List Chunk} (h : Numbered cs) (numChunks : UInt32)
    (hm : m.numChunks = numChunks.toUInt64)
    (hall : transformAll EncryptionManager.encryptChunk m cs = .ok (ds, m')) :
    cs.length ≤ numChunks.toNat := by
  by_contra hlt
  rw [not_le] at hlt
  have hget := List.getElem?_eq_getElem hlt
  have hseq := h _ _ hget
  obtain ⟨hne, hle⟩ :=
    (EncryptionManager.transformAll_encryptChunk_ok hall).2 _ (List.getElem_mem hlt)
  rw [hseq] at hne hle
  rw [hm, UInt64.le_iff_toNat_le, UInt32.toNat_toUInt64, UInt32.toNat_toUInt64,
    UInt32.toNat_ofNat'] at hle
  have hnum := numChunks.toNat_lt
  by_cases hwrap : numChunks.toNat + 1 = 2 ^ 32
  · refine hne ?_
    rw [hwrap]
    rfl
  · rw [Nat.mod_eq_of_lt (by omega)] at hle
    omega

/-- Whatever the request says and whatever fails, the chunker numbers its chunks from 1. -/
def ReadNumbers (pushed : List Chunk) : Thread ReadPc → Prop
  | .running (.nextFile l _) | .running (.openFile l _ _) | .running (.abortCheck l _ _ _)
  | .running (.read l _ _ _) =>
      Numbered pushed ∧ l.sequenceCounter = .ofNat (pushed.length + 1)
  | .running (.push c l _ _ _) =>
      Numbered (pushed ++ [c]) ∧ l.sequenceCounter = .ofNat (pushed.length + 2)
  | .running .outputDone | .caught _ | .flagged _ | .returned => Numbered pushed

theorem ReadNumbers.numbered {pushed : List Chunk} {t : Thread ReadPc}
    (h : ReadNumbers pushed t) : Numbered pushed := by
  cases t with
  | running pc =>
    cases pc with
    | push c l file n infos => exact h.1.of_isPrefix (List.prefix_append _ _)
    | outputDone => exact h
    | _ => exact h.1
  | _ => exact h

theorem ReadNumbers.whileLoop {pushed : List Chunk} {l : ReadLocals} {file : Bytes} {n : ℕ}
    {infos : List FileInfo} (h : Numbered pushed)
    (hl : l.sequenceCounter = .ofNat (pushed.length + 1)) :
    ReadNumbers pushed (.running (.whileLoop l file n infos)) := by
  unfold ReadPc.whileLoop
  split_ifs
  · exact ⟨h, hl⟩
  · exact ⟨h, hl⟩

theorem ReadNumbers.move {capacity : ℕ} {r : TransferRequest} {abort : Bool} {f : Option Fault}
    {v v' : View capacity Disk} {pc : ReadPc} {t : Thread ReadPc}
    (h : ReadMove r abort f v pc t v')
    (hi : ReadNumbers v.output.queue.pushed (.running pc)) :
    ReadNumbers v'.output.queue.pushed t := by
  cases h with
  | finished l hpc => subst hpc; exact hi.1
  | abortFile l info infos hpc => subst hpc; exact hi.1
  | goOnFile l info infos hpc => subst hpc; exact hi
  | opened l info infos hpc =>
    subst hpc
    unfold openForReading
    split
    · exact hi.1
    · split_ifs
      · exact hi.1
      · exact ReadNumbers.whileLoop hi.1 hi.2
  | openFault l info infos x hpc => subst hpc; exact hi.1
  | abortRead l file n infos hpc => subst hpc; exact hi.1
  | goOnRead l file n infos hpc => subst hpc; exact hi
  | read l file n infos hpc =>
    subst hpc
    obtain ⟨hnum, hseq⟩ := hi
    unfold readIntoBuffer
    dsimp only
    split_ifs
    · exact hnum
    · refine ⟨hnum.concat ?_, ?_⟩
      · rw [Chunk.plain_sequenceNum, hseq]
      · show l.sequenceCounter + 1 = .ofNat (v.output.queue.pushed.length + 1 + 1)
        rw [hseq, UInt32.ofNat_add (v.output.queue.pushed.length + 1) 1]
        rfl
    · exact ReadNumbers.whileLoop hnum hseq
  | readFault l file n infos x hpc => subst hpc; exact hi.1
  | pushed c l file n infos q hpc hq =>
    subst hpc
    show ReadNumbers q.pushed _
    rw [BoundedThreadSafeQueue.pushed_push hq]
    refine ReadNumbers.whileLoop hi.1 ?_
    rw [List.length_append, List.length_singleton]
    exact hi.2
  | aborted hpc => subst hpc; exact hi

end FileManager

end Trit
