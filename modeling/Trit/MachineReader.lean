import Trit.Packing
import Trit.Solo
import Trit.Lib.Intervals

/-!
# The counters of the chunker

`read_files_into_chunks` counts in three types as well: `remaining_buffer_capacity` has 32 bits,
`bytes_to_read` and `remaining_file_data` have 64, and `bytes_read` is signed.  Here the chunker has
these types, and every operation on them wraps where the type does.

* `MachineReader.readFilesIntoChunks`: the chunker, which also remembers what it has read into its
  buffer since it pushed the last chunk;
* `Locals.Inside`: what holds of the counters and the buffer; `Tiled`: what follows for the reads
  between two pushes;
* `reads_inside`: in every run all reads lie in the buffer, and a chunk consists of what was read
  since the last one;
* `run_toReadPc`: the chunker whose counters are natural numbers does the same.
-/

namespace Trit

open Transition Intervals FileManager

namespace MachineReader

/-! ### The program -/

/-- The local variables that live across files.  `reads` lists the calls of `file.read` since the
last push: where in the buffer, and what was read.  It influences nothing. -/
structure Locals where
  sequenceCounter : UInt32
  remainingBufferCapacity : UInt32
  buffer : Bytes
  reads : List (UInt64 × Bytes)
  deriving DecidableEq

/-- The size of the buffer for the chunk `sequenceCounter`, once an earlier one was pushed. -/
def newBufferSize (r : TransferRequest) (sequenceCounter : UInt32) : UInt32 :=
  if sequenceCounter = r.numChunks ∧ r.uncompressedFinalChunkSize ≠ 0 then
    r.uncompressedFinalChunkSize
  else r.uncompressedChunkSize

/-- `std::streamsize bytes_read = file.gcount()`. -/
def gcount (bytes : Bytes) : Int64 := Int64.ofNat bytes.length

namespace Locals

/-- The locals with an empty buffer of a given size. -/
def empty (sequenceCounter size : UInt32) : Locals :=
  ⟨sequenceCounter, size, List.replicate size.toNat 0, []⟩

/-- The locals before the first file. -/
def initial (r : TransferRequest) : Locals := empty 1 r.uncompressedChunkSize

/-- The locals after a push: the moved-from buffer is resized. -/
def afterPush (r : TransferRequest) (sequenceCounter : UInt32) : Locals :=
  empty sequenceCounter (newBufferSize r sequenceCounter)

/-- `bytes_to_read`. -/
def bytesToRead (l : Locals) (remainingFileData : UInt64) : UInt64 :=
  min remainingFileData l.remainingBufferCapacity.toUInt64

/-- `buffer.size() - remaining_buffer_capacity`. -/
def offset (l : Locals) : UInt64 :=
  UInt64.ofNat l.buffer.length - l.remainingBufferCapacity.toUInt64

/-- What `file.read` delivers: the number of bytes is handed over as a signed number. -/
def delivered (l : Locals) (file : Bytes) (remainingFileData : UInt64) : Bytes :=
  file.take (l.bytesToRead remainingFileData).toInt64.toNatClampNeg

/-- The locals after `file.read` and `remaining_buffer_capacity -= bytes_read`: the difference is
signed and is then cut to 32 bits. -/
def filled (l : Locals) (bytes : Bytes) : Locals where
  sequenceCounter := l.sequenceCounter
  remainingBufferCapacity :=
    (l.remainingBufferCapacity.toUInt64.toInt64 - gcount bytes).toUInt64.toUInt32
  buffer := overwrite l.buffer l.offset.toNat bytes
  reads := l.reads ++ [(l.offset, bytes)]

end Locals

/-- The program points. -/
inductive Pc
  | nextFile (l : Locals) (infos : List FileInfo)
  | openFile (l : Locals) (info : FileInfo) (infos : List FileInfo)
  | abortCheck (l : Locals) (file : Bytes) (remainingFileData : UInt64) (infos : List FileInfo)
  | read (l : Locals) (file : Bytes) (remainingFileData : UInt64) (infos : List FileInfo)
  | push (c : Chunk) (l : Locals) (file : Bytes) (remainingFileData : UInt64)
      (infos : List FileInfo)
  | outputDone
  deriving DecidableEq

/-- The head of the inner loop: `while (remaining_file_data > 0)`. -/
def whileLoop (l : Locals) (file : Bytes) (remainingFileData : UInt64) (infos : List FileInfo) :
    Pc :=
  if 0 < remainingFileData then .abortCheck l file remainingFileData infos
  else .nextFile l infos

/-- Opening a file: its size is compared with the request. -/
def openForReading (disk : Disk) (l : Locals) (info : FileInfo) (infos : List FileInfo) :
    Thread Pc :=
  match disk info.relativePath with
  | none => .caught (noSuchFile info.relativePath)
  | some contents =>
      let fileSize := UInt64.ofNat contents.length
      if fileSize ≠ info.size then .caught (fileSizeMismatch info.size.toNat fileSize.toNat)
      else .running (whileLoop l contents fileSize infos)

/-- The body of the inner loop up to the push.  A full buffer becomes the next chunk. -/
def readIntoBuffer (l : Locals) (file : Bytes) (remainingFileData : UInt64)
    (infos : List FileInfo) : Thread Pc :=
  let bytes := l.delivered file remainingFileData
  if (gcount bytes).toUInt64 ≠ l.bytesToRead remainingFileData then
    .caught (.runtimeError "\nDid not read expected number of bytes")
  else
    let l' := l.filled bytes
    let file' := file.drop bytes.length
    let remainingFileData' := remainingFileData - (gcount bytes).toUInt64
    if l'.remainingBufferCapacity = 0 then
      .running (.push (.plain l.sequenceCounter.toUInt64 l'.buffer)
        { l' with sequenceCounter := l.sequenceCounter + 1 } file' remainingFileData' infos)
    else .running (whileLoop l' file' remainingFileData' infos)

/-- `read_files_into_chunks`. -/
def readFilesIntoChunks (r : TransferRequest) : Pc → Call Disk Pc
  | .nextFile _ [] => .outputDone .returned
  | .nextFile l (info :: infos) => .shouldAbort fun b =>
      .running (if b then .outputDone else .openFile l info infos)
  | .openFile l info infos => .io
      (fun disk => some (openForReading disk l info infos, disk)) (fun _ disk => disk)
  | .abortCheck l file remainingFileData infos => .shouldAbort fun b =>
      .running (if b then .outputDone else .read l file remainingFileData infos)
  | .read l file remainingFileData infos => .io
      (fun disk => some (readIntoBuffer l file remainingFileData infos, disk))
      (fun _ disk => disk)
  | .push c l file remainingFileData infos => .push c
      (.running (whileLoop (.afterPush r l.sequenceCounter) file remainingFileData infos))
  | .outputDone => .outputDone .returned

/-- The chunker before its first step, in a working directory. -/
def start (capacity : ℕ) (r : TransferRequest) (disk : Disk) : Solo capacity Disk Pc :=
  .start capacity (.nextFile (.initial r) r.fileInfos) disk

/-! ### The counters -/

namespace Locals

variable {l : Locals} {n : UInt64} {file bytes : Bytes}

/-- The reads as intervals of positions. -/
def spans (l : Locals) : List (ℕ × ℕ) := l.reads.map fun x => (x.1.toNat, x.2.length)

/-- All that was read since the last push. -/
def contents (l : Locals) : Bytes := (l.reads.map Prod.snd).flatten

/-- What holds of the counters: the free part of the buffer is its end, and the part before it is
what was read. -/
structure Inside (l : Locals) : Prop where
  size_lt : l.buffer.length < 2 ^ 32
  le : l.remainingBufferCapacity.toNat ≤ l.buffer.length
  consecutive : Consecutive 0 l.spans (l.buffer.length - l.remainingBufferCapacity.toNat)
  filled : l.buffer.take (l.buffer.length - l.remainingBufferCapacity.toNat) = l.contents

theorem Inside.empty (sequenceCounter size : UInt32) : Inside (empty sequenceCounter size) where
  size_lt := by
    rw [Locals.empty, List.length_replicate]
    exact size.toNat_lt
  le := by simp [Locals.empty]
  consecutive := by simp [Locals.empty, spans, Consecutive]
  filled := by simp [Locals.empty, contents]

/-- The difference of the sizes does not wrap. -/
theorem Inside.toNat_offset (h : l.Inside) :
    l.offset.toNat = l.buffer.length - l.remainingBufferCapacity.toNat := by
  have hsize := h.size_lt
  have hle := h.le
  have hlen : (UInt64.ofNat l.buffer.length).toNat = l.buffer.length :=
    UInt64.toNat_ofNat_of_lt' (by show _ < 2 ^ 64; omega)
  rw [offset, UInt64.toNat_sub_of_le, hlen, UInt32.toNat_toUInt64]
  rw [UInt64.le_iff_toNat_le, hlen, UInt32.toNat_toUInt64]
  exact hle

theorem toNat_bytesToRead (l : Locals) (n : UInt64) :
    (l.bytesToRead n).toNat = min n.toNat l.remainingBufferCapacity.toNat := by
  rw [bytesToRead, TransferRequest.toNat_min, UInt32.toNat_toUInt64]

/-- The number of bytes fits into a signed number. -/
theorem toNatClampNeg_bytesToRead (l : Locals) (n : UInt64) :
    (l.bytesToRead n).toInt64.toNatClampNeg = min n.toNat l.remainingBufferCapacity.toNat := by
  have hlt := l.remainingBufferCapacity.toNat_lt
  have hnat : (l.bytesToRead n).toInt64.toBitVec.toNat =
      min n.toNat l.remainingBufferCapacity.toNat := toNat_bytesToRead l n
  have hint : (l.bytesToRead n).toInt64.toInt = min n.toNat l.remainingBufferCapacity.toNat := by
    rw [← Int64.toInt_toBitVec, BitVec.toInt_eq_toNat_of_lt (by rw [hnat]; omega), hnat]
  rw [← Int64.toNat_toInt, hint, Int.toNat_natCast]

theorem delivered_eq (l : Locals) (file : Bytes) (n : UInt64) :
    l.delivered file n = file.take (min n.toNat l.remainingBufferCapacity.toNat) := by
  rw [delivered, toNatClampNeg_bytesToRead]

theorem length_delivered_le (l : Locals) (file : Bytes) (n : UInt64) :
    (l.delivered file n).length ≤ l.remainingBufferCapacity.toNat := by
  rw [delivered_eq, List.length_take]
  omega

end Locals

theorem toNat_gcount {bytes : Bytes} {k : UInt32} (h : bytes.length ≤ k.toNat) :
    (gcount bytes).toUInt64.toNat = bytes.length := by
  have hlt := k.toNat_lt
  have hcast : (gcount bytes).toUInt64 = UInt64.ofNat bytes.length := rfl
  rw [hcast, UInt64.toNat_ofNat_of_lt' (by show _ < 2 ^ 64; omega)]

namespace Locals

variable {l : Locals} {n : UInt64} {file bytes : Bytes}

theorem toNat_remainingBufferCapacity_filled
    (h : bytes.length ≤ l.remainingBufferCapacity.toNat) :
    (l.filled bytes).remainingBufferCapacity.toNat =
      l.remainingBufferCapacity.toNat - bytes.length := by
  have hcount := toNat_gcount h
  have hlt := l.remainingBufferCapacity.toNat_lt
  have hle : (gcount bytes).toUInt64 ≤ l.remainingBufferCapacity.toUInt64 := by
    rw [UInt64.le_iff_toNat_le, hcount, UInt32.toNat_toUInt64]
    exact h
  have hsub : (l.remainingBufferCapacity.toUInt64.toInt64 - gcount bytes).toUInt64 =
      l.remainingBufferCapacity.toUInt64 - (gcount bytes).toUInt64 := rfl
  rw [filled]
  dsimp only
  rw [hsub, UInt64.toNat_toUInt32, UInt64.toNat_sub_of_le _ _ hle, hcount, UInt32.toNat_toUInt64]
  omega

/-- What is read fits into the buffer. -/
theorem Inside.fits (h : l.Inside) (hbytes : bytes.length ≤ l.remainingBufferCapacity.toNat) :
    l.offset.toNat + bytes.length ≤ l.buffer.length := by
  have hle := h.le
  rw [h.toNat_offset]
  omega

theorem Inside.length_filled (h : l.Inside)
    (hbytes : bytes.length ≤ l.remainingBufferCapacity.toNat) :
    (l.filled bytes).buffer.length = l.buffer.length := length_overwrite (h.fits hbytes)

theorem Inside.length_sub_filled (h : l.Inside)
    (hbytes : bytes.length ≤ l.remainingBufferCapacity.toNat) :
    (l.filled bytes).buffer.length - (l.filled bytes).remainingBufferCapacity.toNat =
      l.offset.toNat + bytes.length := by
  have hle := h.le
  rw [h.length_filled hbytes, toNat_remainingBufferCapacity_filled hbytes, h.toNat_offset]
  omega

theorem Inside.read (h : l.Inside) (hbytes : bytes.length ≤ l.remainingBufferCapacity.toNat) :
    (l.filled bytes).Inside where
  size_lt := by
    rw [h.length_filled hbytes]
    exact h.size_lt
  le := by
    have hle := h.le
    rw [h.length_filled hbytes, toNat_remainingBufferCapacity_filled hbytes]
    omega
  consecutive := by
    have hspans : (l.filled bytes).spans = l.spans ++ [(l.offset.toNat, bytes.length)] := by
      simp [spans, Locals.filled]
    have hconsecutive := h.consecutive
    rw [← h.toNat_offset] at hconsecutive
    rw [hspans, h.length_sub_filled hbytes]
    exact hconsecutive.concat _
  filled := by
    have hfilled := h.filled
    rw [← h.toNat_offset] at hfilled
    have hcontents : (l.filled bytes).contents = l.contents ++ bytes := by
      simp [contents, Locals.filled]
    rw [h.length_sub_filled hbytes, hcontents, ← hfilled]
    exact take_overwrite (h.fits hbytes)

end Locals

/-! ### All reads since the last push -/

/-- What is required of the reads since the last push: each begins where the one before it ended,
the first one at the front of the buffer; none leaves the buffer and none overwrites another;
together they have delivered what is in the buffer before the offset. -/
structure Tiled (l : Locals) : Prop where
  consecutive : Consecutive 0 l.spans l.offset.toNat
  inside : ∀ i ∈ l.spans, i.1 + i.2 ≤ l.buffer.length
  disjoint : l.spans.Pairwise fun i j => i.1 + i.2 ≤ j.1
  bytes : l.buffer.take l.offset.toNat = l.contents

theorem Locals.Inside.tiled {l : Locals} (h : l.Inside) : Tiled l where
  consecutive := by
    rw [h.toNat_offset]
    exact h.consecutive
  inside := fun i hi => Nat.le_trans (h.consecutive.end_le i hi) (Nat.sub_le _ _)
  disjoint := h.consecutive.pairwise
  bytes := by
    rw [h.toNat_offset]
    exact h.filled

/-! ### Every run -/

/-- The local variables of a thread that has a buffer. -/
def locals : Thread Pc → Option Locals
  | .running (.nextFile l _) | .running (.openFile l _ _) | .running (.abortCheck l _ _ _)
  | .running (.read l _ _ _) | .running (.push _ l _ _ _) => some l
  | _ => none

/-- The counters of the thread are right, and what it pushes is its full buffer. -/
structure Safe (t : Thread Pc) : Prop where
  inside : ∀ l, locals t = some l → l.Inside
  full : ∀ c l file n infos, t = .running (.push c l file n infos) →
    c.data = l.buffer ∧ l.remainingBufferCapacity = 0

variable {r : TransferRequest} {l : Locals}

theorem safe_whileLoop (h : l.Inside) (file : Bytes) (n : UInt64) (infos : List FileInfo) :
    Safe (.running (whileLoop l file n infos)) := by
  unfold whileLoop
  split_ifs
  · refine ⟨?_, nofun⟩
    rintro _ ⟨⟩
    exact h
  · refine ⟨?_, nofun⟩
    rintro _ ⟨⟩
    exact h

theorem safe_openForReading (h : l.Inside) (disk : Disk) (info : FileInfo)
    (infos : List FileInfo) : Safe (openForReading disk l info infos) := by
  unfold openForReading
  split
  · exact ⟨nofun, nofun⟩
  · dsimp only
    split_ifs
    · exact ⟨nofun, nofun⟩
    · exact safe_whileLoop h _ _ _

theorem safe_readIntoBuffer (h : l.Inside) (file : Bytes) (n : UInt64) (infos : List FileInfo) :
    Safe (readIntoBuffer l file n infos) := by
  have hread := h.read (l.length_delivered_le file n)
  unfold readIntoBuffer
  dsimp only
  split_ifs with hcount hfull
  · exact ⟨nofun, nofun⟩
  · refine ⟨?_, ?_⟩
    · rintro _ ⟨⟩
      exact ⟨hread.size_lt, hread.le, hread.consecutive, hread.filled⟩
    · rintro _ _ _ _ _ ⟨⟩
      exact ⟨rfl, hfull⟩
  · exact safe_whileLoop hread _ _ _

theorem safe_ensures {pc : Pc} (h : Safe (.running pc)) :
    (readFilesIntoChunks r pc).Ensures Safe := by
  cases pc with
  | nextFile l infos =>
    cases infos with
    | nil => exact ⟨nofun, nofun⟩
    | cons info infos =>
      intro b
      cases b
      · exact ⟨h.inside, nofun⟩
      · exact ⟨nofun, nofun⟩
  | openFile l info infos =>
    rintro disk _ disk' ⟨⟩
    exact safe_openForReading (h.inside l rfl) _ _ _
  | abortCheck l file n infos =>
    intro b
    cases b
    · exact ⟨h.inside, nofun⟩
    · exact ⟨nofun, nofun⟩
  | read l file n infos =>
    rintro disk _ disk' ⟨⟩
    exact safe_readIntoBuffer (h.inside l rfl) _ _ _
  | push c l file n infos => exact safe_whileLoop (.empty _ _) _ _ _
  | outputDone => exact ⟨nofun, nofun⟩

theorem safe_of_not_running {t : Thread Pc} (h : ∀ pc, t ≠ .running pc) : Safe t := by
  refine ⟨fun l hl => ?_, fun c l file n infos ht => absurd ht (h _)⟩
  cases t with
  | running pc => exact absurd rfl (h pc)
  | caught e | flagged e | returned => cases hl

theorem safe_start (r : TransferRequest) :
    Safe (.running (.nextFile (.initial r) r.fileInfos)) := by
  refine ⟨?_, nofun⟩
  rintro _ ⟨⟩
  exact .empty _ _

theorem safe_step {capacity : ℕ} {s t : Solo capacity Disk Pc} {a : Solo.Event}
    (hs : Safe s.thread) (h : s.step (readFilesIntoChunks r) a = some t) : Safe t.thread := by
  cases a with
  | step f =>
    obtain ⟨⟨th, ctx, v⟩, hstep, rfl⟩ := Option.map_eq_some_iff.mp h
    exact Call.Ensures.step (fun _ => safe_ensures) (fun _ => safe_of_not_running) hstep hs
  | arrive c =>
    obtain ⟨q, -, rfl⟩ := Option.map_eq_some_iff.mp h
    exact hs
  | finish =>
    cases h
    exact hs
  | take =>
    obtain ⟨q, -, rfl⟩ := Option.map_eq_some_iff.mp h
    exact hs

theorem safe_of_reach {capacity : ℕ} {disk : Disk} {s : Solo capacity Disk Pc}
    {ok : Solo capacity Disk Pc → Solo.Event → Prop}
    (h : Reach (Solo.step (readFilesIntoChunks r)) ok (start capacity r disk) s) :
    Safe s.thread :=
  h.invariant (I := fun s => Safe s.thread) (fun _ _ _ hs _ hstep => safe_step hs hstep)
    (safe_start r)

/-- The chunker never leaves its buffer.  Whatever request it was given, whatever files it finds,
and whatever happens around it: what it has read since the last push lies in the buffer, in order
and without gaps, the next read fits behind it, and what is pushed was all read since then. -/
theorem reads_inside {capacity : ℕ} {disk : Disk} {s : Solo capacity Disk Pc}
    (h : Reach (Solo.step (readFilesIntoChunks r)) any (start capacity r disk) s)
    (hl : locals s.thread = some l) :
    Tiled l ∧ l.offset.toNat + l.remainingBufferCapacity.toNat = l.buffer.length ∧
      (∀ file n infos, s.thread = .running (.read l file n infos) →
        l.offset.toNat + (l.bytesToRead n).toNat ≤ l.buffer.length) ∧
      ∀ c file n infos, s.thread = .running (.push c l file n infos) →
        c.data = l.contents ∧ Consecutive 0 l.spans c.data.length := by
  have hsafe := safe_of_reach h
  have hinside := hsafe.inside l hl
  have hle := hinside.le
  have hoffset := hinside.toNat_offset
  refine ⟨hinside.tiled, by omega, fun file n infos _ => ?_, fun c file n infos hs => ?_⟩
  · rw [hoffset, Locals.toNat_bytesToRead]
    omega
  · obtain ⟨hdata, hzero⟩ := hsafe.full c l file n infos hs
    have hfilled := hinside.filled
    have hconsecutive := hinside.consecutive
    rw [hzero, UInt32.toNat_zero, Nat.sub_zero] at hfilled hconsecutive
    rw [List.take_length] at hfilled
    exact ⟨hdata.trans hfilled, by rw [hdata]; exact hconsecutive⟩

/-- A working directory with two files of 2 and 3 bytes. -/
def twoFilesDisk : Disk := fun path =>
  if path = [97] then some [1, 2] else if path = [98] then some [3, 4, 5] else none

/-- The request for them, with chunks of 4 bytes. -/
def twoFiles : TransferRequest := ⟨2, 5, 4, 1, 2, [⟨[97], 2⟩, ⟨[98], 3⟩]⟩

/-- The chunker before its first push. -/
def firstPush : Locals := ⟨2, 0, [1, 2, 3, 4], [(0, [1, 2]), (2, [3, 4])]⟩

/-- The first chunk holds the first file and a part of the second. -/
theorem reads_inside_two :
    ∃ s : Solo 1 Disk Pc, Reach (Solo.step (readFilesIntoChunks twoFiles)) any
      (start 1 twoFiles twoFilesDisk) s ∧
      s.thread = .running (.push (.plain 1 [1, 2, 3, 4]) firstPush [5] 1 []) ∧ Tiled firstPush ∧
      firstPush.contents = [1, 2, 3, 4] := by
  have hrun : (exec (Solo.step (readFilesIntoChunks twoFiles))
      (start 1 twoFiles twoFilesDisk : Solo 1 Disk Pc) (List.replicate 8 (.step none))).map
      (fun s => decide (s.thread =
        .running (.push (.plain 1 [1, 2, 3, 4]) firstPush [5] 1 []))) = some true := by
    decide +kernel
  obtain ⟨s, hs, hthread⟩ := reach_of_exec_test _ (fun _ _ _ => trivial) hrun
  have hthread := of_decide_eq_true hthread
  obtain ⟨htiled, -, -, hpush⟩ := reads_inside hs (by rw [hthread]; rfl)
  exact ⟨s, hs, hthread, htiled, ((hpush _ _ _ _ hthread).1).symm⟩

/-! ### The chunker with natural numbers -/

/-- The locals with natural numbers. -/
def Locals.toReadLocals (l : Locals) : ReadLocals :=
  ⟨l.sequenceCounter, l.remainingBufferCapacity.toNat, l.buffer⟩

/-- The program points with natural numbers. -/
def Pc.toReadPc : Pc → ReadPc
  | .nextFile l infos => .nextFile l.toReadLocals infos
  | .openFile l info infos => .openFile l.toReadLocals info infos
  | .abortCheck l file n infos => .abortCheck l.toReadLocals file n.toNat infos
  | .read l file n infos => .read l.toReadLocals file n.toNat infos
  | .push c l file n infos => .push c l.toReadLocals file n.toNat infos
  | .outputDone => .outputDone

/-- No file is longer than the type of its size can tell. -/
def Sized (disk : Disk) : Prop := ∀ path b, disk path = some b → b.length < 2 ^ 64

theorem toReadLocals_afterPush (r : TransferRequest) (sequenceCounter : UInt32) :
    (Locals.afterPush r sequenceCounter).toReadLocals = .afterPush r sequenceCounter := by
  have hsize : (newBufferSize r sequenceCounter).toNat =
      FileManager.newBufferSize r sequenceCounter := by
    unfold newBufferSize FileManager.newBufferSize
    split_ifs <;> rfl
  simp only [Locals.toReadLocals, Locals.afterPush, Locals.empty, ReadLocals.afterPush, hsize]

theorem toReadPc_whileLoop (l : Locals) (file : Bytes) (n : UInt64) (infos : List FileInfo) :
    (whileLoop l file n infos).toReadPc = .whileLoop l.toReadLocals file n.toNat infos := by
  have hpos : 0 < n ↔ 0 < n.toNat := UInt64.lt_iff_toNat_lt
  unfold whileLoop ReadPc.whileLoop
  simp only [hpos]
  split_ifs <;> rfl

theorem map_openForReading {disk : Disk} (hdisk : Sized disk) (l : Locals) (info : FileInfo)
    (infos : List FileInfo) :
    (openForReading disk l info infos).map Pc.toReadPc =
      FileManager.openForReading disk l.toReadLocals info infos := by
  unfold openForReading FileManager.openForReading
  cases hb : disk info.relativePath with
  | none => rfl
  | some b =>
    have hlen : (UInt64.ofNat b.length).toNat = b.length :=
      UInt64.toNat_ofNat_of_lt' (hdisk _ b hb)
    have hsize : UInt64.ofNat b.length = info.size ↔ b.length = info.size.toNat := by
      rw [← UInt64.toNat_inj, hlen]
    simp only [ne_eq, hsize]
    split_ifs
    · simp only [Thread.map, toReadPc_whileLoop, hlen]
    · simp only [Thread.map, hlen]

theorem map_readIntoBuffer (h : l.Inside) (file : Bytes) (n : UInt64) (infos : List FileInfo) :
    (readIntoBuffer l file n infos).map Pc.toReadPc =
      FileManager.readIntoBuffer l.toReadLocals file n.toNat infos := by
  have hdelivered := l.delivered_eq file n
  have hle := l.length_delivered_le file n
  have hcount := toNat_gcount hle
  have hsame : (gcount (l.delivered file n)).toUInt64 = l.bytesToRead n ↔
      (l.delivered file n).length = min n.toNat l.remainingBufferCapacity.toNat := by
    rw [← UInt64.toNat_inj, hcount, Locals.toNat_bytesToRead]
  unfold readIntoBuffer FileManager.readIntoBuffer
  dsimp only [Locals.toReadLocals]
  rw [← hdelivered]
  by_cases hlen : (l.delivered file n).length = min n.toNat l.remainingBufferCapacity.toNat
  · have hrest := Locals.toNat_remainingBufferCapacity_filled hle
    have hzero : (l.filled (l.delivered file n)).remainingBufferCapacity = 0 ↔
        l.remainingBufferCapacity.toNat - (l.delivered file n).length = 0 := by
      rw [← hrest, ← UInt32.toNat_inj, UInt32.toNat_zero]
    have hn : (n - (gcount (l.delivered file n)).toUInt64).toNat =
        n.toNat - (l.delivered file n).length := by
      rw [UInt64.toNat_sub_of_le, hcount]
      rw [UInt64.le_iff_toNat_le, hcount, hlen]
      exact min_le_left _ _
    have hbuffer : (l.filled (l.delivered file n)).buffer = overwrite l.buffer
        (l.buffer.length - l.remainingBufferCapacity.toNat) (l.delivered file n) := by
      rw [← h.toNat_offset]
      rfl
    have hcounter : (l.filled (l.delivered file n)).sequenceCounter = l.sequenceCounter := rfl
    rw [if_neg (not_not.mpr (hsame.mpr hlen)), if_neg (not_not.mpr hlen), ← hlen]
    simp only [hzero]
    split_ifs
    · simp only [Thread.map, Pc.toReadPc, Locals.toReadLocals, hbuffer, hrest, hn]
    · simp only [Thread.map, toReadPc_whileLoop, Locals.toReadLocals, hcounter, hbuffer, hrest, hn]
  · rw [if_pos (fun heq => hlen (hsame.mp heq)), if_pos hlen]
    rfl

/-- While the counters are right, both chunkers do the same. -/
theorem run_toReadPc {capacity : ℕ} {v : View capacity Disk} {pc : Pc}
    (h : Safe (.running pc)) (hdisk : Sized v.world) (abort : Bool) (f : Option Fault) :
    (FileManager.readFilesIntoChunks r pc.toReadPc).run abort f v =
      ((readFilesIntoChunks r pc).run abort f v).map fun x => (x.1.map Pc.toReadPc, x.2) := by
  cases pc with
  | nextFile l infos =>
    rw [← Call.run_map]
    cases infos with
    | nil => rfl
    | cons info infos =>
      simp only [readFilesIntoChunks, Call.map, Pc.toReadPc, FileManager.readFilesIntoChunks]
      congr 2
      funext b
      cases b <;> rfl
  | openFile l info infos =>
    -- the sizes agree for the files of this disk only
    cases f with
    | none =>
      simp only [Call.run, Call.exec, readFilesIntoChunks, Pc.toReadPc,
        FileManager.readFilesIntoChunks, Option.map_some, map_openForReading hdisk]
    | some x => rfl
  | abortCheck l file n infos =>
    rw [← Call.run_map]
    simp only [readFilesIntoChunks, Call.map, Pc.toReadPc, FileManager.readFilesIntoChunks]
    congr 2
    funext b
    cases b <;> rfl
  | read l file n infos =>
    rw [← Call.run_map]
    simp only [readFilesIntoChunks, Call.map, Option.map_some, map_readIntoBuffer (h.inside l rfl)]
    rfl
  | push c l file n infos =>
    rw [← Call.run_map]
    simp only [readFilesIntoChunks, Call.map, Thread.map, toReadPc_whileLoop,
      toReadLocals_afterPush]
    rfl
  | outputDone =>
    rw [← Call.run_map]
    rfl

/-- The chunker only reads the disk. -/
theorem world_of_run {capacity : ℕ} {v v' : View capacity Disk} {pc : Pc} {abort : Bool}
    {f : Option Fault} {t : Thread Pc}
    (h : (readFilesIntoChunks r pc).run abort f v = some (t, v')) : v'.world = v.world := by
  cases f with
  | some x =>
    cases pc with
    | nextFile l infos => cases infos <;> simp [Call.run, readFilesIntoChunks, Call.fail] at h
    | openFile l info infos | read l file n infos =>
      obtain ⟨-, rfl⟩ := Prod.mk.inj (Option.some.inj h)
      rfl
    | _ => simp [Call.run, readFilesIntoChunks, Call.fail] at h
  | none =>
    cases pc with
    | nextFile l infos =>
      cases infos with
      | nil | cons info infos =>
        obtain ⟨-, rfl⟩ := Prod.mk.inj (Option.some.inj h)
        rfl
    | push c l file n infos =>
      obtain ⟨q, -, heq⟩ := Option.map_eq_some_iff.mp h
      obtain ⟨-, rfl⟩ := Prod.mk.inj heq
      rfl
    | _ =>
      obtain ⟨-, rfl⟩ := Prod.mk.inj (Option.some.inj h)
      rfl

end MachineReader

end Trit
