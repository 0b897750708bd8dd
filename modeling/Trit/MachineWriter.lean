import Trit.Writer
import Trit.Lib.Intervals

/-!
# The counters of the writer

`write_files_from_chunks` counts in three types at once: `remaining_chunk_data` has 32 bits,
`chunk_offset` and `remaining_file_data` have 64, and `bytes_to_write` is signed.  Here the writer
has these types, and every operation on them wraps where the type does.

* `MachineWriter.writeFilesFromChunks`: the writer, which also remembers what it has written of its
  chunk since it popped it;
* `Locals.Inside`: what holds of the counters; `Iteration`, `Tiled`: what follows for a write, and
  for all writes between two pops;
* `writes_inside`: in every run all writes lie in their chunk, and none repeats a byte;
* `reach_toWriter_iff`: the writer whose counters are natural numbers has the same runs.
-/

namespace Trit

open Transition Intervals

namespace MachineWriter

/-! ### The program -/

/-- The local variables that live across files.  `slices` lists the arguments of `file.write` since
the chunk was popped: offset and number of bytes.  It influences nothing. -/
structure Locals where
  chunk : Chunk
  remainingChunkData : UInt32
  chunkOffset : UInt64
  slices : List (UInt64 × Int64)
  deriving DecidableEq

namespace Locals

/-- The locals after a pop. -/
def ofChunk (c : Chunk) : Locals := ⟨c, c.size.toUInt32, 0, []⟩

/-- `bytes_to_write`: the minimum of unsigned numbers, as a signed one. -/
def bytesToWrite (l : Locals) (remainingFileData : UInt64) : Int64 :=
  (min remainingFileData l.remainingChunkData.toUInt64).toInt64

/-- `chunk_offset += bytes_to_write` and `remaining_chunk_data -= bytes_to_write`: the sum is
unsigned, the difference is signed and is then cut to 32 bits. -/
def written (l : Locals) (n : Int64) : Locals where
  chunk := l.chunk
  remainingChunkData := (l.remainingChunkData.toUInt64.toInt64 - n).toUInt64.toUInt32
  chunkOffset := l.chunkOffset + n.toUInt64
  slices := l.slices ++ [(l.chunkOffset, n)]

/-- The bytes that `file.write` reads. -/
def bytes (l : Locals) (n : Int64) : Bytes :=
  (l.chunk.data.drop l.chunkOffset.toNat).take n.toNatClampNeg

end Locals

/-- The program points. -/
inductive Pc
  | firstPop
  | openFile (l : Locals) (info : FileInfo) (infos : List FileInfo)
  | abortCheck (l : Locals) (path : Bytes) (remainingFileData : UInt64) (infos : List FileInfo)
  | write (l : Locals) (path : Bytes) (remainingFileData : UInt64) (infos : List FileInfo)
  | increment (l : Locals) (path : Bytes) (remainingFileData : UInt64) (infos : List FileInfo)
  | inputDone (l : Locals) (path : Bytes) (remainingFileData : UInt64) (infos : List FileInfo)
  | inputEmpty (l : Locals) (path : Bytes) (remainingFileData : UInt64) (infos : List FileInfo)
  | pop (path : Bytes) (remainingFileData : UInt64) (infos : List FileInfo)
  deriving DecidableEq

/-- The head of the loop over the files. -/
def forLoop (l : Locals) : List FileInfo → Thread Pc
  | [] => .returned
  | info :: infos => .running (.openFile l info infos)

/-- The head of the inner loop: `while (remaining_file_data > 0)`. -/
def whileLoop (l : Locals) (path : Bytes) (remainingFileData : UInt64) (infos : List FileInfo) :
    Thread Pc :=
  if 0 < remainingFileData then .running (.abortCheck l path remainingFileData infos)
  else forLoop l infos

/-- After the write. -/
def afterWrite (l : Locals) (path : Bytes) (remainingFileData : UInt64) (infos : List FileInfo) :
    Thread Pc :=
  let n := l.bytesToWrite remainingFileData
  let l' := l.written n
  if l'.remainingChunkData = 0 then
    .running (.increment l' path (remainingFileData - n.toUInt64) infos)
  else whileLoop l' path (remainingFileData - n.toUInt64) infos

/-- `write_files_from_chunks`. -/
def writeFilesFromChunks (r : TransferRequest) : Pc → Call FileManager.FileSystem Pc
  | .firstPop => .pop fun c => forLoop (.ofChunk c) r.fileInfos
  | .openFile l info infos => .io
      (fun fs => some (whileLoop l info.relativePath info.size infos,
        (fs.createParent info.relativePath).truncate info.relativePath))
      (fun n fs => if n = 0 then fs else fs.createParent info.relativePath)
  | .abortCheck l path remainingFileData infos => .shouldAbort fun b =>
      if b then .returned else .running (.write l path remainingFileData infos)
  | .write l path remainingFileData infos => .io
      (fun fs => some (afterWrite l path remainingFileData infos,
        fs.append path (l.bytes (l.bytesToWrite remainingFileData))))
      (fun n fs => fs.append path ((l.bytes (l.bytesToWrite remainingFileData)).take n))
  | .increment l path remainingFileData infos => .increment
      (.running (.inputDone l path remainingFileData infos))
  | .inputDone l path remainingFileData infos => .inputDone fun b =>
      .running (if b then .inputEmpty l path remainingFileData infos
        else .pop path remainingFileData infos)
  | .inputEmpty l path remainingFileData infos => .inputEmpty fun b =>
      if b then forLoop l infos else .running (.pop path remainingFileData infos)
  | .pop path remainingFileData infos => .pop fun c =>
      whileLoop (.ofChunk c) path remainingFileData infos

/-- The writer thread with what it shares with others. -/
structure State (capacity : ℕ) where
  thread : Thread Pc
  ctx : WorkerContext
  view : View capacity FileManager.FileSystem

/-- The writer before its first step, in a working directory. -/
def start (capacity : ℕ) (fs : FileManager.FileSystem) : State capacity where
  thread := .running .firstPop
  ctx := .new
  view := ⟨.new capacity, .new capacity, 0, fs⟩

/-- One event. -/
def step {capacity : ℕ} (r : TransferRequest) (s : State capacity) :
    Writer.Event → Option (State capacity)
  | .step f => (s.thread.step (writeFilesFromChunks r) f s.ctx s.view).map fun (t, ctx, v) =>
      ⟨t, ctx, v⟩
  | .arrive c => (s.view.input.queue.push c).map fun q =>
      { s with view := { s.view with input := { s.view.input with queue := q } } }
  | .finish => some { s with view := { s.view with input := { s.view.input with done := true } } }
  | .abort => some { s with ctx := s.ctx.raise }

/-! ### The counters -/

namespace Locals

variable {l : Locals} {n : UInt64}

/-- The slices as intervals of positions. -/
def spans (l : Locals) : List (ℕ × ℕ) := l.slices.map fun s => (s.1.toNat, s.2.toNatClampNeg)

/-- What holds of the counters: they add up to the size of the chunk, and what has been written is
what lies before the offset. -/
structure Inside (l : Locals) : Prop where
  sum : l.chunkOffset.toNat + l.remainingChunkData.toNat = l.chunk.size.toNat
  consecutive : Consecutive 0 l.spans l.chunkOffset.toNat

theorem Inside.ofChunk (c : Chunk) : Inside (ofChunk c) where
  sum := by simp [Locals.ofChunk]
  consecutive := rfl

/-- The minimum fits into a signed number. -/
theorem toNat_bytesToWrite (l : Locals) (n : UInt64) :
    (l.bytesToWrite n).toUInt64.toNat = min n.toNat l.remainingChunkData.toNat := by
  rw [bytesToWrite, UInt64.toUInt64_toInt64, TransferRequest.toNat_min, UInt32.toNat_toUInt64]

theorem toInt_bytesToWrite (l : Locals) (n : UInt64) :
    (l.bytesToWrite n).toInt = min n.toNat l.remainingChunkData.toNat := by
  have hlt := l.remainingChunkData.toNat_lt
  have hnat : (l.bytesToWrite n).toBitVec.toNat = min n.toNat l.remainingChunkData.toNat :=
    toNat_bytesToWrite l n
  rw [← Int64.toInt_toBitVec, BitVec.toInt_eq_toNat_of_lt (by rw [hnat]; omega), hnat]

theorem toNatClampNeg_bytesToWrite (l : Locals) (n : UInt64) :
    (l.bytesToWrite n).toNatClampNeg = min n.toNat l.remainingChunkData.toNat := by
  rw [← Int64.toNat_toInt, toInt_bytesToWrite, Int.toNat_natCast]

/-- The difference does not wrap. -/
theorem toNat_remainingChunkData_written (l : Locals) (n : UInt64) :
    (l.written (l.bytesToWrite n)).remainingChunkData.toNat =
      l.remainingChunkData.toNat - min n.toNat l.remainingChunkData.toNat := by
  have hle : (l.bytesToWrite n).toUInt64 ≤ l.remainingChunkData.toUInt64 := by
    rw [UInt64.le_iff_toNat_le, toNat_bytesToWrite, UInt32.toNat_toUInt64]
    exact min_le_right _ _
  have hsub : (l.remainingChunkData.toUInt64.toInt64 - l.bytesToWrite n).toUInt64 =
      l.remainingChunkData.toUInt64 - (l.bytesToWrite n).toUInt64 := rfl
  have hlt := l.remainingChunkData.toNat_lt
  rw [written]
  dsimp only
  rw [hsub, UInt64.toNat_toUInt32, UInt64.toNat_sub_of_le _ _ hle, toNat_bytesToWrite,
    UInt32.toNat_toUInt64]
  omega

theorem Inside.toNat_chunkOffset_written (h : l.Inside) (n : UInt64) :
    (l.written (l.bytesToWrite n)).chunkOffset.toNat =
      l.chunkOffset.toNat + min n.toNat l.remainingChunkData.toNat := by
  have hsum := h.sum
  have hsize := l.chunk.size.toNat_lt
  rw [written]
  dsimp only
  rw [UInt64.toNat_add, toNat_bytesToWrite]
  omega

theorem toNat_sub_bytesToWrite (l : Locals) (n : UInt64) :
    (n - (l.bytesToWrite n).toUInt64).toNat = n.toNat - min n.toNat l.remainingChunkData.toNat := by
  have hle : (l.bytesToWrite n).toUInt64 ≤ n := by
    rw [UInt64.le_iff_toNat_le, toNat_bytesToWrite]
    exact min_le_left _ _
  rw [UInt64.toNat_sub_of_le _ _ hle, toNat_bytesToWrite]

/-- A write keeps what holds of the counters. -/
theorem Inside.written (h : l.Inside) (n : UInt64) : (l.written (l.bytesToWrite n)).Inside where
  sum := by
    have hsum := h.sum
    rw [h.toNat_chunkOffset_written, toNat_remainingChunkData_written]
    change _ = l.chunk.size.toNat
    omega
  consecutive := by
    have hspans : (l.written (l.bytesToWrite n)).spans =
        l.spans ++ [(l.chunkOffset.toNat, min n.toNat l.remainingChunkData.toNat)] := by
      rw [← toNatClampNeg_bytesToWrite]
      simp [spans, Locals.written]
    rw [hspans, h.toNat_chunkOffset_written]
    exact h.consecutive.concat _

end Locals

/-! ### One iteration, and all since the last pop -/

/-- What is required of an iteration: the counters add up to the size of the chunk, the number of
bytes is between 0 and what is left of it, no update wraps, and no byte behind the chunk is read. -/
structure Iteration (l : Locals) (remainingFileData : UInt64) : Prop where
  sum : l.chunkOffset.toNat + l.remainingChunkData.toNat = l.chunk.size.toNat
  nonneg : 0 ≤ (l.bytesToWrite remainingFileData).toInt
  le : (l.bytesToWrite remainingFileData).toInt ≤ l.remainingChunkData.toNat
  offset : ((l.written (l.bytesToWrite remainingFileData)).chunkOffset.toNat : ℤ) =
    l.chunkOffset.toNat + (l.bytesToWrite remainingFileData).toInt
  chunk : ((l.written (l.bytesToWrite remainingFileData)).remainingChunkData.toNat : ℤ) =
    l.remainingChunkData.toNat - (l.bytesToWrite remainingFileData).toInt
  file : ((remainingFileData - (l.bytesToWrite remainingFileData).toUInt64).toNat : ℤ) =
    remainingFileData.toNat - (l.bytesToWrite remainingFileData).toInt
  inside : l.chunkOffset.toNat + (l.bytesToWrite remainingFileData).toInt ≤ l.chunk.data.length

/-- What is required of the writes since the last pop: each begins where the one before it ended,
the first one at the front of the chunk; they are disjoint and write no byte twice; together they
have written what lies before the offset. -/
structure Tiled (l : Locals) : Prop where
  consecutive : Consecutive 0 l.spans l.chunkOffset.toNat
  disjoint : l.spans.Pairwise fun i j => i.1 + i.2 ≤ j.1
  once : ∀ p, l.spans.countP (fun i => Holds p i) ≤ 1
  bytes : (l.spans.map (part l.chunk.data)).flatten = l.chunk.data.take l.chunkOffset.toNat

namespace Locals

variable {l : Locals}

theorem Inside.iteration (h : l.Inside) (remainingFileData : UInt64) :
    Iteration l remainingFileData := by
  have hsum := h.sum
  have hdata : l.chunk.size.toNat ≤ l.chunk.data.length := by
    rw [Chunk.size_toNat]
    exact Nat.mod_le _ _
  refine ⟨hsum, ?_, ?_, ?_, ?_, ?_, ?_⟩
  · rw [toInt_bytesToWrite]
    omega
  · rw [toInt_bytesToWrite]
    omega
  · rw [h.toNat_chunkOffset_written, toInt_bytesToWrite]
    omega
  · rw [toNat_remainingChunkData_written, toInt_bytesToWrite]
    omega
  · rw [toNat_sub_bytesToWrite, toInt_bytesToWrite]
    omega
  · rw [toInt_bytesToWrite]
    omega

theorem Inside.tiled (h : l.Inside) : Tiled l where
  consecutive := h.consecutive
  disjoint := h.consecutive.pairwise
  once := h.consecutive.countP_le
  bytes := h.consecutive.flatten_eq l.chunk.data

end Locals

/-! ### Every run -/

/-- The local variables of a thread that has a chunk. -/
def locals : Thread Pc → Option Locals
  | .running (.openFile l _ _) | .running (.abortCheck l _ _ _) | .running (.write l _ _ _)
  | .running (.increment l _ _ _) | .running (.inputDone l _ _ _)
  | .running (.inputEmpty l _ _ _) => some l
  | _ => none

/-- The counters of the thread are right. -/
def Safe (t : Thread Pc) : Prop := ∀ l, locals t = some l → l.Inside

variable {r : TransferRequest} {l : Locals}

theorem safe_forLoop (h : l.Inside) (infos : List FileInfo) : Safe (forLoop l infos) := by
  cases infos with
  | nil => exact nofun
  | cons info infos =>
    rintro _ ⟨⟩
    exact h

theorem safe_whileLoop (h : l.Inside) (path : Bytes) (n : UInt64) (infos : List FileInfo) :
    Safe (whileLoop l path n infos) := by
  unfold whileLoop
  split_ifs
  · rintro _ ⟨⟩
    exact h
  · exact safe_forLoop h infos

theorem safe_afterWrite (h : l.Inside) (path : Bytes) (n : UInt64) (infos : List FileInfo) :
    Safe (afterWrite l path n infos) := by
  have hwritten := h.written n
  unfold afterWrite
  dsimp only
  split_ifs
  · rintro _ ⟨⟩
    exact hwritten
  · exact safe_whileLoop hwritten path _ infos

theorem safe_ensures {pc : Pc} (h : Safe (.running pc)) :
    (writeFilesFromChunks r pc).Ensures Safe := by
  cases pc with
  | firstPop => exact fun c => safe_forLoop (.ofChunk c) _
  | openFile l info infos =>
    rintro fs _ fs' ⟨⟩
    exact safe_whileLoop (h l rfl) _ _ _
  | abortCheck l path n infos =>
    intro b
    cases b
    · exact h
    · exact nofun
  | write l path n infos =>
    rintro fs _ fs' ⟨⟩
    exact safe_afterWrite (h l rfl) _ _ _
  | increment l path n infos => exact h
  | inputDone l path n infos =>
    intro b
    cases b
    · exact nofun
    · exact h
  | inputEmpty l path n infos =>
    intro b
    cases b
    · exact nofun
    · exact safe_forLoop (h l rfl) infos
  | pop path n infos => exact fun c => safe_whileLoop (.ofChunk c) _ _ _

theorem safe_of_not_running {t : Thread Pc} (h : ∀ pc, t ≠ .running pc) : Safe t := by
  intro l hl
  cases t with
  | running pc => exact absurd rfl (h pc)
  | caught e | flagged e | returned => cases hl

theorem safe_step {capacity : ℕ} {s t : State capacity} {a : Writer.Event} (hs : Safe s.thread)
    (h : step r s a = some t) : Safe t.thread := by
  cases a with
  | step f =>
    obtain ⟨⟨th, ctx, v⟩, hstep, rfl⟩ := Option.map_eq_some_iff.mp h
    exact Call.Ensures.step (fun _ => safe_ensures) (fun _ => safe_of_not_running) hstep hs
  | arrive c =>
    obtain ⟨q, -, rfl⟩ := Option.map_eq_some_iff.mp h
    exact hs
  | finish | abort =>
    cases h
    exact hs

theorem safe_of_reach {capacity : ℕ} {fs : FileManager.FileSystem} {s : State capacity}
    {ok : State capacity → Writer.Event → Prop} (h : Reach (step r) ok (start capacity fs) s) :
    Safe s.thread :=
  h.invariant (I := fun s => Safe s.thread) (fun _ _ _ hs _ hstep => safe_step hs hstep) nofun

/-- The writer never reads outside of a chunk.  Whatever request it was given, whatever chunks it
pops, and whatever happens around it: what it has written since the last pop is in order, and so is
the next write. -/
theorem writes_inside {capacity : ℕ} {fs : FileManager.FileSystem} {s : State capacity}
    (h : Reach (step r) any (start capacity fs) s) {l : Locals} (hl : locals s.thread = some l) :
    Tiled l ∧ l.chunkOffset.toNat + l.remainingChunkData.toNat = l.chunk.size.toNat ∧
      ∀ path n infos, s.thread = .running (.write l path n infos) →
        Iteration l n ∧ Tiled (l.written (l.bytesToWrite n)) := by
  have hinside := safe_of_reach h l hl
  refine ⟨hinside.tiled, hinside.sum, fun path n infos _ => ?_⟩
  exact ⟨hinside.iteration n, (hinside.written n).tiled⟩

/-- A request for two files of 3 and 4 bytes. -/
def twoFiles : TransferRequest := ⟨2, 7, 7, 7, 1, [⟨[97], 3⟩, ⟨[98], 4⟩]⟩

/-- The writer before its second write. -/
def secondWrite : Locals := ⟨.plain 1 [1, 2, 3, 4, 5], 2, 3, [(0, 3)]⟩

/-- A chunk of five bytes, three of which belong to the first file. -/
theorem writes_inside_two :
    ∃ s : State 1, Reach (step twoFiles) any (start 1 ⟨fun _ => none, []⟩) s ∧
      s.thread = .running (.write secondWrite [98] 4 []) ∧ Tiled secondWrite ∧
      Iteration secondWrite 4 ∧ secondWrite.slices = [(0, 3)] := by
  have hrun : (exec (step twoFiles) (start 1 ⟨fun _ => none, []⟩)
      (Writer.Event.arrive (.plain 1 [1, 2, 3, 4, 5]) :: List.replicate 6 (.step none))).map
      (fun s => decide (s.thread = .running (.write secondWrite [98] 4 []))) = some true := by
    decide +kernel
  obtain ⟨s, hs, hthread⟩ := reach_of_exec_test _ (fun _ _ _ => trivial) hrun
  have hthread := of_decide_eq_true hthread
  obtain ⟨htiled, -, hwrite⟩ := writes_inside hs (by rw [hthread]; rfl)
  exact ⟨s, hs, hthread, htiled, (hwrite _ _ _ hthread).1, rfl⟩

/-! ### The writer with natural numbers -/

/-- The locals with natural numbers. -/
def Locals.toWriteLocals (l : Locals) : FileManager.WriteLocals :=
  ⟨l.chunk, l.remainingChunkData.toNat, l.chunkOffset.toNat⟩

/-- The program points with natural numbers. -/
def Pc.toWritePc : Pc → FileManager.WritePc
  | .firstPop => .firstPop
  | .openFile l info infos => .openFile l.toWriteLocals info infos
  | .abortCheck l path n infos => .abortCheck l.toWriteLocals path n.toNat infos
  | .write l path n infos => .write l.toWriteLocals path n.toNat infos
  | .increment l path n infos => .increment l.toWriteLocals path n.toNat infos
  | .inputDone l path n infos => .inputDone l.toWriteLocals path n.toNat infos
  | .inputEmpty l path n infos => .inputEmpty l.toWriteLocals path n.toNat infos
  | .pop path n infos => .pop path n.toNat infos

/-- The state with natural numbers. -/
def State.toWriter {capacity : ℕ} (s : State capacity) : Writer capacity :=
  ⟨s.thread.map Pc.toWritePc, s.ctx, s.view⟩

theorem toWriteLocals_ofChunk (c : Chunk) :
    (Locals.ofChunk c).toWriteLocals = FileManager.WriteLocals.ofChunk c := by
  simp [Locals.toWriteLocals, Locals.ofChunk, FileManager.WriteLocals.ofChunk]

theorem map_forLoop (l : Locals) (infos : List FileInfo) :
    (forLoop l infos).map Pc.toWritePc = FileManager.forLoop l.toWriteLocals infos := by
  cases infos <;> rfl

theorem map_whileLoop (l : Locals) (path : Bytes) (n : UInt64) (infos : List FileInfo) :
    (whileLoop l path n infos).map Pc.toWritePc =
      FileManager.whileLoop l.toWriteLocals path n.toNat infos := by
  have hpos : 0 < n ↔ 0 < n.toNat := UInt64.lt_iff_toNat_lt
  unfold whileLoop FileManager.whileLoop
  simp only [hpos]
  split_ifs
  · rfl
  · exact map_forLoop l infos

theorem map_afterWrite (h : l.Inside) (path : Bytes) (n : UInt64) (infos : List FileInfo) :
    (afterWrite l path n infos).map Pc.toWritePc =
      FileManager.afterWrite l.toWriteLocals path n.toNat infos := by
  have hlocals : (l.written (l.bytesToWrite n)).toWriteLocals =
      ⟨l.chunk, l.remainingChunkData.toNat - min n.toNat l.remainingChunkData.toNat,
        l.chunkOffset.toNat + min n.toNat l.remainingChunkData.toNat⟩ := by
    rw [Locals.toWriteLocals, h.toNat_chunkOffset_written, Locals.toNat_remainingChunkData_written]
    rfl
  have hzero : (l.written (l.bytesToWrite n)).remainingChunkData = 0 ↔
      l.remainingChunkData.toNat - min n.toNat l.remainingChunkData.toNat = 0 := by
    rw [← Locals.toNat_remainingChunkData_written, ← UInt32.toNat_inj, UInt32.toNat_zero]
  have hn := Locals.toNat_sub_bytesToWrite l n
  unfold afterWrite FileManager.afterWrite
  dsimp only [Locals.toWriteLocals]
  simp only [hzero]
  split_ifs
  · simp only [Thread.map, Pc.toWritePc, hlocals, hn]
  · rw [map_whileLoop, hlocals, hn]

theorem bytes_bytesToWrite (l : Locals) (n : UInt64) :
    l.bytes (l.bytesToWrite n) = FileManager.bytesToWrite l.toWriteLocals n.toNat := by
  rw [Locals.bytes, Locals.toNatClampNeg_bytesToWrite]
  rfl

/-- While the counters are right, both writers do the same. -/
theorem map_writeFilesFromChunks {pc : Pc} (h : Safe (.running pc)) :
    (writeFilesFromChunks r pc).map Pc.toWritePc =
      FileManager.writeFilesFromChunks r pc.toWritePc := by
  cases pc with
  | firstPop =>
    simp only [writeFilesFromChunks, Call.map, map_forLoop, toWriteLocals_ofChunk]
    rfl
  | openFile l info infos =>
    simp only [writeFilesFromChunks, Call.map, Option.map_some, map_whileLoop]
    rfl
  | abortCheck l path n infos =>
    simp only [writeFilesFromChunks, Call.map, Pc.toWritePc, FileManager.writeFilesFromChunks]
    congr 1
    funext b
    cases b <;> rfl
  | write l path n infos =>
    simp only [writeFilesFromChunks, Call.map, Option.map_some, map_afterWrite (h l rfl),
      bytes_bytesToWrite]
    rfl
  | increment l path n infos => rfl
  | inputDone l path n infos =>
    simp only [writeFilesFromChunks, Call.map, Pc.toWritePc, FileManager.writeFilesFromChunks]
    congr 1
    funext b
    cases b <;> rfl
  | inputEmpty l path n infos =>
    simp only [writeFilesFromChunks, Call.map, Pc.toWritePc, FileManager.writeFilesFromChunks]
    congr 1
    funext b
    cases b
    · rfl
    · exact map_forLoop l infos
  | pop path n infos =>
    simp only [writeFilesFromChunks, Call.map, map_whileLoop, toWriteLocals_ofChunk]
    rfl

theorem step_toWriter {capacity : ℕ} {s : State capacity} (hs : Safe s.thread)
    (a : Writer.Event) : s.toWriter.step r a = (step r s a).map State.toWriter := by
  cases a with
  | step f =>
    have hsame : ∀ pc, s.thread = .running pc → (writeFilesFromChunks r pc).map Pc.toWritePc =
        FileManager.writeFilesFromChunks r pc.toWritePc := by
      intro pc hpc
      rw [hpc] at hs
      exact map_writeFilesFromChunks hs
    have hstep := Thread.step_map hsame f s.ctx s.view
    simp only [Writer.step, State.toWriter, step, hstep, Option.map_map]
    rfl
  | arrive c =>
    simp only [Writer.step, State.toWriter, step, Option.map_map]
    rfl
  | finish | abort => rfl

/-- The writer whose counters are natural numbers has the same runs. -/
theorem reach_toWriter_iff {capacity : ℕ} (fs : FileManager.FileSystem) (w : Writer capacity) :
    Reach (Writer.step r) any (Writer.start capacity fs) w ↔
      ∃ s, Reach (step r) any (start capacity fs) s ∧ s.toWriter = w :=
  reach_map_iff (f := State.toWriter) (I := fun s => Safe s.thread)
    (fun _ _ _ hs _ hstep => safe_step hs hstep) (fun _ _ _ => Iff.rfl)
    (fun _ a hs => step_toWriter hs a) (s := start capacity fs) nofun w

end MachineWriter

end Trit
