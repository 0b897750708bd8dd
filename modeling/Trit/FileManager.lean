import Trit.Worker
import Trit.TransferRequest

/-!
# Reading and writing the files

`FileManager.cpp`: the first worker of the sender, which packs the files into chunks, and the last
worker of the receiver, which unpacks the chunks into files.

* `Disk`, `FileSystem`: the files of the two working directories, by relative path;
* `readFilesIntoChunks`: the chunker;
* `writeFilesFromChunks`: the writer.
-/

namespace Trit

namespace FileManager

/-! ### The chunker -/

/-- The sender's files: the contents behind a relative path. -/
abbrev Disk := Bytes → Option Bytes

/-- The local variables of `read_files_into_chunks` that live across files. -/
structure ReadLocals where
  sequenceCounter : UInt32
  remainingBufferCapacity : ℕ
  buffer : Bytes
  deriving DecidableEq

/-- The locals before the first file. -/
def ReadLocals.initial (r : TransferRequest) : ReadLocals :=
  ⟨1, r.uncompressedChunkSize.toNat, List.replicate r.uncompressedChunkSize.toNat 0⟩

/-- The size of the buffer for the chunk `sequenceCounter`, once an earlier one was pushed. -/
def newBufferSize (r : TransferRequest) (sequenceCounter : UInt32) : ℕ :=
  if sequenceCounter = r.numChunks ∧ r.uncompressedFinalChunkSize ≠ 0 then
    r.uncompressedFinalChunkSize.toNat
  else r.uncompressedChunkSize.toNat

/-- The locals after a push: the moved-from buffer is resized. -/
def ReadLocals.afterPush (r : TransferRequest) (sequenceCounter : UInt32) : ReadLocals :=
  let size := newBufferSize r sequenceCounter
  ⟨sequenceCounter, size, List.replicate size 0⟩

/-- The program points of `read_files_into_chunks`.  `file` is what `file.read` has still to
deliver, `infos` are the files after the current one. -/
inductive ReadPc
  | nextFile (l : ReadLocals) (infos : List FileInfo)
  | openFile (l : ReadLocals) (info : FileInfo) (infos : List FileInfo)
  | abortCheck (l : ReadLocals) (file : Bytes) (remainingFileData : ℕ) (infos : List FileInfo)
  | read (l : ReadLocals) (file : Bytes) (remainingFileData : ℕ) (infos : List FileInfo)
  | push (c : Chunk) (l : ReadLocals) (file : Bytes) (remainingFileData : ℕ)
      (infos : List FileInfo)
  | outputDone
  deriving DecidableEq

/-- The head of the inner loop: `while (remaining_file_data > 0)`. -/
def ReadPc.whileLoop (l : ReadLocals) (file : Bytes) (remainingFileData : ℕ)
    (infos : List FileInfo) : ReadPc :=
  if 0 < remainingFileData then .abortCheck l file remainingFileData infos
  else .nextFile l infos

/-- The exception for a file whose size is not the one of the request. -/
def fileSizeMismatch (expected size : ℕ) : Exception :=
  .runtimeError ("\nFile size mismatch: expected " ++ toString expected ++
    " bytes, file size is " ++ toString size ++ " bytes")

/-- The exception of `file_size` for a path without a file; the source shows the working directory
before it. -/
def noSuchFile (path : Bytes) : Exception :=
  .systemError ("filesystem error: cannot get file size: No such file or directory [" ++
    path.text ++ "]")

/-- Opening a file: its size is compared with the request. -/
def openForReading (disk : Disk) (l : ReadLocals) (info : FileInfo) (infos : List FileInfo) :
    Thread ReadPc :=
  match disk info.relativePath with
  | none => .caught (noSuchFile info.relativePath)
  | some contents =>
      if contents.length ≠ info.size.toNat then
        .caught (fileSizeMismatch info.size.toNat contents.length)
      else .running (.whileLoop l contents contents.length infos)

/-- Overwriting part of a buffer. -/
def overwrite (buffer : Bytes) (offset : ℕ) (bytes : Bytes) : Bytes :=
  buffer.take offset ++ bytes ++ buffer.drop (offset + bytes.length)

/-- The body of the inner loop up to the push: one `file.read` into the free part of the buffer.
A full buffer becomes the next chunk. -/
def readIntoBuffer (l : ReadLocals) (file : Bytes) (remainingFileData : ℕ)
    (infos : List FileInfo) : Thread ReadPc :=
  let bytesToRead := min remainingFileData l.remainingBufferCapacity
  let bytes := file.take bytesToRead
  if bytes.length ≠ bytesToRead then
    .caught (.runtimeError "\nDid not read expected number of bytes")
  else
    let buffer := overwrite l.buffer (l.buffer.length - l.remainingBufferCapacity) bytes
    let l' : ReadLocals :=
      ⟨l.sequenceCounter, l.remainingBufferCapacity - bytes.length, buffer⟩
    let file' := file.drop bytesToRead
    let remainingFileData' := remainingFileData - bytes.length
    if l'.remainingBufferCapacity = 0 then
      .running (.push (.plain l.sequenceCounter.toUInt64 buffer)
        { l' with sequenceCounter := l.sequenceCounter + 1 } file' remainingFileData' infos)
    else .running (.whileLoop l' file' remainingFileData' infos)

/-- `read_files_into_chunks`. -/
def readFilesIntoChunks (r : TransferRequest) : ReadPc → Call Disk ReadPc
  | .nextFile _ [] => .outputDone .returned
  | .nextFile l (info :: infos) => .shouldAbort fun b =>
      .running (if b then .outputDone else .openFile l info infos)
  | .openFile l info infos => .io
      (fun disk => some (openForReading disk l info infos, disk)) (fun _ disk => disk)
  | .abortCheck l file remainingFileData infos => .shouldAbort fun b =>
      .running (if b then .outputDone else .read l file remainingFileData infos)
  | .read l file remainingFileData infos => .io
      (fun disk => some (readIntoBuffer l file remainingFileData infos, disk))
      (fun _ disk => disk)
  | .push c l file remainingFileData infos => .push c
      (.running (.whileLoop (.afterPush r l.sequenceCounter) file remainingFileData infos))
  | .outputDone => .outputDone .returned

/-- What one operation of `read_files_into_chunks` can be. -/
inductive ReadMove {capacity : ℕ} (r : TransferRequest) (abort : Bool) (f : Option Fault)
    (v : View capacity Disk) (pc : ReadPc) : Thread ReadPc → View capacity Disk → Prop
  | finished (l : ReadLocals) (hpc : pc = .nextFile l []) :
      ReadMove r abort f v pc .returned { v with output := { v.output with done := true } }
  | abortFile (l : ReadLocals) (info : FileInfo) (infos : List FileInfo)
      (hpc : pc = .nextFile l (info :: infos)) (ha : abort = true) :
      ReadMove r abort f v pc (.running .outputDone) v
  | goOnFile (l : ReadLocals) (info : FileInfo) (infos : List FileInfo)
      (hpc : pc = .nextFile l (info :: infos)) (ha : abort = false) :
      ReadMove r abort f v pc (.running (.openFile l info infos)) v
  | opened (l : ReadLocals) (info : FileInfo) (infos : List FileInfo)
      (hpc : pc = .openFile l info infos) :
      ReadMove r abort f v pc (openForReading v.world l info infos) v
  | openFault (l : ReadLocals) (info : FileInfo) (infos : List FileInfo) (x : Fault)
      (hpc : pc = .openFile l info infos) (hf : f = some x) :
      ReadMove r abort f v pc (.caught x.exception) v
  | abortRead (l : ReadLocals) (file : Bytes) (n : ℕ) (infos : List FileInfo)
      (hpc : pc = .abortCheck l file n infos) (ha : abort = true) :
      ReadMove r abort f v pc (.running .outputDone) v
  | goOnRead (l : ReadLocals) (file : Bytes) (n : ℕ) (infos : List FileInfo)
      (hpc : pc = .abortCheck l file n infos) (ha : abort = false) :
      ReadMove r abort f v pc (.running (.read l file n infos)) v
  | read (l : ReadLocals) (file : Bytes) (n : ℕ) (infos : List FileInfo)
      (hpc : pc = .read l file n infos) :
      ReadMove r abort f v pc (readIntoBuffer l file n infos) v
  | readFault (l : ReadLocals) (file : Bytes) (n : ℕ) (infos : List FileInfo) (x : Fault)
      (hpc : pc = .read l file n infos) (hf : f = some x) :
      ReadMove r abort f v pc (.caught x.exception) v
  | pushed (c : Chunk) (l : ReadLocals) (file : Bytes) (n : ℕ) (infos : List FileInfo)
      (q : BoundedThreadSafeQueue capacity Chunk) (hpc : pc = .push c l file n infos)
      (hq : v.output.queue.push c = some q) :
      ReadMove r abort f v pc
        (.running (.whileLoop (.afterPush r l.sequenceCounter) file n infos))
        { v with output := { v.output with queue := q } }
  | aborted (hpc : pc = .outputDone) :
      ReadMove r abort f v pc .returned { v with output := { v.output with done := true } }

/-- Every operation of `read_files_into_chunks` is one of these. -/
theorem readMove_of_run {capacity : ℕ} {r : TransferRequest} {abort : Bool} {f : Option Fault}
    {v v' : View capacity Disk} {pc : ReadPc} {t : Thread ReadPc}
    (h : (readFilesIntoChunks r pc).run abort f v = some (t, v')) :
    ReadMove r abort f v pc t v' := by
  cases f with
  | some x =>
    cases pc with
    | nextFile l infos => cases infos <;> simp [Call.run, readFilesIntoChunks, Call.fail] at h
    | openFile l info infos =>
      obtain ⟨rfl, rfl⟩ : .caught x.exception = t ∧ v = v' := by
        simpa [Call.run, readFilesIntoChunks, Call.fail] using h
      exact .openFault l info infos x rfl rfl
    | read l file n infos =>
      obtain ⟨rfl, rfl⟩ : .caught x.exception = t ∧ v = v' := by
        simpa [Call.run, readFilesIntoChunks, Call.fail] using h
      exact .readFault l file n infos x rfl rfl
    | _ => simp [Call.run, readFilesIntoChunks, Call.fail] at h
  | none =>
    cases pc with
    | nextFile l infos =>
      cases infos with
      | nil =>
        obtain ⟨rfl, rfl⟩ : .returned = t ∧
            { v with output := { v.output with done := true } } = v' := by
          simpa [Call.run, readFilesIntoChunks, Call.exec] using h
        exact .finished l rfl
      | cons info infos =>
        obtain ⟨rfl, rfl⟩ : .running (if abort then .outputDone else .openFile l info infos) = t ∧
            v = v' := by
          simpa [Call.run, readFilesIntoChunks, Call.exec] using h
        cases abort
        · exact .goOnFile l info infos rfl rfl
        · exact .abortFile l info infos rfl rfl
    | openFile l info infos =>
      obtain ⟨rfl, rfl⟩ : openForReading v.world l info infos = t ∧ v = v' := by
        simpa [Call.run, readFilesIntoChunks, Call.exec] using h
      exact .opened l info infos rfl
    | abortCheck l file n infos =>
      obtain ⟨rfl, rfl⟩ : .running (if abort then .outputDone else .read l file n infos) = t ∧
          v = v' := by
        simpa [Call.run, readFilesIntoChunks, Call.exec] using h
      cases abort
      · exact .goOnRead l file n infos rfl rfl
      · exact .abortRead l file n infos rfl rfl
    | read l file n infos =>
      obtain ⟨rfl, rfl⟩ : readIntoBuffer l file n infos = t ∧ v = v' := by
        simpa [Call.run, readFilesIntoChunks, Call.exec] using h
      exact .read l file n infos rfl
    | push c l file n infos =>
      obtain ⟨q, hq, rfl, rfl⟩ : ∃ q, v.output.queue.push c = some q ∧
          .running (.whileLoop (.afterPush r l.sequenceCounter) file n infos) = t ∧
          { v with output := { v.output with queue := q } } = v' := by
        simpa [Call.run, readFilesIntoChunks, Call.exec] using h
      exact .pushed c l file n infos q rfl hq
    | outputDone =>
      obtain ⟨rfl, rfl⟩ : .returned = t ∧
          { v with output := { v.output with done := true } } = v' := by
        simpa [Call.run, readFilesIntoChunks, Call.exec] using h
      exact .aborted rfl

/-! ### The writer -/

/-- The receiver's working directory: its files by relative path, and the directories created
for them, latest first. -/
structure FileSystem where
  files : Bytes → Option Bytes
  directories : List Bytes

namespace FileSystem

/-- `path.parent_path()` of a relative path: what stands before the last run of slashes. -/
def parentPath (path : Bytes) : Bytes :=
  ((path.reverse.dropWhile (· ≠ 47)).dropWhile (· = 47)).reverse

/-- `create_directories(parent_path)`, when there is a parent. -/
def createParent (fs : FileSystem) (path : Bytes) : FileSystem :=
  if parentPath path = [] then fs
  else { fs with directories := parentPath path :: fs.directories }

/-- Opening an `ofstream`: the file exists and is empty. -/
def truncate (fs : FileSystem) (path : Bytes) : FileSystem :=
  { fs with files := Function.update fs.files path (some []) }

@[simp] theorem createParent_files (fs : FileSystem) (path : Bytes) :
    (fs.createParent path).files = fs.files := by
  unfold createParent
  split_ifs <;> rfl

/-- `file.write`: appends to an open file. -/
def append (fs : FileSystem) (path bytes : Bytes) : FileSystem :=
  { fs with files := Function.update fs.files path (some ((fs.files path).getD [] ++ bytes)) }

end FileSystem

/-- The local variables of `write_files_from_chunks` that live across files. -/
structure WriteLocals where
  chunk : Chunk
  remainingChunkData : ℕ
  chunkOffset : ℕ
  deriving DecidableEq

/-- The locals after a pop. -/
def WriteLocals.ofChunk (c : Chunk) : WriteLocals := ⟨c, c.size.toNat, 0⟩

/-- The program points of `write_files_from_chunks`.  `path` is the open file, `infos` are the
files after it. -/
inductive WritePc
  | firstPop
  | openFile (l : WriteLocals) (info : FileInfo) (infos : List FileInfo)
  | abortCheck (l : WriteLocals) (path : Bytes) (remainingFileData : ℕ) (infos : List FileInfo)
  | write (l : WriteLocals) (path : Bytes) (remainingFileData : ℕ) (infos : List FileInfo)
  | increment (l : WriteLocals) (path : Bytes) (remainingFileData : ℕ) (infos : List FileInfo)
  | inputDone (l : WriteLocals) (path : Bytes) (remainingFileData : ℕ) (infos : List FileInfo)
  | inputEmpty (l : WriteLocals) (path : Bytes) (remainingFileData : ℕ) (infos : List FileInfo)
  | pop (path : Bytes) (remainingFileData : ℕ) (infos : List FileInfo)
  deriving DecidableEq

/-- The head of the loop over the files. -/
def forLoop (l : WriteLocals) : List FileInfo → Thread WritePc
  | [] => .returned
  | info :: infos => .running (.openFile l info infos)

/-- The head of the inner loop: `while (remaining_file_data > 0)`. -/
def whileLoop (l : WriteLocals) (path : Bytes) (remainingFileData : ℕ)
    (infos : List FileInfo) : Thread WritePc :=
  if 0 < remainingFileData then .running (.abortCheck l path remainingFileData infos)
  else forLoop l infos

/-- The bytes of one `file.write`. -/
def bytesToWrite (l : WriteLocals) (remainingFileData : ℕ) : Bytes :=
  (l.chunk.data.drop l.chunkOffset).take (min remainingFileData l.remainingChunkData)

/-- After the write: the three counters move on, and an exhausted chunk is counted. -/
def afterWrite (l : WriteLocals) (path : Bytes) (remainingFileData : ℕ)
    (infos : List FileInfo) : Thread WritePc :=
  let n := min remainingFileData l.remainingChunkData
  let l' : WriteLocals := ⟨l.chunk, l.remainingChunkData - n, l.chunkOffset + n⟩
  if l'.remainingChunkData = 0 then .running (.increment l' path (remainingFileData - n) infos)
  else whileLoop l' path (remainingFileData - n) infos

/-- `write_files_from_chunks`. -/
def writeFilesFromChunks (r : TransferRequest) : WritePc → Call FileSystem WritePc
  | .firstPop => .pop fun c => forLoop (.ofChunk c) r.fileInfos
  | .openFile l info infos => .io
      (fun fs => some (whileLoop l info.relativePath info.size.toNat infos,
        (fs.createParent info.relativePath).truncate info.relativePath))
      (fun n fs => if n = 0 then fs else fs.createParent info.relativePath)
  | .abortCheck l path remainingFileData infos => .shouldAbort fun b =>
      if b then .returned else .running (.write l path remainingFileData infos)
  | .write l path remainingFileData infos => .io
      (fun fs => some (afterWrite l path remainingFileData infos,
        fs.append path (bytesToWrite l remainingFileData)))
      (fun n fs => fs.append path ((bytesToWrite l remainingFileData).take n))
  | .increment l path remainingFileData infos => .increment
      (.running (.inputDone l path remainingFileData infos))
  | .inputDone l path remainingFileData infos => .inputDone fun b =>
      .running (if b then .inputEmpty l path remainingFileData infos
        else .pop path remainingFileData infos)
  | .inputEmpty l path remainingFileData infos => .inputEmpty fun b =>
      if b then forLoop l infos else .running (.pop path remainingFileData infos)
  | .pop path remainingFileData infos => .pop fun c =>
      whileLoop (.ofChunk c) path remainingFileData infos

/-- What one operation of `write_files_from_chunks` can be. -/
inductive WriteMove {capacity : ℕ} (r : TransferRequest) (abort : Bool) (f : Option Fault)
    (v : View capacity FileSystem) (pc : WritePc) :
    Thread WritePc → View capacity FileSystem → Prop
  | firstPopped (c : Chunk) (q : BoundedThreadSafeQueue capacity Chunk) (hpc : pc = .firstPop)
      (hq : v.input.queue.pop = some (c, q)) :
      WriteMove r abort f v pc (forLoop (.ofChunk c) r.fileInfos)
        { v with input := { v.input with queue := q } }
  | opened (l : WriteLocals) (info : FileInfo) (infos : List FileInfo)
      (hpc : pc = .openFile l info infos) :
      WriteMove r abort f v pc (whileLoop l info.relativePath info.size.toNat infos)
        { v with world := (v.world.createParent info.relativePath).truncate info.relativePath }
  | openFault (l : WriteLocals) (info : FileInfo) (infos : List FileInfo) (x : Fault)
      (hpc : pc = .openFile l info infos) (hf : f = some x) :
      WriteMove r abort f v pc (.caught x.exception)
        { v with world :=
            if x.progress = 0 then v.world else v.world.createParent info.relativePath }
  | abort (l : WriteLocals) (path : Bytes) (n : ℕ) (infos : List FileInfo)
      (hpc : pc = .abortCheck l path n infos) (ha : abort = true) :
      WriteMove r abort f v pc .returned v
  | goOn (l : WriteLocals) (path : Bytes) (n : ℕ) (infos : List FileInfo)
      (hpc : pc = .abortCheck l path n infos) (ha : abort = false) :
      WriteMove r abort f v pc (.running (.write l path n infos)) v
  | wrote (l : WriteLocals) (path : Bytes) (n : ℕ) (infos : List FileInfo)
      (hpc : pc = .write l path n infos) :
      WriteMove r abort f v pc (afterWrite l path n infos)
        { v with world := v.world.append path (bytesToWrite l n) }
  | writeFault (l : WriteLocals) (path : Bytes) (n : ℕ) (infos : List FileInfo) (x : Fault)
      (hpc : pc = .write l path n infos) (hf : f = some x) :
      WriteMove r abort f v pc (.caught x.exception)
        { v with world := v.world.append path ((bytesToWrite l n).take x.progress) }
  | counted (l : WriteLocals) (path : Bytes) (n : ℕ) (infos : List FileInfo)
      (hpc : pc = .increment l path n infos) :
      WriteMove r abort f v pc (.running (.inputDone l path n infos))
        { v with counter := v.counter + 1 }
  | doneSeen (l : WriteLocals) (path : Bytes) (n : ℕ) (infos : List FileInfo)
      (hpc : pc = .inputDone l path n infos) (hd : v.input.done = true) :
      WriteMove r abort f v pc (.running (.inputEmpty l path n infos)) v
  | notDone (l : WriteLocals) (path : Bytes) (n : ℕ) (infos : List FileInfo)
      (hpc : pc = .inputDone l path n infos) (hd : v.input.done = false) :
      WriteMove r abort f v pc (.running (.pop path n infos)) v
  | drained (l : WriteLocals) (path : Bytes) (n : ℕ) (infos : List FileInfo)
      (hpc : pc = .inputEmpty l path n infos) (hq : v.input.queue.queue = []) :
      WriteMove r abort f v pc (forLoop l infos) v
  | more (l : WriteLocals) (path : Bytes) (n : ℕ) (infos : List FileInfo)
      (hpc : pc = .inputEmpty l path n infos) (hq : v.input.queue.queue ≠ []) :
      WriteMove r abort f v pc (.running (.pop path n infos)) v
  | popped (path : Bytes) (n : ℕ) (infos : List FileInfo) (c : Chunk)
      (q : BoundedThreadSafeQueue capacity Chunk) (hpc : pc = .pop path n infos)
      (hq : v.input.queue.pop = some (c, q)) :
      WriteMove r abort f v pc (whileLoop (.ofChunk c) path n infos)
        { v with input := { v.input with queue := q } }

/-- Every operation of `write_files_from_chunks` is one of these. -/
theorem writeMove_of_run {capacity : ℕ} {r : TransferRequest} {abort : Bool} {f : Option Fault}
    {v v' : View capacity FileSystem} {pc : WritePc} {t : Thread WritePc}
    (h : (writeFilesFromChunks r pc).run abort f v = some (t, v')) :
    WriteMove r abort f v pc t v' := by
  cases f with
  | some x =>
    cases pc with
    | openFile l info infos =>
      obtain ⟨rfl, rfl⟩ : .caught x.exception = t ∧ { v with world :=
          if x.progress = 0 then v.world else v.world.createParent info.relativePath } = v' := by
        simpa [Call.run, writeFilesFromChunks, Call.fail] using h
      exact .openFault l info infos x rfl rfl
    | write l path n infos =>
      obtain ⟨rfl, rfl⟩ : .caught x.exception = t ∧
          { v with world := v.world.append path ((bytesToWrite l n).take x.progress) } = v' := by
        simpa [Call.run, writeFilesFromChunks, Call.fail] using h
      exact .writeFault l path n infos x rfl rfl
    | _ => simp [Call.run, writeFilesFromChunks, Call.fail] at h
  | none =>
    cases pc with
    | firstPop =>
      obtain ⟨c, q, hq, rfl, rfl⟩ : ∃ c q, v.input.queue.pop = some (c, q) ∧
          forLoop (.ofChunk c) r.fileInfos = t ∧
          { v with input := { v.input with queue := q } } = v' := by
        simpa [Call.run, writeFilesFromChunks, Call.exec] using h
      exact .firstPopped c q rfl hq
    | openFile l info infos =>
      obtain ⟨rfl, rfl⟩ : whileLoop l info.relativePath info.size.toNat infos = t ∧ { v with
          world := (v.world.createParent info.relativePath).truncate info.relativePath } = v' := by
        simpa [Call.run, writeFilesFromChunks, Call.exec] using h
      exact .opened l info infos rfl
    | abortCheck l path n infos =>
      obtain ⟨rfl, rfl⟩ : (if abort then .returned else .running (.write l path n infos)) = t ∧
          v = v' := by
        simpa [Call.run, writeFilesFromChunks, Call.exec] using h
      cases abort
      · exact .goOn l path n infos rfl rfl
      · exact .abort l path n infos rfl rfl
    | write l path n infos =>
      obtain ⟨rfl, rfl⟩ : afterWrite l path n infos = t ∧
          { v with world := v.world.append path (bytesToWrite l n) } = v' := by
        simpa [Call.run, writeFilesFromChunks, Call.exec] using h
      exact .wrote l path n infos rfl
    | increment l path n infos =>
      obtain ⟨rfl, rfl⟩ : .running (.inputDone l path n infos) = t ∧
          { v with counter := v.counter + 1 } = v' := by
        simpa [Call.run, writeFilesFromChunks, Call.exec] using h
      exact .counted l path n infos rfl
    | inputDone l path n infos =>
      obtain ⟨rfl, rfl⟩ : .running (if v.input.done then .inputEmpty l path n infos
          else .pop path n infos) = t ∧ v = v' := by
        simpa [Call.run, writeFilesFromChunks, Call.exec] using h
      cases hd : v.input.done
      · exact .notDone l path n infos rfl hd
      · exact .doneSeen l path n infos rfl hd
    | inputEmpty l path n infos =>
      obtain ⟨rfl, rfl⟩ : (if v.input.queue.empty then forLoop l infos
          else .running (.pop path n infos)) = t ∧ v = v' := by
        simpa [Call.run, writeFilesFromChunks, Call.exec] using h
      cases he : v.input.queue.empty
      · exact .more l path n infos rfl
          (fun hq => by simp [hq, BoundedThreadSafeQueue.empty] at he)
      · exact .drained l path n infos rfl (BoundedThreadSafeQueue.empty_iff.mp he)
    | pop path n infos =>
      obtain ⟨c, q, hq, rfl, rfl⟩ : ∃ c q, v.input.queue.pop = some (c, q) ∧
          whileLoop (.ofChunk c) path n infos = t ∧
          { v with input := { v.input with queue := q } } = v' := by
        simpa [Call.run, writeFilesFromChunks, Call.exec] using h
      exact .popped path n infos c q rfl hq

/-- The points at which the writer blocks while its input is empty. -/
def WritePc.blocking : WritePc → Bool
  | .firstPop | .pop _ _ _ => true
  | _ => false

/-- The writer waits for nothing but a chunk. -/
theorem exists_run {capacity : ℕ} (r : TransferRequest) (abort : Bool)
    {v : View capacity FileSystem} {pc : WritePc}
    (hinput : pc.blocking = true → v.input.queue.queue ≠ []) :
    ∃ t v', (writeFilesFromChunks r pc).run abort none v = some (t, v') := by
  cases pc with
  | firstPop =>
    obtain ⟨c, q, hq⟩ := BoundedThreadSafeQueue.exists_pop (hinput rfl)
    exact ⟨forLoop (.ofChunk c) r.fileInfos, { v with input := { v.input with queue := q } },
      by simp [Call.run, writeFilesFromChunks, Call.exec, hq]⟩
  | pop path n infos =>
    obtain ⟨c, q, hq⟩ := BoundedThreadSafeQueue.exists_pop (hinput rfl)
    exact ⟨whileLoop (.ofChunk c) path n infos, { v with input := { v.input with queue := q } },
      by simp [Call.run, writeFilesFromChunks, Call.exec, hq]⟩
  | _ => exact ⟨_, _, rfl⟩

end FileManager

end Trit
