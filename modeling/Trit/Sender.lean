import Trit.Pipeline
import Trit.Packing
import Trit.TransferManager

/-!
# Sending

`Sender::send_files`: the pipeline of chunker, encryptor and transmitter, with its tracker.

    read_files_into_chunks -> encrypt_chunks -> send_chunks -> socket

* `program`, `initial`, `step`: the pipeline of a request;
* `Flow`: what holds in every run, whatever fails: each worker keeps step with the sequential
  sender;
* `outcome_of_reach`: `send_files` gets to `staging::clear` only after a complete transfer.
-/

namespace Trit

open Transition

namespace Sender

open FileManager TransferManager

/-- `QUEUE_CAPACITY`. -/
def queueCapacity : ℕ := 50

/-- The state of `send_files` from the start of the threads on; the sink is what `send_chunks` has
written to the socket. -/
abbrev State (capacity : ℕ) (ss : SecretStream) :=
  Pipeline capacity ReadPc SendPc Disk Bytes (EncryptionManager ss)

variable {capacity : ℕ} {ss : SecretStream}

/-- The threads of `send_files`. -/
def program (ss : SecretStream) (r : TransferRequest) :
    Program ReadPc SendPc Disk Bytes (EncryptionManager ss) where
  producer := readFilesIntoChunks r
  transform := EncryptionManager.encryptChunk
  consumer := sendChunks
  limit := r.numChunks

/-- The encryption manager of a request, whose encryptor is in the state `st`. -/
def manager (r : TransferRequest) (st : ss.State) : EncryptionManager ss :=
  ⟨r.uncompressedChunkSize, r.numChunks.toUInt64, .encryptor st⟩

/-- `send_files` with all threads started. -/
def initial (capacity : ℕ) (r : TransferRequest) (disk : Disk) (st : ss.State) :
    State capacity ss :=
  Pipeline.initial capacity disk [] (.nextFile (.initial r) r.fileInfos) (manager r st)
    .abortCheck

/-- One step of one thread of `send_files`. -/
def step (r : TransferRequest) : State capacity ss → Action → Option (State capacity ss) :=
  Pipeline.step (program ss r)

theorem program_sound (r : TransferRequest) : (program ss r).Sound where
  producer := by
    intro capacity abort f v v' pc t h
    have hmove := readMove_of_run h
    cases hmove with
    | opened l info infos =>
      unfold openForReading
      split
      · rfl
      · split_ifs <;> rfl
    | read l file n infos =>
      unfold readIntoBuffer
      dsimp only
      split_ifs <;> rfl
    | _ => rfl
  consumer := by
    intro capacity abort f v v' pc t h
    cases sendMove_of_run h <;> rfl

/-! ### Runs in which anything may fail -/

/-- What holds in every run: the chunks are numbered, the encryptor computes what the sequential
stage computes, the socket holds the frames of the chunks popped last, and the exception slot and
the tracker are as they should be. -/
structure Flow (r : TransferRequest) (st : ss.State) (s : State capacity ss) : Prop where
  slot : s.Slot
  read : ReadNumbers s.upstream.queue.pushed s.producer
  stage : StageFlow EncryptionManager.encryptChunk (manager r st) s.upstream.queue.popped
    s.downstream.queue.pushed s.stage
  send : SendFlow s.downstream.queue.popped s.sink s.counter s.consumer
  tracked : s.Tracked r.numChunks

theorem Flow.initial (r : TransferRequest) (disk : Disk) (st : ss.State) :
    Flow r st (initial capacity r disk st) where
  slot := Pipeline.Slot.initial _ _ _ _ _
  read := ⟨fun i c hc => by simp [Sender.initial, Pipeline.initial, Channel.new] at hc, rfl⟩
  stage := rfl
  send := ⟨rfl, rfl⟩
  tracked := ⟨fun c hc => (nomatch hc), fun h => (nomatch h)⟩

/-- The encryptor lets at most `num_chunks` chunks through. -/
theorem Flow.pushed_le {r : TransferRequest} {st : ss.State} {s : State capacity ss}
    (hi : Flow r st s) : s.downstream.queue.pushed.length ≤ r.numChunks.toNat := by
  obtain ⟨pre, m, rest, hpre, hall⟩ := hi.stage.exists_isPrefix
  have hnum : Numbered pre :=
    hi.read.numbered.of_isPrefix (hpre.trans (List.prefix_append _ _))
  have hlen := length_transformAll hall
  have hle := hnum.length_le r.numChunks rfl hall
  rw [List.length_append] at hlen
  omega

/-- The increment of the counter does not wrap around: the chunk it counts is one of at most
`num_chunks`. -/
theorem Flow.counter_lt {r : TransferRequest} {st : ss.State} {s : State capacity ss}
    (hi : Flow r st s) (hs : s.consumer = .running (.write [])) :
    s.counter ≤ s.counter + 1 := by
  have hsend := hi.send
  rw [hs] at hsend
  obtain ⟨pre, c, written, hpop, -, -, hcounter⟩ := hsend
  have hle := hi.pushed_le
  rw [BoundedThreadSafeQueue.pushed, List.length_append, hpop, List.length_append,
    List.length_singleton] at hle
  have hnum := r.numChunks.toNat_lt
  have hone : (1 : UInt32).toNat = 1 := rfl
  rw [UInt32.le_iff_toNat_le, hcounter, UInt32.toNat_add, UInt32.toNat_ofNat', hone]
  omega

theorem Flow.step {r : TransferRequest} {st : ss.State} {s t : State capacity ss} {a : Action}
    (hi : Flow r st s) (h : step r s a = some t) : Flow r st t := by
  have hslot : t.Slot := hi.slot.step (program_sound r) h
  have habort := Pipeline.abortFlag_of_step h
  cases a with
  | producer f =>
    rcases Pipeline.step_producer_cases h with ⟨pc, th, v, hs, hrun, rfl⟩ | ⟨e, he, -, rfl⟩ |
      ⟨e, he, -, rfl⟩
    · have hread := hi.read
      rw [hs] at hread
      refine ⟨hslot, ReadNumbers.move (readMove_of_run hrun) hread, ?_, hi.send,
        hi.tracked.of_eq rfl habort (UInt32.le_refl _)⟩
      show StageFlow _ _ v.output.queue.popped _ _
      rw [(Call.run_output hrun).1]
      exact hi.stage
    · exact ⟨hslot, hi.read.numbered, hi.stage, hi.send,
        hi.tracked.of_eq rfl habort (UInt32.le_refl _)⟩
    · exact ⟨hslot, hi.read.numbered, hi.stage, hi.send,
        hi.tracked.of_eq rfl habort (UInt32.le_refl _)⟩
  | stage f =>
    rcases Pipeline.step_stage_cases h with ⟨pc, th, v, hs, hmove, rfl⟩ | ⟨e, he, -, rfl⟩ |
      ⟨e, he, -, rfl⟩
    · have hstage := hi.stage
      rw [hs] at hstage
      refine ⟨hslot, ?_, StageFlow.move hmove hstage, ?_,
        hi.tracked.of_eq rfl habort (UInt32.le_refl _)⟩
      · show ReadNumbers v.input.queue.pushed _
        rw [hmove.input_pushed]
        exact hi.read
      · show SendFlow v.output.queue.popped _ _ _
        rw [hmove.output_popped]
        exact hi.send
    · have hstage := hi.stage
      rw [he] at hstage
      exact ⟨hslot, hi.read, hstage, hi.send, hi.tracked.of_eq rfl habort (UInt32.le_refl _)⟩
    · have hstage := hi.stage
      rw [he] at hstage
      exact ⟨hslot, hi.read, hstage, hi.send, hi.tracked.of_eq rfl habort (UInt32.le_refl _)⟩
  | consumer f =>
    rcases Pipeline.step_consumer_cases h with ⟨pc, th, v, hs, hrun, rfl⟩ | ⟨e, he, -, rfl⟩ |
      ⟨e, he, -, rfl⟩
    · have hsend := hi.send
      rw [hs] at hsend
      have hmove := sendMove_of_run hrun
      refine ⟨hslot, hi.read, ?_, SendFlow.move hmove hsend, hi.tracked.of_eq rfl habort ?_⟩
      · show StageFlow _ _ _ v.input.queue.pushed _
        rw [(Call.run_input hrun).1]
        exact hi.stage
      · cases hmove with
        -- only the increment changes the counter, and it does not wrap around
        | counted hpc => exact hi.counter_lt (hpc ▸ hs)
        | _ => exact UInt32.le_refl _
    · have hsend := hi.send
      rw [he] at hsend
      exact ⟨hslot, hi.read, hi.stage, hsend, hi.tracked.of_eq rfl habort (UInt32.le_refl _)⟩
    · have hsend := hi.send
      rw [he] at hsend
      exact ⟨hslot, hi.read, hi.stage, Or.inr hsend,
        hi.tracked.of_eq rfl habort (UInt32.le_refl _)⟩
  | tracker f =>
    have htracked := Pipeline.Tracked.step_tracker hi.slot hi.tracked h
    rcases Pipeline.step_tracker_cases h with ⟨pc, th, hs, hmove, rfl⟩ | ⟨e, he, -, rfl⟩ |
      ⟨e, he, -, rfl⟩
    · exact ⟨hslot, hi.read, hi.stage, hi.send, htracked⟩
    · exact ⟨hslot, hi.read, hi.stage, hi.send, htracked⟩
    · exact ⟨hslot, hi.read, hi.stage, hi.send, htracked⟩
  | main =>
    obtain ⟨-, -, ⟨e, -, rfl⟩ | ⟨-, rfl⟩⟩ := Pipeline.step_main_cases h
    · exact ⟨hslot, hi.read, hi.stage, hi.send, hi.tracked.of_eq rfl habort (UInt32.le_refl _)⟩
    · exact ⟨hslot, hi.read, hi.stage, hi.send, hi.tracked.of_eq rfl habort (UInt32.le_refl _)⟩

theorem Flow.of_reach {r : TransferRequest} {disk : Disk} {st : ss.State}
    {s : State capacity ss} (h : Reach (Sender.step r) any (Sender.initial capacity r disk st) s) :
    Flow r st s :=
  h.invariant (fun _ _ _ hi _ hs => hi.step hs) (Flow.initial r disk st)

/-- If no worker has thrown and all have returned, the frames of `num_chunks` chunks are on the
socket: the tracker has seen the counter at its limit. -/
theorem Flow.complete {r : TransferRequest} {st : ss.State} {s : State capacity ss}
    (hi : Flow r st s) (hjoin : s.joinable = true) (hhandled : s.ctx.handled = []) :
    ∃ cs es m, cs <+: s.upstream.queue.pushed ∧ cs.length = r.numChunks.toNat ∧
      transformAll EncryptionManager.encryptChunk (manager r st) cs = .ok (es, m) ∧
      es.map Chunk.sequenceNum =
        (List.range r.numChunks.toNat).map (fun k => UInt64.ofNat (k + 1)) ∧
      s.sink = frames es := by
  obtain ⟨hproducer, hstage, hconsumer, htracker⟩ := Pipeline.joinable_iff.mp hjoin
  have habort : ¬ s.ctx.abortFlag = true := by
    rw [hi.slot.abort]
    simp [Pipeline.Raised, hhandled, hproducer, hstage, hconsumer, htracker, Thread.raised]
  have hlimit : r.numChunks ≤ s.counter := (hi.tracked.returned htracker).resolve_left habort
  have hpushed := hi.pushed_le
  have hnum := r.numChunks.toNat_lt
  rw [BoundedThreadSafeQueue.pushed, List.length_append] at hpushed
  rw [UInt32.le_iff_toNat_le] at hlimit
  have hstageFlow := hi.stage
  rw [hstage] at hstageFlow
  obtain ⟨cs, m, hcs, hall⟩ := hstageFlow
  rcases hi.send.flushed_or_torn with ⟨hsocket, hcounter⟩ | ⟨pre, c, part, hpop, -, -, hcounter⟩
  · rw [hcounter, UInt32.toNat_ofNat_of_lt' (by show _ < 2 ^ 32; omega)] at hlimit
    have hqueue : s.downstream.queue.queue = [] := List.eq_nil_of_length_eq_zero (by omega)
    have hes : s.downstream.queue.pushed = s.downstream.queue.popped := by
      rw [BoundedThreadSafeQueue.pushed, hqueue, List.append_nil]
    rw [hes] at hall
    have hlen := length_transformAll hall
    have hinit := hcs.trans (List.prefix_append _ s.upstream.queue.queue)
    have hseq := (hi.read.numbered.of_isPrefix hinit).map_sequenceNum (by omega)
    refine ⟨cs, _, m, hinit, by omega, hall, ?_, hsocket⟩
    rw [(EncryptionManager.transformAll_encryptChunk_ok hall).1, hseq, ← hlen]
    congr 2
    omega
  · -- one more chunk popped than counted would be one more than can be encrypted
    exfalso
    rw [hpop, List.length_append, List.length_singleton] at hpushed
    rw [hcounter, UInt32.toNat_ofNat_of_lt' (by show _ < 2 ^ 32; omega)] at hlimit
    omega

/-- A failed transfer is never taken for a successful one.  In every run in which anything may
fail, `send_files` gets past `rethrow_if_exception` to `staging::clear` only if no worker has
thrown and the frames numbered 1, …, `num_chunks` are on the socket; and once a worker has thrown,
it does not, and what it reports after the joins is the exception stored first. -/
theorem outcome_of_reach {r : TransferRequest} {disk : Disk} {st : ss.State}
    {s : State capacity ss}
    (h : Reach (step r) any (initial capacity r disk st) s) :
    (s.main = .completed → ¬ s.Threw ∧ ∃ cs es m, cs <+: s.upstream.queue.pushed ∧
      cs.length = r.numChunks.toNat ∧
      transformAll EncryptionManager.encryptChunk (manager r st) cs = .ok (es, m) ∧
      es.map Chunk.sequenceNum =
        (List.range r.numChunks.toNat).map (fun k => UInt64.ofNat (k + 1)) ∧
      s.sink = frames es) ∧
    (s.Threw → s.main ≠ .completed ∧
      (s.main = .joining → s.joinable = true → ∃ e, s.ctx.handled.head? = some e ∧
        step r s .main = some { s with main := .failed e }) ∧
      ∀ e, s.main = .failed e → s.ctx.handled.head? = some e) := by
  have hi := Flow.of_reach h
  refine ⟨fun hmain => ?_, fun hT => ⟨fun hmain => ?_, fun hmain hjoin => ?_, hi.slot.failed⟩⟩
  · have hjoin := hi.slot.joined (by rw [hmain]; exact nofun)
    have hhandled := hi.slot.completed hmain
    exact ⟨Pipeline.not_threw_of_joinable hjoin hhandled, hi.complete hjoin hhandled⟩
  · exact Pipeline.not_threw_of_joinable (hi.slot.joined (by rw [hmain]; exact nofun))
      (hi.slot.completed hmain) hT
  · cases hhandled : s.ctx.handled with
    | nil => exact absurd hT (Pipeline.not_threw_of_joinable hjoin hhandled)
    | cons e rest =>
      refine ⟨e, rfl, ?_⟩
      have hptr : s.ctx.exceptionPtr = some e := by
        rw [hi.slot.ptr, hhandled]
        rfl
      simp [step, Pipeline.step, hmain, hjoin, hptr]

/-- A working directory with one file `a` of one byte. -/
def oneByteDisk : Disk := fun path => if path = [97] then some [7] else none

/-- The request for that file. -/
def oneByteRequest : TransferRequest := ⟨1, 1, 1, 0, 1, [⟨[97], 1⟩]⟩

/-- The request for the one file is what `from_file_paths` builds. -/
theorem fromFilePaths_oneByte : TransferRequest.fromFilePaths id
    (fun p => oneByteDisk.fileSize (id p)) [[97]] = .ok oneByteRequest := by
  rfl

/-- The encryption of the one chunk. -/
def oneByteFrame : Chunk := ⟨1, true, 1, [3, 7, 0, 0, 0, 0, 0, 0, 0, 0, 0, 0, 0, 0, 0, 0, 0, 0]⟩

/-- The state of a new stream without secrecy. -/
def newStream : SecretStream.counting.State := (0 : UInt8)

/-- `send_files` for that file. -/
def oneByteInitial : State queueCapacity .counting :=
  initial queueCapacity oneByteRequest oneByteDisk newStream

/-- The threads one after the other, up to the end of `send_files`. -/
def oneByteRun : List Action :=
  List.replicate 6 (.producer none) ++ List.replicate 9 (.stage none) ++
    List.replicate 12 (.consumer none) ++ List.replicate 3 (.tracker none) ++ [.main]

/-- A working directory with the files `a` and `b/c` of three bytes together. -/
def twoFileDisk : Disk := fun path =>
  if path = [97] then some [7] else if path = [98, 47, 99] then some [8, 9] else none

/-- The request for these files. -/
def twoFileRequest : TransferRequest := ⟨2, 3, 3, 0, 1, [⟨[97], 1⟩, ⟨[98, 47, 99], 2⟩]⟩

theorem fromFilePaths_twoFiles : TransferRequest.fromFilePaths id
    (fun p => twoFileDisk.fileSize (id p)) [[97], [98, 47, 99]] = .ok twoFileRequest := by
  rfl

/-- A working directory with the files `a`, which is larger than two chunks, and `b/c`. -/
def threeChunkDisk : Disk := fun path =>
  if path = [97] then some (List.replicate 20000 7)
  else if path = [98, 47, 99] then some [8] else none

/-- The request for these files. -/
def threeChunkRequest : TransferRequest :=
  ⟨2, 20001, 8192, 3617, 3, [⟨[97], 20000⟩, ⟨[98, 47, 99], 1⟩]⟩

theorem fromFilePaths_threeChunks : TransferRequest.fromFilePaths id
    (fun p => threeChunkDisk.fileSize (id p)) [[97], [98, 47, 99]] = .ok threeChunkRequest := by
  have hfirst : threeChunkDisk.fileSize [97] = .ok 20000 := by
    show Except.ok (UInt64.ofNat (List.replicate 20000 7).length) = _
    rw [List.length_replicate]
    rfl
  have hsizes : [[97], [98, 47, 99]].map (fun p => (id p, threeChunkDisk.fileSize (id p))) =
      [(([97] : Bytes), Except.ok 20000), ([98, 47, 99], .ok 1)].map fun x => (x.1, x.2) := by
    rw [List.map_cons, List.map_cons, id, hfirst]
    rfl
  exact TransferRequest.fromFilePaths_congr hsizes

theorem length_payload_threeChunks :
    (payload threeChunkDisk threeChunkRequest.fileInfos).length = 20001 := by
  rw [threeChunkRequest, payload_cons (if_pos rfl), List.length_append, List.length_replicate]
  rfl

end Sender

end Trit
