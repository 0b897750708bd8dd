import Trit.Pipeline
import Trit.Sender
import Trit.StageProgress
import Trit.Unpacking

/-!
# Receiving

`Receiver::receive_files`: the pipeline of chunk receiver, decryptor and writer, with its tracker.

    socket -> receive_chunks -> decrypt_chunks -> write_files_from_chunks

* `program`, `initial`, `step`: the pipeline of a request;
* `Honest`: the chunks on the wire are those of an honest sender;
* `Calm`: what holds when nothing fails and the frames of these chunks arrive intact.
-/

namespace Trit

open Transition

namespace Receiver

open FileManager TransferManager

/-- `QUEUE_CAPACITY`. -/
def queueCapacity : ℕ := 50

/-- The state of `receive_files` from the start of the threads on: the source is the socket, the
sink the working directory. -/
abbrev State (capacity : ℕ) (ss : SecretStream) :=
  Pipeline capacity ReceivePc WritePc Incoming FileSystem (EncryptionManager ss)

variable {capacity : ℕ} {ss : SecretStream}

/-- The threads of `receive_files`. -/
def program (ss : SecretStream) (r : TransferRequest) :
    Program ReceivePc WritePc Incoming FileSystem (EncryptionManager ss) where
  producer := receiveChunks r.numChunks
  transform := EncryptionManager.decryptChunk
  consumer := writeFilesFromChunks r
  limit := r.numChunks

/-- The encryption manager of a request, whose decryptor is in the state `st`. -/
def manager (r : TransferRequest) (st : ss.State) : EncryptionManager ss :=
  ⟨r.uncompressedChunkSize, r.numChunks.toUInt64, .decryptor st⟩

/-- `receive_files` with all threads started. -/
def initial (capacity : ℕ) (r : TransferRequest) (socket : Incoming) (start : FileSystem)
    (st : ss.State) : State capacity ss :=
  Pipeline.initial capacity socket start (.loop 0) (manager r st) .firstPop

/-- One step of one thread of `receive_files`. -/
def step (r : TransferRequest) : State capacity ss → Action → Option (State capacity ss) :=
  Pipeline.step (program ss r)

/-- The workers leave the abort flag to their handlers. -/
theorem program_sound (r : TransferRequest) : (program ss r).Sound where
  producer := by
    intro capacity abort f v v' pc t h
    cases receiveMove_of_run h <;> rfl
  consumer := by
    intro capacity abort f v v' pc t h
    have hfor : ∀ l infos, (forLoop l infos).raised = false := by
      intro l infos
      cases infos <;> rfl
    have hwhile : ∀ l path n infos, (whileLoop l path n infos).raised = false := by
      intro l path n infos
      unfold whileLoop
      split_ifs
      · rfl
      · exact hfor l infos
    cases writeMove_of_run h with
    | firstPopped c q => exact hfor _ _
    | opened l info infos => exact hwhile _ _ _ _
    | wrote l path n infos =>
      unfold afterWrite
      dsimp only
      split_ifs
      · rfl
      · exact hwhile _ _ _ _
    | drained l path n infos => exact hfor _ _
    | popped path n infos c q => exact hwhile _ _ _ _
    | _ => rfl

/-! ### Runs in which nothing fails -/

/-- The chunks `es` are what an honest sender of the files of `disk` sends. -/
structure Honest (r : TransferRequest) (disk : Disk) (st : ss.State) (es : List Chunk) : Prop where
  fits : Fits r disk
  decrypts : ∃ m, transformAll EncryptionManager.decryptChunk (manager r st) es =
    .ok (packing r disk, m)
  wf : ∀ e ∈ es, Wf e

theorem Honest.length_eq {r : TransferRequest} {disk : Disk} {st : ss.State} {es : List Chunk}
    (h : Honest r disk st es) : es.length = r.numChunks.toNat := by
  obtain ⟨m, hall⟩ := h.decrypts
  rw [← length_transformAll hall, length_packing]

/-- The encrypted packing is honest. -/
theorem exists_honest {r : TransferRequest} {disk : Disk} (hr : Fits r disk) (st : ss.State) :
    ∃ es m, transformAll EncryptionManager.encryptChunk (Sender.manager r st) (packing r disk) =
      .ok (es, m) ∧ Honest r disk st es := by
  obtain ⟨es, st', henc, hdec, -, -, hes⟩ := EncryptionManager.encrypt_then_decrypt
    (fun c hc => encryptable_of_mem_packing hr hc) st
  refine ⟨es, _, henc, hr, ⟨_, hdec⟩, fun e he => ?_⟩
  obtain ⟨hcompressed, -, hmax⟩ := hes e he
  exact ⟨hmax, fun h => nomatch hcompressed.symm.trans h⟩

/-- What holds in every run in which nothing fails and the frames of `es` arrive; `coming` are the
bytes that have not arrived yet. -/
structure Calm (r : TransferRequest) (disk : Disk) (st : ss.State) (start : FileSystem)
    (es : List Chunk) (coming : Bytes) (s : State capacity ss) : Prop where
  abort : s.ctx.abortFlag = false
  receive : ReceiveFlow es coming s.upstream.queue.pushed s.source.stream s.upstream.done
    s.producer
  connected : s.source.closed = false ∨ coming = []
  stageFlow : StageFlow EncryptionManager.decryptChunk (manager r st) s.upstream.queue.popped
    s.downstream.queue.pushed s.stage
  stage : StageCalm s.upstream.done s.upstream.queue.queue s.downstream.done s.stage
  staged : s.stage = .returned → ∃ m, transformAll EncryptionManager.decryptChunk (manager r st)
    s.upstream.queue.popped = .ok (s.downstream.queue.pushed, m)
  write : WriteFlow r disk start s.downstream.done s.downstream.queue.popped s.sink s.counter
    s.consumer
  tracker : s.tracker.thrown = false

theorem Calm.initial (r : TransferRequest) (disk : Disk) (st : ss.State) (start : FileSystem)
    (es : List Chunk) {socket : Incoming} {coming : Bytes}
    (hstream : socket.stream ++ coming = frames es)
    (hconnected : socket.closed = false ∨ coming = []) :
    Calm r disk st start es coming (initial capacity r socket start st) where
  abort := rfl
  receive := ⟨Nat.zero_le _, rfl, hstream, rfl⟩
  connected := hconnected
  stageFlow := rfl
  stage := rfl
  staged := fun h => (nomatch h)
  write := ⟨rfl, rfl, rfl⟩
  tracker := rfl

variable {r : TransferRequest} {disk : Disk} {st : ss.State} {start : FileSystem}
  {es : List Chunk} {coming : Bytes} {s t : State capacity ss}

/-- The decryptor pushes the packing. -/
theorem Calm.pushed_isPrefix (hon : Honest r disk st es) (hi : Calm r disk st start es coming s) :
    s.downstream.queue.pushed <+: packing r disk := by
  obtain ⟨m, hall⟩ := hon.decrypts
  exact hi.stageFlow.pushed_isPrefix hall
    ((List.prefix_append _ _).trans hi.receive.pushed_isPrefix)

/-- A decryptor that has returned has pushed the whole packing. -/
theorem Calm.of_stage_returned (hon : Honest r disk st es)
    (hi : Calm r disk st start es coming s) (hstage : s.stage = .returned) :
    s.producer = .returned ∧ s.upstream.queue.queue = [] ∧
      s.downstream.queue.pushed = packing r disk := by
  have hcalm := hi.stage
  rw [hstage] at hcalm
  obtain ⟨hdone, hqueue, -⟩ := hcalm
  have hproducer : s.producer = .returned := hi.receive.returned_of_done hdone
  have hreceive := hi.receive
  rw [hproducer] at hreceive
  obtain ⟨m, hall⟩ := hon.decrypts
  obtain ⟨m', hstaged⟩ := hi.staged hstage
  have hpopped : s.upstream.queue.popped = es := by
    rw [← hreceive.1, BoundedThreadSafeQueue.pushed, hqueue, List.append_nil]
  rw [hpopped, hall] at hstaged
  exact ⟨hproducer, hqueue, (congrArg Prod.fst (Except.ok.inj hstaged)).symm⟩

theorem Calm.receiver {f : Option Fault} (hon : Honest r disk st es)
    (hi : Calm r disk st start es coming s) (hq : (Action.producer f).quiet = true)
    (h : step r s (.producer f) = some t) : Calm r disk st start es coming t := by
  have habort : s.ctx.shouldAbort = false := hi.abort
  obtain ⟨pc, th, v, hs, hrun, rfl⟩ := Pipeline.step_producer_quiet hq hi.receive.thrown h
  have hreceive := hi.receive
  rw [hs] at hreceive
  rw [habort] at hrun
  have hdone : s.upstream.done = false := hreceive.done_eq_false
  obtain ⟨hreceive', hclosed⟩ := ReceiveFlow.move (receiveMove_of_run hrun) hon.length_eq
    hon.wf hi.connected hreceive
  have hpopped := (Call.run_output hrun).1
  refine ⟨hi.abort, hreceive', ?_, ?_, ?_, ?_, hi.write, hi.tracker⟩
  · show v.world.closed = false ∨ _
    -- reading keeps the peer's end of the socket as it is
    rw [hclosed]
    exact hi.connected
  · show StageFlow _ _ v.output.queue.popped _ _
    rw [hpopped]
    exact hi.stageFlow
  · have hstage := hi.stage
    rw [hdone] at hstage
    exact hstage.of_not_done
  · show _ → ∃ m, transformAll _ _ v.output.queue.popped = _
    rw [hpopped]
    exact hi.staged

theorem Calm.decryptor {f : Option Fault} (hon : Honest r disk st es)
    (hi : Calm r disk st start es coming s) (hq : (Action.stage f).quiet = true)
    (h : step r s (.stage f) = some t) : Calm r disk st start es coming t := by
  have habort : s.ctx.shouldAbort = false := hi.abort
  obtain ⟨pc, th, v, hs, hmove, rfl⟩ := Pipeline.step_stage_quiet hq hi.stage.thrown h
  have hstage := hi.stage
  rw [hs] at hstage
  rw [habort] at hmove
  have hdone : s.downstream.done = false := hstage.done_eq_false
  have hstageFlow := hi.stageFlow
  rw [hs] at hstageFlow
  -- the decryptor has only seen frames of the sender, in order, so it does not throw
  have hok : ∀ m c, pc = .transform m c →
      ∃ x, EncryptionManager.decryptChunk m c = .ok x := by
    rintro m c rfl
    obtain ⟨m', hall⟩ := hon.decrypts
    exact hstageFlow.transform_ok hall
      ((List.prefix_append _ _).trans hi.receive.pushed_isPrefix)
  refine ⟨hi.abort, ?_, hi.connected, StageFlow.move hmove hstageFlow,
    StageCalm.move hmove hok hstage, hstageFlow.of_returned hmove, ?_, hi.tracker⟩
  · show ReceiveFlow _ _ v.input.queue.pushed _ v.input.done _
    rw [hmove.input_pushed, hmove.input_done]
    exact hi.receive
  · have hwrite := hi.write
    rw [hdone] at hwrite
    show WriteFlow _ _ _ _ v.output.queue.popped _ _ _
    rw [hmove.output_popped]
    exact hwrite.of_not_done

theorem Calm.writer {f : Option Fault} (hon : Honest r disk st es)
    (hi : Calm r disk st start es coming s) (hq : (Action.consumer f).quiet = true)
    (h : step r s (.consumer f) = some t) : Calm r disk st start es coming t := by
  have habort : s.ctx.shouldAbort = false := hi.abort
  obtain ⟨pc, th, v, hs, hrun, rfl⟩ := Pipeline.step_consumer_quiet hq hi.write.thrown h
  have hwrite := hi.write
  rw [hs] at hwrite
  rw [habort] at hrun
  obtain ⟨hpushed, hdone⟩ := Call.run_input hrun
  refine ⟨hi.abort, hi.receive, hi.connected, ?_, ?_, ?_, ?_, hi.tracker⟩
  · show StageFlow _ _ _ v.input.queue.pushed _
    rw [hpushed]
    exact hi.stageFlow
  · show StageCalm _ _ v.input.done _
    rw [hdone]
    exact hi.stage
  · show _ → ∃ m, transformAll _ _ _ = .ok (v.input.queue.pushed, m)
    rw [hpushed]
    exact hi.staged
  -- the flag of the writer's input is set once the decryptor has returned, after every chunk
  · exact WriteFlow.move hon.fits (writeMove_of_run hrun) (hi.pushed_isPrefix hon)
      (fun hd => (hi.of_stage_returned hon (hi.stage.returned_of_done hd)).2.2) hwrite

theorem Calm.step {a : Action} (hon : Honest r disk st es)
    (hi : Calm r disk st start es coming s) (hq : a.quiet = true) (h : step r s a = some t) :
    Calm r disk st start es coming t := by
  cases a with
  | producer f => exact hi.receiver hon hq h
  | stage f => exact hi.decryptor hon hq h
  | consumer f => exact hi.writer hon hq h
  | tracker f =>
    obtain ⟨pc, th, hs, hmove, rfl⟩ := Pipeline.step_tracker_quiet hq hi.tracker h
    exact ⟨hi.abort, hi.receive, hi.connected, hi.stageFlow, hi.stage, hi.staged, hi.write,
      hmove.thrown⟩
  | main =>
    obtain ⟨-, -, ⟨e, -, rfl⟩ | ⟨-, rfl⟩⟩ := Pipeline.step_main_cases h
    · exact ⟨hi.abort, hi.receive, hi.connected, hi.stageFlow, hi.stage, hi.staged, hi.write,
        hi.tracker⟩
    · exact ⟨hi.abort, hi.receive, hi.connected, hi.stageFlow, hi.stage, hi.staged, hi.write,
        hi.tracker⟩

theorem Calm.arrive {bytes : Bytes} (hi : Calm r disk st start es (bytes ++ coming) s) :
    Calm r disk st start es coming
      { s with source := { s.source with stream := s.source.stream ++ bytes } } :=
  ⟨hi.abort, hi.receive.arrive, hi.connected.imp id fun h => (List.append_eq_nil_iff.mp h).2,
    hi.stageFlow, hi.stage, hi.staged, hi.write, hi.tracker⟩

end Receiver

end Trit
