import Trit.Sender
import Trit.StageProgress

/-!
# The sender when nothing fails

Runs of `send_files` over files that do not change, in which no call into the outside world fails.

* `SendCalm`, `sendChunks_progress`: the transmitter;
* `readFilesIntoChunks_progress`: the chunker;
* `Calm`: what holds in these runs: every worker keeps step with the sequential sender;
* `refines_sequential`: at every point the socket holds a prefix of the frames of the packing, and
  the transfer can be completed.
-/

namespace Trit

open Transition LittleEndian

namespace TransferManager

/-- The transmitter leaves its loop only after it has seen the end of its input. -/
def SendCalm (inputDone : Bool) (inputQueue : List Chunk) : Thread SendPc → Prop
  | .running .inputEmpty => inputDone = true
  | .returned => inputDone = true ∧ inputQueue = []
  | .running _ => True
  | .caught _ | .flagged _ => False

theorem SendCalm.move {capacity : ℕ} {v v' : View capacity Bytes} {pc : SendPc}
    {t : Thread SendPc} (h : SendMove false none v pc t v')
    (hi : SendCalm v.input.done v.input.queue.queue (.running pc)) :
    SendCalm v'.input.done v'.input.queue.queue t := by
  cases h with
  | abort hpc ha => cases ha
  | fault field rest x hpc hf => cases hf
  | doneSeen hpc hd => exact hd
  | drained hpc hq => subst hpc; exact ⟨hi, hq⟩
  | _ => trivial

theorem SendCalm.thrown {done : Bool} {queue : List Chunk} {t : Thread SendPc}
    (h : SendCalm done queue t) : t.thrown = false := by
  cases t with
  | running pc => rfl
  | returned => rfl
  | caught e => exact h.elim
  | flagged e => exact h.elim

/-- A transmitter that returns without an abort has written all it popped. -/
theorem SendFlow.of_returned {capacity : ℕ} {v v' : View capacity Bytes} {pc : SendPc}
    {t : Thread SendPc} (hi : SendFlow v.input.queue.popped v.world v.counter (.running pc))
    (h : SendMove false none v pc t v') (ht : t = .returned) :
    Flushed v'.input.queue.popped v'.world v'.counter := by
  cases h with
  | abort hpc ha => cases ha
  | drained hpc => subst hpc; exact hi
  | _ => cases ht

/-- Before the end of its input the transmitter has not seen it, whatever arrives. -/
theorem SendCalm.of_not_done {done : Bool} {queue queue' : List Chunk} {t : Thread SendPc}
    (h : SendCalm false queue t) : SendCalm done queue' t := by
  cases t with
  | running pc =>
    cases pc with
    | inputEmpty => exact nomatch (show false = true from h)
    | _ => trivial
  | caught e => exact h
  | flagged e => exact h
  | returned => exact nomatch h.1

/-- How far the transmitter is from its next visit to `try_pop`, or from its end. -/
def sendRank (waiting : Bool) : Thread SendPc → ℕ
  | .running (.write fields) => 10 + fields.length
  | .running .abortCheck => 6
  | .running .tryPop => 5
  | .running .inputDone => if waiting then 4 else 8
  | .running .inputEmpty => if waiting then 3 else 7
  | .caught _ | .flagged _ | .returned => 0

/-- New input may send the transmitter round its loop once more. -/
theorem sendRank_le {capacity : ℕ} {q q' : BoundedThreadSafeQueue capacity Chunk}
    (h : q.queue <+: q'.queue) (t : Thread SendPc) :
    sendRank q'.empty t ≤ sendRank q.empty t + 4 * (q'.queue.length - q.queue.length) := by
  obtain ⟨new, hnew⟩ := h
  rw [← hnew, List.length_append, Nat.add_sub_cancel_left]
  unfold BoundedThreadSafeQueue.empty
  rw [← hnew]
  cases new with
  | nil => simp
  | cons c new =>
    have hne : (q.queue ++ c :: new).isEmpty = false := by simp
    rw [hne, List.length_cons]
    cases t with
    | running pc => cases pc <;> simp only [sendRank] <;> grind
    | _ => exact Nat.zero_le _

/-- The points at which the transmitter has nothing to do while its input is empty and not
done. -/
def SendPc.idle : SendPc → Bool
  | .abortCheck | .tryPop | .inputDone => true
  | _ => false

/-- The work left for the transmitter: a chunk on its input costs 16. -/
def sendWork {capacity : ℕ} (v : View capacity Bytes) (t : Thread SendPc) : ℕ :=
  16 * v.input.queue.queue.length + sendRank v.input.queue.empty t

theorem sendChunks_progress {capacity : ℕ} (v : View capacity Bytes) (pc : SendPc)
    (hinput : v.input.queue.queue = [] → v.input.done = false → pc.idle = false) :
    ∃ t v', (sendChunks pc).run false none v = some (t, v') ∧
      sendWork v' t < sendWork v (.running pc) := by
  rcases pc with _ | _ | ⟨_ | ⟨field, rest⟩⟩ | _ | _
  · refine ⟨.running .tryPop, v, rfl, ?_⟩
    simp [sendWork, sendRank]
  · cases hq : v.input.queue.pop with
    | none =>
      refine ⟨.running .inputDone, v, by simp [Call.run, sendChunks, Call.exec, hq], ?_⟩
      have hempty : v.input.queue.empty = true :=
        BoundedThreadSafeQueue.empty_iff.mpr (BoundedThreadSafeQueue.pop_eq_none.mp hq)
      simp [sendWork, sendRank, hempty]
    | some r =>
      refine ⟨.running (.write (frameFields r.1)),
        { v with input := { v.input with queue := r.2 } },
        by simp [Call.run, sendChunks, Call.exec, hq, not_uint16Max_lt_size], ?_⟩
      have hlen := BoundedThreadSafeQueue.length_of_pop hq
      simp only [sendWork, sendRank, hlen, frameFields, List.length_cons, List.length_nil]
      omega
  · refine ⟨.running .abortCheck, { v with counter := v.counter + 1 }, rfl, ?_⟩
    simp [sendWork, sendRank]
  · refine ⟨.running (.write rest), { v with world := v.world ++ field }, rfl, ?_⟩
    simp [sendWork, sendRank]
  · cases hd : v.input.done with
    | true =>
      refine ⟨.running .inputEmpty, v, by simp [Call.run, sendChunks, Call.exec, hd], ?_⟩
      simp only [sendWork, sendRank]
      split_ifs <;> omega
    | false =>
      have hne : ¬ v.input.queue.empty = true := by
        intro he
        cases hinput (BoundedThreadSafeQueue.empty_iff.mp he) hd
      refine ⟨.running .abortCheck, v, by simp [Call.run, sendChunks, Call.exec, hd], ?_⟩
      simp only [sendWork, sendRank, if_neg hne]
      omega
  · cases he : v.input.queue.empty with
    | true =>
      refine ⟨.returned, v, by simp [Call.run, sendChunks, Call.exec, he], ?_⟩
      simp [sendWork, sendRank, he]
    | false =>
      refine ⟨.running .abortCheck, v, by simp [Call.run, sendChunks, Call.exec, he], ?_⟩
      simp [sendWork, sendRank, he]

end TransferManager

namespace FileManager

/-- The work left for the files after the current one. -/
def fileWork (infos : List FileInfo) : ℕ :=
  (infos.map fun info => 60 * info.size.toNat + 10).sum

/-- The work left for the chunker: a byte costs 60, more than a chunk on its output. -/
def readWork : Thread ReadPc → ℕ
  | .running (.nextFile _ infos) => fileWork infos + 2
  | .running (.openFile _ info infos) => fileWork (info :: infos) + 1
  | .running (.abortCheck _ _ n infos) => 60 * n + 4 + fileWork infos
  | .running (.read _ _ n infos) => 60 * n + 3 + fileWork infos
  | .running (.push _ _ _ n infos) => 60 * n + 60 + fileWork infos
  | .running .outputDone | .caught _ | .flagged _ => 1
  | .returned => 0

theorem readWork_whileLoop_le (l : ReadLocals) (file : Bytes) (n : ℕ) (infos : List FileInfo) :
    readWork (.running (.whileLoop l file n infos)) ≤ 60 * n + 4 + fileWork infos := by
  unfold ReadPc.whileLoop
  split_ifs
  · exact le_refl _
  · show fileWork infos + 2 ≤ _
    omega

/-- A chunker makes progress, as long as its output has room for a push. -/
theorem readFilesIntoChunks_progress {capacity : ℕ} {r : TransferRequest}
    {v : View capacity Disk} {pc : ReadPc} (hr : Fits r v.world)
    (hi : ReadFlow r v.world v.output.queue.pushed v.output.done (.running pc))
    (hroom : ∀ c l file n infos, pc = .push c l file n infos →
      v.output.queue.queue.length < capacity) :
    ∃ t v', (readFilesIntoChunks r pc).run false none v = some (t, v') ∧
      readWork t + 45 * v'.output.queue.queue.length <
        readWork (.running pc) + 45 * v.output.queue.queue.length := by
  cases pc with
  | nextFile l infos =>
    cases infos with
    | nil =>
      refine ⟨.returned, { v with output := { v.output with done := true } }, rfl, ?_⟩
      simp [readWork]
    | cons info infos =>
      refine ⟨.running (.openFile l info infos), v, rfl, ?_⟩
      simp [readWork]
  | openFile l info infos =>
    refine ⟨_, v, rfl, ?_⟩
    obtain ⟨hinfos, -, -, -⟩ := hi
    obtain ⟨b, hb, hlen⟩ := hr.sizes info (hinfos info List.mem_cons_self)
    have hle := readWork_whileLoop_le l b b.length infos
    have hwork : fileWork (info :: infos) = 60 * info.size.toNat + 10 + fileWork infos := rfl
    rw [openForReading, hb]
    show readWork (if b.length ≠ info.size.toNat then _ else _) + _ < _
    rw [if_neg (not_not.mpr hlen)]
    show readWork (.running (.whileLoop l b b.length infos)) + _ <
      fileWork (info :: infos) + 1 + _
    omega
  | abortCheck l file n infos =>
    refine ⟨.running (.read l file n infos), v, rfl, ?_⟩
    simp [readWork]
  | read l file n infos =>
    refine ⟨_, v, rfl, ?_⟩
    obtain ⟨-, -, -, hn, hpos, hfilled⟩ := hi
    have hcap := hfilled.capacity_pos
    have hread : (file.take (min n l.remainingBufferCapacity)).length =
        min n l.remainingBufferCapacity := by
      rw [List.length_take]
      omega
    unfold readIntoBuffer
    dsimp only
    rw [if_neg (not_not.mpr hread), hread]
    split_ifs with hfull
    · show 60 * (n - _) + 60 + _ + _ < 60 * n + 3 + _ + _
      omega
    · refine lt_of_le_of_lt (Nat.add_le_add_right (readWork_whileLoop_le _ _ _ _) _) ?_
      show _ < 60 * n + 3 + _ + _
      omega
  | push c l file n infos =>
    obtain ⟨q, hq⟩ := BoundedThreadSafeQueue.exists_push (hroom c l file n infos rfl) c
    refine ⟨.running (.whileLoop (.afterPush r l.sequenceCounter) file n infos),
      { v with output := { v.output with queue := q } },
      by simp [Call.run, readFilesIntoChunks, Call.exec, hq], ?_⟩
    have hlen := congrArg List.length (BoundedThreadSafeQueue.push_eq_some.mp hq).2.2
    rw [List.length_append, List.length_singleton] at hlen
    have hle := readWork_whileLoop_le (.afterPush r l.sequenceCounter) file n infos
    show _ + 45 * q.queue.length < 60 * n + 60 + fileWork infos + _
    omega
  | outputDone => exact hi.elim

end FileManager

namespace Sender

open FileManager TransferManager

variable {capacity : ℕ} {ss : SecretStream}

/-! ### Runs in which nothing fails -/

/-- What holds in every run in which nothing fails. -/
structure Calm (r : TransferRequest) (disk : Disk) (st : ss.State) (s : State capacity ss) :
    Prop where
  flow : Flow r st s
  abort : s.ctx.abortFlag = false
  source : s.source = disk
  read : ReadFlow r disk s.upstream.queue.pushed s.upstream.done s.producer
  stage : StageCalm s.upstream.done s.upstream.queue.queue s.downstream.done s.stage
  send : SendCalm s.downstream.done s.downstream.queue.queue s.consumer
  tracker : s.tracker.thrown = false
  staged : s.stage = .returned → ∃ m, transformAll EncryptionManager.encryptChunk (manager r st)
    s.upstream.queue.popped = .ok (s.downstream.queue.pushed, m)
  flushed : s.consumer = .returned → Flushed s.downstream.queue.popped s.sink s.counter

theorem Calm.initial {r : TransferRequest} {disk : Disk} (hr : Fits r disk) (st : ss.State) :
    Calm r disk st (initial capacity r disk st) where
  flow := Flow.initial r disk st
  abort := rfl
  source := rfl
  read := ReadFlow.initial hr
  stage := rfl
  send := trivial
  tracker := rfl
  staged := fun h => (nomatch h)
  flushed := fun h => (nomatch h)

/-- The encrypted packing: what the socket carries in the end. -/
theorem exists_encrypted {r : TransferRequest} {disk : Disk} (hr : Fits r disk)
    (st : ss.State) : ∃ es m, transformAll EncryptionManager.encryptChunk (manager r st)
      (packing r disk) = .ok (es, m) := by
  obtain ⟨es, st', henc, -⟩ := EncryptionManager.encrypt_then_decrypt
    (fun c hc => encryptable_of_mem_packing hr hc) st
  exact ⟨es, _, henc⟩

theorem Calm.popped_isPrefix {r : TransferRequest} {disk : Disk} {st : ss.State}
    {s : State capacity ss} (hi : Calm r disk st s) :
    s.upstream.queue.popped <+: packing r disk :=
  (List.prefix_append _ _).trans hi.read.pushed_isPrefix

theorem Calm.chunker {r : TransferRequest} {disk : Disk} {st : ss.State}
    {s t : State capacity ss} {f : Option Fault} (hr : Fits r disk) (hi : Calm r disk st s)
    (hq : (Action.producer f).quiet = true) (h : step r s (.producer f) = some t) :
    Calm r disk st t := by
  have hflow := hi.flow.step h
  have habort : s.ctx.shouldAbort = false := hi.abort
  obtain ⟨pc, th, v, hs, hrun, rfl⟩ := Pipeline.step_producer_quiet hq hi.read.thrown h
  have hread := hi.read
  rw [hs] at hread
  rw [habort] at hrun
  have hdone : s.upstream.done = false := hread.done_eq_false
  obtain ⟨hread', hworld⟩ := ReadFlow.move (readMove_of_run hrun)
    (by rw [show s.producerView.world = disk from hi.source]; exact hr)
    (by rw [show s.producerView.world = disk from hi.source]; exact hread)
  rw [show s.producerView.world = disk from hi.source] at hread' hworld
  refine ⟨hflow, hi.abort, hworld, hread', ?_, hi.send, hi.tracker, ?_, hi.flushed⟩
  · -- the end of the input is news for the stage: it has not seen the flag before
    have hstage := hi.stage
    rw [hdone] at hstage
    exact hstage.of_not_done
  · show _ → ∃ m, transformAll _ _ v.output.queue.popped = _
    rw [(Call.run_output hrun).1]
    exact hi.staged

theorem Calm.encryptor {r : TransferRequest} {disk : Disk} {st : ss.State}
    {s t : State capacity ss} {f : Option Fault} (hr : Fits r disk) (hi : Calm r disk st s)
    (hq : (Action.stage f).quiet = true) (h : step r s (.stage f) = some t) :
    Calm r disk st t := by
  have hflow := hi.flow.step h
  have habort : s.ctx.shouldAbort = false := hi.abort
  obtain ⟨pc, th, v, hs, hmove, rfl⟩ := Pipeline.step_stage_quiet hq hi.stage.thrown h
  have hstage := hi.stage
  rw [hs] at hstage
  rw [habort] at hmove
  have hdone : s.downstream.done = false := hstage.done_eq_false
  -- the chunks that have been read are a prefix of the packing, which can be encrypted
  obtain ⟨es, m', hall⟩ := exists_encrypted hr st
  have hok : ∀ m c, pc = .transform m c →
      ∃ x, EncryptionManager.encryptChunk m c = .ok x := by
    intro m c hpc
    have hstageFlow := hi.flow.stage
    rw [hs, hpc] at hstageFlow
    exact hstageFlow.transform_ok hall hi.popped_isPrefix
  refine ⟨hflow, hi.abort, hi.source, ?_, StageCalm.move hmove hok hstage, ?_, hi.tracker, ?_,
    ?_⟩
  · show ReadFlow _ _ v.input.queue.pushed v.input.done _
    rw [hmove.input_pushed, hmove.input_done]
    exact hi.read
  · have hsend := hi.send
    rw [hdone] at hsend
    exact hsend.of_not_done
  · have hstageFlow := hi.flow.stage
    rw [hs] at hstageFlow
    exact hstageFlow.of_returned hmove
  · show _ → Flushed v.output.queue.popped _ _
    rw [hmove.output_popped]
    exact hi.flushed

theorem Calm.transmitter {r : TransferRequest} {disk : Disk} {st : ss.State}
    {s t : State capacity ss} {f : Option Fault} (hi : Calm r disk st s)
    (hq : (Action.consumer f).quiet = true) (h : step r s (.consumer f) = some t) :
    Calm r disk st t := by
  have hflow := hi.flow.step h
  have habort : s.ctx.shouldAbort = false := hi.abort
  obtain ⟨pc, th, v, hs, hrun, rfl⟩ := Pipeline.step_consumer_quiet hq hi.send.thrown h
  have hsend := hi.send
  rw [hs] at hsend
  rw [habort] at hrun
  have hmove := sendMove_of_run hrun
  refine ⟨hflow, hi.abort, hi.source, hi.read, ?_, SendCalm.move hmove hsend, hi.tracker, ?_,
    ?_⟩
  · show StageCalm _ _ v.input.done _
    rw [(Call.run_input hrun).2]
    exact hi.stage
  · show _ → ∃ m, transformAll _ _ _ = .ok (v.input.queue.pushed, m)
    rw [(Call.run_input hrun).1]
    exact hi.staged
  · have hsendFlow := hi.flow.send
    rw [hs] at hsendFlow
    exact hsendFlow.of_returned hmove

theorem Calm.step {r : TransferRequest} {disk : Disk} {st : ss.State}
    {s t : State capacity ss} {a : Action} (hr : Fits r disk) (hi : Calm r disk st s)
    (hq : a.quiet = true) (h : step r s a = some t) : Calm r disk st t := by
  have hflow := hi.flow.step h
  cases a with
  | producer f => exact hi.chunker hr hq h
  | stage f => exact hi.encryptor hr hq h
  | consumer f => exact hi.transmitter hq h
  | tracker f =>
    obtain ⟨pc, th, hs, hmove, rfl⟩ := Pipeline.step_tracker_quiet hq hi.tracker h
    exact ⟨hflow, hi.abort, hi.source, hi.read, hi.stage, hi.send, hmove.thrown,
      hi.staged, hi.flushed⟩
  | main =>
    obtain ⟨-, -, ⟨e, -, rfl⟩ | ⟨-, rfl⟩⟩ := Pipeline.step_main_cases h
    · exact ⟨hflow, hi.abort, hi.source, hi.read, hi.stage, hi.send, hi.tracker, hi.staged,
        hi.flushed⟩
    · exact ⟨hflow, hi.abort, hi.source, hi.read, hi.stage, hi.send, hi.tracker, hi.staged,
        hi.flushed⟩

theorem Calm.of_reach {r : TransferRequest} {disk : Disk} {st : ss.State}
    {s : State capacity ss} (hr : Fits r disk)
    (h : Reach (Sender.step r) quiet (Sender.initial capacity r disk st) s) : Calm r disk st s :=
  h.invariant (fun _ _ _ hi hq hs => hi.step hr hq hs) (Calm.initial hr st)

/-- Once the transmitter has returned, everything is on the socket and counted. -/
theorem Calm.finished {r : TransferRequest} {disk : Disk} {st : ss.State}
    {s : State capacity ss} {es : List Chunk} {m : EncryptionManager ss}
    (hi : Calm r disk st s)
    (hall : transformAll EncryptionManager.encryptChunk (manager r st) (packing r disk) =
      .ok (es, m))
    (hc : s.consumer = .returned) :
    s.producer = .returned ∧ s.stage = .returned ∧ s.sink = frames es ∧
      s.counter = r.numChunks := by
  have hsend := hi.send
  rw [hc] at hsend
  obtain ⟨hdone, hqueue⟩ := hsend
  have hstage : s.stage = .returned := hi.stage.returned_of_done hdone
  have hstageCalm := hi.stage
  rw [hstage] at hstageCalm
  obtain ⟨hupDone, hupQueue, -⟩ := hstageCalm
  have hproducer : s.producer = .returned := hi.read.returned_of_done hupDone
  have hread := hi.read
  rw [hproducer] at hread
  obtain ⟨m', hstaged⟩ := hi.staged hstage
  have hpopped : s.upstream.queue.popped = packing r disk := by
    rw [← hread.1, BoundedThreadSafeQueue.pushed, hupQueue, List.append_nil]
  have hpushed : s.downstream.queue.pushed = s.downstream.queue.popped := by
    rw [BoundedThreadSafeQueue.pushed, hqueue, List.append_nil]
  rw [hpopped, hall] at hstaged
  have hes : s.downstream.queue.popped = es := by
    rw [← hpushed]
    exact (congrArg Prod.fst (Except.ok.inj hstaged)).symm
  obtain ⟨hsocket, hcounter⟩ := hi.flushed hc
  refine ⟨hproducer, hstage, by rw [hsocket, hes], ?_⟩
  rw [hcounter, hes, length_transformAll hall, length_packing, UInt32.ofNat_toNat]

/-- The work left for the four threads. -/
def work (r : TransferRequest) (s : State capacity ss) : ℕ :=
  readWork s.producer + 40 * s.upstream.queue.queue.length +
    stageRank s.upstream.queue.empty s.stage + 16 * s.downstream.queue.queue.length +
    sendRank s.downstream.queue.empty s.consumer +
    ProgressTracker.trackRank r.numChunks s.tracker

theorem Calm.chunker_progress {r : TransferRequest} {disk : Disk} {st : ss.State}
    {s : State capacity ss} {pc : ReadPc} (hr : Fits r disk) (hi : Calm r disk st s)
    (hp : s.producer = .running pc) (hroom : s.upstream.queue.queue.length < capacity) :
    ∃ t, Sender.step r s (.producer none) = some t ∧ work r t < work r s := by
  have habort : s.ctx.shouldAbort = false := hi.abort
  have hread := hi.read
  rw [hp] at hread
  obtain ⟨th, v, hrun, hlt⟩ := readFilesIntoChunks_progress (v := s.producerView)
    (by rw [show s.producerView.world = disk from hi.source]; exact hr)
    (by rw [show s.producerView.world = disk from hi.source]; exact hread)
    (fun _ _ _ _ _ _ => hroom)
  rw [← habort] at hrun
  refine ⟨_, Pipeline.step_producer_of_run (program ss r) hp hrun, ?_⟩
  have hqueue := Call.run_output_queue hrun
  have hrank := stageRank_le hqueue s.stage
  have hlen := hqueue.length_le
  unfold work
  dsimp only
  rw [hp]
  change _ < _ + 45 * s.upstream.queue.queue.length at hlt
  change _ ≤ stageRank s.upstream.queue.empty s.stage +
    4 * (_ - s.upstream.queue.queue.length) at hrank
  change s.upstream.queue.queue.length ≤ _ at hlen
  omega

/-- An encryptor that is not idle and finds room goes on. -/
theorem Calm.encryptor_progress {r : TransferRequest} {disk : Disk} {st : ss.State}
    {s : State capacity ss} {pc : ProcessPc (EncryptionManager ss)} (hr : Fits r disk)
    (hi : Calm r disk st s) (hs : s.stage = .running pc)
    (hroom : s.downstream.queue.queue.length < capacity)
    (hidle : ¬ (s.upstream.queue.queue = [] ∧ s.upstream.done = false ∧ pc.idle = true)) :
    ∃ t, Sender.step r s (.stage none) = some t ∧ work r t < work r s := by
  have habort : s.ctx.shouldAbort = false := hi.abort
  obtain ⟨es, m', hall⟩ := exists_encrypted hr st
  have hok : ∀ m c, pc = .transform m c → ∃ x, EncryptionManager.encryptChunk m c = .ok x := by
    intro m c hpc
    have hstageFlow := hi.flow.stage
    rw [hs, hpc] at hstageFlow
    exact hstageFlow.transform_ok hall hi.popped_isPrefix
  obtain ⟨th, v, hrun, hlt⟩ := processChunks_progress (v := s.stageView) hok hroom
    (fun he hd => Bool.eq_false_iff.mpr fun h => hidle ⟨he, hd, h⟩)
  rw [← habort] at hrun
  refine ⟨_, Pipeline.step_stage_of_run (program ss r) hs hrun, ?_⟩
  have hqueue := Call.run_output_queue hrun
  have hrank := sendRank_le hqueue s.consumer
  have hlen := hqueue.length_le
  unfold work
  dsimp only
  rw [hs]
  unfold stageWork at hlt
  change _ < 40 * s.upstream.queue.queue.length + stageRank s.upstream.queue.empty _ +
    20 * s.downstream.queue.queue.length at hlt
  change _ ≤ sendRank s.downstream.queue.empty s.consumer +
    4 * (_ - s.downstream.queue.queue.length) at hrank
  change s.downstream.queue.queue.length ≤ _ at hlen
  omega

/-- A transmitter that is not idle goes on. -/
theorem Calm.transmitter_progress {r : TransferRequest} {disk : Disk} {st : ss.State}
    {s : State capacity ss} {pc : SendPc} (hi : Calm r disk st s)
    (hc : s.consumer = .running pc)
    (hidle : ¬ (s.downstream.queue.queue = [] ∧ s.downstream.done = false ∧ pc.idle = true)) :
    ∃ t, Sender.step r s (.consumer none) = some t ∧ work r t < work r s := by
  have habort : s.ctx.shouldAbort = false := hi.abort
  obtain ⟨th, v, hrun, hlt⟩ := sendChunks_progress s.consumerView pc
    (fun he hd => Bool.eq_false_iff.mpr fun h => hidle ⟨he, hd, h⟩)
  rw [← habort] at hrun
  refine ⟨_, Pipeline.step_consumer_of_run (program ss r) hc hrun, ?_⟩
  unfold work
  dsimp only
  rw [hc]
  unfold sendWork at hlt
  change _ < 16 * s.downstream.queue.queue.length + sendRank s.downstream.queue.empty _ at hlt
  omega

/-- Some thread can always go on with the work, downstream first: the transmitter, else the
encryptor, else the chunker, and in the end the tracker. -/
theorem Calm.progress {r : TransferRequest} {disk : Disk} {st : ss.State}
    {s : State capacity ss} (hr : Fits r disk) (hcap : 1 ≤ capacity) (hi : Calm r disk st s)
    (hrunning : ¬ s.joinable = true) :
    ∃ (a : Action) (t : State capacity ss), a.quiet = true ∧ Sender.step r s a = some t ∧
      work r t < work r s := by
  have hroom : ∀ {q : BoundedThreadSafeQueue capacity Chunk}, q.queue = [] →
      q.queue.length < capacity := by
    intro q hempty
    rw [hempty]
    exact hcap
  rcases Thread.cases_of_not_thrown hi.send.thrown with ⟨pc, hc⟩ | hc
  swap
  · -- only the tracker is left, and the counter has reached the limit
    obtain ⟨es, m', hall⟩ := exists_encrypted hr st
    obtain ⟨hproducer, hstage, -, hcounter⟩ := hi.finished hall hc
    have ht : s.tracker ≠ .returned := fun ht =>
      hrunning (Pipeline.joinable_iff.mpr ⟨hproducer, hstage, hc, ht⟩)
    obtain ⟨th, hstep, hlt⟩ := Pipeline.tracker_progress (P := program ss r) hi.abort hi.tracker
      ht (by rw [hcounter]; exact UInt32.le_refl _)
    exact ⟨.tracker none, _, rfl, hstep, Nat.add_lt_add_left hlt _⟩
  by_cases hidle : s.downstream.queue.queue = [] ∧ s.downstream.done = false ∧ pc.idle = true
  swap
  · obtain ⟨t, hstep, hlt⟩ := hi.transmitter_progress hc hidle
    exact ⟨.consumer none, t, rfl, hstep, hlt⟩
  obtain ⟨hempty, hnotDone, -⟩ := hidle
  rcases Thread.cases_of_not_thrown hi.stage.thrown with ⟨pc', hs⟩ | hs
  swap
  · have hstage := hi.stage
    rw [hs] at hstage
    cases hnotDone.symm.trans hstage.2.2
  by_cases hidle' : s.upstream.queue.queue = [] ∧ s.upstream.done = false ∧ pc'.idle = true
  swap
  · obtain ⟨t, hstep, hlt⟩ := hi.encryptor_progress hr hs (hroom hempty) hidle'
    exact ⟨.stage none, t, rfl, hstep, hlt⟩
  obtain ⟨hempty', hnotDone', -⟩ := hidle'
  rcases Thread.cases_of_not_thrown hi.read.thrown with ⟨pc'', hp⟩ | hp
  swap
  · have hread := hi.read
    rw [hp] at hread
    cases hnotDone'.symm.trans hread.2
  obtain ⟨t, hstep, hlt⟩ := hi.chunker_progress hr hp (hroom hempty')
  exact ⟨.producer none, t, rfl, hstep, hlt⟩

/-- Exactly the first `k` of the frames are complete on the socket. -/
def CompleteFrames (es : List Chunk) (socket : Bytes) (k : ℕ) : Prop :=
  k ≤ es.length ∧ frames (es.take k) <+: socket ∧
    ∀ j ≤ es.length, frames (es.take j) <+: socket → j ≤ k

theorem completeFrames_of_part (es : List Chunk) (part : Bytes) {k : ℕ} (hk : k ≤ es.length)
    (hpart : ∀ e, es[k]? = some e → part.length < (frame e).length) :
    CompleteFrames es (frames (es.take k) ++ part) k := by
  refine ⟨hk, List.prefix_append _ _, fun j hj hjp => ?_⟩
  by_contra hlt
  rw [not_le] at hlt
  have hget : es[k]? = some es[k] := List.getElem?_eq_getElem (by omega)
  have htake : es.take (k + 1) <+: es.take j := List.take_prefix_take_left hlt
  obtain ⟨rest, hrest⟩ := htake
  have hlen := hjp.length_le
  rw [← hrest, frames_append, List.take_add_one, hget, Option.toList_some, frames_concat,
    List.length_append, List.length_append, List.length_append] at hlen
  have := hpart _ hget
  omega

/-- What is written of a frame before its last buffer is shorter than the frame. -/
theorem length_written_lt {c : Chunk} {written fields : List Bytes} (hne : fields ≠ [])
    (h : frameFields c = written ++ fields) (hdata : 0 < (c.data.take c.size.toNat).length) :
    written.flatten.length < (frame c).length := by
  rcases List.eq_nil_or_concat' fields with rfl | ⟨rest, last, rfl⟩
  · exact absurd rfl hne
  · have hframe := congrArg (fun l => l.flatten.length) h
    have hlast : frameFields c = [leBytes 8 c.sequenceNum.toNat,
        [if c.compressed then 1 else 0], leBytes 2 c.originalSize.toNat,
        leBytes 2 c.size.toNat] ++ [c.data.take c.size.toNat] := rfl
    rw [← List.append_assoc, hlast] at h
    obtain ⟨-, hlast⟩ := List.append_inj' h rfl
    rw [← List.singleton_inj.mp hlast] at hframe
    simp only [List.flatten_append, List.length_append, List.flatten_singleton] at hframe
    unfold frame
    omega

theorem length_frame_pos (c : Chunk) : 0 < (frame c).length := by
  simp [frame, frameFields]

/-- The transmitter pops the encrypted packing. -/
theorem Calm.encrypted_isPrefix {r : TransferRequest} {disk : Disk} {st : ss.State}
    {s : State capacity ss} {es : List Chunk} {m : EncryptionManager ss} (hi : Calm r disk st s)
    (hall : transformAll EncryptionManager.encryptChunk (manager r st) (packing r disk) =
      .ok (es, m)) : s.downstream.queue.popped <+: es :=
  (List.prefix_append _ _).trans (hi.flow.stage.pushed_isPrefix hall hi.popped_isPrefix)

/-- The socket holds a prefix of its frames. -/
theorem Calm.sink_isPrefix {r : TransferRequest} {disk : Disk} {st : ss.State}
    {s : State capacity ss} {es : List Chunk} {m : EncryptionManager ss} (hi : Calm r disk st s)
    (hall : transformAll EncryptionManager.encryptChunk (manager r st) (packing r disk) =
      .ok (es, m)) : s.sink <+: frames es :=
  hi.flow.send.socket_isPrefix.trans (frames_mono (hi.encrypted_isPrefix hall))

/-- Nothing that has been written to the socket is taken back. -/
theorem sink_isPrefix_of_step {r : TransferRequest} {s t : State capacity ss} {a : Action}
    (h : step r s a = some t) : s.sink <+: t.sink := by
  cases a with
  | producer f =>
    rcases Pipeline.step_producer_cases h with ⟨pc, th, v, -, -, rfl⟩ | ⟨e, -, -, rfl⟩ |
      ⟨e, -, -, rfl⟩ <;> exact List.prefix_rfl
  | stage f =>
    rcases Pipeline.step_stage_cases h with ⟨pc, th, v, -, -, rfl⟩ | ⟨e, -, -, rfl⟩ |
      ⟨e, -, -, rfl⟩ <;> exact List.prefix_rfl
  | consumer f =>
    rcases Pipeline.step_consumer_cases h with ⟨pc, th, v, -, hrun, rfl⟩ | ⟨e, -, -, rfl⟩ |
      ⟨e, -, -, rfl⟩
    · show s.consumerView.world <+: v.world
      cases sendMove_of_run hrun with
      | wrote field rest hpc => exact List.prefix_append _ _
      | fault field rest x hpc hf => exact List.prefix_append _ _
      | _ => exact List.prefix_rfl
    · exact List.prefix_rfl
    · exact List.prefix_rfl
  | tracker f =>
    rcases Pipeline.step_tracker_cases h with ⟨pc, th, -, -, rfl⟩ | ⟨e, -, -, rfl⟩ |
      ⟨e, -, -, rfl⟩ <;> exact List.prefix_rfl
  | main =>
    obtain ⟨-, -, ⟨e, -, rfl⟩ | ⟨-, rfl⟩⟩ := Pipeline.step_main_cases h <;>
      exact List.prefix_rfl

/-- At every point of a quiet run, the frames counted are those that are complete, except between
the last write of a frame and the increment of the counter. -/
theorem Calm.completeFrames {r : TransferRequest} {disk : Disk} {st : ss.State}
    {s : State capacity ss} {es : List Chunk} {m : EncryptionManager ss} (hi : Calm r disk st s)
    (hall : transformAll EncryptionManager.encryptChunk (manager r st) (packing r disk) =
      .ok (es, m))
    (hdata : ∀ e ∈ es, 0 < e.data.length ∧ e.data.length ≤ uint16Max) :
    ∃ k, CompleteFrames es s.sink k ∧
      if s.consumer = .running (.write []) then s.counter.toNat + 1 = k
      else s.counter.toNat = k := by
  have hpopped := hi.encrypted_isPrefix hall
  have hlen : es.length = r.numChunks.toNat := by
    rw [length_transformAll hall, length_packing]
  have hnum := r.numChunks.toNat_lt
  have hcount : ∀ n ≤ es.length, (UInt32.ofNat n).toNat = n := fun n hn =>
    UInt32.toNat_ofNat_of_lt' (by show n < 2 ^ 32; omega)
  -- between two frames, all chunks popped are written and counted
  have hflushed : Flushed s.downstream.queue.popped s.sink s.counter →
      ∃ k, CompleteFrames es s.sink k ∧ s.counter.toNat = k := by
    rintro ⟨hsocket, hcounter⟩
    refine ⟨s.downstream.queue.popped.length, ?_, ?_⟩
    · have hpart := completeFrames_of_part es [] hpopped.length_le
        (fun e _ => length_frame_pos e)
      rwa [← List.prefix_iff_eq_take.mp hpopped, List.append_nil, ← hsocket] at hpart
    · rw [hcounter, hcount _ hpopped.length_le]
  have hsend := hi.flow.send
  cases hc : s.consumer with
  | caught e => exact (hc ▸ hi.send : SendCalm _ _ (.caught e)).elim
  | flagged e => exact (hc ▸ hi.send : SendCalm _ _ (.flagged e)).elim
  | returned => simpa using hflushed (hi.flushed hc)
  | running pc =>
    rw [hc] at hsend
    cases pc with
    | write fields =>
      obtain ⟨pre, c, written, hpop, hfields, hsocket, hcounter⟩ := hsend
      rw [hpop] at hpopped
      have hle := hpopped.length_le
      rw [List.length_append, List.length_singleton] at hle
      have hget : es[pre.length]? = some c := by
        obtain ⟨rest, rfl⟩ := hpopped
        simp
      have hpre : es.take pre.length = pre :=
        (List.prefix_iff_eq_take.mp ((List.prefix_append pre [c]).trans hpopped)).symm
      rw [hcounter, hcount _ (by omega)]
      by_cases hnil : fields = []
      · subst hnil
        refine ⟨pre.length + 1, ?_, by simp⟩
        have hpart := completeFrames_of_part es [] hle (fun e _ => length_frame_pos e)
        rw [List.append_nil] at hfields
        rwa [List.take_add_one, hget, Option.toList_some, hpre, List.append_nil, frames_concat,
          frame, hfields, ← hsocket] at hpart
      · refine ⟨pre.length, ?_, by simp [hnil]⟩
        obtain ⟨hpos, hmax⟩ := hdata c (List.mem_of_getElem? hget)
        have hwritten := length_written_lt hnil hfields
          (by rw [Chunk.size_toNat_of_le hmax, List.take_length]; exact hpos)
        have hpart := completeFrames_of_part es written.flatten
          (by omega : pre.length ≤ es.length) (fun e he => by
            rw [hget] at he
            cases he
            exact hwritten)
        rwa [hpre, ← hsocket] at hpart
    | _ => simpa using hflushed hsend

/-- The concurrent sender refines the sequential one.  In every run in which nothing fails the
socket holds a prefix of the frames of the encrypted packing, of which exactly the last one is
encrypted under `TAG_FINAL`; the frames counted are those that are complete, except between the
last write of a frame and the increment of the counter; and from every state all threads can still
return with everything written. -/
theorem refines_sequential {Path : Type} {relative : Path → Bytes} {disk : Disk}
    {paths : List Path} {r : TransferRequest}
    (hr : TransferRequest.fromFilePaths relative (fun p => disk.fileSize (relative p)) paths =
      .ok r)
    (hsize : (payload disk r.fileInfos).length ≤ 8192 * (2 ^ 32 - 1)) (hcap : 1 ≤ capacity)
    (st : ss.State) :
    ∃ es m, transformAll EncryptionManager.encryptChunk (manager r st) (packing r disk) =
        .ok (es, m) ∧
      es.map Chunk.sequenceNum =
        (List.range r.numChunks.toNat).map (fun k => UInt64.ofNat (k + 1)) ∧
      es.map Chunk.data = ss.pushAll st ((packing r disk).map fun c =>
        (c.data, if c.sequenceNum = r.numChunks.toUInt64 then tagFinal else tagMessage)) ∧
      ∀ s : State capacity ss, Reach (step r) quiet (initial capacity r disk st) s →
        s.sink <+: frames es ∧
        (∃ k, CompleteFrames es s.sink k ∧
          if s.consumer = .running (.write []) then s.counter.toNat + 1 = k
          else s.counter.toNat = k) ∧
        CanReach (step r) quiet (fun t => t.joinable = true ∧ t.sink = frames es) s := by
  have hfits := fits_of_fromFilePaths hr hsize
  obtain ⟨es, st', hall, -, hseq, hdata, hes⟩ := EncryptionManager.encrypt_then_decrypt
    (fun c hc => encryptable_of_mem_packing hfits hc) st
  refine ⟨es, _, hall, ?_, hdata, fun s hs => ?_⟩
  · rw [hseq]
    simp [packing]
  · have hi := Calm.of_reach hfits hs
    have hdata : ∀ e ∈ es, 0 < e.data.length ∧ e.data.length ≤ uint16Max := by
      intro e he
      obtain ⟨-, hmin, hmax⟩ := hes e he
      unfold encryptionAdditionalBytes at hmin
      exact ⟨by omega, hmax⟩
    refine ⟨hi.sink_isPrefix hall, hi.completeFrames hall hdata, ?_⟩
    refine CanReach.of_measure (I := Calm r disk st) (work r) (fun t ht hgoal => ?_) hi
    have hrunning : ¬ t.joinable = true := fun hjoin =>
      hgoal ⟨hjoin, (ht.finished hall (Pipeline.joinable_iff.mp hjoin).2.2.1).2.2.1⟩
    obtain ⟨a, u, hq, hstep, hlt⟩ := ht.progress hfits hcap hrunning
    exact ⟨a, u, hq, hstep, ht.step hfits hq hstep, hlt⟩

theorem refines_sequential_threeChunks : ∃ es m,
    transformAll EncryptionManager.encryptChunk (manager threeChunkRequest newStream)
      (packing threeChunkRequest threeChunkDisk) = .ok (es, m) ∧ es.length = 3 ∧
    CanReach (step threeChunkRequest) quiet (fun t => t.joinable = true ∧ t.sink = frames es)
      (initial queueCapacity threeChunkRequest threeChunkDisk newStream) := by
  obtain ⟨es, m, hall, -, -, hs⟩ := refines_sequential fromFilePaths_threeChunks
    (by rw [length_payload_threeChunks]; decide) (show 1 ≤ queueCapacity by decide) newStream
  refine ⟨es, m, hall, ?_, (hs _ .refl).2.2⟩
  rw [length_transformAll hall, length_packing]
  rfl

/-- Between the last write of a frame and the increment, the counter lags behind the frames that
are complete. -/
theorem counter_lags : TransferRequest.fromFilePaths id
      (fun p => oneByteDisk.fileSize (id p)) [[97]] = .ok oneByteRequest ∧
    ∃ s es m k, Reach (step oneByteRequest) quiet oneByteInitial s ∧
      transformAll EncryptionManager.encryptChunk (manager oneByteRequest newStream)
        (packing oneByteRequest oneByteDisk) = .ok (es, m) ∧
      CompleteFrames es s.sink k ∧ s.counter.toNat ≠ k := by
  have hrun : (exec (step oneByteRequest) oneByteInitial (oneByteRun.take 22)).map
      (fun s => decide (s.sink = frames [oneByteFrame] ∧ s.counter = 0)) = some true := by
    decide +kernel
  obtain ⟨s, hs, htest⟩ := reach_of_exec_test _ (quiet_of_all (by decide)) hrun
  obtain ⟨hsink, hcounter⟩ := of_decide_eq_true htest
  refine ⟨fromFilePaths_oneByte, s, [oneByteFrame], ⟨1, 1, .encryptor (1 : UInt8)⟩, 1, hs, rfl,
    ?_, ?_⟩
  · rw [hsink]
    exact completeFrames_of_part [oneByteFrame] [] (le_refl _) (fun e _ => length_frame_pos e)
  · rw [hcounter]
    decide

end Sender

end Trit
