import Trit.Receiver

/-!
# The receiver when nothing fails

Runs of `receive_files` in which no call into the outside world fails and all the frames of an
honest sender are there.

* `receiveChunks_progress`, `writeFilesFromChunks_progress`: the chunk receiver and the writer;
* `Stranded`: the writer waits in `pop` although it has counted the last chunk;
* `prompt`: the steps in which the writer, once it has counted the last chunk, looks at
  `decryption_done` only after the decryptor has set it;
* `returns_iff_not_stranded`: all threads can return exactly from the states that are not
  stranded, and runs of prompt steps meet no others;
* `exists_stranded`: a run to a stranded state.
-/

namespace Trit

open Transition

namespace TransferManager

/-- The work left for the chunk receiver: a chunk costs 60, more than one on its output. -/
def receiveRank (numChunks : UInt32) : Thread ReceivePc → ℕ
  | .running (.loop i) => 60 * (numChunks.toNat - i) + 2
  | .running (.read i) => 60 * (numChunks.toNat - i) + 1
  | .running (.push _ i) => 60 * (numChunks.toNat - i)
  | .caught _ | .flagged _ | .returned => 0

/-- A chunk receiver whose frames have all arrived makes progress, as long as its output has
room. -/
theorem receiveChunks_progress {capacity : ℕ} {numChunks : UInt32} {v : View capacity Incoming}
    {pc : ReceivePc} {es : List Chunk} (hlen : es.length = numChunks.toNat)
    (hwf : ∀ c ∈ es, Wf c)
    (hi : ReceiveFlow es [] v.output.queue.pushed v.world.stream v.output.done (.running pc))
    (hroom : ∀ c i, pc = .push c i → v.output.queue.queue.length < capacity) :
    ∃ t v', (receiveChunks numChunks pc).run false none v = some (t, v') ∧
      receiveRank numChunks t + 45 * v'.output.queue.queue.length <
        receiveRank numChunks (.running pc) + 45 * v.output.queue.queue.length := by
  cases pc with
  | loop i =>
    by_cases hlt : i < numChunks.toNat
    · refine ⟨.running (.read i), v, by simp [Call.run, receiveChunks, Call.exec, hlt], ?_⟩
      simp [receiveRank]
    · refine ⟨.returned, { v with output := { v.output with done := true } },
        by simp [Call.run, receiveChunks, Call.exec, hlt], ?_⟩
      simp [receiveRank]
  | read i =>
    obtain ⟨hlt, -, hstream, -⟩ := hi
    rw [List.append_nil, List.drop_eq_getElem_cons hlt, frames_cons] at hstream
    have hread := receiveChunk_frame (hwf _ (List.getElem_mem hlt)) (frames (es.drop (i + 1)))
      v.world.closed
    rw [← hstream] at hread
    have hrun : (receiveChunk v.world).run =
        some (.ok (es[i], ⟨frames (es.drop (i + 1)), v.world.closed⟩)) := hread
    refine ⟨.running (.push es[i] i),
      { v with world := ⟨frames (es.drop (i + 1)), v.world.closed⟩ },
      by simp [Call.run, receiveChunks, Call.exec, hrun], ?_⟩
    simp [receiveRank]
  | push c i =>
    obtain ⟨hc, -⟩ := hi
    obtain ⟨hlt, -⟩ := List.getElem?_eq_some_iff.mp hc
    obtain ⟨q, hq⟩ := BoundedThreadSafeQueue.exists_push (hroom c i rfl) c
    refine ⟨.running (.loop (i + 1)), { v with output := { v.output with queue := q } },
      by simp [Call.run, receiveChunks, Call.exec, hq], ?_⟩
    have hqlen := congrArg List.length (BoundedThreadSafeQueue.push_eq_some.mp hq).2.2
    rw [List.length_append, List.length_singleton] at hqlen
    simp only [receiveRank, hqlen]
    omega

end TransferManager

namespace FileManager

/-- The work left for the files after the current one. -/
def outputWork (infos : List FileInfo) : ℕ :=
  (infos.map fun info => 10 * info.size.toNat + 10).sum

/-- The work left for the writer. -/
def writeRank (r : TransferRequest) : Thread WritePc → ℕ
  | .running .firstPop => outputWork r.fileInfos + 1
  | .running (.openFile _ info infos) => outputWork (info :: infos)
  | .running (.increment _ _ n infos) => 10 * n + 8 + outputWork infos
  | .running (.inputDone _ _ n infos) => 10 * n + 7 + outputWork infos
  | .running (.inputEmpty _ _ n infos) => 10 * n + 6 + outputWork infos
  | .running (.pop _ n infos) => 10 * n + 5 + outputWork infos
  | .running (.abortCheck _ _ n infos) => 10 * n + 4 + outputWork infos
  | .running (.write _ _ n infos) => 10 * n + 3 + outputWork infos
  | .caught _ | .flagged _ | .returned => 0

theorem writeRank_forLoop_le (r : TransferRequest) (l : WriteLocals) (infos : List FileInfo) :
    writeRank r (forLoop l infos) ≤ outputWork infos := by
  cases infos with
  | nil => exact le_refl _
  | cons info infos => exact le_refl _

theorem writeRank_whileLoop_le (r : TransferRequest) (l : WriteLocals) (path : Bytes) (n : ℕ)
    (infos : List FileInfo) :
    writeRank r (whileLoop l path n infos) ≤ 10 * n + 4 + outputWork infos := by
  unfold whileLoop
  split_ifs
  · exact le_refl _
  · have := writeRank_forLoop_le r l infos
    omega

/-- The points at which the writer has nothing to do while its input is empty and not done. -/
def WritePc.idle : WritePc → Bool
  | .firstPop | .pop _ _ _ | .inputDone _ _ _ _ => true
  | _ => false

/-- A writer that does not block makes progress. -/
theorem writeFilesFromChunks_progress {capacity : ℕ} {r : TransferRequest} {disk : Disk}
    {start : FileSystem} {v : View capacity FileSystem} {pc : WritePc}
    (hi : WriteFlow r disk start v.input.done v.input.queue.popped v.world v.counter
      (.running pc))
    (hinput : pc.blocking = true → v.input.queue.queue ≠ []) :
    ∃ t v', (writeFilesFromChunks r pc).run false none v = some (t, v') ∧
      writeRank r t < writeRank r (.running pc) ∧
      v'.input.queue.queue.length ≤ v.input.queue.queue.length := by
  obtain ⟨t, v', hrun⟩ := exists_run r false hinput
  refine ⟨t, v', hrun, ?_⟩
  cases writeMove_of_run hrun with
  | firstPopped c q hpc hq =>
    subst hpc
    refine ⟨Nat.lt_succ_of_le (writeRank_forLoop_le r _ _), ?_⟩
    rw [BoundedThreadSafeQueue.length_of_pop hq]
    exact Nat.le_succ _
  | opened l info infos hpc =>
    subst hpc
    refine ⟨?_, le_refl _⟩
    have hle := writeRank_whileLoop_le r l info.relativePath info.size.toNat infos
    have hwork : outputWork (info :: infos) = 10 * info.size.toNat + 10 + outputWork infos := rfl
    show writeRank r (whileLoop l info.relativePath info.size.toNat infos) < outputWork _
    omega
  | abort l path n infos hpc ha => cases ha
  | goOn l path n infos hpc =>
    subst hpc
    exact ⟨by simp [writeRank], le_refl _⟩
  | wrote l path n infos hpc =>
    subst hpc
    refine ⟨?_, le_refl _⟩
    obtain ⟨rest, -, -, hn, hpos, -⟩ := hi
    have hle := writeRank_whileLoop_le r
      ⟨l.chunk, l.remainingChunkData - min n l.remainingChunkData,
        l.chunkOffset + min n l.remainingChunkData⟩ path (n - min n l.remainingChunkData) infos
    show writeRank r (afterWrite l path n infos) < 10 * n + 3 + outputWork infos
    unfold afterWrite
    dsimp only
    split_ifs
    · show 10 * (n - _) + 8 + outputWork infos < _
      omega
    · omega
  | counted l path n infos hpc | doneSeen l path n infos hpc | notDone l path n infos hpc
  | more l path n infos hpc =>
    subst hpc
    exact ⟨by simp [writeRank], le_refl _⟩
  | drained l path n infos hpc =>
    subst hpc
    refine ⟨?_, le_refl _⟩
    have hle := writeRank_forLoop_le r l infos
    show writeRank r (forLoop l infos) < 10 * n + 6 + outputWork infos
    omega
  | popped path n infos c q hpc hq =>
    subst hpc
    constructor
    · have hle := writeRank_whileLoop_le r (.ofChunk c) path n infos
      show _ < 10 * n + 5 + outputWork infos
      omega
    · rw [BoundedThreadSafeQueue.length_of_pop hq]
      exact Nat.le_succ _
  | openFault _ _ _ _ _ hf | writeFault _ _ _ _ _ _ hf => cases hf

end FileManager

namespace Receiver

open FileManager TransferManager

variable {capacity : ℕ} {ss : SecretStream} {r : TransferRequest} {disk : Disk} {st : ss.State}
  {start : FileSystem} {es : List Chunk} {coming : Bytes} {s t : State capacity ss}

/-- The writer is inside `pop`, and has counted all chunks. -/
def Stranded (r : TransferRequest) (s : State capacity ss) : Prop :=
  (∃ path n infos, s.consumer = .running (.pop path n infos)) ∧ s.counter = r.numChunks

/-- Nothing fails, and a writer that has counted all chunks looks at `decryption_done` only after
the decryptor has set it. -/
def prompt (r : TransferRequest) (s : State capacity ss) (a : Action) : Prop :=
  a.quiet = true ∧ ∀ l path n infos, a = .consumer none →
    s.consumer = .running (.inputDone l path n infos) → s.counter = r.numChunks →
      s.downstream.done = true

/-! ### A stranded writer -/

/-- Once all chunks have been popped, the queue of the writer is empty. -/
theorem Calm.queue_eq_nil (hon : Honest r disk st es) (hi : Calm r disk st start es coming s)
    (hpopped : s.downstream.queue.popped.length = r.numChunks.toNat) :
    s.downstream.queue.queue = [] := by
  have hle := (hi.pushed_isPrefix hon).length_le
  rw [BoundedThreadSafeQueue.pushed, List.length_append, length_packing] at hle
  exact List.eq_nil_of_length_eq_zero (by omega)

/-- A stranded writer stays where it is. -/
theorem Stranded.step {a : Action} (hon : Honest r disk st es)
    (hi : Calm r disk st start es coming s) (hs : Stranded r s) (h : step r s a = some t) :
    Stranded r t := by
  obtain ⟨⟨path, n, infos, hpc⟩, hcounter⟩ := hs
  cases a with
  | producer f =>
    rcases Pipeline.step_producer_cases h with ⟨pc, th, v, -, -, rfl⟩ | ⟨e, -, -, rfl⟩ |
      ⟨e, -, -, rfl⟩
    · exact ⟨⟨path, n, infos, hpc⟩, hcounter⟩
    · exact ⟨⟨path, n, infos, hpc⟩, hcounter⟩
    · exact ⟨⟨path, n, infos, hpc⟩, hcounter⟩
  | stage f =>
    rcases Pipeline.step_stage_cases h with ⟨pc, th, v, -, -, rfl⟩ | ⟨e, -, -, rfl⟩ |
      ⟨e, -, -, rfl⟩
    · exact ⟨⟨path, n, infos, hpc⟩, hcounter⟩
    · exact ⟨⟨path, n, infos, hpc⟩, hcounter⟩
    · exact ⟨⟨path, n, infos, hpc⟩, hcounter⟩
  | consumer f =>
    rcases Pipeline.step_consumer_cases h with ⟨pc, th, v, hs, hrun, rfl⟩ | ⟨e, he, -, rfl⟩ |
      ⟨e, he, -, rfl⟩
    · -- the queue is empty, and stays so
      have hmove := writeMove_of_run hrun
      rw [hpc] at hs
      obtain rfl := Thread.running.inj hs
      have hwrite := hi.write
      rw [hpc] at hwrite
      obtain ⟨hpopped, -⟩ := hwrite
      have hempty : s.consumerView.input.queue.queue = [] :=
        hi.queue_eq_nil hon (by rw [← hpopped, hcounter])
      cases hmove with
      | popped path' n' infos' c q hpc' hq =>
        exact nomatch hempty.symm.trans (BoundedThreadSafeQueue.pop_eq_some.mp hq).1
      | firstPopped _ _ hpc' | opened _ _ _ hpc' | openFault _ _ _ _ hpc' | abort _ _ _ _ hpc'
      | goOn _ _ _ _ hpc' | wrote _ _ _ _ hpc' | writeFault _ _ _ _ _ hpc'
      | counted _ _ _ _ hpc' | doneSeen _ _ _ _ hpc' | notDone _ _ _ _ hpc'
      | drained _ _ _ _ hpc' | more _ _ _ _ hpc' => cases hpc'
    · exact nomatch hpc.symm.trans he
    · exact nomatch hpc.symm.trans he
  | tracker f =>
    rcases Pipeline.step_tracker_cases h with ⟨pc, th, -, -, rfl⟩ | ⟨e, -, -, rfl⟩ |
      ⟨e, -, -, rfl⟩
    · exact ⟨⟨path, n, infos, hpc⟩, hcounter⟩
    · exact ⟨⟨path, n, infos, hpc⟩, hcounter⟩
    · exact ⟨⟨path, n, infos, hpc⟩, hcounter⟩
  | main =>
    obtain ⟨-, -, ⟨e, -, rfl⟩ | ⟨-, rfl⟩⟩ := Pipeline.step_main_cases h
    · exact ⟨⟨path, n, infos, hpc⟩, hcounter⟩
    · exact ⟨⟨path, n, infos, hpc⟩, hcounter⟩

/-- From a stranded state the threads never all return. -/
theorem not_canReach_of_stranded (hon : Honest r disk st es)
    (hi : Calm r disk st start es coming s) (hs : Stranded r s) :
    ¬ CanReach (step r) quiet (fun t => t.joinable = true) s := by
  refine CanReach.not_of_trap
    (I := fun t => Calm r disk st start es coming t ∧ Stranded r t)
    (fun u a v ⟨hu, hstr⟩ hq hstep => ⟨hu.step hon hq hstep, hstr.step hon hu hstep⟩)
    (fun u ⟨_, ⟨_, _, _, hpc⟩, _⟩ hjoin => ?_) ⟨hi, hs⟩
  exact nomatch hpc.symm.trans (Pipeline.joinable_iff.mp hjoin).2.2.1

/-! ### Prompt runs -/

theorem forLoop_ne_pop (l : WriteLocals) (infos infos' : List FileInfo) (path : Bytes) (n : ℕ) :
    forLoop l infos ≠ .running (.pop path n infos') := by
  cases infos <;> exact nofun

theorem whileLoop_ne_pop (l : WriteLocals) (path path' : Bytes) (n n' : ℕ)
    (infos infos' : List FileInfo) :
    whileLoop l path n infos ≠ .running (.pop path' n' infos') := by
  unfold whileLoop
  split_ifs
  · exact nofun
  · exact forLoop_ne_pop l infos infos' path' n'

/-- A prompt step does not strand the writer. -/
theorem Calm.not_stranded_of_step {a : Action} (hon : Honest r disk st es)
    (hi : Calm r disk st start es coming s) (hs : ¬ Stranded r s) (ha : prompt r s a)
    (h : Receiver.step r s a = some t) : ¬ Stranded r t := by
  rintro ⟨⟨path, n, infos, hpc⟩, hcounter⟩
  obtain ⟨hq, hprompt⟩ := ha
  cases a with
  | producer f =>
    rcases Pipeline.step_producer_cases h with ⟨pc, th, v, -, -, rfl⟩ | ⟨e, -, -, rfl⟩ |
      ⟨e, -, -, rfl⟩
    · exact hs ⟨⟨path, n, infos, hpc⟩, hcounter⟩
    · exact hs ⟨⟨path, n, infos, hpc⟩, hcounter⟩
    · exact hs ⟨⟨path, n, infos, hpc⟩, hcounter⟩
  | stage f =>
    rcases Pipeline.step_stage_cases h with ⟨pc, th, v, -, -, rfl⟩ | ⟨e, -, -, rfl⟩ |
      ⟨e, -, -, rfl⟩
    · exact hs ⟨⟨path, n, infos, hpc⟩, hcounter⟩
    · exact hs ⟨⟨path, n, infos, hpc⟩, hcounter⟩
    · exact hs ⟨⟨path, n, infos, hpc⟩, hcounter⟩
  | consumer f =>
    obtain rfl : f = none := by simpa [Action.quiet] using hq
    rcases Pipeline.step_consumer_cases h with ⟨pc, th, v, hth, hrun, rfl⟩ | ⟨e, -, -, rfl⟩ |
      ⟨e, -, -, rfl⟩
    · change th = _ at hpc
      cases writeMove_of_run hrun with
      | notDone l path' n' infos' hpc' hd =>
        cases hd.symm.trans (hprompt l path' n' infos' rfl (hpc' ▸ hth) hcounter)
      | more l path' n' infos' hpc' hne =>
        -- the queue is not empty, so this was not the last chunk
        have hwrite := hi.write
        rw [hth, hpc'] at hwrite
        obtain ⟨-, rest, -, -, -, hpopped⟩ := hwrite
        change s.counter = r.numChunks at hcounter
        exact hne (hi.queue_eq_nil hon (by rw [← hpopped, hcounter]))
      | firstPopped c q => exact forLoop_ne_pop _ _ _ _ _ hpc
      | opened l info infos' => exact whileLoop_ne_pop _ _ _ _ _ _ _ hpc
      | wrote l path' n' infos' =>
        unfold afterWrite at hpc
        dsimp only at hpc
        split_ifs at hpc
        · cases hpc
        · exact whileLoop_ne_pop _ _ _ _ _ _ _ hpc
      | drained l path' n' infos' => exact forLoop_ne_pop _ _ _ _ _ hpc
      | popped path' n' infos' c q => exact whileLoop_ne_pop _ _ _ _ _ _ _ hpc
      | openFault | abort | goOn | writeFault | counted | doneSeen => cases hpc
    · cases hpc
    · cases hpc
  | tracker f =>
    rcases Pipeline.step_tracker_cases h with ⟨pc, th, -, -, rfl⟩ | ⟨e, -, -, rfl⟩ |
      ⟨e, -, -, rfl⟩
    · exact hs ⟨⟨path, n, infos, hpc⟩, hcounter⟩
    · exact hs ⟨⟨path, n, infos, hpc⟩, hcounter⟩
    · exact hs ⟨⟨path, n, infos, hpc⟩, hcounter⟩
  | main =>
    obtain ⟨-, -, ⟨e, -, rfl⟩ | ⟨-, rfl⟩⟩ := Pipeline.step_main_cases h
    · exact hs ⟨⟨path, n, infos, hpc⟩, hcounter⟩
    · exact hs ⟨⟨path, n, infos, hpc⟩, hcounter⟩

theorem stranded_of_not_prompt {a : Action} (hq : a.quiet = true) (ha : ¬ prompt r s a)
    (h : step r s a = some t) : Stranded r t := by
  have hlook : ∃ l path n infos, a = .consumer none ∧
      s.consumer = .running (.inputDone l path n infos) ∧ s.counter = r.numChunks ∧
      s.downstream.done = false := by
    by_contra hnot
    refine ha ⟨hq, fun l path n infos ha hpc hcounter => ?_⟩
    by_contra hdone
    exact hnot ⟨l, path, n, infos, ha, hpc, hcounter, Bool.eq_false_iff.mpr hdone⟩
  obtain ⟨l, path, n, infos, rfl, hpc, hcounter, hdone⟩ := hlook
  have hrun : (writeFilesFromChunks r (.inputDone l path n infos)).run s.ctx.shouldAbort none
      s.consumerView = some (.running (.pop path n infos), s.consumerView) := by
    show some (Thread.running (if s.downstream.done then _ else _), _) = _
    rw [hdone]
    rfl
  have hstep : step r s (.consumer none) = _ :=
    Pipeline.step_consumer_of_run (program ss r) hpc hrun
  obtain rfl := Option.some.inj (h.symm.trans hstep)
  exact ⟨⟨path, n, infos, rfl⟩, hcounter⟩

/-- The work left for the four threads. -/
def work (r : TransferRequest) (s : State capacity ss) : ℕ :=
  receiveRank r.numChunks s.producer + 40 * s.upstream.queue.queue.length +
    stageRank s.upstream.queue.empty s.stage + 20 * s.downstream.queue.queue.length +
    writeRank r s.consumer + ProgressTracker.trackRank r.numChunks s.tracker

theorem Calm.writer_progress {pc : WritePc} (hon : Honest r disk st es)
    (hi : Calm r disk st start es coming s) (hs : ¬ Stranded r s)
    (hc : s.consumer = .running pc)
    (hidle : ¬ (s.downstream.queue.queue = [] ∧ s.downstream.done = false ∧ pc.idle = true)) :
    ∃ t, prompt r s (.consumer none) ∧ Receiver.step r s (.consumer none) = some t ∧
      work r t < work r s := by
  have habort : s.ctx.shouldAbort = false := hi.abort
  have hwrite := hi.write
  rw [hc] at hwrite
  have hdone : s.downstream.queue.queue = [] → pc.idle = true → s.downstream.done = true := by
    intro hempty hpc
    by_contra hd
    exact hidle ⟨hempty, Bool.eq_false_iff.mpr hd, hpc⟩
  have hinput : pc.blocking = true → s.downstream.queue.queue ≠ [] := by
    intro hblocking hempty
    have hpcIdle : pc.idle = true := by
      cases pc <;> first | rfl | cases hblocking
    -- the flag is set, so the writer has popped all chunks
    have hpushed := (hi.of_stage_returned hon
      (hi.stage.returned_of_done (hdone hempty hpcIdle))).2.2
    rw [BoundedThreadSafeQueue.pushed, hempty, List.append_nil] at hpushed
    have hpopped := congrArg List.length hpushed
    rw [length_packing] at hpopped
    cases pc with
    | firstPop =>
      rw [hwrite.1, List.length_nil] at hpopped
      exact absurd hpopped (Nat.ne_of_lt hon.fits.numChunks_pos)
    | pop path n infos =>
      exact hs ⟨⟨path, n, infos, hc⟩, UInt32.toNat.inj (hwrite.1.trans hpopped)⟩
    | _ => cases hblocking
  obtain ⟨th, v, hrun, hlt, hle⟩ := writeFilesFromChunks_progress (v := s.consumerView) hwrite
    hinput
  rw [← habort] at hrun
  refine ⟨_, ⟨rfl, fun l path n infos _ hpc hcounter => ?_⟩,
    Pipeline.step_consumer_of_run (program ss r) hc hrun, ?_⟩
  · rw [hc] at hpc
    obtain rfl := Thread.running.inj hpc
    obtain ⟨rest, -, -, -, hpopped⟩ := hwrite
    exact hdone (hi.queue_eq_nil hon (by rw [← hpopped, hcounter])) rfl
  · unfold work
    dsimp only
    rw [hc]
    change _ ≤ s.downstream.queue.queue.length at hle
    omega

theorem Calm.receiver_progress {pc : ReceivePc} (hon : Honest r disk st es)
    (hi : Calm r disk st start es [] s) (hp : s.producer = .running pc)
    (hroom : s.upstream.queue.queue.length < capacity) :
    ∃ t, Receiver.step r s (.producer none) = some t ∧ work r t < work r s := by
  have habort : s.ctx.shouldAbort = false := hi.abort
  have hreceive := hi.receive
  rw [hp] at hreceive
  obtain ⟨th, v, hrun, hlt⟩ := receiveChunks_progress (v := s.producerView) hon.length_eq
    hon.wf hreceive fun _ _ _ => hroom
  rw [← habort] at hrun
  refine ⟨_, Pipeline.step_producer_of_run (program ss r) hp hrun, ?_⟩
  have hqueue := Call.run_output_queue hrun
  have hrank := stageRank_le hqueue s.stage
  have hlen := hqueue.length_le
  unfold work
  dsimp only
  rw [hp]
  change _ < _ + 45 * s.upstream.queue.queue.length at hlt
  change _ ≤ stageRank s.upstream.queue.empty s.stage +
    4 * (_ - s.upstream.queue.queue.length) at hrank
  change s.upstream.queue.queue.length ≤ _ at hlen
  omega

theorem Calm.decryptor_progress {pc : ProcessPc (EncryptionManager ss)}
    (hon : Honest r disk st es) (hi : Calm r disk st start es coming s)
    (hst : s.stage = .running pc) (hroom : s.downstream.queue.queue.length < capacity)
    (hidle : ¬ (s.upstream.queue.queue = [] ∧ s.upstream.done = false ∧ pc.idle = true)) :
    ∃ t, Receiver.step r s (.stage none) = some t ∧ work r t < work r s := by
  have habort : s.ctx.shouldAbort = false := hi.abort
  have hok : ∀ m c, pc = .transform m c → ∃ x, EncryptionManager.decryptChunk m c = .ok x := by
    rintro m c rfl
    have hstageFlow := hi.stageFlow
    rw [hst] at hstageFlow
    obtain ⟨m', hall⟩ := hon.decrypts
    exact hstageFlow.transform_ok hall
      ((List.prefix_append _ _).trans hi.receive.pushed_isPrefix)
  obtain ⟨th, v, hrun, hlt⟩ := processChunks_progress (v := s.stageView) hok hroom
    (fun he hd => Bool.eq_false_iff.mpr fun h => hidle ⟨he, hd, h⟩)
  rw [← habort] at hrun
  refine ⟨_, Pipeline.step_stage_of_run (program ss r) hst hrun, ?_⟩
  unfold work
  dsimp only
  rw [hst]
  unfold stageWork at hlt
  change _ < 40 * s.upstream.queue.queue.length + stageRank s.upstream.queue.empty _ +
    20 * s.downstream.queue.queue.length at hlt
  omega

/-- Some thread can always take a prompt step that gets on with the work, downstream first: the
writer, else the decryptor, else the chunk receiver, and in the end the tracker. -/
theorem Calm.progress (hcap : 1 ≤ capacity) (hon : Honest r disk st es)
    (hi : Calm r disk st start es [] s) (hs : ¬ Stranded r s) (hrunning : ¬ s.joinable = true) :
    ∃ a t, prompt r s a ∧ Receiver.step r s a = some t ∧ work r t < work r s := by
  have hroom : ∀ {q : BoundedThreadSafeQueue capacity Chunk}, q.queue = [] →
      q.queue.length < capacity := by
    intro q hempty
    rw [hempty]
    exact hcap
  by_cases hwriter : ∃ pc, s.consumer = .running pc ∧
      ¬ (s.downstream.queue.queue = [] ∧ s.downstream.done = false ∧ pc.idle = true)
  · obtain ⟨pc, hc, hidle⟩ := hwriter
    obtain ⟨t, hprompt, hstep, hlt⟩ := hi.writer_progress hon hs hc hidle
    exact ⟨.consumer none, t, hprompt, hstep, hlt⟩
  -- the writer has returned, or it waits for the decryptor
  have hwaits : s.downstream.queue.queue = [] ∧ (s.downstream.done = false ∨
      s.consumer = .returned ∧ s.counter = r.numChunks) := by
    rcases Thread.cases_of_not_thrown hi.write.thrown with ⟨pc, hc⟩ | hc
    · by_contra hnot
      exact hwriter ⟨pc, hc, fun ⟨hempty, hd, _⟩ => hnot ⟨hempty, Or.inl hd⟩⟩
    · have hwrite := hi.write
      rw [hc] at hwrite
      exact ⟨hi.queue_eq_nil hon hwrite.2.1, Or.inr ⟨hc, hwrite.2.2⟩⟩
  obtain ⟨hempty, hdone⟩ := hwaits
  rcases Thread.cases_of_not_thrown hi.stage.thrown with ⟨pc', hst⟩ | hst
  swap
  · -- only the tracker is left, and the counter has reached the limit
    have hstage := hi.stage
    rw [hst] at hstage
    obtain ⟨hproducer, -, -⟩ := hi.of_stage_returned hon hst
    obtain ⟨hc, hcounter⟩ := hdone.resolve_left fun hd => by cases hd.symm.trans hstage.2.2
    have ht : s.tracker ≠ .returned := fun ht =>
      hrunning (Pipeline.joinable_iff.mpr ⟨hproducer, hst, hc, ht⟩)
    obtain ⟨th, hstep, hlt⟩ := Pipeline.tracker_progress (P := program ss r) hi.abort hi.tracker
      ht (by rw [hcounter]; exact UInt32.le_refl _)
    exact ⟨.tracker none, _, ⟨rfl, nofun⟩, hstep, Nat.add_lt_add_left hlt _⟩
  by_cases hidle : s.upstream.queue.queue = [] ∧ s.upstream.done = false ∧ pc'.idle = true
  swap
  · obtain ⟨t, hstep, hlt⟩ := hi.decryptor_progress hon hst (hroom hempty) hidle
    exact ⟨.stage none, t, ⟨rfl, nofun⟩, hstep, hlt⟩
  obtain ⟨hempty', hnotDone, -⟩ := hidle
  rcases Thread.cases_of_not_thrown hi.receive.thrown with ⟨pc, hp⟩ | hp
  swap
  · have hreceive := hi.receive
    rw [hp] at hreceive
    cases hnotDone.symm.trans hreceive.2.2
  obtain ⟨t, hstep, hlt⟩ := hi.receiver_progress hon hp (hroom hempty')
  exact ⟨.producer none, t, ⟨rfl, nofun⟩, hstep, hlt⟩

/-- From a state that is not stranded, prompt steps lead to the end. -/
theorem canReach_of_not_stranded (hcap : 1 ≤ capacity) (hon : Honest r disk st es)
    (hi : Calm r disk st start es [] s) (hs : ¬ Stranded r s) :
    CanReach (step r) (prompt r) (fun t => t.joinable = true) s := by
  refine CanReach.of_measure (I := fun t => Calm r disk st start es [] t ∧ ¬ Stranded r t)
    (work r) (fun t ⟨ht, hstr⟩ hrunning => ?_) ⟨hi, hs⟩
  obtain ⟨a, u, ha, hstep, hlt⟩ := ht.progress hcap hon hstr hrunning
  exact ⟨a, u, ha, hstep, ⟨ht.step hon ha.1 hstep, ht.not_stranded_of_step hon hstr ha hstep⟩, hlt⟩

/-- Every quiet run is calm. -/
theorem Calm.of_reach (hon : Honest r disk st es) {closed : Bool}
    (h : Reach (Receiver.step r) quiet (Receiver.initial capacity r ⟨frames es, closed⟩ start st)
      s) :
    Calm r disk st start es [] s := by
  refine h.invariant (fun _ _ _ hi hq hs => hi.step hon hq hs) ?_
  exact Calm.initial r disk st start es (List.append_nil _) (Or.inr rfl)

/-- When a receiver to which nothing happens returns.  All frames of the transfer arrive and
nothing fails: the four threads can all return from a state if and only if the writer is not
stranded.  Runs of prompt steps only meet states from which they can, by prompt steps; every other
step leads to a state from which they cannot. -/
theorem returns_iff_not_stranded {Path : Type} {relative : Path → Bytes} {disk : Disk}
    {paths : List Path} {r : TransferRequest}
    (hr : TransferRequest.fromFilePaths relative (fun p => disk.fileSize (relative p)) paths =
      .ok r)
    (hsize : (payload disk r.fileInfos).length ≤ 8192 * (2 ^ 32 - 1)) (hcap : 1 ≤ capacity)
    (st : ss.State) (start : FileSystem) :
    ∃ es m, transformAll EncryptionManager.encryptChunk (Sender.manager r st) (packing r disk) =
        .ok (es, m) ∧
      ∀ closed : Bool, ∀ s : State capacity ss,
        (Reach (step r) quiet (initial capacity r ⟨frames es, closed⟩ start st) s →
          (CanReach (step r) quiet (fun t => t.joinable = true) s ↔ ¬ Stranded r s) ∧
          ∀ a t, a.quiet = true → step r s a = some t → ¬ prompt r s a →
            ¬ CanReach (step r) quiet (fun t => t.joinable = true) t) ∧
        (Reach (step r) (prompt r) (initial capacity r ⟨frames es, closed⟩ start st) s →
          CanReach (step r) (prompt r) (fun t => t.joinable = true) s) := by
  obtain ⟨es, m, henc, hon⟩ := exists_honest (fits_of_fromFilePaths hr hsize) st
  refine ⟨es, m, henc, fun closed s => ⟨fun hs => ⟨⟨?_, ?_⟩, ?_⟩, fun hs => ?_⟩⟩
  · intro hreach hstr
    exact not_canReach_of_stranded hon (Calm.of_reach hon hs) hstr hreach
  · intro hstr
    have hreach := canReach_of_not_stranded hcap hon (Calm.of_reach hon hs) hstr
    exact hreach.mono fun _ _ ha => ha.1
  · intro a t hq hstep ha
    have hcalm := (Calm.of_reach hon hs).step hon hq hstep
    exact not_canReach_of_stranded hon hcalm (stranded_of_not_prompt hq ha hstep)
  · have hcalm := Calm.of_reach hon (Reach.mono (fun _ _ ha => ha.1) hs)
    refine canReach_of_not_stranded hcap hon hcalm ?_
    have hboth : Calm r disk st start es [] s ∧ ¬ Stranded r s :=
      hs.invariant (I := fun t => Calm r disk st start es [] t ∧ ¬ Stranded r t)
        (fun u a v ⟨hu, hstr⟩ ha hstep =>
          ⟨hu.step hon ha.1 hstep, hu.not_stranded_of_step hon hstr ha hstep⟩)
        ⟨Calm.of_reach hon .refl, fun ⟨⟨_, _, _, hpc⟩, _⟩ => nomatch hpc⟩
    exact hboth.2

/-- An empty working directory. -/
def emptyDirectory : FileSystem := ⟨fun _ => none, []⟩

theorem returns_threeChunks : ∃ es m,
    transformAll EncryptionManager.encryptChunk
      (Sender.manager Sender.threeChunkRequest Sender.newStream)
      (packing Sender.threeChunkRequest Sender.threeChunkDisk) = .ok (es, m) ∧
    CanReach (step Sender.threeChunkRequest) (prompt Sender.threeChunkRequest)
      (fun t => t.joinable = true) (initial queueCapacity Sender.threeChunkRequest
        ⟨frames es, true⟩ emptyDirectory Sender.newStream) := by
  obtain ⟨es, m, henc, hs⟩ := returns_iff_not_stranded Sender.fromFilePaths_threeChunks
    (by rw [Sender.length_payload_threeChunks]; decide) (show 1 ≤ queueCapacity by decide)
    Sender.newStream emptyDirectory
  exact ⟨es, m, henc, (hs true _).2 .refl⟩

/-- The whole of a transfer of one byte, up to the end of the last write: the writer looks at
`decryption_done` before the decryptor has set it. -/
def strandedRun : List Action :=
  List.replicate 3 (.producer none) ++ List.replicate 4 (.stage none) ++
    List.replicate 6 (.consumer none)

/-- The one byte arrives and is written to its stream, and the receiver hangs.  The stream is not
closed any more, so the byte stays in its buffer. -/
theorem exists_stranded : TransferRequest.fromFilePaths id
      (fun p => Sender.oneByteDisk.fileSize (id p)) [[97]] = .ok Sender.oneByteRequest ∧
    ∃ es m s, transformAll EncryptionManager.encryptChunk
        (Sender.manager Sender.oneByteRequest Sender.newStream)
        (packing Sender.oneByteRequest Sender.oneByteDisk) = .ok (es, m) ∧
      Reach (step Sender.oneByteRequest) quiet (initial queueCapacity Sender.oneByteRequest
        ⟨frames es, true⟩ emptyDirectory Sender.newStream) s ∧
      ¬ CanReach (step Sender.oneByteRequest) quiet (fun t => t.joinable = true) s := by
  have hrun : (exec (step Sender.oneByteRequest) (initial queueCapacity Sender.oneByteRequest
      ⟨frames [Sender.oneByteFrame], true⟩ emptyDirectory Sender.newStream) strandedRun).map
      (fun s => decide (s.consumer = .running (.pop [97] 0 []) ∧ s.counter = 1)) = some true := by
    decide +kernel
  obtain ⟨s, hs, htest⟩ := reach_of_exec_test _ (quiet_of_all (by decide)) hrun
  obtain ⟨hpc, hcounter⟩ := of_decide_eq_true htest
  have hfits := fits_of_fromFilePaths Sender.fromFilePaths_oneByte (by decide)
  obtain ⟨es, m, henc, hon⟩ := exists_honest hfits Sender.newStream
  obtain rfl : [Sender.oneByteFrame] = es := congrArg Prod.fst (Except.ok.inj henc)
  refine ⟨Sender.fromFilePaths_oneByte, _, m, s, henc, hs, ?_⟩
  exact not_canReach_of_stranded hon (Calm.of_reach hon hs) ⟨⟨_, _, _, hpc⟩, hcounter⟩

end Receiver

end Trit
