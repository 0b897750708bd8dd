import Trit.QuietSender

/-!
# The sender after an abort

Once the abort flag of `send_files` is set, every worker leaves its loop at the next look at the
flag, but `push` waits for room alone.

* `ReadPushes`: the chunker does not leave its loop without another push;
* `Served`: every worker on its way to a `push` finds room, or its consumer is about to take a
  chunk;
* `abortWork_lt`: after an abort every step brings its thread closer to its end;
* `served_of_canReach`, `canReach_of_served`: as long as nothing else fails, the four workers can
  all return exactly from the served states;
* `Reports`: what `send_files` owes its caller, and `reports_iff_served`;
* `exists_blocked_chunker`: a transfer in which the chunker stays in `push` for ever.
-/

namespace Trit

open Transition

namespace TransferManager

/-- How many steps the transmitter takes at most once the abort flag is set. -/
def sendAbortRank : Thread SendPc → ℕ
  | .running .tryPop => 9
  | .running (.write fields) => 3 + fields.length
  | .running .inputDone => 4
  | .running .inputEmpty => 3
  | .running .abortCheck | .caught _ => 2
  | .flagged _ => 1
  | .returned => 0

theorem sendAbortRank_lt {capacity : ℕ} {f : Option Fault} {v v' : View capacity Bytes}
    {pc : SendPc} {t : Thread SendPc} (h : SendMove true f v pc t v') :
    sendAbortRank t < sendAbortRank (.running pc) := by
  cases h with
  | goOn hpc ha => cases ha
  | fault field rest x hpc =>
    subst hpc
    simp only [sendAbortRank]
    omega
  | abort hpc | popped c q hpc | missed hpc | wrote field rest hpc | counted hpc | doneSeen hpc
  | notDone hpc | drained hpc | more hpc =>
    subst hpc
    simp [sendAbortRank, frameFields]

/-- After an abort the transmitter never blocks, and if it is about to take a chunk, it does. -/
theorem sendChunks_abort_progress {capacity : ℕ} (v : View capacity Bytes) (pc : SendPc) :
    ∃ t v', (sendChunks pc).run true none v = some (t, v') ∧
      v'.input.queue.queue.length ≤ v.input.queue.queue.length ∧
      (pc = .tryPop → v.input.queue.queue ≠ [] →
        v'.input.queue.queue.length < v.input.queue.queue.length) := by
  rcases pc with _ | _ | ⟨_ | ⟨field, rest⟩⟩ | _ | _
  · exact ⟨_, _, rfl, le_refl _, by simp⟩
  · cases hq : v.input.queue.pop with
    | none =>
      refine ⟨.running .inputDone, v, by simp [Call.run, sendChunks, Call.exec, hq], le_refl _,
        ?_⟩
      exact fun _ hne => absurd (BoundedThreadSafeQueue.pop_eq_none.mp hq) hne
    | some r =>
      have hlt : r.2.queue.length < v.input.queue.queue.length := by
        rw [BoundedThreadSafeQueue.length_of_pop hq]
        exact Nat.lt_succ_self _
      exact ⟨.running (.write (frameFields r.1)),
        { v with input := { v.input with queue := r.2 } },
        by simp [Call.run, sendChunks, Call.exec, hq, not_uint16Max_lt_size], hlt.le,
        fun _ _ => hlt⟩
  · exact ⟨_, _, rfl, le_refl _, by simp⟩
  · exact ⟨_, _, rfl, le_refl _, by simp⟩
  · exact ⟨_, _, rfl, le_refl _, by simp⟩
  · exact ⟨_, _, rfl, le_refl _, by simp⟩

end TransferManager

namespace FileManager

/-- How many steps the chunker takes at most once the abort flag is set. -/
def readAbortRank : Thread ReadPc → ℕ
  | .running (.read _ _ _ _) => 4
  | .running (.openFile _ _ _) | .running (.push _ _ _ _ _) => 3
  | .running (.nextFile _ _) | .running (.abortCheck _ _ _ _) | .caught _ => 2
  | .running .outputDone | .flagged _ => 1
  | .returned => 0

theorem readAbortRank_whileLoop (l : ReadLocals) (file : Bytes) (n : ℕ)
    (infos : List FileInfo) : readAbortRank (.running (.whileLoop l file n infos)) = 2 := by
  unfold ReadPc.whileLoop
  split_ifs <;> rfl

theorem readAbortRank_lt {capacity : ℕ} {r : TransferRequest} {f : Option Fault}
    {v v' : View capacity Disk} {pc : ReadPc} {t : Thread ReadPc}
    (h : ReadMove r true f v pc t v') : readAbortRank t < readAbortRank (.running pc) := by
  cases h with
  | goOnFile l info infos hpc ha => cases ha
  | goOnRead l file n infos hpc ha => cases ha
  | opened l info infos hpc =>
    subst hpc
    unfold openForReading
    split
    · simp [readAbortRank]
    · split_ifs
      · simp [readAbortRank]
      · rw [readAbortRank_whileLoop]
        simp [readAbortRank]
  | read l file n infos hpc =>
    subst hpc
    unfold readIntoBuffer
    dsimp only
    split_ifs
    · simp [readAbortRank]
    · simp [readAbortRank]
    · rw [readAbortRank_whileLoop]
      simp [readAbortRank]
  | pushed c l file n infos q hpc hq =>
    subst hpc
    rw [readAbortRank_whileLoop]
    simp [readAbortRank]
  | finished l hpc | abortFile l info infos hpc | openFault l info infos x hpc
  | abortRead l file n infos hpc | readFault l file n infos x hpc | aborted hpc =>
    subst hpc
    simp [readAbortRank]

/-- The chunker does not leave its loop without another push: it stands at one, or its next read
fills the buffer. -/
def ReadPushes : Thread ReadPc → Prop
  | .running (.push _ _ _ _ _) => True
  | .running (.read l file n _) =>
      l.remainingBufferCapacity ≤ n ∧ l.remainingBufferCapacity ≤ file.length
  | _ => False

theorem not_readPushes_whileLoop (l : ReadLocals) (file : Bytes) (n : ℕ) (infos : List FileInfo) :
    ¬ ReadPushes (.running (.whileLoop l file n infos)) := by
  unfold ReadPc.whileLoop
  split_ifs <;> exact id

theorem not_readPushes_openForReading (disk : Disk) (l : ReadLocals) (info : FileInfo)
    (infos : List FileInfo) : ¬ ReadPushes (openForReading disk l info infos) := by
  unfold openForReading
  split
  · exact id
  · split_ifs
    · exact id
    · exact not_readPushes_whileLoop _ _ _ _

/-- A read leads to a push exactly if it fills the buffer. -/
theorem readPushes_readIntoBuffer {l : ReadLocals} {file : Bytes} {n : ℕ} {infos : List FileInfo} :
    ReadPushes (readIntoBuffer l file n infos) ↔
      l.remainingBufferCapacity ≤ n ∧ l.remainingBufferCapacity ≤ file.length := by
  unfold readIntoBuffer
  dsimp only
  rw [List.length_take]
  split_ifs with hshort hfull
  · refine iff_of_false id ?_
    omega
  · refine iff_of_true trivial ?_
    omega
  · refine iff_of_false (not_readPushes_whileLoop _ _ _ _) ?_
    omega

/-- After an abort the next operation of a chunker that pushes is the push, or leads to it. -/
theorem ReadPushes.move {capacity : ℕ} {r : TransferRequest} {v v' : View capacity Disk}
    {pc : ReadPc} {t : Thread ReadPc} (hp : ReadPushes (.running pc))
    (h : ReadMove r true none v pc t v') :
    v.output.queue.queue.length < capacity ∨ ReadPushes t ∧ v'.output = v.output := by
  cases h with
  | pushed c l file n infos q hpc hq => exact Or.inl (BoundedThreadSafeQueue.push_eq_some.mp hq).1
  | read l file n infos hpc =>
    subst hpc
    exact Or.inr ⟨readPushes_readIntoBuffer.mpr hp, rfl⟩
  | readFault l file n infos x hpc hf => cases hf
  | finished _ hpc | abortFile _ _ _ hpc | goOnFile _ _ _ hpc | opened _ _ _ hpc
  | openFault _ _ _ _ hpc | abortRead _ _ _ _ hpc | goOnRead _ _ _ _ hpc | aborted hpc =>
    subst hpc
    exact hp.elim

/-- After an abort a chunker that pushes was to push before its operation. -/
theorem ReadMove.pushes_before {capacity : ℕ} {r : TransferRequest} {f : Option Fault}
    {v v' : View capacity Disk} {pc : ReadPc} {t : Thread ReadPc}
    (h : ReadMove r true f v pc t v') (ht : ReadPushes t) :
    ReadPushes (.running pc) ∧ v'.output = v.output := by
  cases h with
  | read l file n infos hpc =>
    subst hpc
    exact ⟨readPushes_readIntoBuffer.mp ht, rfl⟩
  | opened l info infos hpc => exact absurd ht (not_readPushes_openForReading _ _ _ _)
  | pushed c l file n infos q hpc hq => exact absurd ht (not_readPushes_whileLoop _ _ _ _)
  | goOnFile l info infos hpc ha => cases ha
  | goOnRead l file n infos hpc ha => cases ha
  | finished | abortFile | openFault | abortRead | readFault | aborted => exact ht.elim

/-- The chunker waits for nothing but room on its output. -/
theorem readFilesIntoChunks_exists_run {capacity : ℕ} (r : TransferRequest) (abort : Bool)
    (v : View capacity Disk) (pc : ReadPc)
    (hpush : ∀ c l file n infos, pc = .push c l file n infos →
      v.output.queue.queue.length < capacity) :
    ∃ t v', (readFilesIntoChunks r pc).run abort none v = some (t, v') := by
  cases pc with
  | nextFile l infos => cases infos <;> exact ⟨_, _, rfl⟩
  | push c l file n infos =>
    obtain ⟨q, hq⟩ := BoundedThreadSafeQueue.exists_push (hpush c l file n infos rfl) c
    simp [Call.run, readFilesIntoChunks, Call.exec, hq]
  | _ => exact ⟨_, _, rfl⟩

end FileManager

namespace Sender

open FileManager TransferManager

variable {capacity : ℕ} {ss : SecretStream}

/-! ### When the workers can all return -/

/-- Every worker on its way to a `push` finds room, or its consumer stands at `try_pop` and makes
some. -/
structure Served (r : TransferRequest) (s : State capacity ss) : Prop where
  chunker : ReadPushes s.producer → s.UpstreamRoom
  encryptor : s.WillPush (program ss r) → s.downstream.queue.queue.length < capacity ∨
    s.downstream.queue.queue ≠ [] ∧ s.consumer = .running .tryPop

variable {r : TransferRequest} {s t : State capacity ss}

/-- The work left after an abort. -/
def abortWork (s : State capacity ss) : ℕ := Pipeline.abortWork readAbortRank sendAbortRank s

/-- After an abort every step of a thread brings it closer to its end. -/
theorem abortWork_lt {a : Action}
    (ha : a ≠ .main) (habort : s.ctx.abortFlag = true) (h : step r s a = some t) :
    abortWork t < abortWork s :=
  Pipeline.abortWork_lt (fun hrun => readAbortRank_lt (readMove_of_run hrun))
    (fun hrun => sendAbortRank_lt (sendMove_of_run hrun))
    (fun _ => by simp [readAbortRank]) (fun _ => by simp [sendAbortRank]) ha habort h

/-- A step of the chunker finds room, or leaves its push ahead; and it can only give the encryptor
more to push. -/
theorem Served.of_producer (habort : s.ctx.abortFlag = true)
    (h : step r s (.producer none) = some t) (ht : Served r t) : Served r s := by
  rcases Pipeline.step_producer_cases h with ⟨pc, th, v, hs, hrun, rfl⟩ | ⟨e, he, -, rfl⟩ |
    ⟨e, he, -, rfl⟩
  · rw [show s.ctx.shouldAbort = true from habort] at hrun
    constructor
    · intro hp
      rw [hs] at hp
      rcases hp.move (readMove_of_run hrun) with hroom | ⟨hp', houtput⟩
      · exact Or.inl hroom
      · have hroom := ht.chunker hp'
        unfold Pipeline.UpstreamRoom at hroom ⊢
        dsimp only at hroom
        rw [houtput] at hroom
        exact hroom
    · intro hw
      exact ht.encryptor (hw.mono (Call.run_output_queue hrun))
  · refine ⟨fun hp => ?_, ht.encryptor⟩
    rw [he] at hp
    exact hp.elim
  · refine ⟨fun hp => ?_, ht.encryptor⟩
    rw [he] at hp
    exact hp.elim

/-- After an abort a step of the encryptor serves the chunker only from `try_pop`, and finds room
itself, or leaves its push ahead. -/
theorem Served.of_stage (habort : s.ctx.abortFlag = true) (h : step r s (.stage none) = some t)
    (ht : Served r t) : Served r s := by
  obtain ⟨hproducer, hconsumer⟩ := Pipeline.threads_of_stage h
  constructor
  · intro hp
    exact (ht.chunker (hproducer ▸ hp)).of_stage habort h
  · intro hw
    rcases hw.of_stage habort h with hroom | ⟨hw', hdown⟩
    · exact Or.inl hroom
    · rw [← hdown, ← hconsumer]
      exact ht.encryptor hw'

/-- After an abort a step of the transmitter makes room only from `try_pop`. -/
theorem Served.of_consumer (habort : s.ctx.abortFlag = true)
    (h : step r s (.consumer none) = some t) (ht : Served r t) : Served r s := by
  rcases Pipeline.step_consumer_cases h with ⟨pc, th, v, hs, hrun, rfl⟩ | ⟨e, he, -, rfl⟩ |
    ⟨e, he, -, rfl⟩
  · rw [show s.ctx.shouldAbort = true from habort] at hrun
    refine ⟨ht.chunker, fun hw => ?_⟩
    have hencryptor := ht.encryptor hw
    cases sendMove_of_run hrun with
    | goOn hpc ha => cases ha
    | popped d q hpc hq =>
      refine Or.inr ⟨?_, hpc ▸ hs⟩
      intro hnil
      exact nomatch hnil.symm.trans (BoundedThreadSafeQueue.pop_eq_some.mp hq).1
    | abort | missed | wrote | fault | counted | doneSeen | notDone | drained | more =>
      exact hencryptor.imp id fun ⟨_, hth⟩ => nomatch hth
  · exact ⟨ht.chunker, fun hw => (ht.encryptor hw).imp id fun ⟨_, hth⟩ => nomatch hth⟩
  · exact ⟨ht.chunker, fun hw => (ht.encryptor hw).imp id fun ⟨_, hth⟩ => nomatch hth⟩

/-- After an abort, as long as nothing else fails, a served state comes from served states only. -/
theorem Served.of_step {a : Action} (habort : s.ctx.abortFlag = true) (ha : quiet s a)
    (h : step r s a = some t) (ht : Served r t) : Served r s := by
  cases a with
  | producer f =>
    obtain rfl : f = none := by simpa [quiet, Action.quiet] using ha
    exact ht.of_producer habort h
  | stage f =>
    obtain rfl : f = none := by simpa [quiet, Action.quiet] using ha
    exact ht.of_stage habort h
  | consumer f =>
    obtain rfl : f = none := by simpa [quiet, Action.quiet] using ha
    exact ht.of_consumer habort h
  | tracker f =>
    rcases Pipeline.step_tracker_cases h with ⟨pc, th, hs, hmove, rfl⟩ | ⟨e, he, -, rfl⟩ |
      ⟨e, he, -, rfl⟩
    · exact ⟨ht.chunker, ht.encryptor⟩
    · exact ⟨ht.chunker, ht.encryptor⟩
    · exact ⟨ht.chunker, ht.encryptor⟩
  | main =>
    obtain ⟨-, -, ⟨e, -, rfl⟩ | ⟨-, rfl⟩⟩ := Pipeline.step_main_cases h
    · exact ⟨ht.chunker, ht.encryptor⟩
    · exact ⟨ht.chunker, ht.encryptor⟩

/-- After an abort the workers can all return from served states only. -/
theorem served_of_canReach (habort : s.ctx.abortFlag = true)
    (h : CanReach (step r) quiet (fun t => t.joinable = true) s) : Served r s := by
  obtain ⟨t, ht, hjoin⟩ := h
  obtain ⟨hproducer, hstage, -, -⟩ := Pipeline.joinable_iff.mp hjoin
  have hserved : Served r t := by
    constructor
    · intro hp
      rw [hproducer] at hp
      exact hp.elim
    · intro hw
      unfold Pipeline.WillPush at hw
      rw [hstage] at hw
      exact hw.elim
  exact Reach.backward (I := fun u => u.ctx.abortFlag = true)
    (fun _ _ _ hu _ hs => Pipeline.abortFlag_of_step hs hu)
    (fun _ _ _ hu ha hs hv => Served.of_step hu ha hs hv) ht habort hserved

theorem Served.transmitter_progress (habort : s.ctx.abortFlag = true) (hs : Served r s)
    (hrunning : s.consumer ≠ .returned) :
    ∃ t, step r s (.consumer none) = some t ∧ Served r t := by
  have hflag : s.ctx.shouldAbort = true := habort
  have hdown := s.downstream.queue.size_le
  rcases s.consumer.cases_thrown with ⟨pc, hc⟩ | hc | hc
  · obtain ⟨th, v, hrun, hle, hlt⟩ := sendChunks_abort_progress s.consumerView pc
    rw [← hflag] at hrun
    refine ⟨_, Pipeline.step_consumer_of_run (program ss r) hc hrun, hs.chunker,
      fun hw => Or.inl ?_⟩
    change _ ≤ s.downstream.queue.queue.length at hle
    show v.input.queue.queue.length < capacity
    rcases hs.encryptor hw with hroom | ⟨hne, hpc⟩
    · omega
    · have := hlt (by rw [hc] at hpc; exact Thread.running.inj hpc) hne
      change _ < s.downstream.queue.queue.length at this
      omega
  · obtain ⟨th, ctx, hstep, hth⟩ := Pipeline.exists_step_consumer (program ss r) hc
    refine ⟨_, hstep, hs.chunker, fun hw => ?_⟩
    refine (hs.encryptor hw).imp id fun ⟨_, hpc⟩ => ?_
    rw [hpc] at hc
    exact nomatch hc
  · exact absurd hc hrunning

/-- Once the transmitter has returned, the encryptor finds room where it pushes. -/
theorem Served.encryptor_progress (habort : s.ctx.abortFlag = true) (hs : Served r s)
    (hc : s.consumer = .returned) (hrunning : s.stage ≠ .returned) :
    ∃ t, step r s (.stage none) = some t ∧ Served r t := by
  have hroom : s.WillPush (program ss r) → s.downstream.queue.queue.length < capacity := fun hw =>
    (hs.encryptor hw).resolve_right fun ⟨_, hpc⟩ => nomatch hc.symm.trans hpc
  obtain ⟨t, hstep⟩ := Pipeline.exists_stage_step (program ss r) hrunning hroom
  obtain ⟨hproducer, -⟩ := Pipeline.threads_of_stage hstep
  refine ⟨t, hstep, fun hp => Or.inl ?_, fun hw => Or.inl ?_⟩
  · exact (hs.chunker (hproducer ▸ hp)).room_of_stage hstep
  · obtain ⟨hw', hdown⟩ := Pipeline.willPush_before habort hstep hw
    rw [hdown]
    exact hroom hw'

/-- Once the encryptor has returned, the chunker finds room where it pushes. -/
theorem Served.chunker_progress (habort : s.ctx.abortFlag = true) (hs : Served r s)
    (hstage : s.stage = .returned) (hrunning : s.producer ≠ .returned) :
    ∃ t, step r s (.producer none) = some t ∧ Served r t := by
  have hroom : ReadPushes s.producer → s.upstream.queue.queue.length < capacity := fun hp =>
    (hs.chunker hp).resolve_right fun ⟨_, m, hm⟩ => nomatch hstage.symm.trans hm
  have hleft : ∀ {u : State capacity ss}, u.stage = s.stage → ¬ u.WillPush (program ss r) := by
    intro u hu hw
    unfold Pipeline.WillPush at hw
    rw [hu, hstage] at hw
    exact hw
  rcases s.producer.cases_thrown with ⟨pc, hp⟩ | hp | hp
  · rw [hp] at hroom
    obtain ⟨th, v, hrun⟩ := readFilesIntoChunks_exists_run r s.ctx.shouldAbort s.producerView pc
      (by rintro c l file n infos rfl; exact hroom trivial)
    refine ⟨_, Pipeline.step_producer_of_run (program ss r) hp hrun, fun hp' => Or.inl ?_,
      fun hw => absurd hw (hleft rfl)⟩
    rw [show s.ctx.shouldAbort = true from habort] at hrun
    obtain ⟨hbefore, houtput⟩ := (readMove_of_run hrun).pushes_before hp'
    show v.output.queue.queue.length < capacity
    rw [houtput]
    exact hroom hbefore
  · obtain ⟨th, ctx, hstep, hth⟩ := Pipeline.exists_step_producer (program ss r) hp
    refine ⟨_, hstep, fun hp' => ?_, fun hw => absurd hw (hleft rfl)⟩
    cases th with
    | running pc => exact absurd rfl (hth pc)
    | caught e | flagged e | returned => exact hp'.elim
  · exact absurd hp hrunning

/-- After an abort some thread of a served state can always go on and leave it served: the
transmitter, else the encryptor, else the chunker, else the tracker. -/
theorem Served.progress (habort : s.ctx.abortFlag = true) (hs : Served r s)
    (hrunning : ¬ s.joinable = true) :
    ∃ a t, quiet s a ∧ a ≠ .main ∧ step r s a = some t ∧ Served r t := by
  have hflag : s.ctx.shouldAbort = true := habort
  by_cases hc : s.consumer = .returned
  swap
  · obtain ⟨t, hstep, ht⟩ := hs.transmitter_progress habort hc
    exact ⟨.consumer none, t, rfl, nofun, hstep, ht⟩
  by_cases hstage : s.stage = .returned
  swap
  · obtain ⟨t, hstep, ht⟩ := hs.encryptor_progress habort hc hstage
    exact ⟨.stage none, t, rfl, nofun, hstep, ht⟩
  by_cases hp : s.producer = .returned
  swap
  · obtain ⟨t, hstep, ht⟩ := hs.chunker_progress habort hstage hp
    exact ⟨.producer none, t, rfl, nofun, hstep, ht⟩
  rcases s.tracker.cases_thrown with ⟨pc, ht⟩ | ht | ht
  · obtain ⟨th, v, hrun⟩ := ProgressTracker.start_abort_progress r.numChunks s.trackerView pc
    rw [← hflag] at hrun
    exact ⟨.tracker none, _, rfl, nofun, Pipeline.step_tracker_of_run (program ss r) ht hrun,
      hs.chunker, hs.encryptor⟩
  · obtain ⟨th, ctx, hstep, hth⟩ := Pipeline.exists_step_tracker (program ss r) ht
    exact ⟨.tracker none, _, rfl, nofun, hstep, hs.chunker, hs.encryptor⟩
  · exact absurd (Pipeline.joinable_iff.mpr ⟨hp, hstage, hc, ht⟩) hrunning

/-- After an abort the workers can all return from every served state. -/
theorem canReach_of_served (habort : s.ctx.abortFlag = true) (hs : Served r s) :
    CanReach (step r) quiet (fun t => t.joinable = true) s := by
  refine CanReach.of_measure (I := fun t => t.ctx.abortFlag = true ∧ Served r t) abortWork
    (fun t ⟨ht, hserved⟩ hrunning => ?_) ⟨habort, hs⟩
  obtain ⟨a, u, hquiet, ha, hstep, hserved'⟩ := hserved.progress ht hrunning
  exact ⟨a, u, hquiet, hstep, ⟨Pipeline.abortFlag_of_step hstep ht, hserved'⟩,
    abortWork_lt ha ht hstep⟩

end Sender

end Trit
