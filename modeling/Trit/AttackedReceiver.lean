import Trit.Receiver

/-!
# Receiving from an attacker

`Receiver::receive_files` on a stream that an attacker delivers in place of the sender's.  The
frames and their headers are the attacker's; the attacker has no key, so of the payloads only the
sender's own ciphertexts can be decrypted, each in its place.

* `ReceiveCount`: how many frames the chunk receiver has taken;
* `Guarded`: what holds in every run on an unforged stream, whatever fails;
* `authentic`: what is decrypted is a prefix of what was sent, and all of it once the chunk receiver
  and the decryptor have returned without a failure.
-/

namespace Trit

open Transition

namespace TransferManager

/-- How far `receive_chunks` is, as long as nothing has failed: the loop counter counts the
frames. -/
def ReceiveCount (numChunks : UInt32) (pushed : List Chunk) (done : Bool) : Thread ReceivePc → Prop
  | .running (.loop i) => pushed.length = i ∧ i ≤ numChunks.toNat ∧ done = false
  | .running (.read i) | .running (.push _ i) =>
      pushed.length = i ∧ i < numChunks.toNat ∧ done = false
  | .returned => pushed.length = numChunks.toNat ∧ done = true
  | .caught _ | .flagged _ => False

theorem ReceiveCount.move {capacity : ℕ} {numChunks : UInt32} {f : Option Fault}
    {v v' : View capacity Incoming} {pc : ReceivePc} {t : Thread ReceivePc}
    (h : ReceiveMove numChunks false f v pc t v') (ht : t.thrown = false)
    (hi : ReceiveCount numChunks v.output.queue.pushed v.output.done (.running pc)) :
    ReceiveCount numChunks v'.output.queue.pushed v'.output.done t := by
  cases h with
  | abort i hpc hlt ha => cases ha
  | goOn i hpc hlt =>
    subst hpc
    exact ⟨hi.1, hlt, hi.2.2⟩
  | finished i hpc hle =>
    subst hpc
    obtain ⟨hlen, hle', -⟩ := hi
    exact ⟨by show v.output.queue.pushed.length = _; omega, rfl⟩
  | received i c s hpc =>
    subst hpc
    exact hi
  | threw | fault => cases ht
  | pushed c i q hpc hq =>
    subst hpc
    obtain ⟨hlen, hlt, hdone⟩ := hi
    refine ⟨?_, hlt, hdone⟩
    show q.pushed.length = _
    rw [BoundedThreadSafeQueue.pushed_push hq, List.length_append, List.length_singleton, hlen]

theorem ReceiveCount.done_eq_false {numChunks : UInt32} {pushed : List Chunk} {done : Bool}
    {pc : ReceivePc} (h : ReceiveCount numChunks pushed done (.running pc)) : done = false := by
  cases pc <;> exact h.2.2

/-- The chunk in the hand of `receive_chunks`, if it has one, stands in the stream. -/
def Carries (stream : Bytes) : Thread ReceivePc → Prop
  | .running (.push c _) => c.data <:+: stream
  | _ => True

end TransferManager

namespace Receiver

open FileManager TransferManager

variable {capacity : ℕ} {ss : SecretStream}

/-- What holds in every run on the stream of an attacker: all payloads stand in the stream, and
the decryptor computes what the sequential stage computes.  As long as nothing has failed, the flags
and the counts are those of an undisturbed run, too. -/
structure Guarded (r : TransferRequest) (st : ss.State) (stream : Bytes) (s : State capacity ss) :
    Prop where
  slot : s.Slot
  arrived : s.source.stream <:+ stream
  carried : Carries stream s.producer
  received : ∀ c ∈ s.upstream.queue.pushed, c.data <:+: stream
  stageFlow : StageFlow EncryptionManager.decryptChunk (manager r st) s.upstream.queue.popped
    s.downstream.queue.pushed s.stage
  count : ¬ s.Threw → ReceiveCount r.numChunks s.upstream.queue.pushed s.upstream.done s.producer
  stage : ¬ s.Threw → StageCalm s.upstream.done s.upstream.queue.queue s.downstream.done s.stage
  staged : ¬ s.Threw → s.stage = .returned →
    ∃ m, transformAll EncryptionManager.decryptChunk (manager r st) s.upstream.queue.popped =
      .ok (s.downstream.queue.pushed, m)

theorem Guarded.initial (r : TransferRequest) (socket : Incoming) (start : FileSystem)
    (st : ss.State) : Guarded r st socket.stream (initial capacity r socket start st) where
  slot := Pipeline.Slot.initial _ _ _ _ _
  arrived := List.suffix_rfl
  carried := trivial
  received := fun c hc => by simp [Receiver.initial, Pipeline.initial, Channel.new] at hc
  stageFlow := rfl
  count := fun _ => ⟨rfl, Nat.zero_le _, rfl⟩
  stage := fun _ => rfl
  staged := fun _ h => (nomatch h)

variable {r : TransferRequest} {st : ss.State} {stream : Bytes} {s t : State capacity ss}

/-- The stream and the queue after an operation of the chunk receiver. -/
theorem carries_of_move {f : Option Fault} {abort : Bool} {v v' : View capacity Incoming}
    {pc : ReceivePc} {th : Thread ReceivePc} (h : ReceiveMove r.numChunks abort f v pc th v')
    (harrived : v.world.stream <:+ stream) (hcarried : Carries stream (.running pc))
    (hreceived : ∀ c ∈ v.output.queue.pushed, c.data <:+: stream) :
    v'.world.stream <:+ stream ∧ Carries stream th ∧
      ∀ c ∈ v'.output.queue.pushed, c.data <:+: stream := by
  cases h with
  | received i c s hpc hr =>
    obtain ⟨head, hhead⟩ := receiveChunk_ok hr
    have hrest : s.stream <:+ v.world.stream := hhead ▸ List.suffix_append _ _
    have hdata : c.data <:+: v.world.stream := ⟨head, s.stream, hhead.symm⟩
    exact ⟨hrest.trans harrived, hdata.trans harrived.isInfix, hreceived⟩
  | fault i x hpc hf => exact ⟨(List.drop_suffix _ _).trans harrived, trivial, hreceived⟩
  | pushed c i q hpc hq =>
    subst hpc
    refine ⟨harrived, trivial, fun d hd => ?_⟩
    change d ∈ q.pushed at hd
    rw [BoundedThreadSafeQueue.pushed_push hq, List.mem_append, List.mem_singleton] at hd
    rcases hd with hd | rfl
    · exact hreceived d hd
    · exact hcarried
  | abort | goOn | finished | threw => exact ⟨harrived, trivial, hreceived⟩

/-- A step of the chunk receiver takes its chunks from the stream. -/
theorem Guarded.producer {f : Option Fault} (hi : Guarded r st stream s)
    (h : step r s (.producer f) = some t) : Guarded r st stream t := by
  have hslot : t.Slot := hi.slot.step (program_sound r) h
  have hback : ¬ t.Threw → ¬ s.Threw := fun hT => (Pipeline.quiet_of_not_threw h hT).2
  rcases Pipeline.step_producer_cases h with ⟨pc, th, v, hs, hrun, rfl⟩ | ⟨e, he, -, rfl⟩ |
    ⟨e, he, -, rfl⟩
  · have hmove := receiveMove_of_run hrun
    obtain ⟨harrived, hcarried, hreceived⟩ := carries_of_move hmove hi.arrived
      (hs ▸ hi.carried) hi.received
    have hpopped := (Call.run_output hrun).1
    refine ⟨hslot, harrived, hcarried, hreceived, ?_, fun hT => ?_, fun hT => ?_, fun hT => ?_⟩
    · show StageFlow _ _ v.output.queue.popped _ _
      rw [hpopped]
      exact hi.stageFlow
    · have hcount := hi.count (hback hT)
      rw [hs] at hcount
      rw [hi.slot.shouldAbort (hback hT)] at hmove
      refine ReceiveCount.move hmove ?_ hcount
      exact Bool.eq_false_iff.mpr fun hth => hT (Or.inr (Or.inl hth))
    · have hcount := hi.count (hback hT)
      rw [hs] at hcount
      have hstage := hi.stage (hback hT)
      rw [hcount.done_eq_false] at hstage
      exact hstage.of_not_done
    · show _ → ∃ m, transformAll _ _ v.output.queue.popped = _
      rw [hpopped]
      exact hi.staged (hback hT)
  · exact ⟨hslot, hi.arrived, trivial, hi.received, hi.stageFlow,
      fun hT => (hT (Or.inr (Or.inl rfl))).elim, fun hT => hi.stage (hback hT),
      fun hT => hi.staged (hback hT)⟩
  · exact ⟨hslot, hi.arrived, trivial, hi.received, hi.stageFlow,
      fun hT => (hT (Or.inl (by simp))).elim, fun hT => hi.stage (hback hT),
      fun hT => hi.staged (hback hT)⟩

/-- A step of the decryptor keeps step with the sequential stage. -/
theorem Guarded.decryptor {f : Option Fault} (hi : Guarded r st stream s)
    (h : step r s (.stage f) = some t) : Guarded r st stream t := by
  have hslot : t.Slot := hi.slot.step (program_sound r) h
  have hback : ¬ t.Threw → ¬ s.Threw := fun hT => (Pipeline.quiet_of_not_threw h hT).2
  rcases Pipeline.step_stage_cases h with ⟨pc, th, v, hs, hmove, rfl⟩ | ⟨e, he, -, rfl⟩ |
    ⟨e, he, -, rfl⟩
  · have hstageFlow := hi.stageFlow
    rw [hs] at hstageFlow
    refine ⟨hslot, hi.arrived, hi.carried, ?_, StageFlow.move hmove hstageFlow, fun hT => ?_,
      fun hT => ?_, fun hT => hstageFlow.of_returned hmove⟩
    · show ∀ c ∈ v.input.queue.pushed, _
      rw [hmove.input_pushed]
      exact hi.received
    · show ReceiveCount _ v.input.queue.pushed v.input.done _
      rw [hmove.input_pushed, hmove.input_done]
      exact hi.count (hback hT)
    · have hstage := hi.stage (hback hT)
      rw [hs] at hstage
      have hth : th.thrown = false :=
        Bool.eq_false_iff.mpr fun hth => hT (Or.inr (Or.inr (Or.inl hth)))
      obtain rfl : f = none := by
        simpa [Action.quiet] using (Pipeline.quiet_of_not_threw h hT).1
      rw [hi.slot.shouldAbort (hback hT)] at hmove
      exact StageCalm.move hmove (hmove.transform_ok hth) hstage
  · have hstageFlow := hi.stageFlow
    rw [he] at hstageFlow
    refine ⟨hslot, hi.arrived, hi.carried, hi.received, hstageFlow, fun hT => hi.count (hback hT),
      fun hT => (hT (Or.inr (Or.inr (Or.inl rfl)))).elim, fun _ hth => ?_⟩
    cases hth
  · have hstageFlow := hi.stageFlow
    rw [he] at hstageFlow
    exact ⟨hslot, hi.arrived, hi.carried, hi.received, hstageFlow, fun hT => hi.count (hback hT),
      fun hT => (hT (Or.inl (by simp))).elim, fun hT => (hT (Or.inl (by simp))).elim⟩

/-- Nothing is lost as long as the chunk receiver, the decryptor and what they share stay as they
are, up to what the writer pops. -/
theorem Guarded.of_eq (hi : Guarded r st stream s) (hslot : t.Slot)
    (hback : ¬ t.Threw → ¬ s.Threw) (hsource : t.source = s.source)
    (hproducer : t.producer = s.producer) (hupstream : t.upstream = s.upstream)
    (hstage : t.stage = s.stage)
    (hpushed : t.downstream.queue.pushed = s.downstream.queue.pushed)
    (hdone : t.downstream.done = s.downstream.done) : Guarded r st stream t where
  slot := hslot
  arrived := by
    rw [hsource]
    exact hi.arrived
  carried := by
    rw [hproducer]
    exact hi.carried
  received := by
    rw [hupstream]
    exact hi.received
  stageFlow := by
    rw [hupstream, hpushed, hstage]
    exact hi.stageFlow
  count := by
    rw [hupstream, hproducer]
    exact fun hT => hi.count (hback hT)
  stage := by
    rw [hupstream, hdone, hstage]
    exact fun hT => hi.stage (hback hT)
  staged := by
    rw [hstage, hupstream, hpushed]
    exact fun hT => hi.staged (hback hT)

theorem Guarded.step {a : Action} (hi : Guarded r st stream s) (h : step r s a = some t) :
    Guarded r st stream t := by
  have hslot : t.Slot := hi.slot.step (program_sound r) h
  have hback : ¬ t.Threw → ¬ s.Threw := fun hT => (Pipeline.quiet_of_not_threw h hT).2
  cases a with
  | producer f => exact hi.producer h
  | stage f => exact hi.decryptor h
  | consumer f =>
    rcases Pipeline.step_consumer_cases h with ⟨pc, th, v, hs, hrun, rfl⟩ | ⟨e, he, -, rfl⟩ |
      ⟨e, he, -, rfl⟩
    · obtain ⟨hpushed, hdone⟩ := Call.run_input hrun
      exact hi.of_eq hslot hback rfl rfl rfl rfl hpushed hdone
    · exact hi.of_eq hslot hback rfl rfl rfl rfl rfl rfl
    · exact hi.of_eq hslot hback rfl rfl rfl rfl rfl rfl
  | tracker f =>
    rcases Pipeline.step_tracker_cases h with ⟨pc, th, hs, hmove, rfl⟩ | ⟨e, he, -, rfl⟩ |
      ⟨e, he, -, rfl⟩
    · exact hi.of_eq hslot hback rfl rfl rfl rfl rfl rfl
    · exact hi.of_eq hslot hback rfl rfl rfl rfl rfl rfl
    · exact hi.of_eq hslot hback rfl rfl rfl rfl rfl rfl
  | main =>
    obtain ⟨-, -, ⟨e, -, rfl⟩ | ⟨-, rfl⟩⟩ := Pipeline.step_main_cases h
    · exact hi.of_eq hslot hback rfl rfl rfl rfl rfl rfl
    · exact hi.of_eq hslot hback rfl rfl rfl rfl rfl rfl

theorem Guarded.of_reach {socket : Incoming} {start : FileSystem}
    (h : Reach (Receiver.step r) any (Receiver.initial capacity r socket start st) s) :
    Guarded r st socket.stream s :=
  h.invariant (fun _ _ _ hi _ hs => hi.step hs) (Guarded.initial r socket start st)

/-- What has been decrypted holds the next messages of the stream. -/
theorem Guarded.pushed_eq {ms : List (Bytes × UInt8)} (hforged : ss.Unforged st ms stream)
    (hi : Guarded r st stream s) : s.downstream.queue.pushed.length ≤ ms.length ∧
      s.downstream.queue.pushed.map Chunk.data =
        (ms.take s.downstream.queue.pushed.length).map Prod.fst := by
  obtain ⟨pre, m, rest, hpre, hall⟩ := hi.stageFlow.exists_isPrefix
  have hes : ∀ e ∈ pre, e.data <:+: stream := fun e he =>
    hi.received e (List.mem_append_left _ (hpre.subset he))
  obtain ⟨hle, hmap⟩ := EncryptionManager.transformAll_decryptChunk_unforged hforged hes
    (Nat.zero_le _) hall
  rw [List.length_append] at hle hmap
  refine ⟨by omega, ?_⟩
  have htake := congrArg (List.take s.downstream.queue.pushed.length) hmap
  rw [List.drop_zero, List.map_append, List.take_left' (List.length_map _), ← List.map_take,
    List.take_take, Nat.min_eq_left (Nat.le_add_right _ _)] at htake
  exact htake

/-- Once the chunk receiver and the decryptor have returned without a failure, all frames have been
decrypted. -/
theorem Guarded.length_pushed (hi : Guarded r st stream s) (hproducer : s.producer = .returned)
    (hstage : s.stage = .returned) (hT : ¬ s.Threw) :
    s.downstream.queue.pushed.length = r.numChunks.toNat := by
  have hcount := hi.count hT
  rw [hproducer] at hcount
  have hcalm := hi.stage hT
  rw [hstage] at hcalm
  obtain ⟨m, hall⟩ := hi.staged hT hstage
  -- the stage has popped all the frames, and has decrypted what it popped
  have hpopped : s.upstream.queue.popped = s.upstream.queue.pushed := by
    rw [BoundedThreadSafeQueue.pushed, hcalm.2.1, List.append_nil]
  have hall' := length_transformAll hall
  rw [hpopped, hcount.1] at hall'
  exact hall'

/-- What holds of an attacked receiver.  On every stream in which nobody has forged a ciphertext, in
every state of every run, the decrypted chunks hold the first of the sender's payloads, in order;
and once `receive_chunks` and `decrypt_chunks` have returned and no worker has thrown, they hold all
of them. -/
theorem authentic {cs : List Chunk} (hlen : cs.length = r.numChunks.toNat) {socket : Incoming}
    {start : FileSystem}
    (hforged : ss.Unforged st
      (cs.map fun c => (c.data, EncryptionManager.tagOf r.numChunks.toUInt64 c)) socket.stream)
    (h : Reach (step r) any (initial capacity r socket start st) s) :
    s.downstream.queue.pushed.map Chunk.data <+: cs.map Chunk.data ∧
      (s.producer = .returned → s.stage = .returned → ¬ s.Threw →
        s.downstream.queue.pushed.map Chunk.data = cs.map Chunk.data) := by
  have hi := Guarded.of_reach h
  obtain ⟨hle, hmap⟩ := hi.pushed_eq hforged
  rw [← List.map_take, List.map_map] at hmap
  change _ = (cs.take _).map Chunk.data at hmap
  refine ⟨hmap ▸ (List.take_prefix _ _).map _, fun hproducer hstage hT => ?_⟩
  have hlength := hi.length_pushed hproducer hstage hT
  rw [hmap, List.take_of_length_le (by omega)]

/-- A request for a file of three bytes, in two chunks. -/
def splitRequest : TransferRequest := ⟨1, 3, 2, 1, 2, [⟨[97], 3⟩]⟩

/-- The frames of its two chunks, with another original size in the header of the first one. -/
def alteredFrames : Bytes :=
  [1, 0, 0, 0, 0, 0, 0, 0, 1, 9, 0, 19, 0, 0, 7, 8, 0, 2] ++ List.replicate 14 0 ++
    [2, 0, 0, 0, 0, 0, 0, 0, 1, 1, 0, 18, 0, 3, 9, 1, 1] ++ List.replicate 14 0

/-- A stream whose receiver is at its first message. -/
def measuredStream : SecretStream.measured.State := (0 : UInt8)

theorem authentic_alteredFrames : ∃ s : State queueCapacity SecretStream.measured,
    Reach (step splitRequest) any
      (initial queueCapacity splitRequest ⟨alteredFrames, true⟩ ⟨fun _ => none, []⟩
        measuredStream) s ∧
    s.downstream.queue.pushed.map Chunk.data = [[7, 8], [9]] := by
  have hforged : SecretStream.measured.Unforged measuredStream [([7, 8], 0), ([9], tagFinal)]
      alteredFrames := SecretStream.unforged_of_forall (by decide +kernel)
  have hrun : (exec (step splitRequest)
      (initial queueCapacity splitRequest ⟨alteredFrames, true⟩ ⟨fun _ => none, []⟩
        measuredStream)
      (List.replicate 7 (.producer none) ++ List.replicate 13 (.stage none))).map
      (fun s => decide (s.producer = .returned ∧ s.stage.isReturned = true ∧ s.ctx.handled = [] ∧
        s.consumer = .running .firstPop ∧ s.tracker.thrown = false)) = some true := by
    decide +kernel
  obtain ⟨s, hs, htest⟩ := reach_of_exec_test _ (fun _ _ _ => trivial) hrun
  obtain ⟨hproducer, hstage, hhandled, hconsumer, htracker⟩ := of_decide_eq_true htest
  have hreturned : s.stage = .returned := by
    cases hst : s.stage <;> first | rfl | (rw [hst] at hstage; cases hstage)
  have hlen : [(⟨1, false, 2, [7, 8]⟩ : Chunk), ⟨2, false, 1, [9]⟩].length =
      splitRequest.numChunks.toNat := rfl
  refine ⟨s, hs, (authentic hlen hforged hs).2 hproducer hreturned ?_⟩
  simpa [Pipeline.Threw, hhandled, hproducer, hreturned, hconsumer, Thread.thrown] using htracker

end Receiver

end Trit
