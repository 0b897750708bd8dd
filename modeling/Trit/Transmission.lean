import Trit.Solo
import Trit.QuietSender
import Trit.QuietReceiver

/-!
# What is sent is received

`send_chunks` and `receive_chunks`, each on its own, with the bytes of the one handed to the other.

* `Feeding`, `Sending`: a list of chunks passes through the queue of the transmitter;
* `Sending.world_eq`, `Sending.canReach`: it ends, and then the socket holds their frames;
* `Receiving`: a receiver whose stream goes on behind the last frame;
* `framing_round_trip`: the chunks arrive as they were sent, and nothing behind them is read.
-/

namespace Trit

open Transition

namespace TransferManager

/-! ### The transmitter -/

section Sending

variable {capacity : ℕ} {cs : List Chunk} {s t : Solo capacity Bytes SendPc}

/-- Nothing fails, and the chunks of the list arrive in their order, and after them the end. -/
def Feeding (cs : List Chunk) (s : Solo capacity Bytes SendPc) : Solo.Event → Prop
  | .step f => f = none
  | .arrive c => s.view.input.done = false ∧ s.view.input.queue.pushed ++ [c] <+: cs
  | .finish => s.view.input.queue.pushed = cs
  | .take => False

/-- What holds while the list is sent. -/
structure Sending (cs : List Chunk) (s : Solo capacity Bytes SendPc) : Prop where
  ctx : s.ctx = .new
  pushed : s.view.input.queue.pushed <+: cs
  all : s.view.input.done = true → s.view.input.queue.pushed = cs
  flow : SendFlow s.view.input.queue.popped s.view.world s.view.counter s.thread
  calm : SendCalm s.view.input.done s.view.input.queue.queue s.thread
  flushed : s.thread = .returned →
    Flushed s.view.input.queue.popped s.view.world s.view.counter

theorem Sending.start (cs : List Chunk) :
    Sending cs (Solo.start capacity .abortCheck []) where
  ctx := rfl
  pushed := List.nil_prefix
  all := fun h => by cases h
  flow := ⟨rfl, rfl⟩
  calm := trivial
  flushed := fun h => by cases h

theorem Sending.step {a : Solo.Event} (hi : Sending cs s) (ha : Feeding cs s a)
    (h : s.step sendChunks a = some t) : Sending cs t := by
  cases a with
  | step f =>
    obtain rfl : f = none := ha
    obtain ⟨pc, th, v, hpc, hrun, rfl⟩ := Solo.step_running hi.calm.thrown h
    obtain ⟨hpushed, hdone⟩ := Call.run_input hrun
    obtain ⟨hctx, hprefix, hall, hflow, hcalm, -⟩ := hi
    rw [hctx] at hrun
    rw [hpc] at hflow hcalm
    have hmove := sendMove_of_run hrun
    refine ⟨hctx, ?_, ?_, hflow.move hmove, hcalm.move hmove,
      fun hreturned => hflow.of_returned hmove hreturned⟩
    · show v.input.queue.pushed <+: cs
      rw [hpushed]
      exact hprefix
    · show v.input.done = true → v.input.queue.pushed = cs
      rw [hpushed, hdone]
      exact hall
  | arrive c =>
    obtain ⟨hdone, hprefix⟩ := ha
    obtain ⟨q, hq, rfl⟩ := Option.map_eq_some_iff.mp h
    have hpopped : q.popped = s.view.input.queue.popped :=
      (BoundedThreadSafeQueue.push_eq_some.mp hq).2.1
    refine ⟨hi.ctx, ?_, ?_, ?_, ?_, ?_⟩
    · show q.pushed <+: cs
      rw [BoundedThreadSafeQueue.pushed_push hq]
      exact hprefix
    · intro hdone'
      cases hdone.symm.trans hdone'
    · show SendFlow q.popped s.view.world s.view.counter s.thread
      rw [hpopped]
      exact hi.flow
    · have hcalm := hi.calm
      rw [hdone] at hcalm
      exact hcalm.of_not_done
    · show s.thread = .returned → Flushed q.popped s.view.world s.view.counter
      rw [hpopped]
      exact hi.flushed
  | finish =>
    cases h
    refine ⟨hi.ctx, hi.pushed, fun _ => ha, hi.flow, ?_, hi.flushed⟩
    have hcalm := hi.calm
    cases hdone : s.view.input.done with
    | false =>
      rw [hdone] at hcalm
      exact hcalm.of_not_done
    | true =>
      rw [hdone] at hcalm
      exact hcalm
  | take => exact ha.elim

/-- A transmitter that has returned has written the frames of the whole list. -/
theorem Sending.world_eq (hi : Sending cs s) (hs : s.thread = .returned) :
    s.view.world = frames cs := by
  have hcalm := hi.calm
  rw [hs] at hcalm
  obtain ⟨hdone, hempty⟩ := hcalm
  have hall := hi.all hdone
  rw [BoundedThreadSafeQueue.pushed, hempty, List.append_nil] at hall
  rw [(hi.flushed hs).1, hall]

/-- The work left: a chunk that is still to arrive costs 21. -/
def feedingWork (cs : List Chunk) (s : Solo capacity Bytes SendPc) : ℕ :=
  21 * (cs.length - s.view.input.queue.pushed.length) +
    (if s.view.input.done = true then 0 else 1) + sendWork s.view s.thread

theorem Sending.feed (hcap : 0 < capacity) (hi : Sending cs s)
    (hempty : s.view.input.queue.queue = []) (hdone : s.view.input.done = false) :
    ∃ a t, Feeding cs s a ∧ s.step sendChunks a = some t ∧ Sending cs t ∧
      feedingWork cs t < feedingWork cs s := by
  rcases Solo.arrive_or_finish sendChunks hcap hempty hi.pushed with
    hall | ⟨c, q, hmore, hqueue, hlen, hstep⟩
  · have hfeed : Feeding cs s .finish := hall
    refine ⟨.finish, _, hfeed, rfl, hi.step hfeed rfl, ?_⟩
    simp [feedingWork, hdone, sendWork]
  · have hfeed : Feeding cs s (.arrive c) := ⟨hdone, hmore⟩
    refine ⟨.arrive c, _, hfeed, hstep, hi.step hfeed hstep, ?_⟩
    have hcs := hmore.length_le
    have hrank : sendRank q.empty s.thread ≤ sendRank s.view.input.queue.empty s.thread +
        4 * (q.queue.length - s.view.input.queue.queue.length) :=
      sendRank_le (by rw [hempty]; exact List.nil_prefix) s.thread
    simp only [hqueue, hempty, List.length_append, List.length_singleton, List.length_nil]
      at hcs hrank
    simp only [feedingWork, sendWork, hdone, hqueue, hempty, hlen, List.length_singleton,
      List.length_nil]
    omega

/-- From everywhere the list can be sent to its end. -/
theorem Sending.canReach (hcap : 0 < capacity) (hi : Sending cs s) :
    CanReach (Solo.step sendChunks) (Feeding cs) (fun t => t.thread = .returned) s := by
  refine CanReach.of_measure (feedingWork cs) (I := Sending cs) (fun u hu hnot => ?_) hi
  rcases Thread.cases_of_not_thrown hu.calm.thrown with ⟨pc, hpc⟩ | hreturned
  · by_cases hidle : u.view.input.queue.queue = [] ∧ u.view.input.done = false
    · exact hu.feed hcap hidle.1 hidle.2
    · obtain ⟨th, v, hrun, hlt⟩ := sendChunks_progress u.view pc
        fun hempty hdone => absurd ⟨hempty, hdone⟩ hidle
      obtain ⟨hpushed, hdone⟩ := Call.run_input hrun
      have hstep : u.step sendChunks (.step none) = some ⟨th, u.ctx, v⟩ :=
        Solo.step_of_run hpc (by rw [hu.ctx]; exact hrun)
      have hquiet : Feeding cs u (.step none) := rfl
      refine ⟨.step none, _, hquiet, hstep, hu.step hquiet hstep, ?_⟩
      unfold feedingWork
      dsimp only
      rw [hpushed, hdone, hpc]
      omega
  · exact absurd hreturned hnot

theorem Sending.of_reach (h : Reach (Solo.step sendChunks) (Feeding cs)
    (Solo.start capacity .abortCheck []) s) : Sending cs s :=
  h.invariant (fun _ _ _ hi ha hstep => hi.step ha hstep) (Sending.start cs)

end Sending

/-! ### The receiver -/

section Receiving

variable {capacity : ℕ} {cs : List Chunk} {n : UInt32} {rest : Bytes}
  {s t : Solo capacity Incoming ReceivePc}

/-- The view of a receiver whose stream goes on behind what it has to read. -/
def followed (v : View capacity Incoming) (rest : Bytes) : View capacity Incoming :=
  { v with world := ⟨v.world.stream ++ rest, v.world.closed⟩ }

/-- What follows the frames changes nothing. -/
theorem run_followed {v v' : View capacity Incoming} {pc : ReceivePc} {th : Thread ReceivePc}
    (h : (receiveChunks n pc).run false none v = some (th, v')) (hth : th.thrown = false)
    (rest : Bytes) :
    (receiveChunks n pc).run false none (followed v rest) = some (th, followed v' rest) := by
  cases pc with
  | loop i =>
    by_cases hi : i < n.toNat
    · simp only [Call.run, receiveChunks, if_pos hi, Call.exec, Option.some.injEq,
        Prod.mk.injEq] at h ⊢
      obtain ⟨rfl, rfl⟩ := h
      exact ⟨rfl, rfl⟩
    · simp only [Call.run, receiveChunks, if_neg hi, Call.exec, Option.some.injEq,
        Prod.mk.injEq] at h ⊢
      obtain ⟨rfl, rfl⟩ := h
      exact ⟨rfl, rfl⟩
  | read i =>
    cases receiveMove_of_run h with
    | received j c w hpc hr =>
      obtain rfl := ReceivePc.read.inj hpc
      obtain ⟨hclosed, hmore⟩ := Framed.receiveChunk.ok hr
      have hread : (receiveChunk ⟨v.world.stream ++ rest, v.world.closed⟩).run =
          some (.ok (c, ⟨w.stream ++ rest, v.world.closed⟩)) := hmore rest
      simp [Call.run, receiveChunks, Call.exec, followed, hread, hclosed]
    | threw => cases hth
    | fault => cases hth
    | abort _ hpc | goOn _ hpc | finished _ hpc | pushed _ _ _ hpc => cases hpc
  | push c i =>
    obtain ⟨q, hq, heq⟩ := Option.map_eq_some_iff.mp h
    obtain ⟨rfl, rfl⟩ := Prod.mk.inj heq
    simp [Call.run, receiveChunks, Call.exec, followed, hq]

/-- What holds while the list is received; `rest` follows its frames. -/
structure Receiving (cs : List Chunk) (rest : Bytes) (s : Solo capacity Incoming ReceivePc) :
    Prop where
  ctx : s.ctx = .new
  flow : ∃ v, s.view = followed v rest ∧
    ReceiveFlow cs [] v.output.queue.pushed v.world.stream v.output.done s.thread

theorem Receiving.start (cs : List Chunk) (rest : Bytes) (closed : Bool) :
    Receiving cs rest (Solo.start capacity (.loop 0) ⟨frames cs ++ rest, closed⟩) where
  ctx := rfl
  flow := ⟨⟨.new capacity, .new capacity, 0, ⟨frames cs, closed⟩⟩, rfl, Nat.zero_le _, rfl,
    by simp, rfl⟩

/-- The work left: for the receiver, and for those that take its chunks. -/
def receivingWork (n : UInt32) (s : Solo capacity Incoming ReceivePc) : ℕ :=
  receiveRank n s.thread + 45 * s.view.output.queue.queue.length

theorem Receiving.thrown (hi : Receiving cs rest s) : s.thread.thrown = false := by
  obtain ⟨v, -, hflow⟩ := hi.flow
  exact hflow.thrown

theorem Receiving.step {a : Solo.Event} (hn : cs.length = n.toNat) (hcs : ∀ c ∈ cs, Wf c)
    (hi : Receiving cs rest s) (ha : Solo.Undisturbed a)
    (h : s.step (receiveChunks n) a = some t) :
    Receiving cs rest t ∧ receivingWork n t < receivingWork n s := by
  obtain ⟨hctx, v, hview, hflow⟩ := hi
  cases a with
  | step f =>
    obtain rfl : f = none := ha
    obtain ⟨pc, th, w, hpc, hrun, rfl⟩ := Solo.step_running hflow.thrown h
    rw [hctx, hview] at hrun
    rw [hpc] at hflow
    have hroom : ∀ c i, pc = .push c i → v.output.queue.queue.length < capacity := by
      rintro c i rfl
      obtain ⟨q, hq, -⟩ := Option.map_eq_some_iff.mp hrun
      exact (BoundedThreadSafeQueue.push_eq_some.mp hq).1
    -- without the rest the receiver takes the same step
    obtain ⟨th', w', hrun', hlt⟩ := receiveChunks_progress hn hcs hflow hroom
    obtain ⟨hflow', -⟩ := ReceiveFlow.move (receiveMove_of_run hrun') hn hcs (Or.inr rfl) hflow
    have hsame := (run_followed hrun' hflow'.thrown rest).symm.trans hrun
    obtain ⟨rfl, rfl⟩ := Prod.mk.inj (Option.some.inj hsame)
    refine ⟨⟨hctx, w', rfl, hflow'⟩, ?_⟩
    unfold receivingWork
    rw [hpc, hview]
    exact hlt
  | take =>
    obtain ⟨c, q, -, hpushed, hlen, rfl⟩ := Solo.take_cases h
    rw [hview] at hpushed
    refine ⟨⟨hctx, { v with output := { v.output with queue := q } }, ?_, ?_⟩, ?_⟩
    · rw [hview]
      rfl
    · show ReceiveFlow cs [] q.pushed v.world.stream v.output.done s.thread
      rw [hpushed]
      exact hflow
    · show receiveRank n s.thread + 45 * q.queue.length < _
      unfold receivingWork
      omega
  | arrive c => exact ha.elim
  | finish => exact ha.elim

/-- A receiver that has not returned goes on, once there is room for its chunk. -/
theorem Receiving.progress (hcap : 0 < capacity) (hn : cs.length = n.toNat)
    (hcs : ∀ c ∈ cs, Wf c) (hi : Receiving cs rest s) (hs : s.thread ≠ .returned) :
    ∃ a t, Solo.Undisturbed a ∧ s.step (receiveChunks n) a = some t := by
  rcases Solo.room_or_take (receiveChunks n) hcap s with hroom | ⟨t, ht⟩
  · obtain ⟨hctx, v, hview, hflow⟩ := hi
    rcases Thread.cases_of_not_thrown hflow.thrown with ⟨pc, hpc⟩ | hreturned
    · rw [hpc] at hflow
      rw [hview] at hroom
      obtain ⟨th, w, hrun, -⟩ := receiveChunks_progress hn hcs hflow fun _ _ _ => hroom
      obtain ⟨hflow', -⟩ := ReceiveFlow.move (receiveMove_of_run hrun) hn hcs (Or.inr rfl) hflow
      have hstep : s.step (receiveChunks n) (.step none) =
          some ⟨th, s.ctx, followed w rest⟩ := by
        refine Solo.step_of_run hpc ?_
        rw [hctx, hview]
        exact run_followed hrun hflow'.thrown rest
      exact ⟨.step none, _, rfl, hstep⟩
    · exact absurd hreturned hs
  · exact ⟨.take, t, trivial, ht⟩

/-- A receiver at its end has pushed the list, and has left what follows it. -/
theorem Receiving.finished (hi : Receiving cs rest s)
    (hs : s.thread = .returned ∨ s.view.output.done = true) :
    s.view.output.queue.pushed = cs ∧ s.view.output.done = true ∧ s.view.world.stream = rest := by
  obtain ⟨-, v, hview, hflow⟩ := hi
  have hreturned : s.thread = .returned := by
    rcases hs with hs | hdone
    · exact hs
    · rw [hview] at hdone
      exact hflow.returned_of_done hdone
  rw [hreturned] at hflow
  obtain ⟨hpushed, hstream, hdone⟩ := hflow
  rw [List.append_nil] at hstream
  rw [hview]
  refine ⟨hpushed, hdone, ?_⟩
  show v.world.stream ++ rest = rest
  rw [hstream, List.nil_append]

end Receiving

/-! ### Both ends -/

/-- A chunk that one of the two constructors makes of at most 65535 bytes. -/
inductive Built : Chunk → Prop
  | plain (sequenceNum : UInt64) (data : Bytes) (h : data.length ≤ uint16Max) :
      Built (.plain sequenceNum data)
  | packed (sequenceNum : UInt64) (data : Bytes) (originalSize : UInt16)
      (h : data.length ≤ uint16Max) : Built (.packed sequenceNum data originalSize)

theorem Built.wf {c : Chunk} (hc : Built c) : Wf c := by
  cases hc with
  | plain sequenceNum data h => exact ⟨h, fun _ => rfl⟩
  | packed sequenceNum data originalSize h => exact ⟨h, fun hflag => by cases hflag⟩

/-- Chunk framing is a round trip.  A list of chunks, of whichever constructor, can be sent, and
whoever receives as many chunks from the bytes that `send_chunks` has written, whatever follows
them, comes to his end with exactly these chunks, has then marked his output as done, and has left
exactly what follows. -/
theorem framing_round_trip {capacity : ℕ} {cs : List Chunk} {n : UInt32} (hcap : 0 < capacity)
    (hcs : ∀ c ∈ cs, Built c) (hn : cs.length = n.toNat)
    {s : Solo capacity Bytes SendPc} (hs : Reach (Solo.step sendChunks) (Feeding cs)
      (Solo.start capacity .abortCheck []) s) :
    CanReach (Solo.step sendChunks) (Feeding cs) (fun t => t.thread = .returned) s ∧
    (s.thread = .returned → ∀ rest closed, ∃ bound,
      ∀ as (t : Solo capacity Incoming ReceivePc), (∀ a ∈ as, Solo.Undisturbed a) →
      exec (Solo.step (receiveChunks n))
        (Solo.start capacity (.loop 0) ⟨s.view.world ++ rest, closed⟩) as = some t →
      as.length ≤ bound ∧ t.thread.thrown = false ∧
      (t.thread ≠ .returned →
        ∃ a u, Solo.Undisturbed a ∧ t.step (receiveChunks n) a = some u) ∧
      (t.thread = .returned ∨ t.view.output.done = true →
        t.view.output.queue.pushed = cs ∧ t.view.output.done = true ∧
          t.view.world.stream = rest)) := by
  have hsend := Sending.of_reach hs
  have hwf : ∀ c ∈ cs, Wf c := fun c hc => (hcs c hc).wf
  refine ⟨hsend.canReach hcap, fun hreturned rest closed => ?_⟩
  rw [hsend.world_eq hreturned]
  refine ⟨receivingWork n (Solo.start capacity (.loop 0) ⟨frames cs ++ rest, closed⟩),
    fun as t has hrun => ?_⟩
  obtain ⟨hi, hle⟩ := length_add_le_of_exec (receivingWork n)
    (fun u a v hu ha hstep => hu.step hn hwf ha hstep) (Receiving.start cs rest closed) has hrun
  exact ⟨(Nat.le_add_right _ _).trans hle, hi.thrown, fun ht => hi.progress hcap hn hwf ht,
    fun ht => hi.finished ht⟩

/-- Two chunks, one of each constructor, with a byte behind them. -/
theorem framing_round_trip_mixed : ∃ s : Solo 1 Bytes SendPc,
    Reach (Solo.step sendChunks) (Feeding [.plain 1 [7], .packed 2 [] 5])
      (Solo.start 1 .abortCheck []) s ∧ s.thread = .returned ∧
    ∀ as (t : Solo 1 Incoming ReceivePc), (∀ a ∈ as, Solo.Undisturbed a) →
      exec (Solo.step (receiveChunks 2))
        (Solo.start 1 (.loop 0) ⟨s.view.world ++ [9], true⟩) as = some t →
      t.thread = .returned →
      t.view.output.queue.pushed = [.plain 1 [7], .packed 2 [] 5] ∧ t.view.world.stream = [9] := by
  have hbuilt : ∀ c ∈ [Chunk.plain 1 [7], Chunk.packed 2 [] 5], Built c := by
    intro c hc
    simp only [List.mem_cons, List.not_mem_nil, or_false] at hc
    rcases hc with rfl | rfl
    · exact .plain 1 [7] (by decide)
    · exact .packed 2 [] 5 (by decide)
  have hlen : [Chunk.plain 1 [7], Chunk.packed 2 [] 5].length = (2 : UInt32).toNat := rfl
  have hstart : Reach (Solo.step sendChunks) (Feeding [.plain 1 [7], .packed 2 [] 5])
      (Solo.start 1 .abortCheck []) (Solo.start 1 .abortCheck []) := .refl
  obtain ⟨s, hs, hreturned⟩ := (framing_round_trip Nat.one_pos hbuilt hlen hstart).1
  obtain ⟨bound, hreceive⟩ := (framing_round_trip Nat.one_pos hbuilt hlen hs).2 hreturned [9] true
  refine ⟨s, hs, hreturned, fun as t has hrun ht => ?_⟩
  obtain ⟨-, -, -, hend⟩ := hreceive as t has hrun
  obtain ⟨hpushed, -, hstream⟩ := hend (Or.inl ht)
  exact ⟨hpushed, hstream⟩

end TransferManager

end Trit
