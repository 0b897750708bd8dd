import Trit.MonitoredQueue
import Trit.Lib.Stuttering

/-!
# Workers at monitored queues

A worker thread whose queues are monitors.  What it does between two places at which it can be left
waiting is one section: all of an operation, or the part of it that ends in a `wait`.

* `MonitoredView`: what a worker sees of the shared state;
* `Call.enter`, `Thread.enter`: one section of a worker, of its thread;
* `Call.Waits`, `Thread.Waits`: a thread is inside no other operation than its next one;
* `Thread.enter_sound`: a section is a step of the thread on the queues as lists, or changes nothing
  where there is no such step;
* `Thread.enter_complete`: each such step is one section.
-/

namespace Trit

open Transition

/-- What a worker sees of the shared state. -/
structure MonitoredView (capacity : ℕ) (ω : Type) where
  input : MonitoredQueue capacity
  inputDone : Bool
  output : MonitoredQueue capacity
  outputDone : Bool
  counter : UInt32
  world : ω

section Workers

variable {capacity : ℕ} {ω π : Type}

/-- The queues as lists. -/
def MonitoredView.toView (v : MonitoredView capacity ω) : View capacity ω :=
  ⟨⟨v.input.queue, v.inputDone⟩, ⟨v.output.queue, v.outputDone⟩, v.counter, v.world⟩

/-- Everything but the queues. -/
def MonitoredView.update (v : MonitoredView capacity ω) (w : View capacity ω) :
    MonitoredView capacity ω :=
  { v with
    inputDone := w.input.done
    outputDone := w.output.done
    counter := w.counter
    world := w.world }

/-- One section of a worker: the thread goes on, or is left inside a `wait`. -/
def Call.enter (abort : Bool) (f : Option Fault) (wake : Option End)
    (v : MonitoredView capacity ω) :
    Call ω π → Option (Option (Thread π) × MonitoredView capacity ω)
  | .push c k =>
      if f.isSome then none
      else (v.output.enter .pusher (.push c) wake).map fun q =>
        (if (q.pending .pusher).isNone then some k else none, { v with output := q })
  | .pop k =>
      if f.isSome then none
      else (v.input.enter .popper .pop wake).map fun q =>
        (if (q.pending .popper).isNone then v.input.front.map k else none, { v with input := q })
  | .tryPop k =>
      if f.isSome then none
      else (v.input.enter .popper .tryPop wake).map fun q =>
        (some (k v.input.front), { v with input := q })
  | c => (c.run abort f v.toView).map fun r => (some r.1, v.update r.2)

/-- The operation inside which a worker can be left at an end of a queue. -/
def Call.inside : Call ω π → End → Option (Operation Chunk Chunk)
  | .push c _, .pusher => some (.push c)
  | .pop _, .popper => some .pop
  | _, _ => none

/-- A worker is inside no other operation than the one it is about to carry out. -/
structure Call.Waits (c : Call ω π) (v : MonitoredView capacity ω) : Prop where
  pusher : ∀ op, v.output.pending .pusher = some op → c.inside .pusher = some op
  popper : ∀ op, v.input.pending .popper = some op → c.inside .popper = some op

/-- A thread that is about to carry out no operation there is in none. -/
theorem pending_eq_none {o o' : Option (Operation Chunk Chunk)}
    (h : ∀ op, o = some op → o' = some op) (ho' : o' = none) : o = none := by
  cases ho : o with
  | none => rfl
  | some op => cases ho'.symm.trans (h op ho)

/-- Does the call work on the elements of a queue? -/
def Call.isQueueOp : Call ω π → Bool
  | .push _ _ | .pop _ | .tryPop _ => true
  | _ => false

theorem Call.run_queue_eq {abort : Bool} {f : Option Fault} {v v' : View capacity ω}
    {c : Call ω π} {t : Thread π} (hc : c.isQueueOp = false)
    (h : c.run abort f v = some (t, v')) :
    v'.input.queue = v.input.queue ∧ v'.output.queue = v.output.queue := by
  cases f with
  | some x =>
    cases c <;> simp only [Call.run, Call.fail, Option.some.injEq, Prod.mk.injEq,
      reduceCtorEq] at h
    obtain ⟨-, rfl⟩ := h
    exact ⟨rfl, rfl⟩
  | none =>
    cases c with
    | push | pop | tryPop => cases hc
    | io run broken =>
      obtain ⟨r, -, heq⟩ := Option.map_eq_some_iff.mp h
      obtain ⟨-, rfl⟩ := Prod.mk.inj heq
      exact ⟨rfl, rfl⟩
    | _ =>
      obtain ⟨-, rfl⟩ := Prod.mk.inj (Option.some.inj h)
      exact ⟨rfl, rfl⟩

theorem MonitoredView.toView_update {v : MonitoredView capacity ω} {w : View capacity ω}
    (hinput : w.input.queue = v.input.queue) (houtput : w.output.queue = v.output.queue) :
    (v.update w).toView = w := by
  obtain ⟨⟨inputQueue, inputDone⟩, ⟨outputQueue, outputDone⟩, counter, world⟩ := w
  obtain rfl : inputQueue = v.input.queue := hinput
  obtain rfl : outputQueue = v.output.queue := houtput
  rfl

theorem Call.enter_eq_run {abort : Bool} {f : Option Fault} {wake : Option End}
    {v : MonitoredView capacity ω} {c : Call ω π} (hc : c.isQueueOp = false) :
    c.enter abort f wake v = (c.run abort f v.toView).map fun r => (some r.1, v.update r.2) := by
  cases c with
  | push | pop | tryPop => cases hc
  | _ => rfl

/-- What a section of a worker does. -/
theorem Call.enter_sound {abort : Bool} {f : Option Fault} {wake : Option End}
    {v v' : MonitoredView capacity ω} {c : Call ω π} {t : Option (Thread π)} (hc : c.Waits v)
    (h : c.enter abort f wake v = some (t, v')) :
    ((∃ th, t = some th ∧ c.run abort f v.toView = some (th, v'.toView) ∧
        v'.output.pending .pusher = none ∧ v'.input.pending .popper = none) ∨
      t = none ∧ c.run abort f v.toView = none ∧ v'.toView = v.toView ∧ c.Waits v') ∧
      v'.output.pending .popper = v.output.pending .popper ∧
        v'.input.pending .pusher = v.input.pending .pusher := by
  obtain ⟨hpusher, hpopper⟩ := hc
  cases c with
  | push c k =>
    simp only [Call.enter] at h
    split_ifs at h with hf
    obtain rfl := Option.not_isSome_iff_eq_none.mp hf
    obtain ⟨q, hq, heq⟩ := Option.map_eq_some_iff.mp h
    obtain ⟨rfl, rfl⟩ := Prod.mk.inj heq
    have hpop := pending_eq_none hpopper rfl
    obtain ⟨hcases, hother⟩ := MonitoredQueue.enter_push
      (fun op hop => (Option.some.inj (hpusher op hop)).symm) hq
    refine ⟨?_, hother, rfl⟩
    rcases hcases with ⟨hpush, hnone⟩ | ⟨hpush, hsame, hpending⟩
    · refine Or.inl ⟨k, by rw [hnone]; rfl, ?_, hnone, hpop⟩
      show (v.output.queue.push c).map _ = _
      rw [hpush]
      rfl
    · refine Or.inr ⟨by rw [hpending]; rfl, ?_, ?_, ⟨fun op hop => ?_, hpopper⟩⟩
      · show (v.output.queue.push c).map _ = _
        rw [hpush]
        rfl
      · unfold MonitoredView.toView
        rw [hsame]
      · exact hpending.symm.trans hop
  | pop k =>
    simp only [Call.enter] at h
    split_ifs at h with hf
    obtain rfl := Option.not_isSome_iff_eq_none.mp hf
    obtain ⟨q, hq, heq⟩ := Option.map_eq_some_iff.mp h
    obtain ⟨rfl, rfl⟩ := Prod.mk.inj heq
    have hpush := pending_eq_none hpusher rfl
    obtain ⟨hcases, hother⟩ := MonitoredQueue.enter_pop
      (fun op hop => (Option.some.inj (hpopper op hop)).symm) hq
    refine ⟨?_, rfl, hother⟩
    rcases hcases with ⟨x, hfront, hpop, hnone⟩ | ⟨hpop, hsame, hpending⟩
    · refine Or.inl ⟨k x, by rw [hnone, hfront]; rfl, ?_, hpush, hnone⟩
      show v.input.queue.pop.map _ = _
      rw [hpop]
      rfl
    · refine Or.inr ⟨by rw [hpending]; rfl, ?_, ?_, ⟨hpusher, fun op hop => ?_⟩⟩
      · show v.input.queue.pop.map _ = _
        rw [hpop]
        rfl
      · unfold MonitoredView.toView
        rw [hsame]
      · exact hpending.symm.trans hop
  | tryPop k =>
    simp only [Call.enter] at h
    split_ifs at h with hf
    obtain rfl := Option.not_isSome_iff_eq_none.mp hf
    obtain ⟨q, hq, heq⟩ := Option.map_eq_some_iff.mp h
    obtain ⟨rfl, rfl⟩ := Prod.mk.inj heq
    have hpush := pending_eq_none hpusher rfl
    obtain ⟨hcases, hnone, hother⟩ := MonitoredQueue.enter_tryPop
      (fun op hop => by cases hpopper op hop) hq
    refine ⟨Or.inl ⟨_, rfl, ?_, hpush, hnone⟩, rfl, hother⟩
    rcases hcases with ⟨x, hfront, hpop⟩ | ⟨hfront, hpop, hsame⟩
    · rw [hfront]
      simp only [Call.run, Call.exec, MonitoredView.toView, hpop]
    · rw [hfront]
      simp only [Call.run, Call.exec, MonitoredView.toView, hpop, hsame]
  | _ =>
    have hpush := pending_eq_none hpusher rfl
    have hpop := pending_eq_none hpopper rfl
    obtain ⟨⟨th, w⟩, hrun, heq⟩ := Option.map_eq_some_iff.mp h
    obtain ⟨rfl, rfl⟩ := Prod.mk.inj heq
    obtain ⟨hinput, houtput⟩ := Call.run_queue_eq rfl hrun
    refine ⟨Or.inl ⟨th, rfl, ?_, hpush, hpop⟩, rfl, rfl⟩
    rw [MonitoredView.toView_update hinput houtput]
    exact hrun

/-- An operation that is possible on the queues goes through in one section, unless its thread
sleeps. -/
theorem Call.enter_complete {abort : Bool} {f : Option Fault} {v : MonitoredView capacity ω}
    {w : View capacity ω} {c : Call ω π} {th : Thread π} (hc : c.Waits v)
    (hinput : v.input.Sides) (houtput : v.output.Sides)
    (h : c.run abort f v.toView = some (th, w)) :
    ∃ wake v', c.enter abort f wake v = some (some th, v') ∧ v'.toView = w := by
  have hgo : ∀ {wake t v'}, c.enter abort f wake v = some (t, v') →
      t = some th ∧ v'.toView = w := by
    intro wake t v' henter
    obtain ⟨⟨th', rfl, hrun, -⟩ | ⟨-, hnone, -⟩, -⟩ := Call.enter_sound hc henter
    · obtain ⟨rfl, rfl⟩ := Prod.mk.inj (Option.some.inj (hrun.symm.trans h))
      exact ⟨rfl, rfl⟩
    · cases hnone.symm.trans h
  suffices henter : ∃ wake r, c.enter abort f wake v = some r by
    obtain ⟨wake, ⟨t, v'⟩, henter⟩ := henter
    obtain ⟨rfl, rfl⟩ := hgo henter
    exact ⟨wake, v', henter, rfl⟩
  obtain ⟨hpusher, hpopper⟩ := hc
  cases hop : c.isQueueOp with
  | false => exact ⟨none, _, by rw [Call.enter_eq_run hop, h]; rfl⟩
  | true =>
    cases f with
    | some x =>
      cases c with
      | push | pop | tryPop => cases h
      | _ => cases hop
    | none =>
      cases c with
      | push c k =>
        obtain ⟨q, hq, -⟩ := Option.map_eq_some_iff.mp h
        have hroom : v.output.queue.queue.length < capacity :=
          (BoundedThreadSafeQueue.push_eq_some.mp hq).1
        have hinside : ∀ op, v.output.pending .pusher = some op → op = .push c :=
          fun op hop => (Option.some.inj (hpusher op hop)).symm
        obtain ⟨wake, q', hq'⟩ := MonitoredQueue.exists_enter hinside fun op hop => by
          have hzero := houtput.available_eq_zero hop
          rw [hinside op (by rw [MonitoredQueue.pending, hop]; rfl)] at hzero
          change capacity - v.output.queue.queue.length = 0 at hzero
          omega
        exact ⟨wake, _, by rw [Call.enter, if_neg (by simp), hq']; rfl⟩
      | pop k =>
        obtain ⟨r, hr, -⟩ := Option.map_eq_some_iff.mp h
        have hne : v.input.queue.queue ≠ [] := fun hnil => by
          cases hnil.symm.trans (BoundedThreadSafeQueue.pop_eq_some.mp hr).1
        have hinside : ∀ op, v.input.pending .popper = some op → op = .pop :=
          fun op hop => (Option.some.inj (hpopper op hop)).symm
        obtain ⟨wake, q', hq'⟩ := MonitoredQueue.exists_enter hinside fun op hop => by
          have hzero := hinput.available_eq_zero hop
          rw [hinside op (by rw [MonitoredQueue.pending, hop]; rfl)] at hzero
          exact hne (List.eq_nil_of_length_eq_zero hzero)
        exact ⟨wake, _, by rw [Call.enter, if_neg (by simp), hq']; rfl⟩
      | tryPop k =>
        have hinside : v.input.pending .popper = none := pending_eq_none hpopper rfl
        obtain ⟨wake, q', hq'⟩ := MonitoredQueue.exists_enter (q := v.input) (p := .popper)
          (o := .tryPop) (fun op hop => by cases hinside.symm.trans hop) fun op hop => by
            rw [MonitoredQueue.pending, hop] at hinside
            cases hinside
        exact ⟨wake, _, by rw [Call.enter, if_neg (by simp), hq']; rfl⟩
      | _ => cases hop

/-- One section of a thread. -/
def Thread.enter (worker : π → Call ω π) (f : Option Fault) (wake : Option End)
    (ctx : WorkerContext) (v : MonitoredView capacity ω) :
    Thread π → Option (Thread π × WorkerContext × MonitoredView capacity ω)
  | .running pc => ((worker pc).enter ctx.shouldAbort f wake v).map fun r =>
      (r.1.getD (.running pc), ctx, r.2)
  | t => (t.step worker f ctx v.toView).map fun r => (r.1, r.2.1, v)

/-- The operation inside which a thread can be left at an end of a queue. -/
def Thread.inside (worker : π → Call ω π) : Thread π → End → Option (Operation Chunk Chunk)
  | .running pc, p => (worker pc).inside p
  | _, _ => none

/-- A thread is inside no other operation than the one it is about to carry out. -/
structure Thread.Waits (worker : π → Call ω π) (t : Thread π)
    (input output : MonitoredQueue capacity) : Prop where
  pusher : ∀ op, output.pending .pusher = some op → t.inside worker .pusher = some op
  popper : ∀ op, input.pending .popper = some op → t.inside worker .popper = some op

theorem Thread.Waits.of_none {worker : π → Call ω π} {t : Thread π}
    {input output : MonitoredQueue capacity} (hpusher : output.pending .pusher = none)
    (hpopper : input.pending .popper = none) : t.Waits worker input output :=
  ⟨fun _ h => (by cases hpusher.symm.trans h), fun _ h => (by cases hpopper.symm.trans h)⟩

/-- A section of a thread is a step on the queues, or the thread stays where no step is possible. -/
theorem Thread.enter_sound {worker : π → Call ω π} {f : Option Fault} {wake : Option End}
    {ctx ctx' : WorkerContext} {v v' : MonitoredView capacity ω} {t t' : Thread π}
    (ht : t.Waits worker v.input v.output)
    (h : t.enter worker f wake ctx v = some (t', ctx', v')) :
    Follows (t.step worker f ctx v.toView) (t, ctx, v.toView) (t', ctx', v'.toView) ∧
      t'.Waits worker v'.input v'.output ∧
      v'.output.pending .popper = v.output.pending .popper ∧
        v'.input.pending .pusher = v.input.pending .pusher := by
  cases t with
  | running pc =>
    obtain ⟨⟨o, v₁⟩, henter, heq⟩ := Option.map_eq_some_iff.mp h
    obtain ⟨rfl, rfl, rfl⟩ : o.getD (.running pc) = t' ∧ ctx = ctx' ∧ v₁ = v' := by
      simpa using heq
    obtain ⟨hcases, hframe⟩ := Call.enter_sound ⟨ht.pusher, ht.popper⟩ henter
    rcases hcases with ⟨th, rfl, hrun, hpusher, hpopper⟩ | ⟨rfl, hnone, hsame, hwaits⟩
    · refine ⟨Or.inl ?_, .of_none hpusher hpopper, hframe⟩
      rw [Thread.step, hrun]
      rfl
    · refine ⟨Or.inr ⟨?_, by rw [hsame]; rfl⟩, ⟨hwaits.pusher, hwaits.popper⟩, hframe⟩
      rw [Thread.step, hnone]
      rfl
  | returned => cases h
  | caught e | flagged e =>
    obtain ⟨⟨th, ctx₁, w⟩, hstep, heq⟩ := Option.map_eq_some_iff.mp h
    obtain ⟨rfl, rfl, rfl⟩ : th = t' ∧ ctx₁ = ctx' ∧ v = v' := by simpa using heq
    have hview : w = v.toView := by
      rcases Thread.step_cases hstep with ⟨pc, hpc, -⟩ | ⟨e, -, -, -, -, hw⟩ | ⟨e, -, -, -, -, hw⟩
      · cases hpc
      · exact hw
      · exact hw
    subst hview
    exact ⟨Or.inl hstep, .of_none (pending_eq_none ht.pusher rfl) (pending_eq_none ht.popper rfl),
      rfl, rfl⟩

/-- A step that is possible on the queues is one section. -/
theorem Thread.enter_complete {worker : π → Call ω π} {f : Option Fault}
    {ctx ctx' : WorkerContext} {v : MonitoredView capacity ω} {w : View capacity ω}
    {t t' : Thread π} (ht : t.Waits worker v.input v.output) (hinput : v.input.Sides)
    (houtput : v.output.Sides) (h : t.step worker f ctx v.toView = some (t', ctx', w)) :
    ∃ wake v', t.enter worker f wake ctx v = some (t', ctx', v') ∧ v'.toView = w := by
  cases t with
  | running pc =>
    obtain ⟨⟨th, w₁⟩, hrun, heq⟩ := Option.map_eq_some_iff.mp h
    obtain ⟨rfl, rfl, rfl⟩ : th = t' ∧ ctx = ctx' ∧ w₁ = w := by simpa using heq
    obtain ⟨wake, v', henter, hview⟩ :=
      Call.enter_complete ⟨ht.pusher, ht.popper⟩ hinput houtput hrun
    refine ⟨wake, v', ?_, hview⟩
    rw [Thread.enter, henter]
    rfl
  | returned => cases h
  | caught e | flagged e =>
    refine ⟨none, v, ?_, ?_⟩
    · show (Thread.step worker f ctx v.toView _).map _ = _
      rw [h]
      rfl
    · rcases Thread.step_cases h with ⟨pc, hpc, -⟩ | ⟨e, -, -, -, -, hw⟩ | ⟨e, -, -, -, -, hw⟩
      · cases hpc
      · exact hw.symm
      · exact hw.symm

theorem Call.inside_pusher {c : Call ω π} {op : Operation Chunk Chunk}
    (h : c.inside .pusher = some op) : ∃ x, op = .push x := by
  cases c with
  | push x k => exact ⟨x, (Option.some.inj h).symm⟩
  | _ => cases h

theorem Call.inside_popper {c : Call ω π} {op : Operation Chunk Chunk}
    (h : c.inside .popper = some op) : op = .pop := by
  cases c with
  | pop k => exact (Option.some.inj h).symm
  | _ => cases h

namespace Thread.Waits

variable {worker : π → Call ω π} {t : Thread π} {input output : MonitoredQueue capacity}
  {op : Operation Chunk Chunk}

theorem push (ht : t.Waits worker input output) (h : output.pending .pusher = some op) :
    ∃ x, op = .push x := by
  have hinside := ht.pusher op h
  cases t with
  | running pc => exact Call.inside_pusher hinside
  | _ => cases hinside

theorem pop (ht : t.Waits worker input output) (h : input.pending .popper = some op) :
    op = .pop := by
  have hinside := ht.popper op h
  cases t with
  | running pc => exact Call.inside_popper hinside
  | _ => cases hinside

end Thread.Waits

end Workers

end Trit
