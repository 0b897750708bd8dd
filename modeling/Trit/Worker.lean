import Trit.Chunk
import Mathlib.Tactic.SplitIfs

/-!
# Worker threads over bounded queues

The concurrency primitives of the pipeline: `WorkerContext`, `BoundedThreadSafeQueue`, the done
flags, and the worker threads that `send_files` and `receive_files` start.

A worker is written as a map from its program points to the next operation it performs on the
state it shares with others (`Call`), together with the points where it goes on.  One step of a
thread performs one such operation; what lies between two operations touches only the worker's
own variables.  Files, sockets and the cipher are reached through `Call.io`, the only operation
that may fail for reasons outside the program: a `Fault` says that it does, and with which
exception.

* `BoundedThreadSafeQueue`: FIFO of bounded size; the removed elements are kept as history;
* `WorkerContext`: the abort flag and the exception slot;
* `Thread`, `Call`, `View`: threads, their operations, and what a worker sees of the state;
* `Thread.step`: one step of a worker thread, its `catch (...)` handler included;
* `Call.Ensures`, `Call.map`: what a call can go on with, and the same call with other program
  points.
-/

namespace Trit

/-! ### The bounded queue -/

/-- A bounded queue.  `popped` lists the elements removed so far; it influences nothing. -/
@[ext] structure BoundedThreadSafeQueue (capacity : ℕ) (T : Type) where
  popped : List T
  queue : List T
  size_le : queue.length ≤ capacity

namespace BoundedThreadSafeQueue

variable {capacity : ℕ} {T : Type}

/-- The queue a constructor call yields. -/
def new (capacity : ℕ) (T : Type) : BoundedThreadSafeQueue capacity T := ⟨[], [], Nat.zero_le _⟩

/-- Everything ever pushed, in the order of the pushes. -/
def pushed (q : BoundedThreadSafeQueue capacity T) : List T := q.popped ++ q.queue

/-- `push(elem)`; `none` while the queue is full and the caller waits on `not_full_`. -/
def push (q : BoundedThreadSafeQueue capacity T) (elem : T) :
    Option (BoundedThreadSafeQueue capacity T) :=
  if h : q.queue.length < capacity then
    some ⟨q.popped, q.queue ++ [elem], by simpa using Nat.succ_le_of_lt h⟩
  else none

/-- `pop()`; `none` while the queue is empty and the caller waits on `not_empty_`. -/
def pop : BoundedThreadSafeQueue capacity T → Option (T × BoundedThreadSafeQueue capacity T)
  | ⟨_, [], _⟩ => none
  | ⟨popped, elem :: rest, h⟩ => some (elem, ⟨popped ++ [elem], rest, Nat.le_of_succ_le h⟩)

/-- `empty()`. -/
def empty (q : BoundedThreadSafeQueue capacity T) : Bool := q.queue.isEmpty

@[simp] theorem new_popped : (new capacity T).popped = [] := rfl
@[simp] theorem new_queue : (new capacity T).queue = [] := rfl
@[simp] theorem new_pushed : (new capacity T).pushed = [] := rfl

theorem push_eq_some {q q' : BoundedThreadSafeQueue capacity T} {x : T} :
    q.push x = some q' ↔
      q.queue.length < capacity ∧ q'.popped = q.popped ∧ q'.queue = q.queue ++ [x] := by
  unfold push
  split_ifs with h
  · simp [BoundedThreadSafeQueue.ext_iff, h, eq_comm]
  · simp [h]

theorem exists_push {q : BoundedThreadSafeQueue capacity T} (h : q.queue.length < capacity)
    (x : T) : ∃ q', q.push x = some q' := by
  simp [push, h]

theorem pop_eq_some {q q' : BoundedThreadSafeQueue capacity T} {x : T} :
    q.pop = some (x, q') ↔ q.queue = x :: q'.queue ∧ q'.popped = q.popped ++ [x] := by
  obtain ⟨p, l, h⟩ := q
  cases l with
  | nil => simp [pop]
  | cons y l =>
    simp only [pop, Option.some.injEq, Prod.mk.injEq, BoundedThreadSafeQueue.ext_iff,
      List.cons.injEq]
    constructor
    · rintro ⟨hx, hp, hl⟩
      exact ⟨⟨hx, hl⟩, hx ▸ hp.symm⟩
    · rintro ⟨⟨hx, hl⟩, hp⟩
      exact ⟨hx, hx ▸ hp.symm, hl⟩

theorem length_of_pop {q q' : BoundedThreadSafeQueue capacity T} {x : T}
    (h : q.pop = some (x, q')) : q.queue.length = q'.queue.length + 1 := by
  rw [(pop_eq_some.mp h).1, List.length_cons]

theorem length_lt_capacity_of_pop {q q' : BoundedThreadSafeQueue capacity T} {x : T}
    (h : q.pop = some (x, q')) : q'.queue.length < capacity := by
  have hlen := length_of_pop h
  have hsize := q.size_le
  omega

theorem pop_eq_none {q : BoundedThreadSafeQueue capacity T} : q.pop = none ↔ q.queue = [] := by
  obtain ⟨p, l, h⟩ := q
  cases l <;> simp [pop]

theorem exists_pop {q : BoundedThreadSafeQueue capacity T} (h : q.queue ≠ []) :
    ∃ x q', q.pop = some (x, q') := by
  cases hp : q.pop with
  | none => exact absurd (pop_eq_none.mp hp) h
  | some r => exact ⟨r.1, r.2, rfl⟩

@[simp] theorem empty_iff {q : BoundedThreadSafeQueue capacity T} :
    q.empty = true ↔ q.queue = [] := by
  simp [empty]

theorem pushed_push {q q' : BoundedThreadSafeQueue capacity T} {x : T} (h : q.push x = some q') :
    q'.pushed = q.pushed ++ [x] := by
  obtain ⟨-, hp, hq⟩ := push_eq_some.mp h
  simp [pushed, hp, hq]

/-- A pop moves the head to the history and leaves the pushes alone. -/
theorem pushed_pop {q q' : BoundedThreadSafeQueue capacity T} {x : T}
    (h : q.pop = some (x, q')) : q'.pushed = q.pushed := by
  obtain ⟨hq, hp⟩ := pop_eq_some.mp h
  simp [pushed, hp, hq]

end BoundedThreadSafeQueue

/-- A queue between two workers with its completion flag. -/
structure Channel (capacity : ℕ) where
  queue : BoundedThreadSafeQueue capacity Chunk
  done : Bool

namespace Channel

variable {capacity : ℕ}

/-- The channel at the start of a transfer. -/
def new (capacity : ℕ) : Channel capacity := ⟨.new capacity Chunk, false⟩

end Channel

/-! ### The worker context -/

/-- The shared context.  `handled` lists the exceptions of the `handle_exception` calls in the
order in which they took the mutex; it influences nothing. -/
structure WorkerContext where
  abortFlag : Bool
  exceptionPtr : Option Exception
  handled : List Exception
  deriving DecidableEq

namespace WorkerContext

/-- The context before any thread runs. -/
def new : WorkerContext := ⟨false, none, []⟩

/-- `should_abort()`. -/
def shouldAbort (ctx : WorkerContext) : Bool := ctx.abortFlag

/-- The first statement of `handle_exception()`: `abort_flag_ = true`. -/
def raise (ctx : WorkerContext) : WorkerContext := { ctx with abortFlag := true }

/-- The locked section of `handle_exception()`: the first exception is kept. -/
def store (ctx : WorkerContext) (e : Exception) : WorkerContext :=
  { ctx with exceptionPtr := ctx.exceptionPtr <|> some e, handled := ctx.handled ++ [e] }

@[simp] theorem raise_abortFlag (ctx : WorkerContext) : ctx.raise.abortFlag = true := rfl
@[simp] theorem raise_exceptionPtr (ctx : WorkerContext) :
    ctx.raise.exceptionPtr = ctx.exceptionPtr := rfl
@[simp] theorem raise_handled (ctx : WorkerContext) : ctx.raise.handled = ctx.handled := rfl
@[simp] theorem store_abortFlag (ctx : WorkerContext) (e : Exception) :
    (ctx.store e).abortFlag = ctx.abortFlag := rfl
@[simp] theorem store_handled (ctx : WorkerContext) (e : Exception) :
    (ctx.store e).handled = ctx.handled ++ [e] := rfl

end WorkerContext

/-! ### Threads and their operations -/

/-- A thread that runs `try { worker } catch (...) { ctx.handle_exception(); }`: at a program
point of the worker, in the handler before either of its two statements, or finished. -/
inductive Thread (π : Type)
  | running (pc : π)
  | caught (e : Exception)
  | flagged (e : Exception)
  | returned
  deriving DecidableEq

/-- Has the thread function returned, so that `join()` succeeds? -/
def Thread.isReturned {π : Type} : Thread π → Bool
  | .returned => true
  | _ => false

/-- Is an exception of this thread on its way to the slot? -/
def Thread.thrown {π : Type} : Thread π → Bool
  | .caught _ | .flagged _ => true
  | _ => false

/-- Has this thread set the abort flag, and not yet stored its exception? -/
def Thread.raised {π : Type} : Thread π → Bool
  | .flagged _ => true
  | _ => false

/-- The next operation of a worker on shared state, with the places where it goes on.
`ω` is the part of the outside world the worker reaches. -/
inductive Call (ω π : Type)
  /-- `ctx.should_abort()` -/
  | shouldAbort (k : Bool → Thread π)
  /-- `output_queue.push(c)` -/
  | push (c : Chunk) (k : Thread π)
  /-- `input_queue.pop()` -/
  | pop (k : Chunk → Thread π)
  /-- `input_queue.try_pop()` -/
  | tryPop (k : Option Chunk → Thread π)
  /-- `input_done.load()` -/
  | inputDone (k : Bool → Thread π)
  /-- `input_queue.empty()` -/
  | inputEmpty (k : Bool → Thread π)
  /-- `output_done.store(true)` -/
  | outputDone (k : Thread π)
  /-- the increment of the progress counter -/
  | increment (k : Thread π)
  /-- the load of the progress counter -/
  | load (k : UInt32 → Thread π)
  /-- a call into the outside world: `none` while it blocks; `broken n` is what a call that
  fails after `n` units of progress leaves behind -/
  | io (run : ω → Option (Thread π × ω)) (broken : ℕ → ω → ω)

/-- The outside world makes the next `io` operation fail: the exception that results and how
far the operation got. -/
structure Fault where
  exception : Exception
  progress : ℕ

/-- What a worker sees of the shared state. -/
structure View (capacity : ℕ) (ω : Type) where
  input : Channel capacity
  output : Channel capacity
  counter : UInt32
  world : ω

variable {capacity : ℕ} {ω π : Type}

/-- One operation of a worker; `none` while it blocks. -/
def Call.exec (abort : Bool) (v : View capacity ω) :
    Call ω π → Option (Thread π × View capacity ω)
  | .shouldAbort k => some (k abort, v)
  | .push c k =>
      (v.output.queue.push c).map fun q => (k, { v with output := { v.output with queue := q } })
  | .pop k =>
      v.input.queue.pop.map fun r =>
        (k r.1, { v with input := { v.input with queue := r.2 } })
  | .tryPop k =>
      match v.input.queue.pop with
      | none => some (k none, v)
      | some r => some (k (some r.1), { v with input := { v.input with queue := r.2 } })
  | .inputDone k => some (k v.input.done, v)
  | .inputEmpty k => some (k v.input.queue.empty, v)
  | .outputDone k => some (k, { v with output := { v.output with done := true } })
  | .increment k => some (k, { v with counter := v.counter + 1 })
  | .load k => some (k v.counter, v)
  | .io run _ => (run v.world).map fun r => (r.1, { v with world := r.2 })

/-- An operation that the outside world makes fail. -/
def Call.fail (f : Fault) (v : View capacity ω) :
    Call ω π → Option (Thread π × View capacity ω)
  | .io _ broken => some (.caught f.exception, { v with world := broken f.progress v.world })
  | _ => none

/-- One operation of a worker; `f` says whether the outside world makes it fail. -/
def Call.run (abort : Bool) (f : Option Fault) (v : View capacity ω) (c : Call ω π) :
    Option (Thread π × View capacity ω) :=
  match f with
  | none => c.exec abort v
  | some f => c.fail f v

namespace Call

variable {abort : Bool} {f : Option Fault} {v v' : View capacity ω} {c : Call ω π} {t : Thread π}

/-- A failing operation ends the worker. -/
theorem eq_caught_of_run {x : Fault} (h : c.run abort (some x) v = some (t, v')) :
    t = .caught x.exception := by
  cases c <;> simp only [run, fail, Option.some.injEq, Prod.mk.injEq, reduceCtorEq] at h
  exact h.1.symm

theorem run_fault {x : Fault} (h : c.run abort (some x) v = some (t, v')) : t.thrown = true := by
  rw [eq_caught_of_run h]
  rfl

/-- A worker only pops on its input side and never touches the flag there. -/
theorem run_input (h : c.run abort f v = some (t, v')) :
    v'.input.queue.pushed = v.input.queue.pushed ∧ v'.input.done = v.input.done := by
  cases f with
  | some x =>
    cases c <;> simp only [run, fail, Option.some.injEq, Prod.mk.injEq, reduceCtorEq] at h
    rw [← h.2]
    exact ⟨rfl, rfl⟩
  | none =>
    cases c with
    | pop k =>
      obtain ⟨⟨x, q⟩, hq, heq⟩ := Option.map_eq_some_iff.mp h
      cases heq
      exact ⟨BoundedThreadSafeQueue.pushed_pop hq, rfl⟩
    | tryPop k =>
      simp only [run, exec] at h
      cases hq : v.input.queue.pop with
      | none =>
        rw [hq] at h
        cases h
        exact ⟨rfl, rfl⟩
      | some r =>
        rw [hq] at h
        cases h
        exact ⟨BoundedThreadSafeQueue.pushed_pop (x := r.1) hq, rfl⟩
    | push x k =>
      obtain ⟨q, -, heq⟩ := Option.map_eq_some_iff.mp h
      cases heq
      exact ⟨rfl, rfl⟩
    | io run broken =>
      obtain ⟨r, -, heq⟩ := Option.map_eq_some_iff.mp h
      cases heq
      exact ⟨rfl, rfl⟩
    | _ =>
      cases h
      exact ⟨rfl, rfl⟩

/-- A worker only pushes on its output side and never clears the flag there. -/
theorem run_output (h : c.run abort f v = some (t, v')) :
    v'.output.queue.popped = v.output.queue.popped ∧
      (v.output.done = true → v'.output.done = true) := by
  cases f with
  | some x =>
    cases c <;> simp only [run, fail, Option.some.injEq, Prod.mk.injEq, reduceCtorEq] at h
    rw [← h.2]
    exact ⟨rfl, id⟩
  | none =>
    cases c with
    | pop k =>
      obtain ⟨⟨x, q⟩, -, heq⟩ := Option.map_eq_some_iff.mp h
      cases heq
      exact ⟨rfl, id⟩
    | tryPop k =>
      simp only [run, exec] at h
      split at h <;> cases h <;> exact ⟨rfl, id⟩
    | push x k =>
      obtain ⟨q, hq, heq⟩ := Option.map_eq_some_iff.mp h
      cases heq
      exact ⟨(BoundedThreadSafeQueue.push_eq_some.mp hq).2.1, id⟩
    | outputDone k =>
      cases h
      exact ⟨rfl, fun _ => rfl⟩
    | io run broken =>
      obtain ⟨r, -, heq⟩ := Option.map_eq_some_iff.mp h
      cases heq
      exact ⟨rfl, id⟩
    | _ =>
      cases h
      exact ⟨rfl, id⟩

/-- What waits on the output side of a worker stays there. -/
theorem run_output_queue (h : c.run abort f v = some (t, v')) :
    v.output.queue.queue <+: v'.output.queue.queue := by
  cases f with
  | some x =>
    cases c <;> simp only [run, fail, Option.some.injEq, Prod.mk.injEq, reduceCtorEq] at h
    obtain ⟨-, rfl⟩ := h
    exact List.prefix_rfl
  | none =>
    cases c with
    | pop k =>
      obtain ⟨⟨x, q⟩, -, heq⟩ := Option.map_eq_some_iff.mp h
      cases heq
      exact List.prefix_rfl
    | tryPop k =>
      simp only [run, exec] at h
      split at h <;> cases h <;> exact List.prefix_rfl
    | push x k =>
      obtain ⟨q, hq, heq⟩ := Option.map_eq_some_iff.mp h
      cases heq
      rw [(BoundedThreadSafeQueue.push_eq_some.mp hq).2.2]
      exact List.prefix_append _ _
    | io run broken =>
      obtain ⟨r, -, heq⟩ := Option.map_eq_some_iff.mp h
      cases heq
      exact List.prefix_rfl
    | _ =>
      cases h
      exact List.prefix_rfl

end Call

/-- One step of a worker thread. -/
def Thread.step (worker : π → Call ω π) (f : Option Fault) (ctx : WorkerContext)
    (v : View capacity ω) : Thread π → Option (Thread π × WorkerContext × View capacity ω)
  | .running pc => ((worker pc).run ctx.shouldAbort f v).map fun r => (r.1, ctx, r.2)
  | .caught e => if f.isSome then none else some (.flagged e, ctx.raise, v)
  | .flagged e => if f.isSome then none else some (.returned, ctx.store e, v)
  | .returned => none

/-- What one step of a thread can be: an operation of its worker, or one of the two statements
of the handler. -/
theorem Thread.step_cases {worker : π → Call ω π} {f : Option Fault} {ctx ctx' : WorkerContext}
    {v v' : View capacity ω} {t t' : Thread π}
    (h : t.step worker f ctx v = some (t', ctx', v')) :
    (∃ pc, t = .running pc ∧ ctx' = ctx ∧
      (worker pc).run ctx.shouldAbort f v = some (t', v')) ∨
    (∃ e, t = .caught e ∧ f = none ∧ t' = .flagged e ∧ ctx' = ctx.raise ∧ v' = v) ∨
    (∃ e, t = .flagged e ∧ f = none ∧ t' = .returned ∧ ctx' = ctx.store e ∧ v' = v) := by
  cases t with
  | running pc =>
    obtain ⟨⟨th, w⟩, hrun, heq⟩ := Option.map_eq_some_iff.mp h
    obtain ⟨rfl, rfl, rfl⟩ : th = t' ∧ ctx = ctx' ∧ w = v' := by simpa using heq
    exact Or.inl ⟨pc, rfl, rfl, hrun⟩
  | caught e =>
    obtain ⟨hf, rfl, rfl, rfl⟩ : f = none ∧ .flagged e = t' ∧ ctx.raise = ctx' ∧ v = v' := by
      simpa [Thread.step] using h
    exact Or.inr (Or.inl ⟨e, rfl, hf, rfl, rfl, rfl⟩)
  | flagged e =>
    obtain ⟨hf, rfl, rfl, rfl⟩ : f = none ∧ .returned = t' ∧ ctx.store e = ctx' ∧ v = v' := by
      simpa [Thread.step] using h
    exact Or.inr (Or.inr ⟨e, rfl, hf, rfl, rfl, rfl⟩)
  | returned => cases h

/-! ### What a thread goes on with -/

/-- Whatever a call goes on with has the property. -/
def Call.Ensures (P : Thread π → Prop) : Call ω π → Prop
  | .shouldAbort k | .inputDone k | .inputEmpty k => ∀ b, P (k b)
  | .push _ k | .outputDone k | .increment k => P k
  | .pop k => ∀ c, P (k c)
  | .tryPop k => ∀ o, P (k o)
  | .load k => ∀ n, P (k n)
  | .io run _ => ∀ w t w', run w = some (t, w') → P t

theorem Call.Ensures.run {P : Thread π → Prop} {c : Call ω π} {abort : Bool} {f : Option Fault}
    {v v' : View capacity ω} {t : Thread π} (hc : c.Ensures P) (hcaught : ∀ e, P (.caught e))
    (h : c.run abort f v = some (t, v')) : P t := by
  cases f with
  | some x =>
    cases c <;> simp only [Call.run, Call.fail, Option.some.injEq, Prod.mk.injEq,
      reduceCtorEq] at h
    rw [← h.1]
    exact hcaught _
  | none =>
    cases c with
    | shouldAbort k | inputDone k | inputEmpty k | load k | outputDone k | increment k =>
      obtain ⟨rfl, -⟩ := Prod.mk.inj (Option.some.inj h)
      first
        | exact hc
        | exact hc _
    | push c k =>
      obtain ⟨q, -, heq⟩ := Option.map_eq_some_iff.mp h
      obtain ⟨rfl, -⟩ := Prod.mk.inj heq
      exact hc
    | pop k =>
      obtain ⟨r, -, heq⟩ := Option.map_eq_some_iff.mp h
      obtain ⟨rfl, -⟩ := Prod.mk.inj heq
      exact hc _
    | tryPop k =>
      simp only [Call.run, Call.exec] at h
      split at h
      · obtain ⟨rfl, -⟩ := Prod.mk.inj (Option.some.inj h)
        exact hc _
      · obtain ⟨rfl, -⟩ := Prod.mk.inj (Option.some.inj h)
        exact hc _
    | io run broken =>
      obtain ⟨⟨th, w⟩, hrun, heq⟩ := Option.map_eq_some_iff.mp h
      obtain ⟨rfl, -⟩ := Prod.mk.inj heq
      exact hc _ _ _ hrun

/-- A property that no program point of the worker loses, and that a thread outside of the worker
has. -/
theorem Call.Ensures.step {P : Thread π → Prop} {worker : π → Call ω π} {f : Option Fault}
    {ctx ctx' : WorkerContext} {v v' : View capacity ω} {t t' : Thread π}
    (hworker : ∀ pc, P (.running pc) → (worker pc).Ensures P)
    (hout : ∀ t, (∀ pc, t ≠ .running pc) → P t)
    (h : t.step worker f ctx v = some (t', ctx', v')) (ht : P t) : P t' := by
  rcases Thread.step_cases h with ⟨pc, rfl, -, hrun⟩ | ⟨e, -, -, rfl, -⟩ | ⟨e, -, -, rfl, -⟩
  · exact (hworker pc ht).run (fun e => hout _ (by simp)) hrun
  · exact hout _ (by simp)
  · exact hout _ (by simp)

/-! ### The same worker with other program points -/

/-- A thread with its program point replaced. -/
def Thread.map {ρ : Type} (g : π → ρ) : Thread π → Thread ρ
  | .running pc => .running (g pc)
  | .caught e => .caught e
  | .flagged e => .flagged e
  | .returned => .returned

/-- A call with the program points where it goes on replaced. -/
def Call.map {ρ : Type} (g : π → ρ) : Call ω π → Call ω ρ
  | .shouldAbort k => .shouldAbort fun b => (k b).map g
  | .push c k => .push c (k.map g)
  | .pop k => .pop fun c => (k c).map g
  | .tryPop k => .tryPop fun o => (k o).map g
  | .inputDone k => .inputDone fun b => (k b).map g
  | .inputEmpty k => .inputEmpty fun b => (k b).map g
  | .outputDone k => .outputDone (k.map g)
  | .increment k => .increment (k.map g)
  | .load k => .load fun n => (k n).map g
  | .io run broken => .io (fun w => (run w).map fun r => (r.1.map g, r.2)) broken

theorem Call.run_map {ρ : Type} (g : π → ρ) (c : Call ω π) (abort : Bool) (f : Option Fault)
    (v : View capacity ω) :
    (c.map g).run abort f v = (c.run abort f v).map fun r => (r.1.map g, r.2) := by
  cases f with
  | some x => cases c <;> rfl
  | none =>
    cases c with
    | push c k | pop k | io run broken => simp [Call.run, Call.exec, Call.map, Function.comp_def]
    | tryPop k =>
      simp only [Call.run, Call.exec, Call.map]
      cases v.input.queue.pop <;> rfl
    | _ => rfl

/-- Two workers whose operations do the same, up to the names of the program points, take the same
steps. -/
theorem Thread.step_map_of_run {ρ : Type} {g : π → ρ} {worker : π → Call ω π}
    {worker' : ρ → Call ω ρ} {t : Thread π} {f : Option Fault} {ctx : WorkerContext}
    {v : View capacity ω}
    (h : ∀ pc, t = .running pc → (worker' (g pc)).run ctx.shouldAbort f v =
      ((worker pc).run ctx.shouldAbort f v).map fun r => (r.1.map g, r.2)) :
    (t.map g).step worker' f ctx v =
      (t.step worker f ctx v).map fun r => (r.1.map g, r.2) := by
  cases t with
  | running pc =>
    simp only [Thread.map, Thread.step]
    rw [h pc rfl, Option.map_map, Option.map_map]
    rfl
  | caught e | flagged e =>
    simp only [Thread.map, Thread.step]
    split_ifs <;> rfl
  | returned => rfl

/-- Two workers that agree up to the names of their program points take the same steps. -/
theorem Thread.step_map {ρ : Type} {g : π → ρ} {worker : π → Call ω π} {worker' : ρ → Call ω ρ}
    {t : Thread π} (h : ∀ pc, t = .running pc → (worker pc).map g = worker' (g pc))
    (f : Option Fault) (ctx : WorkerContext) (v : View capacity ω) :
    (t.map g).step worker' f ctx v =
      (t.step worker f ctx v).map fun r => (r.1.map g, r.2) :=
  step_map_of_run fun pc hpc => by rw [← h pc hpc, Call.run_map]

/-- A step in which the outside world fails throws. -/
theorem Thread.thrown_of_fault {worker : π → Call ω π} {x : Fault} {ctx ctx' : WorkerContext}
    {v v' : View capacity ω} {t t' : Thread π}
    (h : t.step worker (some x) ctx v = some (t', ctx', v')) : t'.thrown = true := by
  rcases Thread.step_cases h with ⟨pc, -, -, hrun⟩ | ⟨e, -, hf, -⟩ | ⟨e, -, hf, -⟩
  · exact Call.run_fault hrun
  · exact nomatch hf
  · exact nomatch hf

/-- A thread runs its worker, is in its handler, or has returned. -/
theorem Thread.cases_thrown (t : Thread π) :
    (∃ pc, t = .running pc) ∨ t.thrown = true ∨ t = .returned := by
  cases t with
  | running pc => exact Or.inl ⟨pc, rfl⟩
  | caught e => exact Or.inr (Or.inl rfl)
  | flagged e => exact Or.inr (Or.inl rfl)
  | returned => exact Or.inr (Or.inr rfl)

theorem Thread.cases_of_not_thrown {t : Thread π} (h : t.thrown = false) :
    (∃ pc, t = .running pc) ∨ t = .returned := by
  rcases t.cases_thrown with ht | ht | ht
  · exact Or.inl ht
  · cases ht.symm.trans h
  · exact Or.inr ht

/-- The handler never blocks, and leaves all but the context alone. -/
theorem Thread.step_of_thrown (worker : π → Call ω π) (ctx : WorkerContext)
    (v : View capacity ω) {t : Thread π} (h : t.thrown = true) :
    ∃ t' ctx', t.step worker none ctx v = some (t', ctx', v) ∧ ∀ pc, t' ≠ .running pc := by
  cases t with
  | running pc => cases h
  | caught e => exact ⟨_, _, rfl, nofun⟩
  | flagged e => exact ⟨_, _, rfl, nofun⟩
  | returned => cases h

end Trit
