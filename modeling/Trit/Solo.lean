import Trit.Worker
import Trit.Lib.Transition

/-!
# A worker on its own

One worker thread between its two queues.  The worker before it is replaced by events that push a
chunk or set the flag, the worker after it by an event that pops a chunk.

* `Solo`, `Solo.Event`, `Solo.step`: the worker, what can happen, and what it does;
* `Solo.start`: a worker whose input comes piece by piece; `Solo.fed`: one whose input is all there;
* `Solo.step_cases`: what a step of the worker can be;
* `Solo.Undisturbed`: the events in which nothing fails and the worker after it goes on;
* `Solo.room_or_take`, `Solo.arrive_or_finish`: what can happen around a worker that waits.
-/

namespace Trit

open Transition

/-- A worker thread with what it shares with others. -/
structure Solo (capacity : ℕ) (ω π : Type) where
  thread : Thread π
  ctx : WorkerContext
  view : View capacity ω

namespace Solo

variable {capacity : ℕ} {ω π : Type} {worker : π → Call ω π}

/-- What can happen: the worker takes a step, which may fail; a chunk arrives on its input; the
input is marked as done; a chunk is taken from its output. -/
inductive Event
  | step (f : Option Fault)
  | arrive (c : Chunk)
  | finish
  | take

/-- The worker before its first step, with empty queues. -/
def start (capacity : ℕ) (pc : π) (world : ω) : Solo capacity ω π where
  thread := .running pc
  ctx := .new
  view := ⟨.new capacity, .new capacity, 0, world⟩

/-- The worker before its first step, with its whole input queued and marked as done. -/
def fed (pc : π) (world : ω) (cs : List Chunk) (h : cs.length ≤ capacity) :
    Solo capacity ω π where
  thread := .running pc
  ctx := .new
  view := ⟨⟨⟨[], cs, h⟩, true⟩, .new capacity, 0, world⟩

/-- One event. -/
def step (worker : π → Call ω π) (s : Solo capacity ω π) : Event → Option (Solo capacity ω π)
  | .step f => (s.thread.step worker f s.ctx s.view).map fun (t, ctx, v) => ⟨t, ctx, v⟩
  | .arrive c => (s.view.input.queue.push c).map fun q =>
      { s with view := { s.view with input := { s.view.input with queue := q } } }
  | .finish => some { s with view := { s.view with input := { s.view.input with done := true } } }
  | .take => s.view.output.queue.pop.map fun r =>
      { s with view := { s.view with output := { s.view.output with queue := r.2 } } }

/-- The worker takes a step in which nothing fails, or a chunk is taken from its output. -/
def Undisturbed : Event → Prop
  | .step f => f = none
  | .take => True
  | .arrive _ | .finish => False

instance : DecidablePred Undisturbed
  | .step f => inferInstanceAs (Decidable (f = none))
  | .take => instDecidableTrue
  | .arrive _ | .finish => instDecidableFalse

variable {s t : Solo capacity ω π} {f : Option Fault}

/-- What a step of the worker can be: an operation, or one of the two statements of the handler. -/
theorem step_cases (h : s.step worker (.step f) = some t) :
    (∃ pc th v, s.thread = .running pc ∧
      (worker pc).run s.ctx.shouldAbort f s.view = some (th, v) ∧ t = ⟨th, s.ctx, v⟩) ∨
    (∃ e, s.thread = .caught e ∧ f = none ∧ t = ⟨.flagged e, s.ctx.raise, s.view⟩) ∨
    (∃ e, s.thread = .flagged e ∧ f = none ∧ t = ⟨.returned, s.ctx.store e, s.view⟩) := by
  obtain ⟨⟨th, ctx, v⟩, hstep, rfl⟩ := Option.map_eq_some_iff.mp h
  rcases Thread.step_cases hstep with ⟨pc, hpc, rfl, hrun⟩ | ⟨e, he, hf, rfl, rfl, rfl⟩ |
    ⟨e, he, hf, rfl, rfl, rfl⟩
  · exact Or.inl ⟨pc, th, v, hpc, hrun, rfl⟩
  · exact Or.inr (Or.inl ⟨e, he, hf, rfl⟩)
  · exact Or.inr (Or.inr ⟨e, he, hf, rfl⟩)

/-- A worker that has not thrown takes its steps in its loop. -/
theorem step_running (hs : s.thread.thrown = false) (h : s.step worker (.step f) = some t) :
    ∃ pc th v, s.thread = .running pc ∧
      (worker pc).run s.ctx.shouldAbort f s.view = some (th, v) ∧ t = ⟨th, s.ctx, v⟩ := by
  rcases step_cases h with hrun | ⟨e, he, -⟩ | ⟨e, he, -⟩
  · exact hrun
  · rw [he] at hs
    cases hs
  · rw [he] at hs
    cases hs

theorem step_of_run {pc : π} {th : Thread π} {v : View capacity ω} (hs : s.thread = .running pc)
    (h : (worker pc).run s.ctx.shouldAbort f s.view = some (th, v)) :
    s.step worker (.step f) = some ⟨th, s.ctx, v⟩ := by
  simp [step, Thread.step, hs, h]

/-- Taking a chunk from the output leaves what has been pushed there. -/
theorem take_cases (h : s.step worker .take = some t) :
    ∃ c q, s.view.output.queue.pop = some (c, q) ∧ q.pushed = s.view.output.queue.pushed ∧
      s.view.output.queue.queue.length = q.queue.length + 1 ∧
      t = { s with view := { s.view with output := { s.view.output with queue := q } } } := by
  obtain ⟨⟨c, q⟩, hq, rfl⟩ := Option.map_eq_some_iff.mp h
  exact ⟨c, q, hq, BoundedThreadSafeQueue.pushed_pop hq, BoundedThreadSafeQueue.length_of_pop hq,
    rfl⟩

/-- Either the output has room, or a chunk can be taken from it. -/
theorem room_or_take (worker : π → Call ω π) (hcap : 0 < capacity) (s : Solo capacity ω π) :
    s.view.output.queue.queue.length < capacity ∨ ∃ t, s.step worker .take = some t := by
  by_cases hroom : s.view.output.queue.queue.length < capacity
  · exact Or.inl hroom
  · have hne : s.view.output.queue.queue ≠ [] := by
      intro hnil
      rw [hnil, List.length_nil] at hroom
      exact hroom hcap
    obtain ⟨c, q, hq⟩ := BoundedThreadSafeQueue.exists_pop hne
    exact Or.inr ⟨_, by rw [step, hq]; rfl⟩

/-- An empty queue has room for the next chunk of a list, if there is one. -/
theorem arrive_or_finish (worker : π → Call ω π) (hcap : 0 < capacity) {s : Solo capacity ω π}
    {cs : List Chunk} (hempty : s.view.input.queue.queue = [])
    (hpushed : s.view.input.queue.pushed <+: cs) :
    s.view.input.queue.pushed = cs ∨
      ∃ c q, s.view.input.queue.pushed ++ [c] <+: cs ∧ q.queue = [c] ∧
        q.pushed.length = s.view.input.queue.pushed.length + 1 ∧
        s.step worker (.arrive c) =
          some { s with view := { s.view with input := { s.view.input with queue := q } } } := by
  obtain ⟨rest, hrest⟩ := hpushed
  cases rest with
  | nil => exact Or.inl (by rw [← hrest, List.append_nil])
  | cons c rest =>
    have hroom : s.view.input.queue.queue.length < capacity := by
      rw [hempty]
      exact hcap
    obtain ⟨q, hq⟩ := BoundedThreadSafeQueue.exists_push hroom c
    have hqueue := (BoundedThreadSafeQueue.push_eq_some.mp hq).2.2
    rw [hempty, List.nil_append] at hqueue
    refine Or.inr ⟨c, q, ⟨rest, by simp [hrest]⟩, hqueue, ?_, by simp [step, hq]⟩
    rw [BoundedThreadSafeQueue.pushed_push hq, List.length_append, List.length_singleton]

end Solo

end Trit
