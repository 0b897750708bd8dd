import Trit.Pipeline
import Trit.MonitoredWorker

/-!
# A pipeline with monitors

The threads of `send_files` or `receive_files` at queues with a mutex and two condition variables
each: a thread that has to wait falls asleep, is notified by the thread at the other end or wakes by
itself, gets the mutex back and looks again.

* `MonitoredPipeline`, `MonitoredAction`, `step`: the state, and one section of one thread;
* `toPipeline`: the pipeline whose queues are lists and whose operations wait without a trace;
* `Linked`: each thread is inside no other operation than its next one;
* `refines`: a section is a step of the pipeline or comes to nothing, and each step is a section.
-/

namespace Trit

open Transition

/-- The state of a pipeline whose queues are monitors. -/
structure MonitoredPipeline (capacity : ℕ) (π γ ω₁ ω₂ κ : Type) where
  ctx : WorkerContext
  upstream : MonitoredQueue capacity
  upstreamDone : Bool
  downstream : MonitoredQueue capacity
  downstreamDone : Bool
  counter : UInt32
  source : ω₁
  sink : ω₂
  producer : Thread π
  stage : Thread (ProcessPc κ)
  consumer : Thread γ
  tracker : Thread ProgressTracker.TrackPc
  main : Outcome

/-- A section of a thread, which may notify another one; or a thread that sleeps at one of the
queues wakes without a notification. -/
inductive MonitoredAction
  | enter (a : Action) (wake : Option End)
  | upstreamWakes (p : End)
  | downstreamWakes (p : End)

/-- The action of the pipeline as which an event is seen. -/
def MonitoredAction.label : MonitoredAction → Option Action
  | .enter a _ => some a
  | .upstreamWakes _ | .downstreamWakes _ => none

namespace MonitoredPipeline

variable {capacity : ℕ} {π γ ω₁ ω₂ κ : Type} {P : Program π γ ω₁ ω₂ κ}
  {s t : MonitoredPipeline capacity π γ ω₁ ω₂ κ}

/-- The state in which `main` has started all threads. -/
def initial (capacity : ℕ) (source : ω₁) (sink : ω₂) (producer : π) (manager : κ)
    (consumer : γ) : MonitoredPipeline capacity π γ ω₁ ω₂ κ where
  ctx := .new
  upstream := .new capacity
  upstreamDone := false
  downstream := .new capacity
  downstreamDone := false
  counter := 0
  source := source
  sink := sink
  producer := .running producer
  stage := .running (.abortCheck manager)
  consumer := .running consumer
  tracker := .running (.abortCheck ProgressTracker.noValue)
  main := .joining

/-- The pipeline with its queues as lists. -/
def toPipeline (s : MonitoredPipeline capacity π γ ω₁ ω₂ κ) : Pipeline capacity π γ ω₁ ω₂ κ where
  ctx := s.ctx
  upstream := ⟨s.upstream.queue, s.upstreamDone⟩
  downstream := ⟨s.downstream.queue, s.downstreamDone⟩
  counter := s.counter
  source := s.source
  sink := s.sink
  producer := s.producer
  stage := s.stage
  consumer := s.consumer
  tracker := s.tracker
  main := s.main

/-- What the producer sees; it has no input side. -/
def producerView (s : MonitoredPipeline capacity π γ ω₁ ω₂ κ) : MonitoredView capacity ω₁ :=
  ⟨.new capacity, false, s.upstream, s.upstreamDone, s.counter, s.source⟩

/-- What the stage sees. -/
def stageView (s : MonitoredPipeline capacity π γ ω₁ ω₂ κ) : MonitoredView capacity Unit :=
  ⟨s.upstream, s.upstreamDone, s.downstream, s.downstreamDone, s.counter, ()⟩

/-- What the consumer sees; it has no output side. -/
def consumerView (s : MonitoredPipeline capacity π γ ω₁ ω₂ κ) : MonitoredView capacity ω₂ :=
  ⟨s.downstream, s.downstreamDone, .new capacity, false, s.counter, s.sink⟩

/-- One event. -/
def step (P : Program π γ ω₁ ω₂ κ) (s : MonitoredPipeline capacity π γ ω₁ ω₂ κ) :
    MonitoredAction → Option (MonitoredPipeline capacity π γ ω₁ ω₂ κ)
  | .enter (.producer f) wake =>
      (s.producer.enter P.producer f wake s.ctx s.producerView).map fun (t, ctx, v) =>
        { s with producer := t, ctx := ctx, upstream := v.output, upstreamDone := v.outputDone,
                 source := v.world }
  | .enter (.stage f) wake =>
      (s.stage.enter (processChunks P.transform) f wake s.ctx s.stageView).map fun (t, ctx, v) =>
        { s with stage := t, ctx := ctx, upstream := v.input, upstreamDone := v.inputDone,
                 downstream := v.output, downstreamDone := v.outputDone }
  | .enter (.consumer f) wake =>
      (s.consumer.enter P.consumer f wake s.ctx s.consumerView).map fun (t, ctx, v) =>
        { s with consumer := t, ctx := ctx, downstream := v.input, downstreamDone := v.inputDone,
                 counter := v.counter, sink := v.world }
  | .enter (.tracker f) _ =>
      (s.tracker.step (ProgressTracker.start P.limit) f s.ctx s.toPipeline.trackerView).map
        fun (t, ctx, _) => { s with tracker := t, ctx := ctx }
  | .enter .main _ =>
      match s.main with
      | .joining =>
          if s.toPipeline.joinable then
            some { s with main :=
              match s.ctx.exceptionPtr with
              | some e => .failed e
              | none => .completed }
          else none
      | _ => none
  | .upstreamWakes p => (s.upstream.step (.spurious p)).map fun q => { s with upstream := q }
  | .downstreamWakes p => (s.downstream.step (.spurious p)).map fun q => { s with downstream := q }

/-- Each thread is inside no other operation than the one it is about to carry out. -/
structure Linked (P : Program π γ ω₁ ω₂ κ) (s : MonitoredPipeline capacity π γ ω₁ ω₂ κ) :
    Prop where
  producer : s.producer.Waits P.producer (.new capacity) s.upstream
  stage : s.stage.Waits (processChunks P.transform) s.upstream s.downstream
  consumer : s.consumer.Waits P.consumer s.downstream (.new capacity)

theorem Linked.start (source : ω₁) (sink : ω₂) (producer : π) (manager : κ) (consumer : γ) :
    Linked P (initial capacity source sink producer manager consumer) :=
  ⟨.of_none rfl rfl, .of_none rfl rfl, .of_none rfl rfl⟩

theorem Linked.sides_upstream (hs : Linked P s) : s.upstream.Sides :=
  ⟨fun _ h => hs.producer.push h, fun _ h => hs.stage.pop h⟩

theorem Linked.sides_downstream (hs : Linked P s) : s.downstream.Sides :=
  ⟨fun _ h => hs.stage.push h, fun _ h => hs.consumer.pop h⟩

/-! ### Each section is a step, or comes to nothing -/

theorem Linked.enter_producer {f : Option Fault} {wake : Option End} (hs : Linked P s)
    (h : s.step P (.enter (.producer f) wake) = some t) :
    Follows (s.toPipeline.step P (.producer f)) s.toPipeline t.toPipeline ∧ Linked P t := by
  obtain ⟨⟨th, ctx, v⟩, henter, rfl⟩ := Option.map_eq_some_iff.mp h
  obtain ⟨hfollows, hwaits, hpopper, -⟩ := Thread.enter_sound hs.producer henter
  have hmap := hfollows.map fun r : Thread π × WorkerContext × View capacity ω₁ =>
    { s.toPipeline with
      producer := r.1
      ctx := r.2.1
      upstream := r.2.2.output
      source := r.2.2.world }
  refine ⟨hmap, ⟨hwaits.pusher, fun _ h => by cases h⟩, ⟨hs.stage.pusher, ?_⟩, hs.consumer⟩
  exact fun op hop => hs.stage.popper op (hpopper.symm.trans hop)

theorem Linked.enter_stage {f : Option Fault} {wake : Option End} (hs : Linked P s)
    (h : s.step P (.enter (.stage f) wake) = some t) :
    Follows (s.toPipeline.step P (.stage f)) s.toPipeline t.toPipeline ∧ Linked P t := by
  obtain ⟨⟨th, ctx, v⟩, henter, rfl⟩ := Option.map_eq_some_iff.mp h
  obtain ⟨hfollows, hwaits, hpopper, hpusher⟩ := Thread.enter_sound hs.stage henter
  have hmap := hfollows.map fun r : Thread (ProcessPc κ) × WorkerContext × View capacity Unit =>
    { s.toPipeline with
      stage := r.1
      ctx := r.2.1
      upstream := r.2.2.input
      downstream := r.2.2.output }
  refine ⟨hmap, ⟨?_, hs.producer.popper⟩, hwaits, ⟨hs.consumer.pusher, ?_⟩⟩
  · exact fun op hop => hs.producer.pusher op (hpusher.symm.trans hop)
  · exact fun op hop => hs.consumer.popper op (hpopper.symm.trans hop)

theorem Linked.enter_consumer {f : Option Fault} {wake : Option End} (hs : Linked P s)
    (h : s.step P (.enter (.consumer f) wake) = some t) :
    Follows (s.toPipeline.step P (.consumer f)) s.toPipeline t.toPipeline ∧ Linked P t := by
  obtain ⟨⟨th, ctx, v⟩, henter, rfl⟩ := Option.map_eq_some_iff.mp h
  obtain ⟨hfollows, hwaits, -, hpusher⟩ := Thread.enter_sound hs.consumer henter
  have hmap := hfollows.map fun r : Thread γ × WorkerContext × View capacity ω₂ =>
    { s.toPipeline with
      consumer := r.1
      ctx := r.2.1
      downstream := r.2.2.input
      counter := r.2.2.counter
      sink := r.2.2.world }
  refine ⟨hmap, hs.producer, ⟨?_, hs.stage.popper⟩, ⟨fun _ h => (by cases h), hwaits.popper⟩⟩
  exact fun op hop => hs.stage.pusher op (hpusher.symm.trans hop)

theorem Linked.enter_tracker {f : Option Fault} {wake : Option End} (hs : Linked P s)
    (h : s.step P (.enter (.tracker f) wake) = some t) :
    Follows (s.toPipeline.step P (.tracker f)) s.toPipeline t.toPipeline ∧ Linked P t := by
  obtain ⟨⟨th, ctx, v⟩, htracker, rfl⟩ := Option.map_eq_some_iff.mp h
  refine ⟨Or.inl ?_, hs.producer, hs.stage, hs.consumer⟩
  show (s.tracker.step _ f s.ctx s.toPipeline.trackerView).map _ = _
  rw [htracker]
  rfl

theorem Linked.enter_main {wake : Option End} (hs : Linked P s)
    (h : s.step P (.enter .main wake) = some t) :
    Follows (s.toPipeline.step P .main) s.toPipeline t.toPipeline ∧ Linked P t := by
  have hmain : s.main = .joining ∧ s.toPipeline.joinable = true ∧ t = { s with main :=
      match s.ctx.exceptionPtr with
      | some e => .failed e
      | none => .completed } := by
    simp only [step] at h
    split at h
    · split_ifs at h with hjoin
      exact ⟨by assumption, hjoin, (Option.some.inj h).symm⟩
    · cases h
  obtain ⟨hjoining, hjoin, rfl⟩ := hmain
  refine ⟨Or.inl ?_, hs.producer, hs.stage, hs.consumer⟩
  have hjoining' : s.toPipeline.main = .joining := hjoining
  rw [Pipeline.step, hjoining']
  simp only [hjoin, if_true]
  rfl

/-- Every event keeps the threads inside their operations. -/
theorem Linked.step {a : MonitoredAction} (hs : Linked P s) (h : s.step P a = some t) :
    Follows (a.label.bind (s.toPipeline.step P)) s.toPipeline t.toPipeline ∧ Linked P t := by
  cases a with
  | enter a wake =>
    cases a with
    | producer f => exact hs.enter_producer h
    | stage f => exact hs.enter_stage h
    | consumer f => exact hs.enter_consumer h
    | tracker f => exact hs.enter_tracker h
    | main => exact hs.enter_main h
  | upstreamWakes p =>
    obtain ⟨q, hq, rfl⟩ := Option.map_eq_some_iff.mp h
    obtain ⟨hqueue, hpending⟩ := MonitoredQueue.step_spurious hq
    refine ⟨Or.inr ⟨rfl, ?_⟩, ⟨?_, hs.producer.popper⟩, ⟨hs.stage.pusher, ?_⟩, hs.consumer⟩
    · simp only [toPipeline, hqueue]
    · exact fun op hop => hs.producer.pusher op ((hpending _).symm.trans hop)
    · exact fun op hop => hs.stage.popper op ((hpending _).symm.trans hop)
  | downstreamWakes p =>
    obtain ⟨q, hq, rfl⟩ := Option.map_eq_some_iff.mp h
    obtain ⟨hqueue, hpending⟩ := MonitoredQueue.step_spurious hq
    refine ⟨Or.inr ⟨rfl, ?_⟩, hs.producer, ⟨?_, hs.stage.popper⟩, ⟨hs.consumer.pusher, ?_⟩⟩
    · simp only [toPipeline, hqueue]
    · exact fun op hop => hs.stage.pusher op ((hpending _).symm.trans hop)
    · exact fun op hop => hs.consumer.popper op ((hpending _).symm.trans hop)

/-! ### Each step is a section -/

/-- A step of the pipeline is one section: no thread sleeps that could take it. -/
theorem Linked.complete {a : Action} {u : Pipeline capacity π γ ω₁ ω₂ κ} (hs : Linked P s)
    (h : s.toPipeline.step P a = some u) :
    ∃ wake t, s.step P (.enter a wake) = some t ∧ t.toPipeline = u := by
  cases a with
  | producer f =>
    obtain ⟨⟨th, ctx, w⟩, hstep, rfl⟩ := Option.map_eq_some_iff.mp h
    obtain ⟨wake, v, henter, rfl⟩ := Thread.enter_complete (v := s.producerView) hs.producer
      (MonitoredQueue.sides_new capacity) hs.sides_upstream hstep
    exact ⟨wake, _, Option.map_eq_some_iff.mpr ⟨_, henter, rfl⟩, rfl⟩
  | stage f =>
    obtain ⟨⟨th, ctx, w⟩, hstep, rfl⟩ := Option.map_eq_some_iff.mp h
    obtain ⟨wake, v, henter, rfl⟩ := Thread.enter_complete (v := s.stageView) hs.stage
      hs.sides_upstream hs.sides_downstream hstep
    exact ⟨wake, _, Option.map_eq_some_iff.mpr ⟨_, henter, rfl⟩, rfl⟩
  | consumer f =>
    obtain ⟨⟨th, ctx, w⟩, hstep, rfl⟩ := Option.map_eq_some_iff.mp h
    obtain ⟨wake, v, henter, rfl⟩ := Thread.enter_complete (v := s.consumerView) hs.consumer
      hs.sides_downstream (MonitoredQueue.sides_new capacity) hstep
    exact ⟨wake, _, Option.map_eq_some_iff.mpr ⟨_, henter, rfl⟩, rfl⟩
  | tracker f =>
    obtain ⟨⟨th, ctx, w⟩, hstep, rfl⟩ := Option.map_eq_some_iff.mp h
    have htracker : s.tracker.step (ProgressTracker.start P.limit) f s.ctx
        s.toPipeline.trackerView = some (th, ctx, w) := hstep
    exact ⟨none, _, Option.map_eq_some_iff.mpr ⟨_, htracker, rfl⟩, rfl⟩
  | main =>
    obtain ⟨hjoining, hjoin, hu⟩ := Pipeline.step_main_cases h
    refine ⟨none, { s with main := u.main }, ?_, ?_⟩
    · rw [MonitoredPipeline.step, show s.main = .joining from hjoining]
      rcases hu with ⟨e, he, rfl⟩ | ⟨he, rfl⟩
      · simp only [hjoin, if_true, show s.ctx.exceptionPtr = some e from he]
      · simp only [hjoin, if_true, show s.ctx.exceptionPtr = none from he]
    · rcases hu with ⟨e, -, rfl⟩ | ⟨-, rfl⟩ <;> rfl

theorem step_enter_eq_none (hjoin : s.toPipeline.joinable = true) (hmain : s.main ≠ .joining)
    (a : Action) (wake : Option End) : s.step P (.enter a wake) = none := by
  obtain ⟨hproducer, hstage, hconsumer, htracker⟩ := Pipeline.joinable_iff.mp hjoin
  replace hproducer : s.producer = .returned := hproducer
  replace hstage : s.stage = .returned := hstage
  replace hconsumer : s.consumer = .returned := hconsumer
  replace htracker : s.tracker = .returned := htracker
  cases a with
  | producer f => rw [step, hproducer]; rfl
  | stage f => rw [step, hstage]; rfl
  | consumer f => rw [step, hconsumer]; rfl
  | tracker f => rw [step, htracker]; rfl
  | main =>
    cases hm : s.main with
    | joining => exact absurd hm hmain
    | failed e | completed => simp only [step, hm]

theorem refines (P : Program π γ ω₁ ω₂ κ) :
    Refines (MonitoredPipeline.step P) (Pipeline.step P)
      (fun s : MonitoredPipeline capacity π γ ω₁ ω₂ κ => Linked P s) toPipeline
      MonitoredAction.label where
  keeps _ _ _ hs h := (hs.step h).2
  sound _ _ _ hs h := (hs.step h).1
  complete _ a _ hs h := by
    obtain ⟨wake, t, ht, hproj⟩ := hs.complete h
    exact ⟨.enter a wake, t, rfl, ht, hproj⟩

end MonitoredPipeline

end Trit
