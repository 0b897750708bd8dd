import Trit.EncryptionManager
import Trit.ProgressTracker
import Trit.Lib.Transition

/-!
# The pipeline of a transfer

`send_files` and `receive_files` have one shape: a producer, the encryption stage and a consumer,
joined by two bounded queues with a completion flag each, a progress tracker, and a main thread
that joins the four and then looks at the exception slot.

    producer -> upstream -> stage -> downstream -> consumer

* `Program`: the workers of a pipeline; `Pipeline`: its state;
* `Pipeline.step`: one step of one thread;
* `Pipeline.step_producer_cases` and its siblings: what a step can be;
* `Threw`, `Slot`: whether a worker has thrown, and what the exception slot says about it.
-/

namespace Trit

open Transition

/-- The workers of a pipeline: `π` and `γ` are the program points of producer and consumer,
`ω₁` and `ω₂` what they reach outside, `κ` is the state of the stage. -/
structure Program (π γ ω₁ ω₂ κ : Type) where
  producer : π → Call ω₁ π
  transform : κ → Chunk → Except Exception (Chunk × κ)
  consumer : γ → Call ω₂ γ
  limit : UInt32

/-- The main thread: before the end of the joins, or returned with the stored exception, or past
`rethrow_if_exception` without one. -/
inductive Outcome
  | joining
  | failed (e : Exception)
  | completed
  deriving DecidableEq

/-- The state of a pipeline. -/
structure Pipeline (capacity : ℕ) (π γ ω₁ ω₂ κ : Type) where
  ctx : WorkerContext
  upstream : Channel capacity
  downstream : Channel capacity
  counter : UInt32
  source : ω₁
  sink : ω₂
  producer : Thread π
  stage : Thread (ProcessPc κ)
  consumer : Thread γ
  tracker : Thread ProgressTracker.TrackPc
  main : Outcome

/-- The thread that takes the next step, and whether the outside world fails in it. -/
inductive Action
  | producer (f : Option Fault)
  | stage (f : Option Fault)
  | consumer (f : Option Fault)
  | tracker (f : Option Fault)
  | main

/-- An action in which nothing outside the program fails. -/
def Action.quiet : Action → Bool
  | .producer f | .stage f | .consumer f | .tracker f => f.isNone
  | .main => true

/-- The side condition of a run in which nothing fails. -/
def quiet {σ : Type} (_ : σ) (a : Action) : Prop := a.quiet = true

theorem quiet_of_all {σ : Type} {as : List Action} (h : as.all Action.quiet = true) :
    ∀ a ∈ as, ∀ s : σ, quiet s a := by
  intro a ha s
  exact List.all_eq_true.mp h a ha

variable {capacity : ℕ} {π γ ω₁ ω₂ κ : Type}

/-- Only the handler of a thread touches the abort flag: the workers themselves never leave
their thread between the two statements of the handler. -/
structure Program.Sound (P : Program π γ ω₁ ω₂ κ) : Prop where
  producer : ∀ {capacity : ℕ} {abort f} {v v' : View capacity ω₁} {pc t},
    (P.producer pc).run abort f v = some (t, v') → t.raised = false
  consumer : ∀ {capacity : ℕ} {abort f} {v v' : View capacity ω₂} {pc t},
    (P.consumer pc).run abort f v = some (t, v') → t.raised = false

namespace Pipeline

/-- The state in which `main` has started all threads. -/
def initial (capacity : ℕ) (source : ω₁) (sink : ω₂) (producer : π) (manager : κ)
    (consumer : γ) : Pipeline capacity π γ ω₁ ω₂ κ where
  ctx := .new
  upstream := .new capacity
  downstream := .new capacity
  counter := 0
  source := source
  sink := sink
  producer := .running producer
  stage := .running (.abortCheck manager)
  consumer := .running consumer
  tracker := .running (.abortCheck ProgressTracker.noValue)
  main := .joining

/-- What the producer sees; it has no input side. -/
def producerView (s : Pipeline capacity π γ ω₁ ω₂ κ) : View capacity ω₁ :=
  ⟨.new capacity, s.upstream, s.counter, s.source⟩

/-- What the stage sees. -/
def stageView (s : Pipeline capacity π γ ω₁ ω₂ κ) : View capacity Unit :=
  ⟨s.upstream, s.downstream, s.counter, ()⟩

/-- What the consumer sees; it has no output side. -/
def consumerView (s : Pipeline capacity π γ ω₁ ω₂ κ) : View capacity ω₂ :=
  ⟨s.downstream, .new capacity, s.counter, s.sink⟩

/-- What the tracker sees: the counter. -/
def trackerView (s : Pipeline capacity π γ ω₁ ω₂ κ) : View capacity Unit :=
  ⟨.new capacity, .new capacity, s.counter, ()⟩

/-- Have all four threads returned? -/
def joinable (s : Pipeline capacity π γ ω₁ ω₂ κ) : Bool :=
  s.producer.isReturned && s.stage.isReturned && s.consumer.isReturned && s.tracker.isReturned

/-- One step. -/
def step (P : Program π γ ω₁ ω₂ κ) (s : Pipeline capacity π γ ω₁ ω₂ κ) :
    Action → Option (Pipeline capacity π γ ω₁ ω₂ κ)
  | .producer f =>
      (s.producer.step P.producer f s.ctx s.producerView).map fun (t, ctx, v) =>
        { s with producer := t, ctx := ctx, upstream := v.output, source := v.world }
  | .stage f =>
      (s.stage.step (processChunks P.transform) f s.ctx s.stageView).map fun (t, ctx, v) =>
        { s with stage := t, ctx := ctx, upstream := v.input, downstream := v.output }
  | .consumer f =>
      (s.consumer.step P.consumer f s.ctx s.consumerView).map fun (t, ctx, v) =>
        { s with consumer := t, ctx := ctx, downstream := v.input, counter := v.counter,
                 sink := v.world }
  | .tracker f =>
      (s.tracker.step (ProgressTracker.start P.limit) f s.ctx s.trackerView).map
        fun (t, ctx, _) => { s with tracker := t, ctx := ctx }
  | .main =>
      match s.main with
      | .joining =>
          if s.joinable then
            some { s with main :=
              match s.ctx.exceptionPtr with
              | some e => .failed e
              | none => .completed }
          else none
      | _ => none

/-! ### What a step can be -/

variable {P : Program π γ ω₁ ω₂ κ} {s t : Pipeline capacity π γ ω₁ ω₂ κ} {f : Option Fault}

theorem step_producer_cases (h : s.step P (.producer f) = some t) :
    (∃ pc th v, s.producer = .running pc ∧
      (P.producer pc).run s.ctx.shouldAbort f s.producerView = some (th, v) ∧
      t = { s with producer := th, upstream := v.output, source := v.world }) ∨
    (∃ e, s.producer = .caught e ∧ f = none ∧
      t = { s with producer := .flagged e, ctx := s.ctx.raise }) ∨
    (∃ e, s.producer = .flagged e ∧ f = none ∧
      t = { s with producer := .returned, ctx := s.ctx.store e }) := by
  obtain ⟨⟨th, ctx, v⟩, hstep, rfl⟩ := Option.map_eq_some_iff.mp h
  rcases Thread.step_cases hstep with ⟨pc, hpc, rfl, hrun⟩ | ⟨e, he, hf, rfl, rfl, rfl⟩ |
    ⟨e, he, hf, rfl, rfl, rfl⟩
  · exact Or.inl ⟨pc, th, v, hpc, hrun, rfl⟩
  · exact Or.inr (Or.inl ⟨e, he, hf, rfl⟩)
  · exact Or.inr (Or.inr ⟨e, he, hf, rfl⟩)

theorem step_stage_cases (h : s.step P (.stage f) = some t) :
    (∃ pc th v, s.stage = .running pc ∧
      ProcessMove P.transform s.ctx.shouldAbort f s.stageView pc th v ∧
      t = { s with stage := th, upstream := v.input, downstream := v.output }) ∨
    (∃ e, s.stage = .caught e ∧ f = none ∧
      t = { s with stage := .flagged e, ctx := s.ctx.raise }) ∨
    (∃ e, s.stage = .flagged e ∧ f = none ∧
      t = { s with stage := .returned, ctx := s.ctx.store e }) := by
  obtain ⟨⟨th, ctx, v⟩, hstep, rfl⟩ := Option.map_eq_some_iff.mp h
  rcases Thread.step_cases hstep with ⟨pc, hpc, rfl, hrun⟩ | ⟨e, he, hf, rfl, rfl, rfl⟩ |
    ⟨e, he, hf, rfl, rfl, rfl⟩
  · exact Or.inl ⟨pc, th, v, hpc, processMove_of_run hrun, rfl⟩
  · exact Or.inr (Or.inl ⟨e, he, hf, rfl⟩)
  · exact Or.inr (Or.inr ⟨e, he, hf, rfl⟩)

theorem step_consumer_cases (h : s.step P (.consumer f) = some t) :
    (∃ pc th v, s.consumer = .running pc ∧
      (P.consumer pc).run s.ctx.shouldAbort f s.consumerView = some (th, v) ∧
      t = { s with consumer := th, downstream := v.input, counter := v.counter,
                   sink := v.world }) ∨
    (∃ e, s.consumer = .caught e ∧ f = none ∧
      t = { s with consumer := .flagged e, ctx := s.ctx.raise }) ∨
    (∃ e, s.consumer = .flagged e ∧ f = none ∧
      t = { s with consumer := .returned, ctx := s.ctx.store e }) := by
  obtain ⟨⟨th, ctx, v⟩, hstep, rfl⟩ := Option.map_eq_some_iff.mp h
  rcases Thread.step_cases hstep with ⟨pc, hpc, rfl, hrun⟩ | ⟨e, he, hf, rfl, rfl, rfl⟩ |
    ⟨e, he, hf, rfl, rfl, rfl⟩
  · exact Or.inl ⟨pc, th, v, hpc, hrun, rfl⟩
  · exact Or.inr (Or.inl ⟨e, he, hf, rfl⟩)
  · exact Or.inr (Or.inr ⟨e, he, hf, rfl⟩)

theorem step_tracker_cases (h : s.step P (.tracker f) = some t) :
    (∃ pc th, s.tracker = .running pc ∧
      ProgressTracker.TrackMove P.limit s.ctx.shouldAbort f s.trackerView pc th ∧
      t = { s with tracker := th }) ∨
    (∃ e, s.tracker = .caught e ∧ f = none ∧
      t = { s with tracker := .flagged e, ctx := s.ctx.raise }) ∨
    (∃ e, s.tracker = .flagged e ∧ f = none ∧
      t = { s with tracker := .returned, ctx := s.ctx.store e }) := by
  obtain ⟨⟨th, ctx, v⟩, hstep, rfl⟩ := Option.map_eq_some_iff.mp h
  rcases Thread.step_cases hstep with ⟨pc, hpc, rfl, hrun⟩ | ⟨e, he, hf, rfl, rfl, rfl⟩ |
    ⟨e, he, hf, rfl, rfl, rfl⟩
  · exact Or.inl ⟨pc, th, hpc, ProgressTracker.trackMove_of_run hrun, rfl⟩
  · exact Or.inr (Or.inl ⟨e, he, hf, rfl⟩)
  · exact Or.inr (Or.inr ⟨e, he, hf, rfl⟩)

theorem joinable_iff : s.joinable = true ↔
    s.producer = .returned ∧ s.stage = .returned ∧ s.consumer = .returned ∧
      s.tracker = .returned := by
  have hret : ∀ {ρ : Type} (th : Thread ρ), th.isReturned = true ↔ th = .returned := by
    intro ρ th
    cases th <;> simp [Thread.isReturned]
  simp [joinable, hret, and_assoc]

theorem step_main_cases (h : s.step P .main = some t) :
    s.main = .joining ∧ s.joinable = true ∧
      ((∃ e, s.ctx.exceptionPtr = some e ∧ t = { s with main := .failed e }) ∨
        (s.ctx.exceptionPtr = none ∧ t = { s with main := .completed })) := by
  cases hm : s.main with
  | joining =>
    cases hj : s.joinable with
    | false => simp [step, hm, hj] at h
    | true =>
      cases he : s.ctx.exceptionPtr with
      | some e =>
        simp only [step, hm, hj, he, if_true, Option.some.injEq] at h
        exact ⟨rfl, rfl, Or.inl ⟨e, rfl, h.symm⟩⟩
      | none =>
        simp only [step, hm, hj, he, if_true, Option.some.injEq] at h
        exact ⟨rfl, rfl, Or.inr ⟨rfl, h.symm⟩⟩
  | failed e => simp [step, hm] at h
  | completed => simp [step, hm] at h

/-- What the producer works on changes in its own steps only, up to what the stage pops. -/
theorem producer_frame {a : Action} (h : s.step P a = some t) (ha : ∀ f, a ≠ .producer f) :
    t.producer = s.producer ∧ t.source = s.source ∧
      t.upstream.queue.pushed = s.upstream.queue.pushed := by
  cases a with
  | producer f => exact absurd rfl (ha f)
  | stage f =>
    rcases step_stage_cases h with ⟨pc, th, v, -, hmove, rfl⟩ | ⟨e, -, -, rfl⟩ | ⟨e, -, -, rfl⟩
    · exact ⟨rfl, rfl, hmove.input_pushed⟩
    · exact ⟨rfl, rfl, rfl⟩
    · exact ⟨rfl, rfl, rfl⟩
  | consumer f =>
    rcases step_consumer_cases h with ⟨pc, th, v, -, -, rfl⟩ | ⟨e, -, -, rfl⟩ | ⟨e, -, -, rfl⟩
    · exact ⟨rfl, rfl, rfl⟩
    · exact ⟨rfl, rfl, rfl⟩
    · exact ⟨rfl, rfl, rfl⟩
  | tracker f =>
    rcases step_tracker_cases h with ⟨pc, th, -, -, rfl⟩ | ⟨e, -, -, rfl⟩ | ⟨e, -, -, rfl⟩
    · exact ⟨rfl, rfl, rfl⟩
    · exact ⟨rfl, rfl, rfl⟩
    · exact ⟨rfl, rfl, rfl⟩
  | main =>
    obtain ⟨-, -, ⟨e, -, rfl⟩ | ⟨-, rfl⟩⟩ := step_main_cases h
    · exact ⟨rfl, rfl, rfl⟩
    · exact ⟨rfl, rfl, rfl⟩

/-! ### Steps in which nothing fails -/

theorem step_producer_quiet (hq : (Action.producer f).quiet = true)
    (hs : s.producer.thrown = false) (h : s.step P (.producer f) = some t) :
    ∃ pc th v, s.producer = .running pc ∧
      (P.producer pc).run s.ctx.shouldAbort none s.producerView = some (th, v) ∧
      t = { s with producer := th, upstream := v.output, source := v.world } := by
  obtain rfl : f = none := by simpa [Action.quiet] using hq
  rcases step_producer_cases h with hrun | ⟨e, he, -⟩ | ⟨e, he, -⟩
  · exact hrun
  · rw [he] at hs
    cases hs
  · rw [he] at hs
    cases hs

theorem step_stage_quiet (hq : (Action.stage f).quiet = true)
    (hs : s.stage.thrown = false) (h : s.step P (.stage f) = some t) :
    ∃ pc th v, s.stage = .running pc ∧
      ProcessMove P.transform s.ctx.shouldAbort none s.stageView pc th v ∧
      t = { s with stage := th, upstream := v.input, downstream := v.output } := by
  obtain rfl : f = none := by simpa [Action.quiet] using hq
  rcases step_stage_cases h with hrun | ⟨e, he, -⟩ | ⟨e, he, -⟩
  · exact hrun
  · rw [he] at hs
    cases hs
  · rw [he] at hs
    cases hs

theorem step_consumer_quiet (hq : (Action.consumer f).quiet = true)
    (hs : s.consumer.thrown = false) (h : s.step P (.consumer f) = some t) :
    ∃ pc th v, s.consumer = .running pc ∧
      (P.consumer pc).run s.ctx.shouldAbort none s.consumerView = some (th, v) ∧
      t = { s with consumer := th, downstream := v.input, counter := v.counter,
                   sink := v.world } := by
  obtain rfl : f = none := by simpa [Action.quiet] using hq
  rcases step_consumer_cases h with hrun | ⟨e, he, -⟩ | ⟨e, he, -⟩
  · exact hrun
  · rw [he] at hs
    cases hs
  · rw [he] at hs
    cases hs

theorem step_tracker_quiet (hq : (Action.tracker f).quiet = true)
    (hs : s.tracker.thrown = false) (h : s.step P (.tracker f) = some t) :
    ∃ pc th, s.tracker = .running pc ∧
      ProgressTracker.TrackMove P.limit s.ctx.shouldAbort none s.trackerView pc th ∧
      t = { s with tracker := th } := by
  obtain rfl : f = none := by simpa [Action.quiet] using hq
  rcases step_tracker_cases h with hrun | ⟨e, he, -⟩ | ⟨e, he, -⟩
  · exact hrun
  · rw [he] at hs
    cases hs
  · rw [he] at hs
    cases hs

/-! ### Steps of a given thread -/

theorem step_producer_of_run (P : Program π γ ω₁ ω₂ κ) {pc : π} {th : Thread π}
    {v : View capacity ω₁}
    (hs : s.producer = .running pc)
    (hrun : (P.producer pc).run s.ctx.shouldAbort f s.producerView = some (th, v)) :
    s.step P (.producer f) =
      some { s with producer := th, upstream := v.output, source := v.world } := by
  simp [step, hs, Thread.step, hrun]

theorem step_stage_of_run (P : Program π γ ω₁ ω₂ κ) {pc : ProcessPc κ}
    {th : Thread (ProcessPc κ)} {v : View capacity Unit}
    (hs : s.stage = .running pc)
    (hrun : (processChunks P.transform pc).run s.ctx.shouldAbort f s.stageView = some (th, v)) :
    s.step P (.stage f) =
      some { s with stage := th, upstream := v.input, downstream := v.output } := by
  simp [step, hs, Thread.step, hrun]

theorem step_consumer_of_run (P : Program π γ ω₁ ω₂ κ) {pc : γ} {th : Thread γ}
    {v : View capacity ω₂}
    (hs : s.consumer = .running pc)
    (hrun : (P.consumer pc).run s.ctx.shouldAbort f s.consumerView = some (th, v)) :
    s.step P (.consumer f) =
      some { s with consumer := th, downstream := v.input, counter := v.counter,
                    sink := v.world } := by
  simp [step, hs, Thread.step, hrun]

theorem step_tracker_of_run (P : Program π γ ω₁ ω₂ κ) {pc : ProgressTracker.TrackPc}
    {th : Thread ProgressTracker.TrackPc} {v : View capacity Unit}
    (hs : s.tracker = .running pc)
    (hrun : (ProgressTracker.start P.limit pc).run s.ctx.shouldAbort f s.trackerView =
      some (th, v)) :
    s.step P (.tracker f) = some { s with tracker := th } := by
  simp [step, hs, Thread.step, hrun]

/-- A tracker that has not thrown can go on to the end once the counter has reached the limit. -/
theorem tracker_progress (habort : s.ctx.shouldAbort = false) (hthrown : s.tracker.thrown = false)
    (hrunning : s.tracker ≠ .returned) (hlimit : P.limit ≤ s.counter) :
    ∃ th, s.step P (.tracker none) = some { s with tracker := th } ∧
      ProgressTracker.trackRank P.limit th < ProgressTracker.trackRank P.limit s.tracker := by
  obtain ⟨pc, hs⟩ := (Thread.cases_of_not_thrown hthrown).resolve_right hrunning
  obtain ⟨th, v, hrun, hlt⟩ := ProgressTracker.start_progress P.limit s.trackerView pc hlimit
  rw [← habort] at hrun
  refine ⟨th, step_tracker_of_run P hs hrun, ?_⟩
  rw [hs]
  exact hlt

theorem exists_step_producer (P : Program π γ ω₁ ω₂ κ) (h : s.producer.thrown = true) :
    ∃ th ctx, s.step P (.producer none) = some { s with producer := th, ctx := ctx } ∧
      ∀ pc, th ≠ .running pc := by
  obtain ⟨th, ctx, hstep, hth⟩ := Thread.step_of_thrown P.producer s.ctx s.producerView h
  exact ⟨th, ctx, by rw [step, hstep]; rfl, hth⟩

theorem exists_step_stage (P : Program π γ ω₁ ω₂ κ) (h : s.stage.thrown = true) :
    ∃ th ctx, s.step P (.stage none) = some { s with stage := th, ctx := ctx } ∧
      ∀ pc, th ≠ .running pc := by
  obtain ⟨th, ctx, hstep, hth⟩ :=
    Thread.step_of_thrown (processChunks P.transform) s.ctx s.stageView h
  exact ⟨th, ctx, by rw [step, hstep]; rfl, hth⟩

theorem exists_step_consumer (P : Program π γ ω₁ ω₂ κ) (h : s.consumer.thrown = true) :
    ∃ th ctx, s.step P (.consumer none) = some { s with consumer := th, ctx := ctx } ∧
      ∀ pc, th ≠ .running pc := by
  obtain ⟨th, ctx, hstep, hth⟩ := Thread.step_of_thrown P.consumer s.ctx s.consumerView h
  exact ⟨th, ctx, by rw [step, hstep]; rfl, hth⟩

theorem exists_step_tracker (P : Program π γ ω₁ ω₂ κ) (h : s.tracker.thrown = true) :
    ∃ th ctx, s.step P (.tracker none) = some { s with tracker := th, ctx := ctx } ∧
      ∀ pc, th ≠ .running pc := by
  obtain ⟨th, ctx, hstep, hth⟩ :=
    Thread.step_of_thrown (ProgressTracker.start P.limit) s.ctx s.trackerView h
  exact ⟨th, ctx, by rw [step, hstep]; rfl, hth⟩

/-! ### The exception slot -/

/-- Some worker has thrown. -/
def Threw (s : Pipeline capacity π γ ω₁ ω₂ κ) : Prop :=
  s.ctx.handled ≠ [] ∨ s.producer.thrown = true ∨ s.stage.thrown = true ∨
    s.consumer.thrown = true ∨ s.tracker.thrown = true

/-- Some worker has executed `abort_flag_ = true`. -/
def Raised (s : Pipeline capacity π γ ω₁ ω₂ κ) : Prop :=
  s.ctx.handled ≠ [] ∨ s.producer.raised = true ∨ s.stage.raised = true ∨
    s.consumer.raised = true ∨ s.tracker.raised = true

/-- What the exception slot says about the workers: it holds the exception stored first, the
flag is set once a handler has begun, and `main` looks at the slot after the joins. -/
structure Slot (s : Pipeline capacity π γ ω₁ ω₂ κ) : Prop where
  ptr : s.ctx.exceptionPtr = s.ctx.handled.head?
  abort : s.ctx.abortFlag = true ↔ Raised s
  joined : s.main ≠ .joining → s.joinable = true
  failed : ∀ e, s.main = .failed e → s.ctx.handled.head? = some e
  completed : s.main = .completed → s.ctx.handled = []

/-- An exception is stored before its thread has returned. -/
theorem not_threw_of_joinable (hjoin : s.joinable = true) (hhandled : s.ctx.handled = []) :
    ¬ s.Threw := by
  obtain ⟨hproducer, hstage, hconsumer, htracker⟩ := joinable_iff.mp hjoin
  simp [Threw, hhandled, hproducer, hstage, hconsumer, htracker, Thread.thrown]

/-- A worker that has thrown stays one that has thrown. -/
theorem Threw.step {a : Action} (hs : s.Threw) (h : s.step P a = some t) : t.Threw := by
  have hstore : ∀ {e : Exception}, (s.ctx.store e).handled ≠ [] := by simp
  cases a with
  | producer f =>
    rcases step_producer_cases h with ⟨pc, th, v, hth, -, rfl⟩ | ⟨e, -, -, rfl⟩ | ⟨e, -, -, rfl⟩
    · rcases hs with hs | hs | hs
      · exact Or.inl hs
      · rw [hth] at hs
        exact nomatch hs
      · exact Or.inr (Or.inr hs)
    · exact Or.inr (Or.inl rfl)
    · exact Or.inl hstore
  | stage f =>
    rcases step_stage_cases h with ⟨pc, th, v, hth, -, rfl⟩ | ⟨e, -, -, rfl⟩ | ⟨e, -, -, rfl⟩
    · rcases hs with hs | hs | hs | hs
      · exact Or.inl hs
      · exact Or.inr (Or.inl hs)
      · rw [hth] at hs
        exact nomatch hs
      · exact Or.inr (Or.inr (Or.inr hs))
    · exact Or.inr (Or.inr (Or.inl rfl))
    · exact Or.inl hstore
  | consumer f =>
    rcases step_consumer_cases h with ⟨pc, th, v, hth, -, rfl⟩ | ⟨e, -, -, rfl⟩ | ⟨e, -, -, rfl⟩
    · rcases hs with hs | hs | hs | hs | hs
      · exact Or.inl hs
      · exact Or.inr (Or.inl hs)
      · exact Or.inr (Or.inr (Or.inl hs))
      · rw [hth] at hs
        exact nomatch hs
      · exact Or.inr (Or.inr (Or.inr (Or.inr hs)))
    · exact Or.inr (Or.inr (Or.inr (Or.inl rfl)))
    · exact Or.inl hstore
  | tracker f =>
    rcases step_tracker_cases h with ⟨pc, th, hth, -, rfl⟩ | ⟨e, -, -, rfl⟩ | ⟨e, -, -, rfl⟩
    · rcases hs with hs | hs | hs | hs | hs
      · exact Or.inl hs
      · exact Or.inr (Or.inl hs)
      · exact Or.inr (Or.inr (Or.inl hs))
      · exact Or.inr (Or.inr (Or.inr (Or.inl hs)))
      · rw [hth] at hs
        exact nomatch hs
    · exact Or.inr (Or.inr (Or.inr (Or.inr rfl)))
    · exact Or.inl hstore
  | main =>
    obtain ⟨-, -, ⟨e, -, rfl⟩ | ⟨-, rfl⟩⟩ := step_main_cases h
    · exact hs
    · exact hs

/-- A step in which the outside world fails makes a worker throw. -/
theorem threw_of_not_quiet {a : Action} (ha : a.quiet = false) (h : s.step P a = some t) :
    t.Threw := by
  have hsome : ∀ {f : Option Fault}, f.isNone = false → ∃ x, f = some x := by
    intro f hf
    cases f with
    | none => exact nomatch hf
    | some x => exact ⟨x, rfl⟩
  cases a with
  | producer f =>
    obtain ⟨x, rfl⟩ := hsome ha
    obtain ⟨⟨th, ctx, v⟩, hstep, rfl⟩ := Option.map_eq_some_iff.mp h
    exact Or.inr (Or.inl (Thread.thrown_of_fault hstep))
  | stage f =>
    obtain ⟨x, rfl⟩ := hsome ha
    obtain ⟨⟨th, ctx, v⟩, hstep, rfl⟩ := Option.map_eq_some_iff.mp h
    exact Or.inr (Or.inr (Or.inl (Thread.thrown_of_fault hstep)))
  | consumer f =>
    obtain ⟨x, rfl⟩ := hsome ha
    obtain ⟨⟨th, ctx, v⟩, hstep, rfl⟩ := Option.map_eq_some_iff.mp h
    exact Or.inr (Or.inr (Or.inr (Or.inl (Thread.thrown_of_fault hstep))))
  | tracker f =>
    obtain ⟨x, rfl⟩ := hsome ha
    obtain ⟨⟨th, ctx, v⟩, hstep, rfl⟩ := Option.map_eq_some_iff.mp h
    exact Or.inr (Or.inr (Or.inr (Or.inr (Thread.thrown_of_fault hstep))))
  | main => exact nomatch ha

/-- A step that does not end in a failure does not begin in one, and nothing fails in it. -/
theorem quiet_of_not_threw {a : Action} (h : s.step P a = some t) (ht : ¬ t.Threw) :
    a.quiet = true ∧ ¬ s.Threw := by
  refine ⟨?_, fun hs => ht (hs.step h)⟩
  by_contra hq
  exact ht (threw_of_not_quiet (Bool.eq_false_iff.mpr hq) h)

/-- The slot keeps the first exception. -/
theorem store_ptr {ctx : WorkerContext} (h : ctx.exceptionPtr = ctx.handled.head?)
    (e : Exception) : (ctx.store e).exceptionPtr = (ctx.store e).handled.head? := by
  cases hl : ctx.handled <;> simp [WorkerContext.store, h, hl]

theorem Slot.initial (source : ω₁) (sink : ω₂) (producer : π) (manager : κ) (consumer : γ) :
    Slot (Pipeline.initial capacity source sink producer manager consumer) := by
  constructor <;> simp [Pipeline.initial, WorkerContext.new, Raised, Thread.raised]

theorem Slot.main_eq (hi : Slot s)
    (h : ¬ (s.producer = .returned ∧ s.stage = .returned ∧ s.consumer = .returned ∧
      s.tracker = .returned)) : s.main = .joining := by
  by_contra hm
  exact h (joinable_iff.mp (hi.joined hm))

/-- As long as nothing has failed, the flag is not set. -/
theorem Slot.shouldAbort (hi : Slot s) (hs : ¬ s.Threw) : s.ctx.shouldAbort = false := by
  have hthrown : ∀ {ρ : Type} {th : Thread ρ}, th.raised = true → th.thrown = true := by
    intro ρ th h
    cases th <;> first | rfl | cases h
  refine Bool.eq_false_iff.mpr fun h => hs ?_
  exact (hi.abort.mp h).imp id (Or.imp hthrown (Or.imp hthrown (Or.imp hthrown hthrown)))

/-- Before the end of the joins only the slot and the flag matter. -/
theorem Slot.of_joining (hm : s.main = .joining)
    (hptr : s.ctx.exceptionPtr = s.ctx.handled.head?)
    (habort : s.ctx.abortFlag = true ↔ Raised s) : Slot s where
  ptr := hptr
  abort := habort
  joined := fun h => absurd hm h
  failed := fun e h => by cases hm.symm.trans h
  completed := fun h => by cases hm.symm.trans h

theorem Slot.step (hP : P.Sound) {a : Action} (hi : Slot s) (h : s.step P a = some t) :
    Slot t := by
  have hm := hi.main_eq
  have habort := hi.abort
  cases a with
  | producer f =>
    rcases step_producer_cases h with ⟨pc, th, v, hs, hrun, rfl⟩ | ⟨e, he, -, rfl⟩ |
      ⟨e, he, -, rfl⟩
    · have hth : th.raised = false := hP.producer hrun
      have hraised : s.producer.raised = false := by rw [hs]; rfl
      refine .of_joining (hm (by simp [hs])) hi.ptr ?_
      simpa only [Raised, hraised, hth] using habort
    · exact .of_joining (hm (by simp [he])) hi.ptr (iff_of_true rfl (Or.inr (Or.inl rfl)))
    · refine .of_joining (hm (by simp [he])) (store_ptr hi.ptr e)
        (iff_of_true (habort.mpr (Or.inr (Or.inl ?_))) (Or.inl (by simp)))
      rw [he]
      rfl
  | stage f =>
    rcases step_stage_cases h with ⟨pc, th, v, hs, hmove, rfl⟩ | ⟨e, he, -, rfl⟩ |
      ⟨e, he, -, rfl⟩
    · have hth : th.raised = false := by cases hmove <;> rfl
      have hraised : s.stage.raised = false := by rw [hs]; rfl
      refine .of_joining (hm (by simp [hs])) hi.ptr ?_
      simpa only [Raised, hraised, hth] using habort
    · exact .of_joining (hm (by simp [he])) hi.ptr
        (iff_of_true rfl (Or.inr (Or.inr (Or.inl rfl))))
    · refine .of_joining (hm (by simp [he])) (store_ptr hi.ptr e)
        (iff_of_true (habort.mpr (Or.inr (Or.inr (Or.inl ?_)))) (Or.inl (by simp)))
      rw [he]
      rfl
  | consumer f =>
    rcases step_consumer_cases h with ⟨pc, th, v, hs, hrun, rfl⟩ | ⟨e, he, -, rfl⟩ |
      ⟨e, he, -, rfl⟩
    · have hth : th.raised = false := hP.consumer hrun
      have hraised : s.consumer.raised = false := by rw [hs]; rfl
      refine .of_joining (hm (by simp [hs])) hi.ptr ?_
      simpa only [Raised, hraised, hth] using habort
    · exact .of_joining (hm (by simp [he])) hi.ptr
        (iff_of_true rfl (Or.inr (Or.inr (Or.inr (Or.inl rfl)))))
    · refine .of_joining (hm (by simp [he])) (store_ptr hi.ptr e)
        (iff_of_true (habort.mpr (Or.inr (Or.inr (Or.inr (Or.inl ?_))))) (Or.inl (by simp)))
      rw [he]
      rfl
  | tracker f =>
    rcases step_tracker_cases h with ⟨pc, th, hs, hmove, rfl⟩ | ⟨e, he, -, rfl⟩ |
      ⟨e, he, -, rfl⟩
    · have hth : th.raised = false := by
        cases hmove <;> first | rfl | (unfold ProgressTracker.next; split_ifs <;> rfl)
      have hraised : s.tracker.raised = false := by rw [hs]; rfl
      refine .of_joining (hm (by simp [hs])) hi.ptr ?_
      simpa only [Raised, hraised, hth] using habort
    · exact .of_joining (hm (by simp [he])) hi.ptr
        (iff_of_true rfl (Or.inr (Or.inr (Or.inr (Or.inr rfl)))))
    · refine .of_joining (hm (by simp [he])) (store_ptr hi.ptr e)
        (iff_of_true (habort.mpr (Or.inr (Or.inr (Or.inr (Or.inr ?_))))) (Or.inl (by simp)))
      rw [he]
      rfl
  | main =>
    obtain ⟨-, hj, ⟨e, he, rfl⟩ | ⟨he, rfl⟩⟩ := step_main_cases h
    · refine ⟨hi.ptr, habort, fun _ => hj, fun e' h' => ?_, fun h' => (by cases h')⟩
      cases h'
      exact hi.ptr.symm.trans he
    · refine ⟨hi.ptr, habort, fun _ => hj, fun e' h' => (by cases h'), fun _ => ?_⟩
      exact List.head?_eq_none_iff.mp (hi.ptr.symm.trans he)

/-- After an abort, `main` can report the failure once the workers have returned. -/
theorem Slot.canReach_failed (hi : Slot s) (hjoin : s.joinable = true)
    (habort : s.ctx.abortFlag = true) :
    CanReach (Pipeline.step P) quiet (fun t => ∃ e, t.main = .failed e) s := by
  obtain ⟨hproducer, hstage, hconsumer, htracker⟩ := joinable_iff.mp hjoin
  have hhandled : s.ctx.handled ≠ [] := by
    have hraised := hi.abort.mp habort
    simpa [Raised, hproducer, hstage, hconsumer, htracker, Thread.raised] using hraised
  obtain ⟨e, rest, he⟩ := List.exists_cons_of_ne_nil hhandled
  have hptr : s.ctx.exceptionPtr = some e := by
    rw [hi.ptr, he]
    rfl
  cases hmain : s.main with
  | joining =>
    refine CanReach.of_reach (t := { s with main := .failed e }) (Reach.single (a := .main)
      rfl ?_) (CanReach.of_goal ⟨e, rfl⟩)
    simp [Pipeline.step, hmain, hjoin, hptr]
  | failed x => exact CanReach.of_goal ⟨x, hmain⟩
  | completed => exact absurd (hi.completed hmain) hhandled

/-! ### The abort flag and the tracker -/

/-- The abort flag is never cleared. -/
theorem abortFlag_of_step {a : Action} (h : s.step P a = some t)
    (ha : s.ctx.abortFlag = true) : t.ctx.abortFlag = true := by
  cases a with
  | producer f =>
    rcases step_producer_cases h with ⟨pc, th, v, -, -, rfl⟩ | ⟨e, -, -, rfl⟩ | ⟨e, -, -, rfl⟩
    · exact ha
    · rfl
    · exact ha
  | stage f =>
    rcases step_stage_cases h with ⟨pc, th, v, -, -, rfl⟩ | ⟨e, -, -, rfl⟩ | ⟨e, -, -, rfl⟩
    · exact ha
    · rfl
    · exact ha
  | consumer f =>
    rcases step_consumer_cases h with ⟨pc, th, v, -, -, rfl⟩ | ⟨e, -, -, rfl⟩ | ⟨e, -, -, rfl⟩
    · exact ha
    · rfl
    · exact ha
  | tracker f =>
    rcases step_tracker_cases h with ⟨pc, th, -, -, rfl⟩ | ⟨e, -, -, rfl⟩ | ⟨e, -, -, rfl⟩
    · exact ha
    · rfl
    · exact ha
  | main =>
    obtain ⟨-, -, ⟨e, -, rfl⟩ | ⟨-, rfl⟩⟩ := step_main_cases h
    · exact ha
    · exact ha

/-- After an abort, the failure can be reported exactly when all workers can return. -/
theorem canReach_failed_iff (hP : P.Sound) (hi : Slot s) (habort : s.ctx.abortFlag = true) :
    CanReach (step P) quiet (fun t => ∃ e, t.main = .failed e) s ↔
      CanReach (step P) quiet (fun t => t.joinable = true) s := by
  have hslot : ∀ {t}, Reach (step P) quiet s t → Slot t := fun h =>
    h.invariant (fun _ _ _ hu _ hstep => hu.step hP hstep) hi
  constructor
  · rintro ⟨t, ht, e, hmain⟩
    exact ⟨t, ht, (hslot ht).joined (by rw [hmain]; exact nofun)⟩
  · rintro ⟨t, ht, hjoin⟩
    refine CanReach.of_reach ht ((hslot ht).canReach_failed hjoin ?_)
    exact ht.invariant (I := fun u => u.ctx.abortFlag = true)
      (fun _ _ _ hu _ hstep => abortFlag_of_step hstep hu) habort

/-- The tracker prints values the counter has had, and returns only after an abort or at the
limit. -/
structure Tracked (limit : UInt32) (s : Pipeline capacity π γ ω₁ ω₂ κ) : Prop where
  print : ∀ c, s.tracker = .running (.print c) → c ≤ s.counter
  returned : s.tracker = .returned → s.ctx.abortFlag = true ∨ limit ≤ s.counter

/-- A step of another thread, as long as the counter does not wrap around. -/
theorem Tracked.of_eq {limit : UInt32} (hi : Tracked limit s) (htracker : t.tracker = s.tracker)
    (habort : s.ctx.abortFlag = true → t.ctx.abortFlag = true) (hle : s.counter ≤ t.counter) :
    Tracked limit t := by
  refine ⟨fun c hc => ?_, fun hret => ?_⟩
  · exact UInt32.le_trans (hi.print c (htracker ▸ hc)) hle
  · rcases hi.returned (htracker ▸ hret) with ha | hlim
    · exact Or.inl (habort ha)
    · exact Or.inr (UInt32.le_trans hlim hle)

theorem Tracked.next {limit c : UInt32} (hc : c ≤ s.counter)
    (ht : t.tracker = ProgressTracker.next limit c) (hcounter : t.counter = s.counter) :
    Tracked limit t := by
  unfold ProgressTracker.next at ht
  split_ifs at ht with hlim
  · refine ⟨fun c' h => ?_, fun _ => Or.inr ?_⟩
    · rw [ht] at h
      cases h
    · rw [hcounter]
      exact UInt32.le_trans hlim hc
  · refine ⟨fun c' h => ?_, fun h => ?_⟩
    · rw [ht] at h
      cases h
    · rw [ht] at h
      cases h

theorem Tracked.step_tracker (hslot : Slot s) (hi : Tracked P.limit s)
    (h : s.step P (.tracker f) = some t) : Tracked P.limit t := by
  rcases step_tracker_cases h with ⟨pc, th, hs, hmove, rfl⟩ | ⟨e, he, -, rfl⟩ | ⟨e, he, -, rfl⟩
  · cases hmove with
    | abort last hpc ha => exact ⟨fun c hc => (nomatch hc), fun _ => Or.inl ha⟩
    | goOn last hpc ha => exact ⟨fun c hc => (nomatch hc), fun h => (nomatch h)⟩
    | changed last hpc hc =>
      refine ⟨fun c hc => ?_, fun h => (nomatch h)⟩
      cases hc
      exact UInt32.le_refl _
    | same hpc => exact Tracked.next (UInt32.le_refl _) rfl rfl
    | printed current hpc => exact Tracked.next (hi.print current (hpc ▸ hs)) rfl rfl
    | fault current x hpc hf => exact ⟨fun c hc => (nomatch hc), fun h => (nomatch h)⟩
  · exact ⟨fun c hc => (nomatch hc), fun h => (nomatch h)⟩
  · -- the handler of the tracker has set the flag before
    refine ⟨fun c hc => (nomatch hc), fun _ => Or.inl ?_⟩
    refine hslot.abort.mpr (Or.inr (Or.inr (Or.inr (Or.inr ?_))))
    rw [he]
    rfl

end Pipeline

end Trit
