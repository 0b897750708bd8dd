import Trit.AbortedSender
import Trit.AbortedReceiver
import Trit.MonitoredSession

/-!
# Aborted sessions under fair scheduling

What becomes of the threads of a session once an abort flag is set, in infinite runs in which
anything may fail and every thread that can go on gets its turn.

* `Pipeline.restWork_lt`: after an abort every step lowers the work that is left, that of `main`
  included;
* `Sender.Hung`, `Receiver.Hung`: the states in which an aborted program waits for ever;
* `Sender.failed_or_hung`, `Receiver.failed_or_hung`: no other aborted state is without a step;
* `MonitoredSession.Scheduled`: what a fair session is in which anything may fail;
* `sender_winds_down`, `receiver_winds_down`: after an abort a program comes to rest, with its
  failure reported, or hung.
-/

namespace Trit

open Transition FileManager TransferManager

/-! ### A pipeline at rest -/

/-- A `push` that waits stands in front of a full queue. -/
theorem Call.full_of_push {capacity : ℕ} {ω π : Type} {abort : Bool} {v : View capacity ω}
    {c : Chunk} {k : Thread π} (h : (Call.push c k).run abort none v = none) :
    v.output.queue.queue.length = capacity := by
  refine Nat.le_antisymm v.output.queue.size_le (Nat.not_lt.mp fun hlt => ?_)
  obtain ⟨q, hq⟩ := BoundedThreadSafeQueue.exists_push hlt c
  cases (Option.map_eq_none_iff.mp h).symm.trans hq

namespace Pipeline

variable {capacity : ℕ} {π γ ω₁ ω₂ κ : Type} {P : Program π γ ω₁ ω₂ κ}
  {s t : Pipeline capacity π γ ω₁ ω₂ κ} {ρ : Thread π → ℕ} {σ : Thread γ → ℕ}

theorem main_eq_of_step {a : Action} (h : s.step P a = some t) (ha : a ≠ .main) :
    t.main = s.main := by
  cases a with
  | producer f =>
    rcases step_producer_cases h with ⟨pc, th, v, -, -, rfl⟩ | ⟨e, -, -, rfl⟩ | ⟨e, -, -, rfl⟩ <;>
      rfl
  | stage f =>
    rcases step_stage_cases h with ⟨pc, th, v, -, -, rfl⟩ | ⟨e, -, -, rfl⟩ | ⟨e, -, -, rfl⟩ <;> rfl
  | consumer f =>
    rcases step_consumer_cases h with ⟨pc, th, v, -, -, rfl⟩ | ⟨e, -, -, rfl⟩ | ⟨e, -, -, rfl⟩ <;>
      rfl
  | tracker f =>
    rcases step_tracker_cases h with ⟨pc, th, -, -, rfl⟩ | ⟨e, -, -, rfl⟩ | ⟨e, -, -, rfl⟩ <;> rfl
  | main => exact absurd rfl ha

/-- The work left after an abort, up to the report of `main`. -/
def restWork (ρ : Thread π → ℕ) (σ : Thread γ → ℕ) (s : Pipeline capacity π γ ω₁ ω₂ κ) : ℕ :=
  abortWork ρ σ s + if s.main = .joining then 1 else 0

/-- After an abort every step lowers the work that is left. -/
theorem restWork_lt {a : Action}
    (hproducer : ∀ {f pc th} {v v' : View capacity ω₁},
      (P.producer pc).run true f v = some (th, v') → ρ th < ρ (.running pc))
    (hconsumer : ∀ {f pc th} {v v' : View capacity ω₂},
      (P.consumer pc).run true f v = some (th, v') → σ th < σ (.running pc))
    (hρ : RanksHandler ρ) (hσ : RanksHandler σ) (habort : s.ctx.abortFlag = true)
    (h : s.step P a = some t) : restWork ρ σ t < restWork ρ σ s := by
  unfold restWork
  by_cases ha : a = .main
  · subst ha
    obtain ⟨hjoining, -, ⟨e, -, rfl⟩ | ⟨-, rfl⟩⟩ := step_main_cases h <;>
      simp [hjoining, abortWork]
  · rw [main_eq_of_step h ha]
    exact Nat.add_lt_add_right (abortWork_lt hproducer hconsumer hρ hσ ha habort h) _

/-- No thread can take a step in which nothing fails. -/
def AtRest (P : Program π γ ω₁ ω₂ κ) (s : Pipeline capacity π γ ω₁ ω₂ κ) : Prop :=
  ∀ a, a.quiet = true → s.step P a = none

/-- A thread at rest has returned, or its next operation is not possible. -/
theorem AtRest.producer (h : AtRest P s) : s.producer = .returned ∨
    ∃ pc, s.producer = .running pc ∧
      (P.producer pc).run s.ctx.shouldAbort none s.producerView = none := by
  have hrest := h (.producer none) rfl
  rcases s.producer.cases_thrown with ⟨pc, hs⟩ | hs | hs
  · refine Or.inr ⟨pc, hs, ?_⟩
    simpa [step, hs, Thread.step] using hrest
  · obtain ⟨th, ctx, hstep, -⟩ := exists_step_producer P hs
    cases hrest.symm.trans hstep
  · exact Or.inl hs

theorem AtRest.stage (h : AtRest P s) : s.stage = .returned ∨
    ∃ pc, s.stage = .running pc ∧
      (processChunks P.transform pc).run s.ctx.shouldAbort none s.stageView = none := by
  have hrest := h (.stage none) rfl
  rcases s.stage.cases_thrown with ⟨pc, hs⟩ | hs | hs
  · refine Or.inr ⟨pc, hs, ?_⟩
    simpa [step, hs, Thread.step] using hrest
  · obtain ⟨th, ctx, hstep, -⟩ := exists_step_stage P hs
    cases hrest.symm.trans hstep
  · exact Or.inl hs

theorem AtRest.consumer (h : AtRest P s) : s.consumer = .returned ∨
    ∃ pc, s.consumer = .running pc ∧
      (P.consumer pc).run s.ctx.shouldAbort none s.consumerView = none := by
  have hrest := h (.consumer none) rfl
  rcases s.consumer.cases_thrown with ⟨pc, hs⟩ | hs | hs
  · refine Or.inr ⟨pc, hs, ?_⟩
    simpa [step, hs, Thread.step] using hrest
  · obtain ⟨th, ctx, hstep, -⟩ := exists_step_consumer P hs
    cases hrest.symm.trans hstep
  · exact Or.inl hs

theorem AtRest.tracker (h : AtRest P s) : s.tracker = .returned := by
  have hrest := h (.tracker none) rfl
  rcases s.tracker.cases_thrown with ⟨pc, hs⟩ | hs | hs
  · have hnone : (ProgressTracker.start P.limit pc).run s.ctx.shouldAbort none s.trackerView =
        none := by
      simpa [step, hs, Thread.step] using hrest
    cases pc <;> cases hnone
  · obtain ⟨th, ctx, hstep, -⟩ := exists_step_tracker P hs
    cases hrest.symm.trans hstep
  · exact hs

/-- A stage at rest waits for room on its output. -/
theorem AtRest.stage_push (h : AtRest P s) : s.stage = .returned ∨
    ∃ m c, s.stage = .running (.push m c) ∧ s.downstream.queue.queue.length = capacity := by
  refine h.stage.imp id ?_
  rintro ⟨pc, hs, hnone⟩
  cases pc with
  | push m c => exact ⟨m, c, hs, Call.full_of_push hnone⟩
  | tryPop m =>
    simp only [Call.run, processChunks, Call.exec] at hnone
    split at hnone <;> cases hnone
  | transform m c =>
    have hio := Option.map_eq_none_iff.mp hnone
    dsimp only at hio
    split at hio <;> cases hio
  | _ => cases hnone

/-- A worker that has set the flag and returned has stored its exception. -/
theorem Slot.handled_ne_nil (hi : Slot s) (habort : s.ctx.abortFlag = true)
    (hjoin : s.joinable = true) : s.ctx.handled ≠ [] := by
  obtain ⟨hproducer, hstage, hconsumer, htracker⟩ := joinable_iff.mp hjoin
  have hraised := hi.abort.mp habort
  simpa [Raised, hproducer, hstage, hconsumer, htracker, Thread.raised] using hraised

/-- Once all workers have returned, `main` has looked at the slot, and after an abort it has found
an exception. -/
theorem Slot.failed_of_atRest (hi : Slot s) (h : AtRest P s) (habort : s.ctx.abortFlag = true)
    (hjoin : s.joinable = true) : ∃ e, s.main = .failed e := by
  cases hmain : s.main with
  | failed e => exact ⟨e, rfl⟩
  | completed => exact absurd (hi.completed hmain) (hi.handled_ne_nil habort hjoin)
  | joining =>
    have hrest := h .main rfl
    simp [Pipeline.step, hmain, hjoin] at hrest

/-- A main thread that has not got behind its joins still waits there. -/
theorem Slot.joining_of_not_joinable (hi : Slot s) (h : ¬ s.joinable = true) :
    s.main = .joining := by
  by_contra hmain
  exact h (hi.joined hmain)

theorem step_withSource (P : Program π γ ω₁ ω₂ κ) (s : Pipeline capacity π γ ω₁ ω₂ κ)
    (source : ω₁) {a : Action} (ha : ∀ f, a ≠ .producer f) :
    Pipeline.step P { s with source := source } a =
      (s.step P a).map fun t => { t with source := source } := by
  cases a with
  | producer f => exact absurd rfl (ha f)
  | stage f | consumer f | tracker f =>
    simp only [step, Option.map_map]
    rfl
  | main =>
    have hjoinable : ∀ m, joinable { s with source := source, main := m } = s.joinable :=
      fun _ => rfl
    cases hm : s.main with
    | joining =>
      simp only [step, hm, hjoinable]
      split_ifs <;> rfl
    | failed e | completed => simp [step, hm]

end Pipeline

/-! ### The sender -/

namespace Sender

variable {capacity : ℕ} {ss : SecretStream} {r : TransferRequest} {s : State capacity ss}

/-- The sender waits for ever: the encryptor inside `push`, behind a transmitter that has left, or
the chunker inside `push`, behind an encryptor that has left. -/
structure Hung (s : State capacity ss) : Prop where
  main : s.main = .joining
  tracker : s.tracker = .returned
  consumer : s.consumer = .returned
  blocked : (∃ m c, s.stage = .running (.push m c) ∧ s.downstream.queue.queue.length = capacity) ∨
    s.stage = .returned ∧ ∃ c l file n infos,
      s.producer = .running (.push c l file n infos) ∧ s.upstream.queue.queue.length = capacity

/-- An aborted sender at rest has reported its failure, or hangs. -/
theorem failed_or_hung (hi : s.Slot) (habort : s.ctx.abortFlag = true)
    (h : Pipeline.AtRest (program ss r) s) : (∃ e, s.main = .failed e) ∨ Hung s := by
  have hconsumer : s.consumer = .returned := by
    rcases h.consumer with hs | ⟨pc, hs, hnone⟩
    · exact hs
    · obtain ⟨t, v, hrun, -⟩ := sendChunks_abort_progress s.consumerView pc
      rw [show s.ctx.shouldAbort = true from habort] at hnone
      cases hnone.symm.trans hrun
  by_cases hjoin : s.joinable = true
  · exact Or.inl (hi.failed_of_atRest h habort hjoin)
  refine Or.inr ⟨hi.joining_of_not_joinable hjoin, h.tracker, hconsumer, ?_⟩
  rcases h.stage_push with hstage | hstage
  · refine Or.inr ⟨hstage, ?_⟩
    rcases h.producer with hs | ⟨pc, hs, hnone⟩
    · exact absurd (Pipeline.joinable_iff.mpr ⟨hs, hstage, hconsumer, h.tracker⟩) hjoin
    · cases pc with
      | push c l file n infos => exact ⟨c, l, file, n, infos, hs, Call.full_of_push hnone⟩
      | nextFile l infos => cases infos <;> cases hnone
      | _ => cases hnone
  · exact Or.inl hstage

/-- The work left after an abort, up to the report of `main`. -/
def restWork (s : State capacity ss) : ℕ := Pipeline.restWork readAbortRank sendAbortRank s

theorem restWork_lt {t : State capacity ss} {a : Action} (habort : s.ctx.abortFlag = true)
    (h : step r s a = some t) : restWork t < restWork s :=
  Pipeline.restWork_lt (fun hrun => readAbortRank_lt (readMove_of_run hrun))
    (fun hrun => sendAbortRank_lt (sendMove_of_run hrun))
    (fun _ => by simp [readAbortRank]) (fun _ => by simp [sendAbortRank]) habort h

end Sender

/-! ### The receiver -/

namespace TransferManager

/-- A program that waits for bytes only as long as the connection is open. -/
structure Patient {α : Type} (m : SocketM α) : Prop where
  framed : Framed m
  waits : ∀ {s}, m s = none → s.closed = false

theorem Patient.bind {α β : Type} {m : SocketM α} {f : α → SocketM β} (hm : Patient m)
    (hf : ∀ a, Patient (f a)) : Patient (m >>= f) where
  framed := hm.framed.bind fun a => (hf a).framed
  waits := by
    intro s h
    cases hms : (m s : Option (Except Exception (α × Incoming))) with
    | none => exact hm.waits hms
    | some x =>
      cases x with
      | error e => cases (bind_of_error hms).symm.trans h
      | ok x =>
        rw [← (hm.framed.ok hms).1]
        exact (hf x.1).waits ((bind_of_ok hms).symm.trans h)

theorem Patient.read (n : ℕ) : Patient (TransferManager.read n) where
  framed := .read n
  waits := by
    intro s h
    unfold TransferManager.read at h
    split_ifs at h with hn hc
    exact Bool.eq_false_iff.mpr hc

theorem Patient.pure {α : Type} (a : α) : Patient (pure a : SocketM α) where
  framed := .pure a
  waits := by
    intro s h
    cases h

theorem Patient.receiveChunk : Patient TransferManager.receiveChunk := by
  refine (read 8).bind fun _ => (read 1).bind fun _ => (read 2).bind fun _ =>
    (read 2).bind fun _ => (read _).bind fun _ => ?_
  split_ifs
  · exact pure _
  · exact pure _

end TransferManager

namespace Receiver

variable {capacity : ℕ} {ss : SecretStream} {r : TransferRequest} {s : State capacity ss}

/-- The receiver waits for ever: each worker has returned, or waits for what the others do not
provide any more, the writer for a chunk, or the chunk receiver for its peer. -/
structure Hung (s : State capacity ss) : Prop where
  main : s.main = .joining
  tracker : s.tracker = .returned
  consumer : s.consumer = .returned ∨
    ∃ pc, s.consumer = .running pc ∧ pc.blocking = true ∧ s.downstream.queue.queue = []
  stage : s.stage = .returned ∨
    ∃ m c, s.stage = .running (.push m c) ∧ s.downstream.queue.queue.length = capacity
  producer : s.producer = .returned ∨
    (∃ c i, s.producer = .running (.push c i) ∧ s.upstream.queue.queue.length = capacity) ∨
    ∃ i, s.producer = .running (.read i) ∧ s.source.closed = false
  waits : s.joinable = false

/-- A hung receiver hangs on as long as the connection stays open. -/
theorem Hung.withSource {source : Incoming} (h : Hung s)
    (hopen : s.source.closed = false → source.closed = false) :
    Hung ({ s with source := source } : State capacity ss) := by
  refine ⟨h.main, h.tracker, h.consumer, h.stage, h.producer.imp id (Or.imp id ?_), h.waits⟩
  rintro ⟨i, hs, hclosed⟩
  exact ⟨i, hs, hopen hclosed⟩

/-- An aborted receiver at rest has reported its failure, or hangs. -/
theorem failed_or_hung (hi : s.Slot) (habort : s.ctx.abortFlag = true)
    (h : Pipeline.AtRest (program ss r) s) : (∃ e, s.main = .failed e) ∨ Hung s := by
  by_cases hjoin : s.joinable = true
  · exact Or.inl (hi.failed_of_atRest h habort hjoin)
  refine Or.inr ⟨hi.joining_of_not_joinable hjoin, h.tracker, ?_, h.stage_push, ?_,
    Bool.eq_false_iff.mpr hjoin⟩
  · refine h.consumer.imp id ?_
    rintro ⟨pc, hs, hnone⟩
    have hblocked : pc.blocking = true ∧ s.downstream.queue.queue = [] := by
      by_contra hgo
      have hready : pc.blocking = true → s.consumerView.input.queue.queue ≠ [] :=
        fun hb hempty => hgo ⟨hb, hempty⟩
      obtain ⟨t, v, hrun⟩ := exists_run r s.ctx.shouldAbort hready
      cases hnone.symm.trans hrun
    exact ⟨pc, hs, hblocked⟩
  · refine h.producer.imp id ?_
    rintro ⟨pc, hs, hnone⟩
    cases pc with
    | push c i => exact Or.inl ⟨c, i, hs, Call.full_of_push hnone⟩
    | read i =>
      refine Or.inr ⟨i, hs, Patient.receiveChunk.waits ?_⟩
      have hio := Option.map_eq_none_iff.mp hnone
      exact Option.map_eq_none_iff.mp hio
    | loop i =>
      simp only [program, receiveChunks] at hnone
      split_ifs at hnone <;> cases hnone

/-- The work left after an abort, up to the report of `main`. -/
def restWork (r : TransferRequest) (s : State capacity ss) : ℕ :=
  Pipeline.restWork receiveAbortRank (writeAbortRank r) s

theorem restWork_lt {t : State capacity ss} {a : Action} (habort : s.ctx.abortFlag = true)
    (h : step r s a = some t) : restWork r t < restWork r s :=
  Pipeline.restWork_lt (fun hrun => receiveAbortRank_lt (receiveMove_of_run hrun))
    (fun hrun => writeAbortRank_lt (writeMove_of_run hrun))
    (fun _ => by simp [receiveAbortRank]) (fun _ => by simp [writeAbortRank]) habort h

end Receiver

/-! ### Sessions -/

namespace Session

variable {capacity : ℕ} {ss : SecretStream} {r r' : TransferRequest} {disk : Disk} {st : ss.State}
  {start : FileSystem} {s t : Session capacity ss} {run : ℕ → Session capacity ss}
  {event : ℕ → Option Event}

theorem sender_eq_of_step {e : Event} (h : s.step r r' e = some t) (he : ∀ a, e ≠ .sender a) :
    t.sender = s.sender := by
  cases e with
  | sender a => exact absurd rfl (he a)
  | receiver a =>
    obtain ⟨u, -, rfl⟩ := Option.map_eq_some_iff.mp h
    rfl
  | arrive n | lose n =>
    obtain rfl := Option.some.inj h
    rfl
  | close =>
    simp only [step] at h
    split_ifs at h
    obtain rfl := Option.some.inj h
    rfl

/-- Nothing but its own steps changes the receiver, up to its socket, and an end of the connection
stays one. -/
theorem receiver_eq_of_step {e : Event} (h : s.step r r' e = some t) (he : ∀ a, e ≠ .receiver a) :
    t.receiver = { s.receiver with source := t.receiver.source } ∧
      (s.receiver.source.closed = true → t.receiver.source.closed = true) := by
  cases e with
  | sender a =>
    obtain ⟨u, -, rfl⟩ := Option.map_eq_some_iff.mp h
    exact ⟨rfl, id⟩
  | receiver a => exact absurd rfl (he a)
  | arrive n =>
    obtain rfl := Option.some.inj h
    exact ⟨rfl, id⟩
  | lose n =>
    obtain rfl := Option.some.inj h
    exact ⟨rfl, fun _ => rfl⟩
  | close =>
    simp only [step] at h
    split_ifs at h
    obtain rfl := Option.some.inj h
    exact ⟨rfl, fun _ => rfl⟩

/-- The exception slots of both sides are kept in every run. -/
theorem slots_of_reach
    (h : Reach (Session.step r r') any (Session.initial capacity r r' disk start st) s) :
    s.sender.Slot ∧ s.receiver.Slot := by
  refine h.invariant (I := fun u => u.sender.Slot ∧ u.receiver.Slot) (fun u e v hu _ hstep => ?_)
    ⟨Pipeline.Slot.initial _ _ _ _ _, Pipeline.Slot.initial _ _ _ _ _⟩
  cases e with
  | sender a =>
    obtain ⟨w, hw, rfl⟩ := Option.map_eq_some_iff.mp hstep
    exact ⟨hu.1.step (Sender.program_sound r) hw, hu.2⟩
  | receiver a =>
    obtain ⟨w, hw, rfl⟩ := Option.map_eq_some_iff.mp hstep
    exact ⟨hu.1, hu.2.step (Receiver.program_sound r') hw⟩
  | arrive n | close | lose n =>
    rw [sender_eq_of_step hstep (by simp), (receiver_eq_of_step hstep (by simp)).1]
    exact ⟨hu.1, Receiver.slot_withSource hu.2⟩

theorem sender_rests (hrun : Run (Session.step r r') any run event)
    (hfair : ∀ a, a.quiet = true →
      Fair (Session.step r r') any (fun _ e => e = .sender a) run event) {n : ℕ}
    (habort : (run n).sender.ctx.abortFlag = true) :
    ∃ N, n ≤ N ∧ (∀ m, N ≤ m → (run m).sender = (run N).sender) ∧
      (run N).sender.ctx.abortFlag = true ∧
        Pipeline.AtRest (Sender.program ss r) (run N).sender := by
  have hkeeps : ∀ (s : Session capacity ss) e t, s.sender.ctx.abortFlag = true → any s e →
      Session.step r r' s e = some t → t.sender.ctx.abortFlag = true := by
    intro s e t hs _ h
    by_cases he : ∃ a, e = .sender a
    · obtain ⟨a, rfl⟩ := he
      obtain ⟨u, hu, rfl⟩ := Option.map_eq_some_iff.mp h
      exact Pipeline.abortFlag_of_step hu hs
    · rw [sender_eq_of_step h (not_exists.mp he)]
      exact hs
  obtain ⟨N, hN, hrest⟩ := hrun.exists_rest (A := fun e => ∃ a, e = .sender a)
    (fun s => Sender.restWork s.sender) hkeeps
    (fun s e t hs _ h => by
      by_cases he : ∃ a, e = .sender a
      · obtain ⟨a, rfl⟩ := he
        obtain ⟨u, hu, rfl⟩ := Option.map_eq_some_iff.mp h
        have hlt : Sender.restWork u < Sender.restWork s.sender := Sender.restWork_lt hs hu
        exact ⟨hlt.le, fun _ => hlt⟩
      · rw [sender_eq_of_step h (not_exists.mp he)]
        exact ⟨le_refl _, fun hA => absurd hA he⟩) habort
  have hsame : ∀ m, N ≤ m → (run m).sender = (run N).sender := fun m hm =>
    hrun.eq_of_rest hrest Session.sender
      (fun _ _ _ _ h he => sender_eq_of_step h (not_exists.mp he)) hm
  refine ⟨N, hN, hsame, (hrun.reach hN).invariant hkeeps habort, fun a ha => ?_⟩
  obtain ⟨m, -, hm, hdisabled⟩ := (hfair a ha).exists_disabled
    (fun m e hm he htask => hrest m e hm he ⟨a, htask⟩) N
  rw [← hsame m hm]
  cases hstep : Pipeline.step (Sender.program ss r) (run m).sender a with
  | none => rfl
  | some u =>
    exact absurd ⟨.sender a, _, rfl, trivial, Option.map_eq_some_iff.mpr ⟨u, hstep, rfl⟩⟩ hdisabled

theorem closed_of_le {N m m' : ℕ} (hrun : Run (Session.step r r') any run event)
    (hrest : ∀ m e, N ≤ m → event m = some e → ¬ ∃ a, e = .receiver a) (hm : N ≤ m)
    (hle : m ≤ m') (h : (run m).receiver.source.closed = true) :
    (run m').receiver.source.closed = true := by
  induction m', hle using Nat.le_induction with
  | base => exact h
  | succ l hl ih =>
    rcases hrun l with ⟨-, hsame⟩ | ⟨e, he, -, hstep⟩
    · rw [hsame]
      exact ih
    · exact (receiver_eq_of_step hstep (not_exists.mp (hrest l e (hm.trans hl) he))).2 ih

/-- After an abort the receiver comes to rest, but for what arrives at its socket. -/
theorem receiver_rests (hrun : Run (Session.step r r') any run event)
    (hfair : ∀ a, a.quiet = true →
      Fair (Session.step r r') any (fun _ e => e = .receiver a) run event) {n : ℕ}
    (habort : (run n).receiver.ctx.abortFlag = true) :
    ∃ N, n ≤ N ∧ (∀ m, N ≤ m →
        (run m).receiver = { (run N).receiver with source := (run m).receiver.source }) ∧
      (∀ m m', N ≤ m → m ≤ m' → (run m).receiver.source.closed = true →
        (run m').receiver.source.closed = true) ∧
      (run N).receiver.ctx.abortFlag = true ∧
        ∀ k, ∃ m, k ≤ m ∧ N ≤ m ∧ Pipeline.AtRest (Receiver.program ss r') (run m).receiver := by
  have hwork : ∀ (s : Receiver.State capacity ss) (source : Incoming),
      Receiver.restWork r' { s with source := source } = Receiver.restWork r' s := fun _ _ => rfl
  have hkeeps : ∀ (s : Session capacity ss) e t, s.receiver.ctx.abortFlag = true → any s e →
      Session.step r r' s e = some t → t.receiver.ctx.abortFlag = true := by
    intro s e t hs _ h
    by_cases he : ∃ a, e = .receiver a
    · obtain ⟨a, rfl⟩ := he
      obtain ⟨u, hu, rfl⟩ := Option.map_eq_some_iff.mp h
      exact Pipeline.abortFlag_of_step hu hs
    · rw [(receiver_eq_of_step h (not_exists.mp he)).1]
      exact hs
  obtain ⟨N, hN, hrest⟩ := hrun.exists_rest (A := fun e => ∃ a, e = .receiver a)
    (fun s => Receiver.restWork r' s.receiver) hkeeps
    (fun s e t hs _ h => by
      by_cases he : ∃ a, e = .receiver a
      · obtain ⟨a, rfl⟩ := he
        obtain ⟨u, hu, rfl⟩ := Option.map_eq_some_iff.mp h
        have hlt : Receiver.restWork r' u < Receiver.restWork r' s.receiver :=
          Receiver.restWork_lt hs hu
        exact ⟨hlt.le, fun _ => hlt⟩
      · rw [(receiver_eq_of_step h (not_exists.mp he)).1, hwork]
        exact ⟨le_refl _, fun hA => absurd hA he⟩) habort
  have hsame : ∀ m, N ≤ m →
      (run m).receiver = { (run N).receiver with source := (run m).receiver.source } := by
    intro m hm
    have hthreads := hrun.eq_of_rest hrest
      (fun s : Session capacity ss => { s.receiver with source := (⟨[], true⟩ : Incoming) })
      (fun _ _ _ _ h he => by rw [(receiver_eq_of_step h (not_exists.mp he)).1]) hm
    exact congrArg (fun u : Receiver.State capacity ss =>
      { u with source := (run m).receiver.source }) hthreads
  have hdisabled : ∀ a, a.quiet = true → ∀ k, ∃ m, k ≤ m ∧ N ≤ m ∧
      Pipeline.step (Receiver.program ss r') (run m).receiver a = none := by
    intro a ha k
    obtain ⟨m, hk, hm, hnot⟩ := (hfair a ha).exists_disabled
      (fun m e hm he htask => hrest m e hm he ⟨a, htask⟩) k
    refine ⟨m, hk, hm, ?_⟩
    cases hstep : Pipeline.step (Receiver.program ss r') (run m).receiver a with
    | none => rfl
    | some u =>
      exact absurd ⟨.receiver a, _, rfl, trivial, Option.map_eq_some_iff.mpr ⟨u, hstep, rfl⟩⟩ hnot
  refine ⟨N, hN, hsame, fun m m' hm hle => closed_of_le hrun hrest hm hle,
    (hrun.reach hN).invariant hkeeps habort, fun k => ?_⟩
  obtain ⟨m, hk, hm, hproducer⟩ := hdisabled (.producer none) rfl k
  refine ⟨m, hk, hm, fun a ha => ?_⟩
  by_cases hp : ∃ f, a = .producer f
  · obtain ⟨f, rfl⟩ := hp
    obtain rfl : f = none := by simpa [Action.quiet] using ha
    exact hproducer
  · -- what the others do does not depend on the socket
    obtain ⟨l, -, hl, hnone⟩ := hdisabled a ha N
    rw [hsame l hl, Pipeline.step_withSource _ _ _ (not_exists.mp hp)] at hnone
    rw [hsame m hm, Pipeline.step_withSource _ _ _ (not_exists.mp hp),
      Option.map_eq_none_iff.mp hnone]
    rfl

end Session

/-! ### Sessions with monitors -/

/-- No thread can run a section in which nothing fails. -/
def MonitoredPipeline.idle {capacity : ℕ} {π γ ω₁ ω₂ κ : Type} (P : Program π γ ω₁ ω₂ κ)
    (s : MonitoredPipeline capacity π γ ω₁ ω₂ κ) : Bool :=
  [Action.producer none, .stage none, .consumer none, .tracker none, .main].all fun a =>
    [none, some .pusher, some .popper].all fun wake => (s.step P (.enter a wake)).isNone

theorem MonitoredPipeline.step_of_idle {capacity : ℕ} {π γ ω₁ ω₂ κ : Type}
    {P : Program π γ ω₁ ω₂ κ} {s : MonitoredPipeline capacity π γ ω₁ ω₂ κ}
    (h : s.idle P = true) {a : Action} (ha : a.quiet = true) (wake : Option End) :
    s.step P (.enter a wake) = none := by
  have hmem : a ∈ [Action.producer none, .stage none, .consumer none, .tracker none, .main] := by
    cases a <;> simp_all [Action.quiet]
  have hwake : wake ∈ [none, some End.pusher, some .popper] := by
    rcases wake with - | (- | -) <;> simp
  exact Option.isNone_iff_eq_none.mp (List.all_eq_true.mp (List.all_eq_true.mp h a hmem) wake hwake)

namespace MonitoredSession

variable {capacity : ℕ} {ss : SecretStream} {r r' : TransferRequest} {disk : Disk} {st : ss.State}
  {start : FileSystem} {run : ℕ → MonitoredSession capacity ss} {event : ℕ → Option MonitoredEvent}

/-- An infinite session with monitors in which anything may fail, and no thread that can run a
section waits for ever. -/
structure Scheduled (r r' : TransferRequest) (run : ℕ → MonitoredSession capacity ss)
    (event : ℕ → Option MonitoredEvent) : Prop where
  isRun : Run (step r r') any run event
  sender : ∀ a, a.quiet = true →
    Fair (step r r') any (fun _ e => ∃ wake, e = .sender (.enter a wake)) run event
  receiver : ∀ a, a.quiet = true →
    Fair (step r r') any (fun _ e => ∃ wake, e = .receiver (.enter a wake)) run event

namespace Scheduled

theorem isRun_seen (hsch : Scheduled r r' run event) :
    Run (step r r') (seen toSession MonitoredEvent.label any) run event := by
  rw [seen_any]
  exact hsch.isRun

variable (hsch : Scheduled r r' run event) (hlinked : (run 0).Linked r r')

include hsch hlinked

/-- A session with monitors is seen as a session that is fair to the same threads. -/
theorem fair_sender {a : Action} (ha : a.quiet = true) :
    Fair (Session.step r r') any (fun _ e => e = .sender a) (fun n => (run n).toSession)
      (observed (Session.step r r') toSession MonitoredEvent.label run event) := by
  refine (refines r r').fair hsch.isRun_seen hlinked ?_ ?_
  · rintro s b b' rfl rfl hnone
    exact hnone
  · rw [seen_any]
    exact (hsch.sender a ha).congr fun s e => by simp [shown, label_eq_sender]

theorem fair_receiver {a : Action} (ha : a.quiet = true) :
    Fair (Session.step r r') any (fun _ e => e = .receiver a) (fun n => (run n).toSession)
      (observed (Session.step r r') toSession MonitoredEvent.label run event) := by
  refine (refines r r').fair hsch.isRun_seen hlinked ?_ ?_
  · rintro s b b' rfl rfl hnone
    exact hnone
  · rw [seen_any]
    exact (hsch.receiver a ha).congr fun s e => by simp [shown, label_eq_receiver]

end Scheduled

/-- The run that is seen starts at the start of all threads. -/
theorem toSession_initial (hzero : run 0 = initial capacity r r' disk start st) :
    (run 0).Linked r r' ∧ (run 0).toSession = Session.initial capacity r r' disk start st := by
  rw [hzero]
  exact ⟨.start r r' disk start st, rfl⟩

/-- The chunker cannot open the file, and every thread of the sender leaves; the writer of the
receiver sleeps, and its other threads leave when the connection is closed. -/
def failedOpen : List MonitoredEvent :=
  [.sender (.enter (.producer none) none),
    .sender (.enter (.producer (some ⟨.systemError "open", 0⟩)) none),
    .sender (.enter (.producer none) none), .sender (.enter (.producer none) none),
    .sender (.enter (.stage none) none), .sender (.enter (.stage none) none),
    .sender (.enter (.consumer none) none), .sender (.enter (.tracker none) none),
    .sender (.enter .main none), .close, .receiver (.enter (.consumer none) none),
    .receiver (.enter (.producer none) none), .receiver (.enter (.producer none) none),
    .receiver (.enter (.producer none) none), .receiver (.enter (.producer none) none),
    .receiver (.enter (.stage none) none), .receiver (.enter (.stage none) none),
    .receiver (.enter (.tracker none) none)]

/-- The session with the failed `open` is fair; at its end both sides are aborted, and only the
sender has reported it. -/
theorem scheduled_failedOpen : ∃ (run : ℕ → MonitoredSession Sender.queueCapacity .counting)
    (event : ℕ → Option MonitoredEvent) (t : MonitoredSession Sender.queueCapacity .counting),
    Scheduled Sender.oneByteRequest Sender.oneByteRequest run event ∧ run 0 = oneByteInitial ∧
      (∀ n, failedOpen.length ≤ n → run n = t) ∧ t.sender.ctx.abortFlag = true ∧
      t.receiver.ctx.abortFlag = true ∧ t.sender.main ≠ .joining ∧ t.receiver.main = .joining := by
  have hexec : (exec (step Sender.oneByteRequest Sender.oneByteRequest) oneByteInitial
      failedOpen).map (fun s => decide ((s.sender.ctx.abortFlag = true ∧
        s.receiver.ctx.abortFlag = true ∧ s.sender.main ≠ .joining ∧ s.receiver.main = .joining) ∧
          s.sender.idle (Sender.program _ Sender.oneByteRequest) = true ∧
            s.receiver.idle (Receiver.program _ Sender.oneByteRequest) = true)) = some true := by
    decide +kernel
  obtain ⟨t, ht, htest⟩ := Option.map_eq_some_iff.mp hexec
  obtain ⟨hstate, hsender, hreceiver⟩ := of_decide_eq_true htest
  obtain ⟨run, event, hrun, hzero, hend⟩ := exists_run (fun _ _ _ => trivial) ht
  refine ⟨run, event, t, ⟨hrun, fun a ha => ?_, fun a ha => ?_⟩, hzero, hend, hstate⟩
  · refine Fair.of_final hend ?_
    rintro ⟨e, u, ⟨wake, rfl⟩, -, hstep⟩
    obtain ⟨w, hw, -⟩ := Option.map_eq_some_iff.mp hstep
    cases (MonitoredPipeline.step_of_idle hsender ha wake).symm.trans hw
  · refine Fair.of_final hend ?_
    rintro ⟨e, u, ⟨wake, rfl⟩, -, hstep⟩
    obtain ⟨w, hw, -⟩ := Option.map_eq_some_iff.mp hstep
    cases (MonitoredPipeline.step_of_idle hreceiver ha wake).symm.trans hw

/-- An aborted sender winds down.  Whatever the files and the schedule, and whatever fails: once the
abort flag is set, a sender whose threads all get their turn comes to rest, and then it has reported
a failure, or it hangs: the encryptor waits in `push` behind a transmitter that has left, or the
chunker behind an encryptor that has left.  A write to the socket returns or throws; it does not
wait for a peer that does not read. -/
theorem sender_winds_down (hsch : Scheduled r r' run event)
    (hzero : run 0 = initial capacity r r' disk start st) {n : ℕ}
    (habort : (run n).sender.ctx.abortFlag = true) :
    ∃ N, n ≤ N ∧ (∀ m, N ≤ m → (run m).sender.toPipeline = (run N).sender.toPipeline) ∧
      ((∃ e, (run N).sender.main = .failed e) ∨ Sender.Hung (run N).sender.toPipeline) := by
  obtain ⟨hlinked, hstart⟩ := toSession_initial hzero
  have hrun := (refines r r').isRun hsch.isRun_seen hlinked
  obtain ⟨N, hN, hsame, habortN, hrest⟩ :=
    Session.sender_rests hrun (fun _ ha => hsch.fair_sender hlinked ha) habort
  have hreach := hrun.reach (Nat.zero_le N)
  rw [hstart] at hreach
  exact ⟨N, hN, hsame,
    Sender.failed_or_hung (Session.slots_of_reach hreach).1 habortN hrest⟩

/-- The sender of the session with the failed `open` reports it. -/
theorem sender_winds_down_failedOpen :
    ∃ (run : ℕ → MonitoredSession Sender.queueCapacity .counting)
      (event : ℕ → Option MonitoredEvent),
      Scheduled Sender.oneByteRequest Sender.oneByteRequest run event ∧ run 0 = oneByteInitial ∧
        ∃ N, ∀ m, N ≤ m → ∃ e, (run m).sender.main = .failed e := by
  obtain ⟨run, event, t, hsch, hzero, hend, habort, -, hmain, -⟩ := scheduled_failedOpen
  refine ⟨run, event, hsch, hzero, ?_⟩
  obtain ⟨N, hN, hsame, ⟨e, he⟩ | hhung⟩ := sender_winds_down hsch hzero
    (show (run failedOpen.length).sender.ctx.abortFlag = true by rwa [hend _ (le_refl _)])
  · refine ⟨N, fun m hm => ⟨e, ?_⟩⟩
    have hthreads := congrArg Pipeline.main (hsame m hm)
    exact hthreads.trans he
  · refine absurd hhung.main ?_
    rwa [hend N hN]

/-- An aborted receiver winds down.  Whatever the requests and the schedule, however much arrives of
what the sender has written, and whatever fails: once the abort flag is set, a receiver whose
threads all get their turn comes to rest, and then it has reported a failure, or it hangs: the
writer waits for a chunk that nobody brings, a worker waits in `push` behind one that has left, or
the chunk receiver waits for bytes on a connection that is never closed. -/
theorem receiver_winds_down (hsch : Scheduled r r' run event)
    (hzero : run 0 = initial capacity r r' disk start st) {n : ℕ}
    (habort : (run n).receiver.ctx.abortFlag = true) :
    ∃ N, n ≤ N ∧ (∀ m, N ≤ m → (run m).receiver.toPipeline =
        { (run N).receiver.toPipeline with source := (run m).receiver.source }) ∧
      ((∃ e, (run N).receiver.main = .failed e) ∨
        ∀ m, N ≤ m → Receiver.Hung (run m).receiver.toPipeline) := by
  obtain ⟨hlinked, hstart⟩ := toSession_initial hzero
  have hrun := (refines r r').isRun hsch.isRun_seen hlinked
  obtain ⟨N, hN, hsame, hclosed, habortN, hrest⟩ :=
    Session.receiver_rests hrun (fun _ ha => hsch.fair_receiver hlinked ha) habort
  change ∀ m, N ≤ m → (run m).receiver.toPipeline =
    { (run N).receiver.toPipeline with source := (run m).receiver.source } at hsame
  refine ⟨N, hN, hsame, ?_⟩
  -- at rest the receiver has failed or hangs
  have hcases : ∀ m, N ≤ m →
      Pipeline.AtRest (Receiver.program ss r') (run m).receiver.toPipeline →
        (∃ e, (run N).receiver.main = .failed e) ∨ Receiver.Hung (run m).receiver.toPipeline := by
    intro m hm hm'
    have hreach := hrun.reach (Nat.zero_le m)
    rw [hstart] at hreach
    have habortm : (run m).receiver.toPipeline.ctx.abortFlag = true := by
      rw [hsame m hm]
      exact habortN
    refine (Receiver.failed_or_hung (Session.slots_of_reach hreach).2 habortm hm').imp ?_ id
    rintro ⟨e, he⟩
    have hmain := congrArg Pipeline.main (hsame m hm)
    exact ⟨e, hmain.symm.trans he⟩
  by_cases hfailed : ∃ e, (run N).receiver.main = .failed e
  · exact Or.inl hfailed
  refine Or.inr fun m hm => ?_
  obtain ⟨m', hle, hm', hatRest⟩ := hrest m
  have hhung := (hcases m' hm' hatRest).resolve_left hfailed
  have hopen : (run m').receiver.source.closed = false →
      (run m).receiver.source.closed = false := by
    intro hopen
    by_contra h
    cases hopen.symm.trans (hclosed m m' hm hle (Bool.not_eq_false _ ▸ h))
  have heq : (run m).receiver.toPipeline =
      { (run m').receiver.toPipeline with source := (run m).receiver.source } :=
    (hsame m hm).trans (congrArg (fun u : Receiver.State capacity ss =>
      { u with source := (run m).receiver.source }) (hsame m' hm')).symm
  rw [heq]
  exact hhung.withSource hopen

/-- The receiver of the session with the failed `open` hangs, its writer asleep. -/
theorem receiver_winds_down_failedOpen :
    ∃ (run : ℕ → MonitoredSession Sender.queueCapacity .counting)
      (event : ℕ → Option MonitoredEvent),
      Scheduled Sender.oneByteRequest Sender.oneByteRequest run event ∧ run 0 = oneByteInitial ∧
        ∃ N, ∀ m, N ≤ m → Receiver.Hung (run m).receiver.toPipeline := by
  obtain ⟨run, event, t, hsch, hzero, hend, -, habort, -, hmain⟩ := scheduled_failedOpen
  refine ⟨run, event, hsch, hzero, ?_⟩
  obtain ⟨N, hN, -, ⟨e, he⟩ | hhung⟩ := receiver_winds_down hsch hzero
    (show (run failedOpen.length).receiver.ctx.abortFlag = true by rwa [hend _ (le_refl _)])
  · rw [hend N hN, hmain] at he
    cases he
  · exact ⟨N, hhung⟩

end MonitoredSession

end Trit
