import Trit.StageProgress
import Trit.Lib.Fairness

/-!
# Fair pipelines

Why a pipeline in which nothing fails comes to its end when every thread gets its turn again and
again, although the stage and the tracker, and the consumer of a sender, poll: they go round their
loops without getting on with the work.

* `Channel.dry`, `Channel.cost`: a rank of workers that does not tell the points apart between
  which a worker polls;
* `stageLoad_move`, `trackCost_move`: a step of the stage or the tracker lowers its rank, or is one
  of a thread that polls;
* `Pipeline.Works`: what a pipeline has to satisfy;
* `Pipeline.Helps`: the thread that gets on with the work;
* `Pipeline.Works.directions`: fair runs come to the end of `main`, or get stuck.
-/

namespace Trit

open Transition

variable {capacity : ℕ} {π γ ω₁ ω₂ κ : Type}

/-! ### Polling -/

/-- Is there nothing to pop, and more to come? -/
def Channel.dry (c : Channel capacity) : Bool := c.queue.empty && !c.done

/-- Is the thread at one of these points? -/
def Thread.idles (idle : π → Bool) : Thread π → Bool
  | .running pc => idle pc
  | _ => false

/-- The rank of a worker; while its input is dry, the points between which it polls have one
rank. -/
def Channel.cost (rank : Bool → Thread π → ℕ) (idle : π → Bool) (c : Channel capacity)
    (t : Thread π) : ℕ :=
  if c.dry && t.idles idle then 6 else rank c.queue.empty t

theorem Channel.dry_iff {c : Channel capacity} :
    c.dry = true ↔ c.queue.queue = [] ∧ c.done = false := by
  simp [Channel.dry]

theorem Channel.dry_eq_false_iff {c : Channel capacity} :
    c.dry = false ↔ (c.queue.queue = [] → c.done = true) := by
  rw [← Bool.not_eq_true, Channel.dry_iff, not_and, Bool.not_eq_false]

section Cost

variable {rank : Bool → Thread π → ℕ} {idle : π → Bool} {c c' : Channel capacity} {t : Thread π}

theorem Channel.cost_of_dry (hdry : c.dry = true) (hidle : t.idles idle = true) :
    c.cost rank idle t = 6 := by
  rw [Channel.cost, hdry, hidle]
  rfl

theorem Channel.cost_of_not_dry (h : c.dry = false) :
    c.cost rank idle t = rank c.queue.empty t := by
  rw [Channel.cost, h]
  rfl

theorem Channel.cost_of_busy (h : t.idles idle = false) :
    c.cost rank idle t = rank c.queue.empty t := by
  rw [Channel.cost, h, Bool.and_false]
  rfl

/-- Between points at which a worker polls it gets on if its input is not dry. -/
theorem Channel.cost_lt_or_dry {t' : Thread π}
    (h : c.dry = false → rank c.queue.empty t' < rank c.queue.empty t) :
    c.cost rank idle t' < c.cost rank idle t ∨ c.dry = true := by
  cases hdry : c.dry with
  | true => exact Or.inr rfl
  | false =>
    left
    rw [Channel.cost_of_not_dry hdry, Channel.cost_of_not_dry hdry]
    exact h hdry

/-- New input, or its end, raises the rank of a worker by at most 4 for each chunk. -/
theorem Channel.cost_le
    (hrank : ∀ {q q' : BoundedThreadSafeQueue capacity Chunk}, q.queue <+: q'.queue →
      rank q'.empty t ≤ rank q.empty t + 4 * (q'.queue.length - q.queue.length))
    (hidle : t.idles idle = true → rank true t ≤ 6 ∧ rank false t ≤ 10)
    (hqueue : c.queue.queue <+: c'.queue.queue) (hdone : c.done = true → c'.done = true) :
    c'.cost rank idle t ≤
      c.cost rank idle t + 4 * (c'.queue.queue.length - c.queue.queue.length) := by
  cases hidles : t.idles idle with
  | false =>
    rw [Channel.cost_of_busy hidles, Channel.cost_of_busy hidles]
    exact hrank hqueue
  | true =>
    obtain ⟨htrue, hfalse⟩ := hidle hidles
    cases hdry : c.dry with
    | false =>
      -- an input that is not dry stays so
      have hdry' : c'.dry = false := by
        rw [Channel.dry_eq_false_iff] at hdry ⊢
        exact fun hnil => hdone (hdry (List.prefix_nil.mp (hnil ▸ hqueue)))
      rw [Channel.cost_of_not_dry hdry, Channel.cost_of_not_dry hdry']
      exact hrank hqueue
    | true =>
      rw [Channel.cost_of_dry hdry hidles]
      cases hdry' : c'.dry with
      | true =>
        rw [Channel.cost_of_dry hdry' hidles]
        exact Nat.le_add_right _ _
      | false =>
        rw [Channel.cost_of_not_dry hdry', (Channel.dry_iff.mp hdry).1, List.length_nil]
        cases he : c'.queue.empty with
        | true => exact htrue.trans (Nat.le_add_right _ _)
        | false =>
          have hpos : 0 < c'.queue.queue.length :=
            List.length_pos_iff.mpr fun hnil => by
              cases he.symm.trans (BoundedThreadSafeQueue.empty_iff.mpr hnil)
          omega

end Cost

/-! ### The stage -/

variable {transform : κ → Chunk → Except Exception (Chunk × κ)}

/-- What waits on the output of the stage stays there, and its end stays one. -/
theorem ProcessMove.output_prefix {abort : Bool} {f : Option Fault} {v v' : View capacity Unit}
    {pc : ProcessPc κ} {t : Thread (ProcessPc κ)} (h : ProcessMove transform abort f v pc t v') :
    v.output.queue.queue <+: v'.output.queue.queue ∧
      (v.output.done = true → v'.output.done = true) := by
  rcases h.output_cases with heq | ⟨c, q, hq, heq⟩ | heq
  · rw [heq]
    exact ⟨List.prefix_rfl, id⟩
  · rw [heq]
    refine ⟨?_, id⟩
    rw [(BoundedThreadSafeQueue.push_eq_some.mp hq).2.2]
    exact List.prefix_append _ _
  · rw [heq]
    exact ⟨List.prefix_rfl, fun _ => rfl⟩

/-- The rank of the stage. -/
def stageCost (c : Channel capacity) (t : Thread (ProcessPc κ)) : ℕ :=
  c.cost stageRank ProcessPc.idle t

theorem stageCost_le {c c' : Channel capacity} (hqueue : c.queue.queue <+: c'.queue.queue)
    (hdone : c.done = true → c'.done = true) (t : Thread (ProcessPc κ)) :
    stageCost c' t ≤ stageCost c t + 4 * (c'.queue.queue.length - c.queue.queue.length) := by
  refine Channel.cost_le (fun h => stageRank_le h t) (fun ht => ?_) hqueue hdone
  cases t with
  | running pc => cases pc <;> first | (simp [stageRank]; done) | cases ht
  | _ => cases ht

/-- The work left for the stage: a chunk on its input costs 40, one on its output 20. -/
def stageLoad (v : View capacity Unit) (t : Thread (ProcessPc κ)) : ℕ :=
  40 * v.input.queue.queue.length + stageCost v.input t + 20 * v.output.queue.queue.length

/-- An operation of the stage lowers its work, or is one of a stage that polls. -/
theorem stageLoad_move {v v' : View capacity Unit} {pc : ProcessPc κ} {t : Thread (ProcessPc κ)}
    (h : ProcessMove transform false none v pc t v')
    (hok : ∀ m c, pc = .transform m c → ∃ r, transform m c = .ok r) :
    stageLoad v' t < stageLoad v (.running pc) ∨
      v' = v ∧ v.input.dry = true ∧ pc.idle = true ∧ t.idles ProcessPc.idle = true := by
  have hbusy : ∀ (c : Channel capacity) (t : Thread (ProcessPc κ)),
      t.idles ProcessPc.idle = false → stageCost c t = stageRank c.queue.empty t :=
    fun c t => Channel.cost_of_busy
  have hturn : ∀ (c : Channel capacity) (m : κ), stageCost c (.running (.abortCheck m)) = 6 := by
    intro c m
    unfold stageCost Channel.cost
    split_ifs <;> rfl
  -- between the points at which the stage polls nothing but its rank changes
  have hpoll : ∀ t : Thread (ProcessPc κ), stageCost v.input t < stageCost v.input (.running pc) →
      stageLoad v t < stageLoad v (.running pc) := by
    intro t hlt
    unfold stageLoad
    omega
  cases h with
  | abort m hpc ha => cases ha
  | goOn m hpc =>
    subst hpc
    refine (Channel.cost_lt_or_dry fun _ => ?_).imp (hpoll _) fun hdry => ⟨rfl, hdry, rfl, rfl⟩
    simp [stageRank]
  | popped m c q hpc hq =>
    subst hpc
    left
    have hdry : v.input.dry = false := by
      rw [Channel.dry_eq_false_iff, (BoundedThreadSafeQueue.pop_eq_some.mp hq).1]
      intro hnil
      cases hnil
    have hcost : stageCost v.input (.running (.tryPop m : ProcessPc κ)) = 5 :=
      Channel.cost_of_not_dry hdry
    have hlen := BoundedThreadSafeQueue.length_of_pop hq
    unfold stageLoad
    rw [hbusy _ _ rfl, hcost]
    simp only [stageRank]
    omega
  | missed m hpc hq =>
    subst hpc
    refine (Channel.cost_lt_or_dry fun _ => ?_).imp (hpoll _) fun hdry => ⟨rfl, hdry, rfl, rfl⟩
    simp [stageRank, BoundedThreadSafeQueue.empty_iff.mpr hq]
  | transformed m m' c d hpc ht =>
    subst hpc
    left
    unfold stageLoad
    rw [hbusy _ _ rfl, hbusy _ _ rfl]
    simp [stageRank]
  | threw m c e hpc ht =>
    obtain ⟨r, hr⟩ := hok m c hpc
    cases hr.symm.trans ht
  | fault m c x hpc hf => cases hf
  | pushed m c q hpc hq =>
    subst hpc
    left
    have hlen := congrArg List.length (BoundedThreadSafeQueue.push_eq_some.mp hq).2.2
    rw [List.length_append, List.length_singleton] at hlen
    unfold stageLoad
    rw [hturn, hbusy _ _ rfl, hlen]
    simp only [stageRank]
    omega
  | doneSeen m hpc hd =>
    subst hpc
    have hcost : stageCost v.input (.running (.inputDone m : ProcessPc κ)) =
        stageRank v.input.queue.empty (.running (.inputDone m : ProcessPc κ)) :=
      Channel.cost_of_not_dry (Channel.dry_eq_false_iff.mpr fun _ => hd)
    refine Or.inl (hpoll _ ?_)
    rw [hcost, hbusy _ _ rfl]
    simp only [stageRank]
    split_ifs <;> omega
  | notDone m hpc hd =>
    subst hpc
    refine (Channel.cost_lt_or_dry fun hdry => ?_).imp (hpoll _) fun hdry => ⟨rfl, hdry, rfl, rfl⟩
    have hne : ¬ v.input.queue.empty = true := by
      intro hempty
      cases hd.symm.trans (Channel.dry_eq_false_iff.mp hdry
        (BoundedThreadSafeQueue.empty_iff.mp hempty))
    simp [stageRank, hne]
  | drained m hpc hq =>
    subst hpc
    refine Or.inl (hpoll _ ?_)
    rw [hbusy _ _ rfl, hbusy _ _ rfl]
    simp [stageRank, BoundedThreadSafeQueue.empty_iff.mpr hq]
  | more m hpc hq =>
    subst hpc
    have hne : ¬ v.input.queue.empty = true := mt BoundedThreadSafeQueue.empty_iff.mp hq
    refine Or.inl (hpoll _ ?_)
    rw [hturn, hbusy _ _ rfl]
    simp [stageRank, hne]
  | finished hpc =>
    subst hpc
    left
    unfold stageLoad
    rw [hbusy _ _ rfl, hbusy _ _ rfl]
    simp [stageRank]

/-! ### The tracker -/

/-- The rank of the tracker, which polls until the counter has reached the limit. -/
def trackCost (limit counter : UInt32) (t : Thread ProgressTracker.TrackPc) : ℕ :=
  if t = .returned then 0
  else if limit ≤ counter then ProgressTracker.trackRank limit t else 4

theorem trackCost_le (limit counter : UInt32) (t : Thread ProgressTracker.TrackPc) :
    trackCost limit counter t ≤ 4 := by
  unfold trackCost
  split_ifs
  · exact Nat.zero_le _
  · cases t with
    | running pc =>
      cases pc <;> simp only [ProgressTracker.trackRank] <;> (try split_ifs) <;> omega
    | _ => exact Nat.zero_le _
  · exact le_refl _

/-- An operation of the tracker lowers its rank, or is one of a tracker that polls. -/
theorem trackCost_move {limit : UInt32} {v : View capacity Unit} {pc : ProgressTracker.TrackPc}
    {t : Thread ProgressTracker.TrackPc}
    (h : ProgressTracker.TrackMove limit false none v pc t) :
    trackCost limit v.counter t < trackCost limit v.counter (.running pc) ∨
      ¬ limit ≤ v.counter ∧
        trackCost limit v.counter t = trackCost limit v.counter (.running pc) := by
  have hrunning : ∀ pc, (.running pc : Thread ProgressTracker.TrackPc) ≠ .returned := by simp
  by_cases hlimit : limit ≤ v.counter
  · left
    have hnext : ∀ current, trackCost limit v.counter (ProgressTracker.next limit current) ≤
        if limit ≤ current then 0 else 3 := by
      intro current
      unfold ProgressTracker.next trackCost
      split_ifs <;> simp [ProgressTracker.trackRank]
    have hcost : ∀ pc, trackCost limit v.counter (.running pc) =
        ProgressTracker.trackRank limit (.running pc) := by
      intro pc
      rw [trackCost, if_neg (hrunning pc), if_pos hlimit]
    rw [hcost]
    cases h with
    | abort last hpc ha => cases ha
    | goOn last hpc =>
      subst hpc
      rw [hcost]
      simp [ProgressTracker.trackRank]
    | changed last hpc hc =>
      subst hpc
      rw [hcost]
      simp [ProgressTracker.trackRank, hlimit]
    | same hpc =>
      subst hpc
      have hle := hnext v.counter
      rw [if_pos hlimit] at hle
      exact hle.trans_lt (by simp [ProgressTracker.trackRank])
    | printed current hpc =>
      subst hpc
      refine (hnext current).trans_lt ?_
      simp only [ProgressTracker.trackRank]
      split_ifs <;> omega
    | fault current x hpc hf => cases hf
  · have hcost : trackCost limit v.counter (.running pc) = 4 := by
      rw [trackCost, if_neg (hrunning pc), if_neg hlimit]
    by_cases ht : t = .returned
    · left
      rw [hcost, ht]
      exact Nat.zero_lt_succ 3
    · right
      refine ⟨hlimit, ?_⟩
      rw [hcost, trackCost, if_neg ht, if_neg hlimit]

/-! ### Directions for a pipeline -/

namespace Pipeline

variable {P : Program π γ ω₁ ω₂ κ} {ρ : Thread π → ℕ} {σ : Channel capacity → Thread γ → ℕ}
  {rests : Channel capacity → Thread γ → Prop} {Stuck I : Pipeline capacity π γ ω₁ ω₂ κ → Prop}
  {s t : Pipeline capacity π γ ω₁ ω₂ κ}

/-- What a pipeline with the invariant `I` has to satisfy to come to its end: `ρ` and `σ` are the
ranks of producer and consumer, and a consumer `rests` when it has nothing to do before the stage
gets on. -/
structure Works (P : Program π γ ω₁ ω₂ κ) (ρ : Thread π → ℕ) (σ : Channel capacity → Thread γ → ℕ)
    (rests : Channel capacity → Thread γ → Prop)
    (Stuck I : Pipeline capacity π γ ω₁ ω₂ κ → Prop) : Prop where
  keeps : ∀ s a t, I s → quiet s a → s.step P a = some t → I t
  abort : ∀ s, I s → s.ctx.shouldAbort = false
  not_threw : ∀ s, I s → ¬ s.Threw
  transform : ∀ s, I s → ∀ m c, s.stage = .running (.transform m c) →
    ∃ r, P.transform m c = .ok r
  producer : ∀ s pc th v, I s → s.producer = .running pc →
    (P.producer pc).run false none s.producerView = some (th, v) →
      ρ th + 45 * v.output.queue.queue.length <
        ρ (.running pc) + 45 * s.upstream.queue.queue.length
  exists_producer : ∀ s, I s → s.upstream.dry = true →
    ∃ pc th v, s.producer = .running pc ∧
      (P.producer pc).run false none s.producerView = some (th, v)
  consumer : ∀ s pc th v, I s → s.consumer = .running pc →
    (P.consumer pc).run false none s.consumerView = some (th, v) →
      16 * v.input.queue.queue.length + σ v.input th <
          16 * s.downstream.queue.queue.length + σ s.downstream (.running pc) ∨
        v = s.consumerView ∧ rests s.downstream (.running pc) ∧ rests s.downstream th ∧
          σ s.downstream th = σ s.downstream (.running pc)
  exists_consumer : ∀ s, I s → ¬ rests s.downstream s.consumer →
    ∃ pc th v, s.consumer = .running pc ∧
      (P.consumer pc).run false none s.consumerView = some (th, v)
  consumer_le : ∀ (c c' : Channel capacity) t, c.queue.queue <+: c'.queue.queue →
    (c.done = true → c'.done = true) →
      σ c' t ≤ σ c t + 4 * (c'.queue.queue.length - c.queue.queue.length)
  queue_eq_nil : ∀ s, I s → rests s.downstream s.consumer → s.downstream.queue.queue = []
  finished : ∀ s, I s → ¬ Stuck s → rests s.downstream s.consumer → s.stage = .returned →
    s.producer = .returned ∧ s.consumer = .returned ∧ P.limit ≤ s.counter

/-- The work left for the workers. -/
def load (ρ : Thread π → ℕ) (σ : Channel capacity → Thread γ → ℕ)
    (s : Pipeline capacity π γ ω₁ ω₂ κ) : ℕ :=
  ρ s.producer + 40 * s.upstream.queue.queue.length + stageCost s.upstream s.stage +
    16 * s.downstream.queue.queue.length + σ s.downstream s.consumer

/-- The work left for all threads. -/
def fairWork (P : Program π γ ω₁ ω₂ κ) (ρ : Thread π → ℕ) (σ : Channel capacity → Thread γ → ℕ)
    (s : Pipeline capacity π γ ω₁ ω₂ κ) : ℕ :=
  5 * load ρ σ s + trackCost P.limit s.counter s.tracker

/-- The thread that gets on with the work, downstream first: the consumer, else the stage, else
the producer; in the end the tracker, and then `main`. -/
inductive Helps (P : Program π γ ω₁ ω₂ κ) (rests : Channel capacity → Thread γ → Prop)
    (s : Pipeline capacity π γ ω₁ ω₂ κ) : Action → Prop
  | consumer (h : ¬ rests s.downstream s.consumer) : Helps P rests s (.consumer none)
  | stage (pc : ProcessPc κ) (hrests : rests s.downstream s.consumer) (hs : s.stage = .running pc)
      (hbusy : ¬ (s.upstream.dry = true ∧ pc.idle = true)) : Helps P rests s (.stage none)
  | producer (hdry : s.upstream.dry = true) (hidle : s.stage.idles ProcessPc.idle = true) :
      Helps P rests s (.producer none)
  | tracker (hstage : s.stage = .returned) (hlimit : P.limit ≤ s.counter)
      (hs : s.tracker ≠ .returned) : Helps P rests s (.tracker none)
  | main (hmain : s.main = .joining) (hjoin : s.joinable = true) : Helps P rests s .main

/-- Less work for the workers is less work, whatever the tracker makes of the counter. -/
theorem fairWork_lt (h : load ρ σ t < load ρ σ s) : fairWork P ρ σ t < fairWork P ρ σ s := by
  have hle := trackCost_le P.limit t.counter t.tracker
  unfold fairWork
  omega

namespace Works

variable (w : Works P ρ σ rests Stuck I)

include w

theorem thrown (hi : I s) : s.producer.thrown = false ∧ s.stage.thrown = false ∧
    s.consumer.thrown = false ∧ s.tracker.thrown = false := by
  have hnot := w.not_threw s hi
  unfold Threw at hnot
  simp only [not_or, Bool.not_eq_true] at hnot
  exact hnot.2

theorem step_producer {f : Option Fault} (hi : I s) (hq : (Action.producer f).quiet = true)
    (h : s.step P (.producer f) = some t) : fairWork P ρ σ t < fairWork P ρ σ s := by
  obtain ⟨pc, th, v, hs, hrun, rfl⟩ := step_producer_quiet hq (w.thrown hi).1 h
  rw [w.abort s hi] at hrun
  refine fairWork_lt ?_
  have hlt := w.producer s pc th v hi hs hrun
  have hqueue := Call.run_output_queue hrun
  have hcost := stageCost_le hqueue (Call.run_output hrun).2 s.stage
  have hlen := hqueue.length_le
  change stageCost v.output s.stage ≤ stageCost s.upstream s.stage +
    4 * (_ - s.upstream.queue.queue.length) at hcost
  change s.upstream.queue.queue.length ≤ _ at hlen
  unfold load
  dsimp only
  rw [hs]
  omega

/-- A step of the stage gets on with the work, or the stage polls. -/
theorem step_stage {f : Option Fault} (hi : I s) (hq : (Action.stage f).quiet = true)
    (h : s.step P (.stage f) = some t) : fairWork P ρ σ t < fairWork P ρ σ s ∨
      ∃ pc th, s.stage = .running pc ∧ pc.idle = true ∧ s.upstream.dry = true ∧
        th.idles ProcessPc.idle = true ∧ t = { s with stage := th } := by
  obtain ⟨pc, th, v, hs, hmove, rfl⟩ := step_stage_quiet hq (w.thrown hi).2.1 h
  rw [w.abort s hi] at hmove
  rcases stageLoad_move hmove fun m c hpc => w.transform s hi m c (hpc ▸ hs) with
    hlt | ⟨rfl, hdry, hidle, hidles⟩
  · left
    refine fairWork_lt ?_
    obtain ⟨hqueue, hdone⟩ := hmove.output_prefix
    have hle := w.consumer_le s.downstream v.output s.consumer hqueue hdone
    have hlen := hqueue.length_le
    unfold stageLoad at hlt
    change _ < 40 * s.upstream.queue.queue.length + stageCost s.upstream _ +
      20 * s.downstream.queue.queue.length at hlt
    change s.downstream.queue.queue.length ≤ _ at hlen
    unfold load
    dsimp only
    rw [hs]
    omega
  · exact Or.inr ⟨pc, th, hs, hidle, hdry, hidles, rfl⟩

/-- A step of the consumer gets on with the work, or the consumer polls. -/
theorem step_consumer {f : Option Fault} (hi : I s) (hq : (Action.consumer f).quiet = true)
    (h : s.step P (.consumer f) = some t) : fairWork P ρ σ t < fairWork P ρ σ s ∨
      ∃ pc th, s.consumer = .running pc ∧ rests s.downstream s.consumer ∧
        rests s.downstream th ∧ σ s.downstream th = σ s.downstream s.consumer ∧
        t = { s with consumer := th } := by
  obtain ⟨pc, th, v, hs, hrun, rfl⟩ := step_consumer_quiet hq (w.thrown hi).2.2.1 h
  rw [w.abort s hi] at hrun
  rcases w.consumer s pc th v hi hs hrun with hlt | ⟨rfl, hrests, hrests', hσ⟩
  · left
    refine fairWork_lt ?_
    unfold load
    dsimp only
    rw [hs]
    omega
  · rw [hs]
    exact Or.inr ⟨pc, th, rfl, hrests, hrests', hσ, rfl⟩

/-- A step of the tracker gets on with the work, or the tracker polls. -/
theorem step_tracker {f : Option Fault} (hi : I s) (hq : (Action.tracker f).quiet = true)
    (h : s.step P (.tracker f) = some t) : fairWork P ρ σ t < fairWork P ρ σ s ∨
      ∃ pc th, s.tracker = .running pc ∧ ¬ P.limit ≤ s.counter ∧
        fairWork P ρ σ t = fairWork P ρ σ s ∧ t = { s with tracker := th } := by
  obtain ⟨pc, th, hs, hmove, rfl⟩ := step_tracker_quiet hq (w.thrown hi).2.2.2 h
  rw [w.abort s hi] at hmove
  unfold fairWork load
  dsimp only
  rw [hs]
  rcases trackCost_move hmove with hlt | ⟨hlimit, heq⟩
  · exact Or.inl (Nat.add_lt_add_left hlt _)
  · exact Or.inr ⟨pc, th, rfl, hlimit, congrArg _ heq, rfl⟩

/-- A thread that helps can take a step. -/
theorem enabled (hcap : 1 ≤ capacity) {a : Action} (hi : I s) (h : Helps P rests s a) :
    Enabled (Pipeline.step P) quiet (fun _ b => b = a) s := by
  have habort := w.abort s hi
  cases h with
  | consumer hrests =>
    obtain ⟨pc, th, v, hs, hrun⟩ := w.exists_consumer s hi hrests
    rw [← habort] at hrun
    exact ⟨.consumer none, _, rfl, rfl, step_consumer_of_run P hs hrun⟩
  | stage pc hrests hs hbusy =>
    have hroom : s.stageView.output.queue.queue.length < capacity := by
      show s.downstream.queue.queue.length < capacity
      rw [w.queue_eq_nil s hi hrests]
      exact hcap
    obtain ⟨th, v, hrun, -⟩ := processChunks_progress
      (fun m c hpc => w.transform s hi m c (hpc ▸ hs)) hroom
      (fun he hd => Bool.eq_false_iff.mpr fun hpc =>
        hbusy ⟨Channel.dry_iff.mpr ⟨he, hd⟩, hpc⟩)
    rw [← habort] at hrun
    exact ⟨.stage none, _, rfl, rfl, step_stage_of_run P hs hrun⟩
  | producer hdry hidle =>
    obtain ⟨pc, th, v, hs, hrun⟩ := w.exists_producer s hi hdry
    rw [← habort] at hrun
    exact ⟨.producer none, _, rfl, rfl, step_producer_of_run P hs hrun⟩
  | tracker hstage hlimit hs =>
    obtain ⟨th, hstep, -⟩ := tracker_progress habort (w.thrown hi).2.2.2 hs hlimit
    exact ⟨.tracker none, _, rfl, rfl, hstep⟩
  | main hmain hjoin =>
    have hstep : ∃ t, s.step P .main = some t := by
      simp [Pipeline.step, hmain, hjoin]
    obtain ⟨t, ht⟩ := hstep
    exact ⟨.main, t, rfl, rfl, ht⟩

/-- Before the end some thread helps. -/
theorem exists_helps (hi : I s) (hmain : s.main = .joining) (hs : ¬ Stuck s) :
    ∃ a, Helps P rests s a := by
  by_cases hrests : rests s.downstream s.consumer
  swap
  · exact ⟨.consumer none, .consumer hrests⟩
  rcases Thread.cases_of_not_thrown (w.thrown hi).2.1 with ⟨pc, hstage⟩ | hstage
  · by_cases hidle : s.upstream.dry = true ∧ pc.idle = true
    · refine ⟨.producer none, .producer hidle.1 ?_⟩
      rw [hstage]
      exact hidle.2
    · exact ⟨.stage none, .stage pc hrests hstage hidle⟩
  · obtain ⟨hproducer, hconsumer, hlimit⟩ := w.finished s hi hs hrests hstage
    by_cases htracker : s.tracker = .returned
    · exact ⟨.main, .main hmain (joinable_iff.mpr ⟨hproducer, hstage, hconsumer, htracker⟩)⟩
    · exact ⟨.tracker none, .tracker hstage hlimit htracker⟩

/-- A step lowers the work, or is one of a thread that polls, and then the thread that helps is
another one, and goes on to help. -/
theorem lowers {a : Action} (hi : I s) (hq : quiet s a) (h : s.step P a = some t) :
    t.main ≠ .joining ∨ fairWork P ρ σ t < fairWork P ρ σ s ∨
      fairWork P ρ σ t ≤ fairWork P ρ σ s ∧
        ∀ b, Helps P rests s b → a ≠ b ∧ Helps P rests t b := by
  cases a with
  | producer f => exact Or.inr (Or.inl (w.step_producer hi hq h))
  | stage f =>
    right
    rcases w.step_stage hi hq h with hlt | ⟨pc, th, hs, hidle, hdry, hidles, rfl⟩
    · exact Or.inl hlt
    have hidles' : s.stage.idles ProcessPc.idle = true := by
      rw [hs]
      exact hidle
    refine Or.inr ⟨?_, fun b hb => ?_⟩
    · unfold fairWork load stageCost
      rw [Channel.cost_of_dry hdry hidles', Channel.cost_of_dry hdry hidles]
    cases hb with
    | consumer hrests => exact ⟨by simp, .consumer hrests⟩
    | stage pc' hrests hs' hbusy =>
      obtain rfl := Thread.running.inj (hs.symm.trans hs')
      exact absurd ⟨hdry, hidle⟩ hbusy
    | producer => exact ⟨by simp, .producer hdry hidles⟩
    | tracker hstage => cases hs.symm.trans hstage
    | main hmain hjoin => cases hs.symm.trans (joinable_iff.mp hjoin).2.1
  | consumer f =>
    right
    rcases w.step_consumer hi hq h with hlt | ⟨pc, th, hs, hrests, hrests', hσ, rfl⟩
    · exact Or.inl hlt
    refine Or.inr ⟨?_, fun b hb => ?_⟩
    · unfold fairWork load
      dsimp only
      rw [hσ]
    cases hb with
    | consumer hnot => exact absurd hrests hnot
    | stage pc' _ hs' hbusy => exact ⟨by simp, .stage pc' hrests' hs' hbusy⟩
    | producer hdry hidle => exact ⟨by simp, .producer hdry hidle⟩
    | tracker hstage hlimit ht => exact ⟨by simp, .tracker hstage hlimit ht⟩
    | main hmain hjoin => cases hs.symm.trans (joinable_iff.mp hjoin).2.2.1
  | tracker f =>
    right
    rcases w.step_tracker hi hq h with hlt | ⟨pc, th, hs, hlimit, heq, rfl⟩
    · exact Or.inl hlt
    refine Or.inr ⟨heq.le, fun b hb => ?_⟩
    cases hb with
    | consumer hrests => exact ⟨by simp, .consumer hrests⟩
    | stage pc' hrests hs' hbusy => exact ⟨by simp, .stage pc' hrests hs' hbusy⟩
    | producer hdry hidle => exact ⟨by simp, .producer hdry hidle⟩
    | tracker hstage hle => exact absurd hle hlimit
    | main hmain hjoin => cases hs.symm.trans (joinable_iff.mp hjoin).2.2.2
  | main =>
    left
    obtain ⟨-, -, ⟨e, -, rfl⟩ | ⟨-, rfl⟩⟩ := step_main_cases h
    · simp
    · simp

/-- Fair runs of such a pipeline come to the end of `main`, or get stuck. -/
def directions (hcap : 1 ≤ capacity) :
    Directions (Pipeline.step P) quiet (fun a _ b => b = a) I
      (fun s => s.main ≠ .joining ∨ Stuck s) where
  measure := fairWork P ρ σ
  Helps a s := Helps P rests s a
  keeps := w.keeps
  exists_helps s hi hG := by
    obtain ⟨hmain, hs⟩ := not_or.mp hG
    exact w.exists_helps hi (not_not.mp hmain) hs
  enabled a s hi h := w.enabled hcap hi h
  lowers s a t hi _ hq h := by
    rcases w.lowers hi hq h with hmain | hlt | hle
    · exact Or.inl (Or.inl hmain)
    · exact Or.inr (Or.inl hlt)
    · exact Or.inr (Or.inr hle)

end Works

end Pipeline

end Trit
