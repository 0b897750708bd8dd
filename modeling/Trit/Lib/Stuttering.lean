import Trit.Lib.Fairness

/-!
# Refinement up to stuttering

A system whose steps are finer than those of another: each of its events is seen as an action of
the coarse system or not at all, and an event that is seen may also come to nothing where the coarse
system has no such step.

* `Follows`: a step has been taken, or there was none and the state is the same;
* `Refines`: the fine system takes no other steps than the coarse one, and all of them;
* `Refines.reach_iff`: both have the same runs, whatever restricts them;
* `Refines.exists_exec`: a run of explicit actions;
* `Refines.isRun`, `Refines.fair`: an infinite run of the fine system, as the coarse one sees it,
  and weak fairness.
-/

namespace Transition

variable {σ α τ β : Type*} {step : σ → α → Option σ} {step' : τ → β → Option τ}
  {ok task : σ → α → Prop} {I : τ → Prop} {proj : τ → σ} {label : β → Option α}

/-- A step that has been taken, or a state left as it is because there is no step. -/
def Follows (next : Option σ) (s t : σ) : Prop := next = some t ∨ next = none ∧ t = s

theorem Follows.map {next : Option σ} {s t : σ} (h : Follows next s t) (f : σ → τ) :
    Follows (next.map f) (f s) (f t) := by
  rcases h with rfl | ⟨rfl, rfl⟩
  · exact Or.inl rfl
  · exact Or.inr ⟨rfl, rfl⟩

/-- A component has followed its step, so the whole has followed the step that contains it. -/
theorem Follows.lift {a : Option α} {f : α → Option σ} {g : β → Option τ} {inj : α → β} {s t : σ}
    (h : Follows (a.bind f) s t) (whole : σ → τ) (hg : ∀ a, g (inj a) = (f a).map whole) :
    Follows ((a.map inj).bind g) (whole s) (whole t) := by
  have hnext : (a.map inj).bind g = (a.bind f).map whole := by
    cases a with
    | none => rfl
    | some a => exact hg a
  rw [hnext]
  exact h.map whole

/-- The fine system in the states of an invariant: `proj` is the coarse state, `label` the action
as which an event is seen. -/
structure Refines (step' : τ → β → Option τ) (step : σ → α → Option σ) (I : τ → Prop)
    (proj : τ → σ) (label : β → Option α) : Prop where
  keeps : ∀ x b y, I x → step' x b = some y → I y
  sound : ∀ x b y, I x → step' x b = some y →
    Follows ((label b).bind (step (proj x))) (proj x) (proj y)
  complete : ∀ x a s, I x → step (proj x) a = some s →
    ∃ b y, label b = some a ∧ step' x b = some y ∧ proj y = s

/-- The side condition of the coarse system, on the events that are seen. -/
def seen (proj : τ → σ) (label : β → Option α) (ok : σ → α → Prop) (x : τ) (b : β) : Prop :=
  ∀ a, label b = some a → ok (proj x) a

theorem seen_any (proj : τ → σ) (label : β → Option α) :
    seen proj label (any : σ → α → Prop) = any := by
  funext x b
  simp [seen, any]

/-- A task of the coarse system, by an event that is seen as one of its actions. -/
def shown (proj : τ → σ) (label : β → Option α) (task : σ → α → Prop) (x : τ) (b : β) : Prop :=
  ∃ a, label b = some a ∧ task (proj x) a

namespace Refines

variable (h : Refines step' step I proj label) {x : τ}

include h

/-- Every run of the coarse system is one of the fine system, and the other way round. -/
theorem reach_iff (hx : I x) (s : σ) :
    Reach step ok (proj x) s ↔ ∃ y, Reach step' (seen proj label ok) x y ∧ proj y = s := by
  constructor
  · intro hreach
    induction hreach with
    | refl => exact ⟨x, .refl, rfl⟩
    | tail _ hst ih =>
      obtain ⟨y, hy, rfl⟩ := ih
      obtain ⟨a, ha, hst⟩ := hst
      have hIy := hy.invariant (fun _ _ _ hz _ => h.keeps _ _ _ hz) hx
      obtain ⟨b, z, hb, hz, hproj⟩ := h.complete y a _ hIy hst
      refine ⟨z, hy.tail (fun a' ha' => ?_) hz, hproj⟩
      obtain rfl : a = a' := Option.some.inj (hb.symm.trans ha')
      exact ha
  · rintro ⟨y, hreach, rfl⟩
    induction hreach with
    | refl => exact .refl
    | @tail y z hy hst ih =>
      obtain ⟨b, hb, hst⟩ := hst
      have hIy := Reach.invariant (fun _ _ _ hz _ => h.keeps _ _ _ hz) hy hx
      rcases h.sound y b z hIy hst with hsome | ⟨-, hsame⟩
      · obtain ⟨a, ha, hst'⟩ := Option.bind_eq_some_iff.mp hsome
        exact ih.tail (hb a ha) hst'
      · rw [hsame]
        exact ih

theorem exists_exec (hx : I x) {as : List α} {s : σ} (hexec : exec step (proj x) as = some s) :
    ∃ bs y, exec step' x bs = some y ∧ proj y = s ∧ bs.map label = as.map some := by
  induction as generalizing x with
  | nil => exact ⟨[], x, rfl, Option.some.inj hexec, rfl⟩
  | cons a as ih =>
    obtain ⟨u, hu, hrest⟩ := Option.bind_eq_some_iff.mp hexec
    obtain ⟨b, y, hb, hy, rfl⟩ := h.complete x a u hx hu
    obtain ⟨bs, z, hz, hproj, hlabels⟩ := ih (h.keeps x b y hx hy) hrest
    refine ⟨b :: bs, z, ?_, hproj, ?_⟩
    · rw [exec, hy]
      exact hz
    · rw [List.map_cons, List.map_cons, hb, hlabels]

end Refines

/-! ### Infinite runs -/

/-- What the coarse system sees at each time: the action, if it is a step there. -/
def observed (step : σ → α → Option σ) (proj : τ → σ) (label : β → Option α) (run : ℕ → τ)
    (event : ℕ → Option β) (n : ℕ) : Option α :=
  ((event n).bind label).filter fun a => (step (proj (run n)) a).isSome

namespace Refines

variable (h : Refines step' step I proj label) {run : ℕ → τ} {event : ℕ → Option β}
  (hrun : Run step' (seen proj label ok) run event) (hzero : I (run 0))

include h hrun hzero

theorem invariant (n : ℕ) : I (run n) :=
  (hrun.reach (Nat.zero_le n)).invariant (fun _ _ _ hz _ => h.keeps _ _ _ hz) hzero

/-- The coarse system sees a run. -/
theorem isRun : Run step ok (fun n => proj (run n)) (observed step proj label run event) := by
  intro n
  rcases hrun n with ⟨hnone, hsame⟩ | ⟨b, hb, hok, hst⟩
  · refine Or.inl ⟨?_, congrArg proj hsame⟩
    rw [observed, hnone]
    rfl
  have hobserved : observed step proj label run event n =
      (label b).filter fun a => (step (proj (run n)) a).isSome := by
    rw [observed, hb]
    rfl
  rcases h.sound _ b _ (h.invariant hrun hzero n) hst with hsome | ⟨hnone, hsame⟩
  · obtain ⟨a, ha, hst'⟩ := Option.bind_eq_some_iff.mp hsome
    refine Or.inr ⟨a, ?_, hok a ha, hst'⟩
    rw [hobserved, ha, Option.filter_some, hst']
    rfl
  · refine Or.inl ⟨?_, hsame⟩
    rw [hobserved]
    cases ha : label b with
    | none => rfl
    | some a =>
      rw [ha] at hnone
      rw [Option.filter_some, show step (proj (run n)) a = none from hnone]
      rfl

/-- If the fine system is fair to the events of a task, the coarse one is fair to the task, provided
that all actions of the task are possible or none. -/
theorem fair (hall : ∀ s a a', task s a → task s a' → step s a = none → step s a' = none)
    (hfair : Fair step' (seen proj label ok) (shown proj label task) run event) :
    Fair step ok task (fun n => proj (run n)) (observed step proj label run event) := by
  intro n
  obtain ⟨m, hm, hdone⟩ := hfair n
  refine ⟨m, hm, ?_⟩
  rcases hdone with hnot | ⟨b, hb, a, ha, htask⟩
  · left
    rintro ⟨a, s, htask, hok, hst⟩
    obtain ⟨b, y, hb, hy, -⟩ := h.complete _ a s (h.invariant hrun hzero m) hst
    refine hnot ⟨b, y, ⟨a, hb, htask⟩, fun a' ha' => ?_, hy⟩
    obtain rfl : a = a' := Option.some.inj (hb.symm.trans ha')
    exact hok
  · cases hst : step (proj (run m)) a with
    | some s =>
      refine Or.inr ⟨a, ?_, htask⟩
      rw [observed, hb, Option.bind_some, ha, Option.filter_some, hst]
      rfl
    | none =>
      -- the event has come to nothing
      left
      rintro ⟨a', s, htask', -, hst'⟩
      cases (hall _ a a' htask htask' hst).symm.trans hst'

end Refines

end Transition
