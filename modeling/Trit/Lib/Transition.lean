import Mathlib.Logic.Relation
import Mathlib.Tactic.Common

/-!
# Labelled transition systems

A system is a partial step function `step : σ → α → Option σ`: `step s a` is the state after
action `a`, or `none` when `a` is not enabled in `s`.  A side condition `ok : σ → α → Prop` on
the state before a step and its action selects the runs of interest.

* `Step`, `Reach`: one step, and any number of steps, that meet `ok`;
* `Reach.invariant`, `Reach.backward`: what one step preserves, every run preserves;
* `reach_map_iff`: two systems whose steps correspond have corresponding runs;
* `Reach.simulate`: a system whose steps are matched by those of another has its runs matched;
* `CanReach`: some continuation leads to the goal; `CanReach.of_measure` proves it from a
  progress measure, `CanReach.not_of_trap` refutes it by a closed set that misses the goal;
* `exec`: the run of an explicit list of actions; `length_add_le_of_exec` bounds its length by a
  measure; `restrict`: one whose side condition is checked on the way.
-/

namespace Transition

variable {σ α : Type*} {step : σ → α → Option σ} {ok ok' : σ → α → Prop}

/-- The side condition that every step meets. -/
def any (_ : σ) (_ : α) : Prop := True

/-- One step whose state and action meet `ok`. -/
def Step (step : σ → α → Option σ) (ok : σ → α → Prop) (s t : σ) : Prop :=
  ∃ a, ok s a ∧ step s a = some t

/-- Any number of steps that meet `ok`. -/
abbrev Reach (step : σ → α → Option σ) (ok : σ → α → Prop) : σ → σ → Prop :=
  Relation.ReflTransGen (Step step ok)

/-- Some continuation by steps that meet `ok` leads from `s` to the goal `G`. -/
def CanReach (step : σ → α → Option σ) (ok : σ → α → Prop) (G : σ → Prop) (s : σ) : Prop :=
  ∃ t, Reach step ok s t ∧ G t

theorem Reach.tail {s t u : σ} {a : α} (h : Reach step ok s t) (ha : ok t a)
    (hs : step t a = some u) : Reach step ok s u :=
  Relation.ReflTransGen.tail h ⟨a, ha, hs⟩

theorem Reach.head {s t u : σ} {a : α} (ha : ok s a) (hs : step s a = some t)
    (h : Reach step ok t u) : Reach step ok s u :=
  Relation.ReflTransGen.head ⟨a, ha, hs⟩ h

theorem Reach.single {s t : σ} {a : α} (ha : ok s a) (hs : step s a = some t) :
    Reach step ok s t :=
  Relation.ReflTransGen.single ⟨a, ha, hs⟩

theorem Reach.mono (hok : ∀ s a, ok s a → ok' s a) {s t : σ} (h : Reach step ok s t) :
    Reach step ok' s t :=
  Relation.ReflTransGen.mono (fun _ _ ⟨a, ha, hs⟩ => ⟨a, hok _ a ha, hs⟩) _ _ h

/-- A predicate that every step preserves holds along every run. -/
theorem Reach.invariant {I : σ → Prop} (hI : ∀ s a t, I s → ok s a → step s a = some t → I t)
    {s t : σ} (h : Reach step ok s t) (hs : I s) : I t := by
  induction h with
  | refl => exact hs
  | tail _ hst ih =>
    obtain ⟨a, ha, hst⟩ := hst
    exact hI _ a _ ih ha hst

/-- A predicate that every step reflects holds at the start of every run that ends in it. -/
theorem Reach.backward {I B : σ → Prop} (hI : ∀ s a t, I s → ok s a → step s a = some t → I t)
    (hB : ∀ s a t, I s → ok s a → step s a = some t → B t → B s)
    {s t : σ} (h : Reach step ok s t) (hs : I s) (ht : B t) : B s := by
  induction h using Relation.ReflTransGen.head_induction_on with
  | refl => exact ht
  | head hst _ ih =>
    obtain ⟨a, ha, hst⟩ := hst
    exact hB _ a _ hs ha hst (ih (hI _ a _ hs ha hst))

/-- Where a map commutes with the steps, it commutes with the runs. -/
theorem reach_map_iff {τ : Type*} {step' : τ → α → Option τ} {ok' : τ → α → Prop} {f : σ → τ}
    {I : σ → Prop} (hI : ∀ s a t, I s → ok s a → step s a = some t → I t)
    (hok : ∀ s a, I s → (ok s a ↔ ok' (f s) a))
    (hf : ∀ s a, I s → step' (f s) a = (step s a).map f) {s : σ} (hs : I s) (u : τ) :
    Reach step' ok' (f s) u ↔ ∃ t, Reach step ok s t ∧ f t = u := by
  constructor
  · intro h
    induction h with
    | refl => exact ⟨s, .refl, rfl⟩
    | tail _ hst ih =>
      obtain ⟨t, ht, rfl⟩ := ih
      obtain ⟨a, ha, hst⟩ := hst
      have hIt := ht.invariant hI hs
      rw [hf t a hIt] at hst
      obtain ⟨t', ht', rfl⟩ := Option.map_eq_some_iff.mp hst
      exact ⟨t', ht.tail ((hok t a hIt).mpr ha) ht', rfl⟩
  · rintro ⟨t, h, rfl⟩
    induction h with
    | refl => exact .refl
    | @tail t t' ht hst ih =>
      obtain ⟨a, ha, hst⟩ := hst
      have hIt := Reach.invariant hI ht hs
      exact ih.tail ((hok t a hIt).mp ha) (by rw [hf t a hIt, hst]; rfl)

/-- Where every step of one system is matched by a step of another, so is every run. -/
theorem Reach.simulate {τ β : Type*} {f : τ → β → Option τ} {Q : τ → β → Prop}
    {R : σ → τ → Prop}
    (hR : ∀ s a t x, R s x → ok s a → step s a = some t →
      ∃ b y, Q x b ∧ f x b = some y ∧ R t y)
    {s t : σ} {x : τ} (h : Reach step ok s t) (hx : R s x) :
    ∃ y, Reach f Q x y ∧ R t y := by
  induction h with
  | refl => exact ⟨x, .refl, hx⟩
  | tail _ hst ih =>
    obtain ⟨y, hy, hRy⟩ := ih
    obtain ⟨a, ha, hst⟩ := hst
    obtain ⟨b, z, hb, hz, hRz⟩ := hR _ a _ y hRy ha hst
    exact ⟨z, hy.tail hb hz, hRz⟩

namespace CanReach

variable {G G' : σ → Prop}

theorem of_goal {s : σ} (h : G s) : CanReach step ok G s := ⟨s, .refl, h⟩

theorem of_reach {s t : σ} (h : Reach step ok s t) (ht : CanReach step ok G t) :
    CanReach step ok G s := by
  obtain ⟨u, hu, hG⟩ := ht
  exact ⟨u, h.trans hu, hG⟩

theorem mono (hok : ∀ s a, ok s a → ok' s a) {s : σ} (h : CanReach step ok G s) :
    CanReach step ok' G s := by
  obtain ⟨t, ht, hG⟩ := h
  exact ⟨t, ht.mono hok, hG⟩

/-- If every state of `I` short of the goal has a step that stays in `I` and lowers the
measure, the goal can be reached from every state of `I`. -/
theorem of_measure {I : σ → Prop} (μ : σ → ℕ)
    (hprog : ∀ s, I s → ¬ G s → ∃ a t, ok s a ∧ step s a = some t ∧ I t ∧ μ t < μ s)
    {s : σ} (hs : I s) : CanReach step ok G s := by
  induction hn : μ s using Nat.strongRecOn generalizing s with
  | ind n ih =>
    by_cases hG : G s
    · exact of_goal hG
    · obtain ⟨a, t, ha, hst, hI, hlt⟩ := hprog s hs hG
      exact of_reach (Reach.single ha hst) (ih (μ t) (hn ▸ hlt) hI rfl)

/-- A set of states that no step leaves and that misses the goal is a trap. -/
theorem not_of_trap {I : σ → Prop} (hI : ∀ s a t, I s → ok s a → step s a = some t → I t)
    (hG : ∀ s, I s → ¬ G s) {s : σ} (hs : I s) : ¬ CanReach step ok G s := by
  rintro ⟨t, ht, hGt⟩
  exact hG t (ht.invariant hI hs) hGt

end CanReach

/-- The run of a list of actions. -/
def exec (step : σ → α → Option σ) (s : σ) : List α → Option σ
  | [] => some s
  | a :: as => (step s a).bind fun t => exec step t as

/-- A run whose actions are admissible in every state is a `Reach`. -/
theorem reach_of_exec {s t : σ} {as : List α} (hok : ∀ a ∈ as, ∀ s, ok s a)
    (h : exec step s as = some t) : Reach step ok s t := by
  induction as generalizing s with
  | nil =>
    cases h
    exact .refl
  | cons a as ih =>
    obtain ⟨u, hu, ht⟩ := Option.bind_eq_some_iff.mp h
    exact Reach.head (hok a (by simp) s) hu (ih (fun b hb => hok b (by simp [hb])) ht)

/-- The state after a run that is known to go through, up to a test of the final state. -/
theorem reach_of_exec_test {s : σ} {as : List α} (P : σ → Bool) (hok : ∀ a ∈ as, ∀ s, ok s a)
    (h : (exec step s as).map P = some true) : ∃ t, Reach step ok s t ∧ P t = true := by
  obtain ⟨t, ht, hP⟩ := Option.map_eq_some_iff.mp h
  exact ⟨t, reach_of_exec hok ht, hP⟩

/-- A run whose every action lowers the measure is no longer than the measure, and keeps the
invariant. -/
theorem length_add_le_of_exec {I : σ → Prop} {A : α → Prop} (μ : σ → ℕ)
    (hstep : ∀ s a t, I s → A a → step s a = some t → I t ∧ μ t < μ s) {s t : σ} {as : List α}
    (hs : I s) (has : ∀ a ∈ as, A a) (h : exec step s as = some t) :
    I t ∧ as.length + μ t ≤ μ s := by
  induction as generalizing s with
  | nil =>
    cases h
    exact ⟨hs, by simp⟩
  | cons a as ih =>
    obtain ⟨u, hu, ht⟩ := Option.bind_eq_some_iff.mp h
    obtain ⟨hI, hlt⟩ := hstep s a u hs (has a List.mem_cons_self) hu
    obtain ⟨hIt, hle⟩ := ih hI (fun b hb => has b (List.mem_cons_of_mem _ hb)) ht
    refine ⟨hIt, ?_⟩
    rw [List.length_cons]
    omega

/-- The steps that meet a side condition that can be checked. -/
def restrict (step : σ → α → Option σ) (ok : σ → α → Prop) [∀ s a, Decidable (ok s a)] (s : σ)
    (a : α) : Option σ :=
  if ok s a then step s a else none

/-- The state after a run whose side condition is checked on the way, up to a test of the final
state. -/
theorem reach_of_exec_restrict [∀ s a, Decidable (ok s a)] {s : σ} {as : List α} (P : σ → Bool)
    (h : (exec (restrict step ok) s as).map P = some true) :
    ∃ t, Reach step ok s t ∧ P t = true := by
  obtain ⟨t, ht, hP⟩ := Option.map_eq_some_iff.mp h
  refine ⟨t, ?_, hP⟩
  clear h hP
  induction as generalizing s with
  | nil =>
    cases ht
    exact .refl
  | cons a as ih =>
    obtain ⟨u, hu, ht⟩ := Option.bind_eq_some_iff.mp ht
    unfold restrict at hu
    split_ifs at hu with hok
    exact Reach.head hok hu (ih ht)

end Transition
