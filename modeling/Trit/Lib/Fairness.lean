import Trit.Lib.Transition
import Mathlib.Data.Nat.Init
import Mathlib.Order.Lattice

/-!
# Fair runs

Infinite runs of a labelled transition system, in which nothing may happen for a while, and weak
fairness.

* `Run`: at every time an admissible step is taken, or the state stays;
* `Enabled`, `Fair`: a task is a predicate on a state and an action; it is not enabled for ever
  without being carried out;
* `Directions`: a measure that goes down with every step of a helpful task, and that no other step
  raises while it takes the help away; `Directions.eventually`: fair runs get to the goal;
* `Directions.lift`: directions for a part of a larger system;
* `Run.exists_rest`, `Fair.exists_disabled`: what lowers a measure comes to an end, and is then
  again and again impossible;
* `exists_run`, `Fair.of_final`: a finite run, continued by nothing, and when it is fair.
-/

namespace Transition

variable {σ α : Type*} {step : σ → α → Option σ} {ok : σ → α → Prop} {run : ℕ → σ}
  {event : ℕ → Option α}

/-- An infinite run: at every time an admissible step, or nothing happens. -/
def Run (step : σ → α → Option σ) (ok : σ → α → Prop) (run : ℕ → σ) (event : ℕ → Option α) :
    Prop :=
  ∀ n, event n = none ∧ run (n + 1) = run n ∨
    ∃ a, event n = some a ∧ ok (run n) a ∧ step (run n) a = some (run (n + 1))

/-- The task can be carried out. -/
def Enabled (step : σ → α → Option σ) (ok : σ → α → Prop) (task : σ → α → Prop) (s : σ) : Prop :=
  ∃ a t, task s a ∧ ok s a ∧ step s a = some t

/-- Weak fairness: again and again the task is carried out, or cannot be. -/
def Fair (step : σ → α → Option σ) (ok : σ → α → Prop) (task : σ → α → Prop) (run : ℕ → σ)
    (event : ℕ → Option α) : Prop :=
  ∀ n, ∃ m, n ≤ m ∧ (¬ Enabled step ok task (run m) ∨ ∃ a, event m = some a ∧ task (run m) a)

/-- Fairness to a task is fairness to what the task is about. -/
theorem Fair.congr {task task' : σ → α → Prop} (h : Fair step ok task run event)
    (htask : ∀ s a, task s a ↔ task' s a) : Fair step ok task' run event := by
  obtain rfl : task = task' := funext fun s => funext fun a => propext (htask s a)
  exact h

theorem Run.reach (h : Run step ok run event) {n m : ℕ} (hnm : n ≤ m) :
    Reach step ok (run n) (run m) := by
  induction m, hnm using Nat.le_induction with
  | base => exact .refl
  | succ m _ ih =>
    rcases h m with ⟨-, hsame⟩ | ⟨a, -, ha, hstep⟩
    · rw [hsame]
      exact ih
    · exact ih.tail ha hstep

/-! ### The progress rule -/

/-- Why fair runs get from the states of an invariant to a goal: in every state short of the goal
some task helps; it is enabled, its steps lower a measure, and every other step lowers the measure,
or does not raise it and leaves the task helpful. -/
structure Directions {ι : Type*} (step : σ → α → Option σ) (ok : σ → α → Prop)
    (task : ι → σ → α → Prop) (I G : σ → Prop) where
  measure : σ → ℕ
  Helps : ι → σ → Prop
  keeps : ∀ s a t, I s → ok s a → step s a = some t → I t
  exists_helps : ∀ s, I s → ¬ G s → ∃ i, Helps i s
  enabled : ∀ i s, I s → Helps i s → Enabled step ok (task i) s
  lowers : ∀ s a t, I s → ¬ G s → ok s a → step s a = some t →
    G t ∨ measure t < measure s ∨
      measure t ≤ measure s ∧ ∀ i, Helps i s → ¬ task i s a ∧ Helps i t

namespace Directions

variable {ι : Type*} {task : ι → σ → α → Prop} {I G : σ → Prop}
  (d : Directions step ok task I G)

include d

/-- A task helps until the goal is met or the measure has gone down. -/
theorem helps_until (hrun : Run step ok run event) {n m : ℕ} (hnm : n ≤ m) (hn : I (run n)) {i : ι}
    (hi : d.Helps i (run n)) :
    (∃ l, n ≤ l ∧ (G (run l) ∨ d.measure (run l) < d.measure (run n))) ∨
      d.Helps i (run m) ∧ d.measure (run m) ≤ d.measure (run n) := by
  induction m, hnm using Nat.le_induction with
  | base => exact Or.inr ⟨hi, le_refl _⟩
  | succ m hm ih =>
    rcases ih with hdone | ⟨hhelp, hle⟩
    · exact Or.inl hdone
    rcases hrun m with ⟨-, hsame⟩ | ⟨a, -, ha, hst⟩
    · rw [hsame]
      exact Or.inr ⟨hhelp, hle⟩
    by_cases hG : G (run m)
    · exact Or.inl ⟨m, hm, Or.inl hG⟩
    rcases d.lowers _ a _ ((hrun.reach hm).invariant d.keeps hn) hG ha hst with
      hgoal | hlt | ⟨hle', hall⟩
    · exact Or.inl ⟨m + 1, Nat.le_succ_of_le hm, Or.inl hgoal⟩
    · exact Or.inl ⟨m + 1, Nat.le_succ_of_le hm, Or.inr (hlt.trans_le hle)⟩
    · exact Or.inr ⟨(hall i hhelp).2, hle'.trans hle⟩

/-- In a fair run the goal is met or the measure goes down. -/
theorem progress (hrun : Run step ok run event) (hfair : ∀ i, Fair step ok (task i) run event)
    {n : ℕ} (hn : I (run n)) (hG : ¬ G (run n)) :
    ∃ l, n ≤ l ∧ (G (run l) ∨ d.measure (run l) < d.measure (run n)) := by
  obtain ⟨i, hi⟩ := d.exists_helps _ hn hG
  obtain ⟨m, hnm, hm⟩ := hfair i n
  rcases d.helps_until hrun hnm hn hi with hdone | ⟨hhelp, hle⟩
  · exact hdone
  have hIm := (hrun.reach hnm).invariant d.keeps hn
  rcases hm with hnot | ⟨a, hevent, htask⟩
  · exact absurd (d.enabled i _ hIm hhelp) hnot
  -- the task is carried out at the time `m`
  rcases hrun m with ⟨hnone, -⟩ | ⟨b, hb, hok, hst⟩
  · cases hevent.symm.trans hnone
  obtain rfl : a = b := Option.some.inj (hevent.symm.trans hb)
  by_cases hGm : G (run m)
  · exact ⟨m, hnm, Or.inl hGm⟩
  rcases d.lowers _ a _ hIm hGm hok hst with hgoal | hlt | ⟨-, hall⟩
  · exact ⟨m + 1, Nat.le_succ_of_le hnm, Or.inl hgoal⟩
  · exact ⟨m + 1, Nat.le_succ_of_le hnm, Or.inr (hlt.trans_le hle)⟩
  · exact absurd htask (hall i hhelp).1

/-- Every run that is fair to all tasks gets to the goal. -/
theorem eventually (hrun : Run step ok run event) (hfair : ∀ i, Fair step ok (task i) run event)
    {n : ℕ} (hn : I (run n)) : ∃ m, n ≤ m ∧ G (run m) := by
  induction hμ : d.measure (run n) using Nat.strongRecOn generalizing n with
  | ind k ih =>
    by_cases hG : G (run n)
    · exact ⟨n, le_refl n, hG⟩
    obtain ⟨l, hl, hgoal | hlt⟩ := d.progress hrun hfair hn hG
    · exact ⟨l, hl, hgoal⟩
    · obtain ⟨m, hm, hgoal⟩ := ih _ (hμ ▸ hlt) ((hrun.reach hl).invariant d.keeps hn) rfl
      exact ⟨m, hl.trans hm, hgoal⟩

/-- Directions for a part of a larger system, each event of which is a step of the part, or leaves
the part as it is as far as the directions go. -/
def lift {τ β : Type*} {step' : τ → β → Option τ} {ok' : τ → β → Prop} {task' : ι → τ → β → Prop}
    {J : τ → Prop} (proj : τ → σ) {inj : α → β} (hinj : Function.Injective inj)
    (hJ : ∀ x, J x → I (proj x))
    (keeps : ∀ x b y, J x → ok' x b → step' x b = some y → J y)
    (carries : ∀ x a t, J x → ok (proj x) a → step (proj x) a = some t →
      ok' x (inj a) ∧ ∃ y, step' x (inj a) = some y)
    (htask : ∀ i x b, task' i x b ↔ ∃ a, b = inj a ∧ task i (proj x) a)
    (event : ∀ x b y, J x → ok' x b → step' x b = some y →
      (∃ a, b = inj a ∧ ok (proj x) a ∧ step (proj x) a = some (proj y)) ∨
      (∀ a, b ≠ inj a) ∧ d.measure (proj y) = d.measure (proj x) ∧
        ∀ i, d.Helps i (proj x) → d.Helps i (proj y)) :
    Directions step' ok' task' J (fun x => G (proj x)) where
  measure x := d.measure (proj x)
  Helps i x := d.Helps i (proj x)
  keeps := keeps
  exists_helps x hx hG := d.exists_helps (proj x) (hJ x hx) hG
  enabled i x hx hi := by
    obtain ⟨a, t, ha, hok, hst⟩ := d.enabled i (proj x) (hJ x hx) hi
    obtain ⟨hok', y, hy⟩ := carries x a t hx hok hst
    exact ⟨inj a, y, (htask i x (inj a)).mpr ⟨a, rfl, ha⟩, hok', hy⟩
  lowers x b y hx hG hok hst := by
    rcases event x b y hx hok hst with ⟨a, rfl, hok', hst'⟩ | ⟨hne, hμ, hhelps⟩
    · rcases d.lowers (proj x) a (proj y) (hJ x hx) hG hok' hst' with
        hgoal | hlt | ⟨hle, hall⟩
      · exact Or.inl hgoal
      · exact Or.inr (Or.inl hlt)
      · refine Or.inr (Or.inr ⟨hle, fun i hi => ⟨fun htask' => ?_, (hall i hi).2⟩⟩)
        obtain ⟨c, hc, hac⟩ := (htask i x _).mp htask'
        exact (hall i hi).1 (hinj hc ▸ hac)
    · refine Or.inr (Or.inr ⟨hμ.le, fun i hi => ⟨fun htask' => ?_, hhelps i hi⟩⟩)
      obtain ⟨a, hb, -⟩ := (htask i x b).mp htask'
      exact hne a hb

end Directions

/-! ### Runs that come to rest -/

section Rest

variable {I : σ → Prop} {A : α → Prop} (hrun : Run step ok run event)

include hrun

/-- A measure that no step raises stays below its first value. -/
theorem Run.measure_le (μ : σ → ℕ) (keeps : ∀ s a t, I s → ok s a → step s a = some t → I t)
    (lowers : ∀ s a t, I s → ok s a → step s a = some t → μ t ≤ μ s) {n m : ℕ} (hnm : n ≤ m)
    (hn : I (run n)) : μ (run m) ≤ μ (run n) := by
  induction m, hnm using Nat.le_induction with
  | base => exact le_refl _
  | succ m hm ih =>
    rcases hrun m with ⟨-, hsame⟩ | ⟨a, -, ha, hst⟩
    · rw [hsame]
      exact ih
    · exact (lowers _ a _ ((hrun.reach hm).invariant keeps hn) ha hst).trans ih

/-- Actions that lower a measure which no step raises do not happen for ever. -/
theorem Run.exists_rest (μ : σ → ℕ) (keeps : ∀ s a t, I s → ok s a → step s a = some t → I t)
    (lowers : ∀ s a t, I s → ok s a → step s a = some t → μ t ≤ μ s ∧ (A a → μ t < μ s)) {n : ℕ}
    (hn : I (run n)) : ∃ N, n ≤ N ∧ ∀ m a, N ≤ m → event m = some a → ¬ A a := by
  induction hμ : μ (run n) using Nat.strongRecOn generalizing n with
  | ind k ih =>
    by_cases hlast : ∀ m a, n ≤ m → event m = some a → ¬ A a
    · exact ⟨n, le_refl n, hlast⟩
    simp only [not_forall, not_not] at hlast
    obtain ⟨m, a, hnm, hevent, hA⟩ := hlast
    rcases hrun m with ⟨hnone, -⟩ | ⟨b, hb, hok, hst⟩
    · cases hevent.symm.trans hnone
    obtain rfl : a = b := Option.some.inj (hevent.symm.trans hb)
    have hle := hrun.measure_le μ keeps (fun s a t hs ha h => (lowers s a t hs ha h).1) hnm hn
    have hIm := (hrun.reach hnm).invariant keeps hn
    have hlt := (lowers _ a _ hIm hok hst).2 hA
    obtain ⟨N, hN, hrest⟩ := ih _ (hμ ▸ hlt.trans_le hle) (keeps _ a _ hIm hok hst) rfl
    exact ⟨N, (Nat.le_succ_of_le hnm).trans hN, hrest⟩

/-- What only these actions change stays as it is. -/
theorem Run.eq_of_rest {τ : Type*} {N : ℕ}
    (hrest : ∀ m a, N ≤ m → event m = some a → ¬ A a) (f : σ → τ)
    (frame : ∀ s a t, ok s a → step s a = some t → ¬ A a → f t = f s) {m : ℕ} (hm : N ≤ m) :
    f (run m) = f (run N) := by
  induction m, hm using Nat.le_induction with
  | base => rfl
  | succ m hm ih =>
    rcases hrun m with ⟨-, hsame⟩ | ⟨a, ha, hok, hst⟩
    · rw [hsame]
      exact ih
    · exact (frame _ a _ hok hst (hrest m a hm ha)).trans ih

end Rest

/-- A task that is not carried out any more is again and again not enabled, in a fair run. -/
theorem Fair.exists_disabled {task : σ → α → Prop} (h : Fair step ok task run event) {N : ℕ}
    (hrest : ∀ m a, N ≤ m → event m = some a → ¬ task (run m) a) (n : ℕ) :
    ∃ m, n ≤ m ∧ N ≤ m ∧ ¬ Enabled step ok task (run m) := by
  obtain ⟨m, hm, hnot | ⟨a, ha, htask⟩⟩ := h (max n N)
  · exact ⟨m, (le_max_left n N).trans hm, (le_max_right n N).trans hm, hnot⟩
  · exact absurd htask (hrest m a ((le_max_right n N).trans hm) ha)

/-! ### Runs that come to an end -/

/-- A finite run, behind which nothing happens. -/
theorem exists_run {s t : σ} {as : List α} (hok : ∀ a ∈ as, ∀ s, ok s a)
    (h : exec step s as = some t) : ∃ run event, Run step ok run event ∧ run 0 = s ∧
      ∀ n, as.length ≤ n → run n = t := by
  induction as generalizing s with
  | nil =>
    obtain rfl := Option.some.inj h
    exact ⟨fun _ => s, fun _ => none, fun _ => Or.inl ⟨rfl, rfl⟩, rfl, fun _ _ => rfl⟩
  | cons a as ih =>
    obtain ⟨u, hu, ht⟩ := Option.bind_eq_some_iff.mp h
    obtain ⟨run, event, hrun, hzero, hend⟩ := ih (fun b hb => hok b (List.mem_cons_of_mem a hb)) ht
    refine ⟨fun n => n.casesOn s run, fun n => n.casesOn (some a) event, fun n => ?_, rfl,
      fun n hn => ?_⟩
    · cases n with
      | zero =>
        refine Or.inr ⟨a, rfl, hok a List.mem_cons_self s, ?_⟩
        show step s a = some (run 0)
        rw [hzero, hu]
      | succ n => exact hrun n
    · cases n with
      | zero => exact absurd hn (Nat.not_succ_le_zero _)
      | succ n => exact hend n (Nat.le_of_succ_le_succ hn)

/-- A run that stays where a task is not enabled is fair to it. -/
theorem Fair.of_final {task : σ → α → Prop} {t : σ} {k : ℕ} (hend : ∀ n, k ≤ n → run n = t)
    (h : ¬ Enabled step ok task t) : Fair step ok task run event := by
  intro n
  refine ⟨max n k, le_max_left n k, Or.inl ?_⟩
  rw [hend _ (le_max_right n k)]
  exact h

end Transition
