import Trit.Lib.Transition

/-!
# Systems whose actions commute

If two different actions that are both enabled can be taken in either order, with the same result,
then one run to a state in which nothing is enabled decides about all runs.

* `Commutes`, `Stuck`: the condition, and the states in which nothing is enabled;
* `Ends`: every run from a state has a bounded length and goes on to the same stuck state;
* `Commutes.ends`: one run to a stuck state is enough for that.
-/

namespace Transition

variable {σ α : Type*} {step : σ → α → Option σ}

/-- Two different actions that are both enabled can be taken in either order. -/
def Commutes (step : σ → α → Option σ) : Prop :=
  ∀ s a b t u, a ≠ b → step s a = some t → step s b = some u →
    ∃ v, step t b = some v ∧ step u a = some v

/-- Nothing is enabled. -/
def Stuck (step : σ → α → Option σ) (s : σ) : Prop := ∀ a, step s a = none

/-- Every run from `s` has at most `n` steps, and goes on to the stuck state `f` in what is left of
the `n` steps. -/
def Ends (step : σ → α → Option σ) (s f : σ) : Prop :=
  Stuck step f ∧ ∃ n, ∀ as t, exec step s as = some t →
    ∃ bs, exec step t bs = some f ∧ as.length + bs.length = n

theorem exec_append (s : σ) (as bs : List α) :
    exec step s (as ++ bs) = (exec step s as).bind fun t => exec step t bs := by
  induction as generalizing s with
  | nil => rfl
  | cons a as ih =>
    simp only [List.cons_append, exec]
    cases step s a with
    | none => rfl
    | some t => exact ih t

theorem exec_trans {s t u : σ} {as bs : List α} (h : exec step s as = some t)
    (h' : exec step t bs = some u) : exec step s (as ++ bs) = some u := by
  rw [exec_append, h]
  exact h'

/-- A step that leaves the run to a stuck state aside can be put in front of it. -/
theorem Commutes.exec_of_step (hc : Commutes step) {s t f : σ} {as : List α} {a : α}
    (hf : Stuck step f) (h : exec step s as = some f) (ht : step s a = some t) :
    ∃ bs, exec step t bs = some f ∧ bs.length + 1 = as.length := by
  induction as generalizing s t with
  | nil =>
    cases h
    rw [hf a] at ht
    cases ht
  | cons b as ih =>
    obtain ⟨u, hu, h⟩ := Option.bind_eq_some_iff.mp h
    by_cases hab : a = b
    · subst hab
      rw [ht] at hu
      cases hu
      exact ⟨as, h, rfl⟩
    · obtain ⟨v, htv, huv⟩ := hc s a b t u hab ht hu
      obtain ⟨bs, hbs, hlen⟩ := ih h huv
      refine ⟨b :: bs, ?_, ?_⟩
      · rw [exec, htv]
        exact hbs
      · rw [List.length_cons, List.length_cons, hlen]

/-- If one run leads to a stuck state, every run leads there. -/
theorem Commutes.ends (hc : Commutes step) {s f : σ} {as : List α} (hf : Stuck step f)
    (h : exec step s as = some f) : Ends step s f := by
  refine ⟨hf, as.length, fun bs t hbs => ?_⟩
  induction bs generalizing s as with
  | nil =>
    cases hbs
    exact ⟨as, h, Nat.zero_add _⟩
  | cons b bs ih =>
    obtain ⟨u, hu, hbs⟩ := Option.bind_eq_some_iff.mp hbs
    obtain ⟨as', h', hlen⟩ := hc.exec_of_step hf h hu
    obtain ⟨cs, hcs, hlen'⟩ := ih h' hbs
    refine ⟨cs, hcs, ?_⟩
    rw [List.length_cons]
    omega

/-- What every run from a state does, every run from a later state does. -/
theorem Ends.of_exec {s t f : σ} {as : List α} (h : Ends step s f)
    (ht : exec step s as = some t) : Ends step t f := by
  obtain ⟨hf, n, hn⟩ := h
  refine ⟨hf, n - as.length, fun bs u hbs => ?_⟩
  obtain ⟨cs, hcs, hlen⟩ := hn _ u (exec_trans ht hbs)
  rw [List.length_append] at hlen
  exact ⟨cs, hcs, by omega⟩

/-- What every run from a later state does, every run does. -/
theorem Commutes.ends_of_exec (hc : Commutes step) {s t f : σ} {as : List α}
    (ht : exec step s as = some t) (h : Ends step t f) : Ends step s f := by
  obtain ⟨hf, n, hn⟩ := h
  obtain ⟨bs, hbs, -⟩ := hn [] t rfl
  exact hc.ends hf (exec_trans ht hbs)

/-- A run that cannot go on has come to the end. -/
theorem Ends.eq_of_stuck {s t f : σ} {as : List α} (h : Ends step s f)
    (ht : exec step s as = some t) (hstuck : Stuck step t) : t = f := by
  obtain ⟨-, n, hn⟩ := h
  obtain ⟨bs, hbs, -⟩ := hn as t ht
  cases bs with
  | nil => exact Option.some.inj hbs
  | cons b bs =>
    rw [exec, hstuck b] at hbs
    cases hbs

/-- There is one end. -/
theorem Ends.unique {s f g : σ} (h : Ends step s f) (h' : Ends step s g) : f = g := by
  obtain ⟨hf, n, hn⟩ := h
  obtain ⟨bs, hbs, -⟩ := hn [] s rfl
  exact h'.eq_of_stuck hbs hf

end Transition
