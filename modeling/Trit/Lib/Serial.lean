import Mathlib.Data.List.Basic
import Mathlib.Tactic.Common

/-!
# Serial executions

Commands `run i : σ → Except ε σ`, executed one after the other.

* `Runs`: the commands of a list lead from one state to another, and none of them fails;
* `Visited`: a state that a serial execution goes through;
* `Runs.insert`: a command that changes nothing in a state visited can be put there.
-/

namespace Serial

variable {ι σ ε : Type*} {run : ι → σ → Except ε σ}

/-- The commands `order`, executed one after the other, lead from `s` to `t`. -/
def Runs (run : ι → σ → Except ε σ) (s : σ) : List ι → σ → Prop
  | [], t => s = t
  | i :: order, t => ∃ u, run i s = .ok u ∧ Runs run u order t

/-- The state `u` occurs in the execution of `order` from `s`. -/
def Visited (run : ι → σ → Except ε σ) (s : σ) (order : List ι) (u : σ) : Prop :=
  ∃ before after, order = before ++ after ∧ Runs run s before u

theorem Runs.append {s t u : σ} {before after : List ι} (h : Runs run s before t)
    (h' : Runs run t after u) : Runs run s (before ++ after) u := by
  induction before generalizing s with
  | nil =>
    cases h
    exact h'
  | cons i before ih =>
    obtain ⟨v, hv, h⟩ := h
    exact ⟨v, hv, ih h⟩

theorem Runs.split {s u : σ} {before after : List ι} (h : Runs run s (before ++ after) u) :
    ∃ t, Runs run s before t ∧ Runs run t after u := by
  induction before generalizing s with
  | nil => exact ⟨s, rfl, h⟩
  | cons i before ih =>
    obtain ⟨v, hv, h⟩ := h
    obtain ⟨t, hbefore, hafter⟩ := ih h
    exact ⟨t, ⟨v, hv, hbefore⟩, hafter⟩

/-- A serial execution has one result. -/
theorem Runs.unique {s t t' : σ} {order : List ι} (h : Runs run s order t)
    (h' : Runs run s order t') : t = t' := by
  induction order generalizing s with
  | nil =>
    cases h
    exact h'
  | cons i order ih =>
    obtain ⟨u, hu, h⟩ := h
    obtain ⟨u', hu', h'⟩ := h'
    rw [hu] at hu'
    cases hu'
    exact ih h h'

theorem Runs.concat {s t u : σ} {order : List ι} {i : ι} (h : Runs run s order t)
    (hi : run i t = .ok u) : Runs run s (order ++ [i]) u :=
  h.append ⟨u, hi, rfl⟩

theorem Runs.visited {s t : σ} {order : List ι} (h : Runs run s order t) :
    Visited run s order t :=
  ⟨order, [], (List.append_nil order).symm, h⟩

/-- What was visited stays visited when the execution goes on. -/
theorem Visited.append {s u : σ} {order : List ι} (h : Visited run s order u) (more : List ι) :
    Visited run s (order ++ more) u := by
  obtain ⟨before, after, rfl, hu⟩ := h
  exact ⟨before, after ++ more, List.append_assoc _ _ _, hu⟩

/-- A command that changes nothing in a state visited can be executed there. -/
theorem Runs.insert {s t u : σ} {order : List ι} {i : ι} (h : Runs run s order t)
    (hu : Visited run s order u) (hi : run i u = .ok u) :
    ∃ order' : List ι, order'.Perm (i :: order) ∧ Runs run s order' t ∧
      ∀ v, Visited run s order v → Visited run s order' v := by
  obtain ⟨before, after, rfl, hbefore⟩ := hu
  obtain ⟨u', hbefore', hafter⟩ := h.split
  obtain rfl := hbefore.unique hbefore'
  refine ⟨before ++ i :: after, List.perm_middle, hbefore.append ⟨u, hi, hafter⟩, ?_⟩
  rintro v ⟨before', after', horder, hv⟩
  rcases List.append_eq_append_iff.mp horder with ⟨mid, rfl, rfl⟩ | ⟨mid, rfl, rfl⟩
  · -- `v` comes behind `u`
    obtain ⟨u', hu', hmid⟩ := hv.split
    obtain rfl := hbefore.unique hu'
    exact ⟨before ++ i :: mid, after', by simp, hbefore.append ⟨u, hi, hmid⟩⟩
  · exact ⟨before', mid ++ i :: after, by simp, hv⟩

end Serial
