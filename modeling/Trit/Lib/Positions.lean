import Mathlib.Tactic.Common

/-!
# Computations that note positions

A computation with exceptions that walks over a buffer by positions, and notes each position it
moves to; next to it one that carries the rest of the buffer instead.

* `Noting`, `note`: such computations;
* `Tracks`: the two do the same, and no position that is noted exceeds a limit;
* `Tracks.pure`, `Tracks.throw`, `Tracks.note`, `Tracks.bind`: the rules.
-/

namespace Positions

variable {ε α β γ δ : Type}

/-- Computations with exceptions that note positions; an exception keeps what was noted before. -/
abbrev Noting (ε : Type) := ExceptT ε (StateM (List ℕ))

/-- Note a position. -/
def note (p : ℕ) : Noting ε Unit := fun log => (.ok (), log ++ [p])

/-- Results are related, and exceptions are the same. -/
def Related (R : α → β → Prop) : Except ε α → Except ε β → Prop
  | .ok a, .ok b => R a b
  | .error e, .error e' => e = e'
  | _, _ => False

/-- The computation ends as the other one does, and notes no position beyond the limit. -/
def Tracks (limit : ℕ) (R : α → β → Prop) (m : Noting ε α) (s : Except ε β) : Prop :=
  ∀ log : List ℕ, (∀ p ∈ log, p ≤ limit) →
    (∀ p ∈ (m log).2, p ≤ limit) ∧ Related R (m log).1 s

namespace Tracks

variable {limit : ℕ} {R : α → β → Prop} {S : γ → δ → Prop}

theorem pure {a : α} {b : β} (h : R a b) :
    Tracks limit R (Pure.pure a : Noting ε α) (.ok b) :=
  fun _ hlog => ⟨hlog, h⟩

theorem throw (e : ε) : Tracks limit R (throwThe ε e : Noting ε α) (.error e) :=
  fun _ hlog => ⟨hlog, rfl⟩

theorem bind {m : Noting ε α} {s : Except ε β} {f : α → Noting ε γ} {g : β → Except ε δ}
    (hm : Tracks limit R m s) (hf : ∀ a b, R a b → Tracks limit S (f a) (g b)) :
    Tracks limit S (m >>= f) (s >>= g) := by
  intro log hlog
  obtain ⟨hbound, hrel⟩ := hm log hlog
  have hbind : (m >>= f) log = match m log with
      | (.ok a, log') => f a log'
      | (.error e, log') => (.error e, log') := by
    show ExceptT.bindCont f (m log).1 (m log).2 = _
    rcases m log with ⟨r, log'⟩
    cases r <;> rfl
  rw [hbind]
  generalize m log = end_ at hbound hrel
  obtain ⟨r, log'⟩ := end_
  cases r with
  | ok a =>
    cases s with
    | ok b => exact hf a b hrel log' hbound
    | error e => exact hrel.elim
  | error e =>
    cases s with
    | ok b => exact hrel.elim
    | error e' =>
      obtain rfl : e = e' := hrel
      exact ⟨hbound, rfl⟩

/-- Noting a position within the limit changes nothing else. -/
theorem note {p : ℕ} (hp : p ≤ limit) {f : Unit → Noting ε α} {s : Except ε β}
    (hf : Tracks limit R (f ()) s) : Tracks limit R (Positions.note p >>= f) s := by
  intro log hlog
  refine hf (log ++ [p]) fun q hq => ?_
  rcases List.mem_append.mp hq with hq | hq
  · exact hlog q hq
  · rw [List.mem_singleton.mp hq]
    exact hp

end Tracks

end Positions
