import Trit.Lib.Confluence
import Trit.Lib.Dialogue

/-!
# Two programs and the streams between them

Two dialogues joined by a stream in either direction.  What one side writes is in flight until it
arrives, symbol by symbol; reads wait for what has arrived.

* `Exchange`, `Exchange.step`: the two programs, the streams, and the four things that can happen;
* `commutes`: it does not matter in which order they happen;
* `Meets`: the two sides can get from one pair of programs to another with empty streams;
* `Meets.ends`: if they meet at their ends, every run ends there;
* `Meets.ends_of_throw`: if the right side throws while the left side waits for it, every run ends
  there.
-/

namespace Dialogue

open Transition

variable {β ε ℓ α γ : Type}

/-- Two programs; what is in flight to a side, and what has arrived there. -/
structure Exchange (β ε ℓ α γ : Type) where
  left : Dialogue β ε ℓ α
  right : Dialogue β ε ℓ γ
  toLeft : List β
  inLeft : List β
  toRight : List β
  inRight : List β

/-- What can happen: a side goes on, or the next symbol in flight arrives. -/
inductive Move
  | left
  | right
  | arriveLeft
  | arriveRight
  deriving DecidableEq

/-- The next operation of a program, with what has arrived for it and what it has in flight. -/
def advance (d : Dialogue β ε ℓ α) (inbox out : List β) :
    Option (Dialogue β ε ℓ α × List β × List β) :=
  match d with
  | .write _ message k => some (k, inbox, out ++ message)
  | .read n k =>
      if n ≤ inbox.length then some (k (inbox.take n), inbox.drop n, out) else none
  | _ => none

/-- The next symbol in flight arrives. -/
def arrive : List β → List β → Option (List β × List β)
  | b :: rest, inbox => some (rest, inbox ++ [b])
  | [], _ => none

namespace Exchange

/-- Two programs that have not begun. -/
def start (left : Dialogue β ε ℓ α) (right : Dialogue β ε ℓ γ) : Exchange β ε ℓ α γ :=
  ⟨left, right, [], [], [], []⟩

/-- One of the four things happens. -/
def step (x : Exchange β ε ℓ α γ) : Move → Option (Exchange β ε ℓ α γ)
  | .left => (advance x.left x.inLeft x.toRight).map fun r =>
      { x with left := r.1, inLeft := r.2.1, toRight := r.2.2 }
  | .right => (advance x.right x.inRight x.toLeft).map fun r =>
      { x with right := r.1, inRight := r.2.1, toLeft := r.2.2 }
  | .arriveLeft => (arrive x.toLeft x.inLeft).map fun r =>
      { x with toLeft := r.1, inLeft := r.2 }
  | .arriveRight => (arrive x.toRight x.inRight).map fun r =>
      { x with toRight := r.1, inRight := r.2 }

end Exchange

/-! ### The order does not matter -/

/-- A program that can go on can also go on after a symbol has arrived. -/
theorem advance_of_arrive {d : Dialogue β ε ℓ α} {wire inbox out : List β}
    {r : Dialogue β ε ℓ α × List β × List β} {r' : List β × List β}
    (h : advance d inbox out = some r) (h' : arrive wire inbox = some r') :
    ∃ inbox', advance d r'.2 out = some (r.1, inbox', r.2.2) ∧
      arrive wire r.2.1 = some (r'.1, inbox') := by
  cases wire with
  | nil => cases h'
  | cons b rest =>
    cases h'
    cases d with
    | write label message k =>
      cases h
      exact ⟨inbox ++ [b], rfl, rfl⟩
    | read n k =>
      simp only [advance] at h
      split_ifs at h with hn
      cases h
      have hn' : n ≤ (inbox ++ [b]).length := by
        rw [List.length_append]
        omega
      refine ⟨inbox.drop n ++ [b], ?_, rfl⟩
      simp only [advance, if_pos hn', List.take_append_of_le_length hn,
        List.drop_append_of_le_length hn]
    | _ => cases h

/-- A symbol that can arrive can also arrive after its writer has gone on. -/
theorem arrive_of_advance {d : Dialogue β ε ℓ α} {inbox out inbox' : List β}
    {r : Dialogue β ε ℓ α × List β × List β} {r' : List β × List β}
    (h : advance d inbox out = some r) (h' : arrive out inbox' = some r') :
    ∃ out', advance d inbox r'.1 = some (r.1, r.2.1, out') ∧
      arrive r.2.2 inbox' = some (out', r'.2) := by
  cases out with
  | nil => cases h'
  | cons b rest =>
    cases h'
    cases d with
    | write label message k =>
      cases h
      exact ⟨rest ++ message, rfl, rfl⟩
    | read n k =>
      simp only [advance] at h
      split_ifs at h with hn
      cases h
      exact ⟨rest, if_pos hn, rfl⟩
    | _ => cases h

namespace Exchange

/-- Two things that can happen, and can happen in either order. -/
def Commute (x : Exchange β ε ℓ α γ) (a b : Move) : Prop :=
  ∀ y z, x.step a = some y → x.step b = some z →
    ∃ v, y.step b = some v ∧ z.step a = some v

theorem Commute.symm {x : Exchange β ε ℓ α γ} {a b : Move} (h : x.Commute a b) :
    x.Commute b a := by
  intro y z hy hz
  obtain ⟨v, hv, hv'⟩ := h z y hz hy
  exact ⟨v, hv', hv⟩

variable (x : Exchange β ε ℓ α γ)

theorem commute_left_right : x.Commute .left .right := by
  intro y z hy hz
  obtain ⟨r, hr, rfl⟩ := Option.map_eq_some_iff.mp hy
  obtain ⟨r', hr', rfl⟩ := Option.map_eq_some_iff.mp hz
  exact ⟨⟨r.1, r'.1, r'.2.2, r.2.1, r.2.2, r'.2.1⟩, by simp [step, hr'], by simp [step, hr]⟩

theorem commute_arriveLeft_arriveRight : x.Commute .arriveLeft .arriveRight := by
  intro y z hy hz
  obtain ⟨r, hr, rfl⟩ := Option.map_eq_some_iff.mp hy
  obtain ⟨r', hr', rfl⟩ := Option.map_eq_some_iff.mp hz
  exact ⟨⟨x.left, x.right, r.1, r.2, r'.1, r'.2⟩, by simp [step, hr'], by simp [step, hr]⟩

theorem commute_left_arriveLeft : x.Commute .left .arriveLeft := by
  intro y z hy hz
  obtain ⟨r, hr, rfl⟩ := Option.map_eq_some_iff.mp hy
  obtain ⟨r', hr', rfl⟩ := Option.map_eq_some_iff.mp hz
  obtain ⟨inbox, hadvance, harrive⟩ := advance_of_arrive hr hr'
  exact ⟨⟨r.1, x.right, r'.1, inbox, r.2.2, x.inRight⟩, by simp [step, harrive],
    by simp [step, hadvance]⟩

theorem commute_left_arriveRight : x.Commute .left .arriveRight := by
  intro y z hy hz
  obtain ⟨r, hr, rfl⟩ := Option.map_eq_some_iff.mp hy
  obtain ⟨r', hr', rfl⟩ := Option.map_eq_some_iff.mp hz
  obtain ⟨out, hadvance, harrive⟩ := arrive_of_advance hr hr'
  exact ⟨⟨r.1, x.right, x.toLeft, r.2.1, out, r'.2⟩, by simp [step, harrive],
    by simp [step, hadvance]⟩

theorem commute_right_arriveRight : x.Commute .right .arriveRight := by
  intro y z hy hz
  obtain ⟨r, hr, rfl⟩ := Option.map_eq_some_iff.mp hy
  obtain ⟨r', hr', rfl⟩ := Option.map_eq_some_iff.mp hz
  obtain ⟨inbox, hadvance, harrive⟩ := advance_of_arrive hr hr'
  exact ⟨⟨x.left, r.1, r.2.2, x.inLeft, r'.1, inbox⟩, by simp [step, harrive],
    by simp [step, hadvance]⟩

theorem commute_right_arriveLeft : x.Commute .right .arriveLeft := by
  intro y z hy hz
  obtain ⟨r, hr, rfl⟩ := Option.map_eq_some_iff.mp hy
  obtain ⟨r', hr', rfl⟩ := Option.map_eq_some_iff.mp hz
  obtain ⟨out, hadvance, harrive⟩ := arrive_of_advance hr hr'
  exact ⟨⟨x.left, r.1, out, r'.2, x.toRight, r.2.1⟩, by simp [step, harrive],
    by simp [step, hadvance]⟩

/-- Whatever can happen can happen in any order. -/
theorem commutes : Commutes (step : Exchange β ε ℓ α γ → Move → Option (Exchange β ε ℓ α γ)) := by
  intro x a b y z hab hy hz
  have hx : x.Commute a b := by
    cases a <;> cases b
    case left.right => exact x.commute_left_right
    case right.left => exact x.commute_left_right.symm
    case left.arriveLeft => exact x.commute_left_arriveLeft
    case arriveLeft.left => exact x.commute_left_arriveLeft.symm
    case left.arriveRight => exact x.commute_left_arriveRight
    case arriveRight.left => exact x.commute_left_arriveRight.symm
    case right.arriveLeft => exact x.commute_right_arriveLeft
    case arriveLeft.right => exact x.commute_right_arriveLeft.symm
    case right.arriveRight => exact x.commute_right_arriveRight
    case arriveRight.right => exact x.commute_right_arriveRight.symm
    case arriveLeft.arriveRight => exact x.commute_arriveLeft_arriveRight
    case arriveRight.arriveLeft => exact x.commute_arriveLeft_arriveRight.symm
    all_goals exact absurd rfl hab
  exact hx y z hy hz

/-! ### Messages that are read as they are written -/

/-- With empty streams, the two programs can get from one pair to another. -/
def Meets (l : Dialogue β ε ℓ α) (r : Dialogue β ε ℓ γ) (l' : Dialogue β ε ℓ α)
    (r' : Dialogue β ε ℓ γ) : Prop :=
  ∃ as, exec step (start l r) as = some (start l' r')

namespace Meets

variable {l l' l'' : Dialogue β ε ℓ α} {r r' r'' : Dialogue β ε ℓ γ}

theorem refl (l : Dialogue β ε ℓ α) (r : Dialogue β ε ℓ γ) : Meets l r l r := ⟨[], rfl⟩

theorem trans (h : Meets l r l' r') (h' : Meets l' r' l'' r'') : Meets l r l'' r'' := by
  obtain ⟨as, has⟩ := h
  obtain ⟨bs, hbs⟩ := h'
  exact ⟨as ++ bs, exec_trans has hbs⟩

theorem exec_arriveRight (message inbox : List β) :
    exec step (⟨l, r, [], [], message, inbox⟩ : Exchange β ε ℓ α γ)
      (List.replicate message.length .arriveRight) =
        some ⟨l, r, [], [], [], inbox ++ message⟩ := by
  induction message generalizing inbox with
  | nil => simp [exec]
  | cons b message ih =>
    rw [List.length_cons, List.replicate_succ, exec]
    show exec step (⟨l, r, [], [], message, inbox ++ [b]⟩ : Exchange β ε ℓ α γ) _ = _
    rw [ih, List.append_assoc, List.singleton_append]

theorem exec_arriveLeft (message inbox : List β) :
    exec step (⟨l, r, message, inbox, [], []⟩ : Exchange β ε ℓ α γ)
      (List.replicate message.length .arriveLeft) =
        some ⟨l, r, [], inbox ++ message, [], []⟩ := by
  induction message generalizing inbox with
  | nil => simp [exec]
  | cons b message ih =>
    rw [List.length_cons, List.replicate_succ, exec]
    show exec step (⟨l, r, message, inbox ++ [b], [], []⟩ : Exchange β ε ℓ α γ) _ = _
    rw [ih, List.append_assoc, List.singleton_append]

theorem left (label : ℓ) {message : List β} {n : ℕ} (hn : message.length = n)
    (k : Dialogue β ε ℓ α) (k' : List β → Dialogue β ε ℓ γ) :
    Meets (.write label message k) (.read n k') k (k' message) := by
  subst hn
  refine ⟨.left :: (List.replicate message.length .arriveRight ++ [.right]), ?_⟩
  rw [exec]
  show exec step (⟨k, .read message.length k', [], [], message, []⟩ : Exchange β ε ℓ α γ) _ = _
  rw [exec_append, exec_arriveRight]
  simp [exec, step, advance, start]

theorem right (label : ℓ) (message : List β) {n : ℕ} (hn : message.length = n)
    (k : List β → Dialogue β ε ℓ α) (k' : Dialogue β ε ℓ γ) :
    Meets (.read n k) (.write label message k') (k message) k' := by
  subst hn
  refine ⟨.right :: (List.replicate message.length .arriveLeft ++ [.left]), ?_⟩
  rw [exec]
  show exec step (⟨.read message.length k, k', message, [], [], []⟩ : Exchange β ε ℓ α γ) _ = _
  rw [exec_append, exec_arriveLeft]
  simp [exec, step, advance, start]

/-- Two programs that meet at their ends come to these ends in every run, with nothing left in
flight or unread. -/
theorem ends {a : α} {c : γ} (h : Meets l r (.done a) (.done c)) :
    Ends step (start l r) (start (.done a) (.done c)) := by
  obtain ⟨as, has⟩ := h
  refine commutes.ends ?_ has
  intro m
  cases m <;> rfl

/-- If the right side throws when the left side has one more message and then waits for an answer,
every run ends there. -/
theorem ends_of_throw {label : ℓ} {message : List β} {n : ℕ} {k : List β → Dialogue β ε ℓ α}
    {e : ε} (h : Meets l r (.write label message (.read (n + 1) k)) (.throw e)) :
    ∃ f, Ends step (start l r) f ∧ f.right = .throw e := by
  obtain ⟨as, has⟩ := h
  have hlast : exec step (start (.write label message (.read (n + 1) k)) (.throw e) :
      Exchange β ε ℓ α γ) (.left :: List.replicate message.length .arriveRight) =
        some ⟨.read (n + 1) k, .throw e, [], [], [], message⟩ := by
    rw [exec]
    show exec step (⟨.read (n + 1) k, .throw e, [], [], message, []⟩ : Exchange β ε ℓ α γ) _ = _
    rw [exec_arriveRight, List.nil_append]
  refine ⟨_, commutes.ends ?_ (exec_trans has hlast), rfl⟩
  intro m
  cases m <;> rfl

end Meets

/-! ### A side that has finished -/

/-- A program without a next operation. -/
def Finished (d : Dialogue β ε ℓ α) : Prop := ∀ inbox out, advance d inbox out = none

theorem finished_done (a : α) : Finished (.done a : Dialogue β ε ℓ α) := fun _ _ => rfl

/-- When the right side has finished, it stays so, and what is sent to it stays unread. -/
theorem step_of_finished {x y : Exchange β ε ℓ α γ} {m : Move} (hx : Finished x.right)
    (h : step x m = some y) :
    y.right = x.right ∧ x.inRight ++ x.toRight <+: y.inRight ++ y.toRight := by
  cases m with
  | left =>
    obtain ⟨r, hr, rfl⟩ := Option.map_eq_some_iff.mp h
    refine ⟨rfl, ?_⟩
    cases hleft : x.left with
    | write label message k =>
      rw [hleft] at hr
      cases hr
      exact ⟨message, List.append_assoc _ _ _⟩
    | read n k =>
      rw [hleft] at hr
      simp only [advance] at hr
      split_ifs at hr
      cases hr
      exact List.prefix_rfl
    | done a =>
      rw [hleft] at hr
      cases hr
    | throw e =>
      rw [hleft] at hr
      cases hr
  | right =>
    obtain ⟨r, hr, rfl⟩ := Option.map_eq_some_iff.mp h
    rw [hx] at hr
    cases hr
  | arriveLeft =>
    obtain ⟨r, -, rfl⟩ := Option.map_eq_some_iff.mp h
    exact ⟨rfl, List.prefix_rfl⟩
  | arriveRight =>
    obtain ⟨r, hr, rfl⟩ := Option.map_eq_some_iff.mp h
    refine ⟨rfl, ?_⟩
    cases hto : x.toRight with
    | nil =>
      rw [hto] at hr
      cases hr
    | cons b rest =>
      rw [hto] at hr
      cases hr
      exact ⟨[], by simp⟩

theorem exec_of_finished {x y : Exchange β ε ℓ α γ} {as : List Move} (hx : Finished x.right)
    (h : exec step x as = some y) :
    y.right = x.right ∧ x.inRight ++ x.toRight <+: y.inRight ++ y.toRight := by
  induction as generalizing x with
  | nil =>
    cases h
    exact ⟨rfl, List.prefix_rfl⟩
  | cons m as ih =>
    obtain ⟨z, hz, h⟩ := Option.bind_eq_some_iff.mp h
    obtain ⟨hright, hunread⟩ := step_of_finished hx hz
    have hz' : Finished z.right := by
      rw [hright]
      exact hx
    obtain ⟨hright', hunread'⟩ := ih hz' h
    exact ⟨hright'.trans hright, hunread.trans hunread'⟩

/-- Before the end of a run, a right side that has finished has finished as in the end, and what is
unread in the end includes what is unread then. -/
theorem right_of_ends {x f : Exchange β ε ℓ α γ} (h : Ends step x f) (hx : Finished x.right) :
    f.right = x.right ∧ x.inRight ++ x.toRight <+: f.inRight ++ f.toRight := by
  obtain ⟨-, n, hn⟩ := h
  obtain ⟨bs, hbs, -⟩ := hn [] x rfl
  exact exec_of_finished hx hbs

end Exchange

end Dialogue
