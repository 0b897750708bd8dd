import Trit.Worker
import Trit.Lib.Transition
import Trit.Lib.Counting
import Mathlib.Data.Fintype.Basic

/-!
# The bounded queue as a monitor

`BoundedThreadSafeQueue` with its mutex and its two condition variables, called by any number of
threads.  A step is one section under the mutex: the first part of a call, or what follows a
wakeup.  A thread whose wait predicate is false gives the mutex back and sleeps; `notify_one`
wakes one of the sleepers, whichever it likes; a sleeper may also wake without a notification.

* `Operation`, `Phase`, `QueueMonitor`: the calls, the place of each thread, the state;
* `step`: one section under the mutex, or a spurious wakeup;
* `Correct`: contents, history, and the count of wakeups on their way;
* `monitor`: `Correct` holds in every reachable state;
* `step_refines`: what the other modules use as one operation of the queue is one section here;
* `exists_resume`: a sleeper whose predicate holds is never left alone.
-/

namespace Trit

/-- The two condition variables. -/
inductive Condition
  | notEmpty
  | notFull
  deriving DecidableEq

/-- The condition variable on the other side of the queue. -/
def Condition.other : Condition → Condition
  | .notEmpty => .notFull
  | .notFull => .notEmpty

theorem Condition.ne_other (c : Condition) : c ≠ c.other := by
  cases c <;> simp [Condition.other]

theorem Condition.eq_or_eq_other (c d : Condition) : c = d ∨ c = d.other := by
  cases c <;> cases d <;> simp [Condition.other]

/-- A call of one of the four operations, with its arguments. -/
inductive Operation (T A : Type)
  | push (elem : T)
  | emplace (args : A)
  | pop
  | tryPop

/-- The condition variable that stands for what an operation needs: a free slot or an element. -/
def Operation.needs {T A : Type} : Operation T A → Condition
  | .push _ | .emplace _ => .notFull
  | .pop | .tryPop => .notEmpty

/-- The element that an operation puts in, where `make` constructs one from the arguments of
`emplace`. -/
def Operation.element {T A : Type} (make : A → T) : Operation T A → Option T
  | .push elem => some elem
  | .emplace args => some (make args)
  | .pop | .tryPop => none

/-- Where a thread is: outside every call, in `wait` and not notified, notified and yet to get
the mutex back, or awake without a notification and yet to get the mutex back. -/
inductive Phase (T A : Type)
  | outside
  | asleep (op : Operation T A)
  | signalled (op : Operation T A)
  | woken (op : Operation T A)

namespace Phase

variable {T A : Type}

/-- Does the thread sleep on this condition variable, with no notification on its way? -/
def sleepsOn (c : Condition) : Phase T A → Bool
  | .asleep op => op.needs = c
  | _ => false

/-- Has the thread been notified through this condition variable, and not yet resumed? -/
def signalledOn (c : Condition) : Phase T A → Bool
  | .signalled op => op.needs = c
  | _ => false

theorem sleepsOn_eq_true {c : Condition} {φ : Phase T A} :
    φ.sleepsOn c = true ↔ ∃ op, φ = .asleep op ∧ op.needs = c := by
  cases φ <;> simp [sleepsOn]

theorem signalledOn_eq_true {c : Condition} {φ : Phase T A} :
    φ.signalledOn c = true ↔ ∃ op, φ = .signalled op ∧ op.needs = c := by
  cases φ <;> simp [signalledOn]

end Phase

/-- The queue and its threads.  `removed` and `inserted` list the elements taken out and put in
so far, in the order of the sections; they influence nothing. -/
structure QueueMonitor (ι T A : Type) where
  queue : List T
  removed : List T
  inserted : List T
  phase : ι → Phase T A

namespace QueueMonitor

open Transition Counting

variable {ι T A : Type} {capacity : ℕ}

/-- The constructor, before any thread calls. -/
def new (ι T A : Type) (capacity : ℕ) : Except Exception (QueueMonitor ι T A) :=
  if capacity = 0 then .error (.logicError "Queue capacity must be greater than 0")
  else .ok ⟨[], [], [], fun _ => .outside⟩

/-- The wait predicate of an operation; `try_pop` never waits. -/
def ready (capacity : ℕ) (m : QueueMonitor ι T A) : Operation T A → Bool
  | .push _ | .emplace _ => m.queue.length < capacity
  | .pop => 0 < m.queue.length
  | .tryPop => true

/-- An element is put in at the back. -/
def insert (m : QueueMonitor ι T A) (x : T) : QueueMonitor ι T A :=
  { m with queue := m.queue ++ [x], inserted := m.inserted ++ [x] }

/-- The front element is taken out. -/
def remove (m : QueueMonitor ι T A) : QueueMonitor ι T A :=
  match m.queue with
  | [] => m
  | x :: rest => { m with queue := rest, removed := m.removed ++ [x] }

/-- What an operation does once it has stopped waiting, and the condition variable it notifies. -/
def body (make : A → T) (m : QueueMonitor ι T A) :
    Operation T A → QueueMonitor ι T A × Option Condition
  | .push elem => (m.insert elem, some .notEmpty)
  | .emplace args => (m.insert (make args), some .notEmpty)
  | .pop => (m.remove, some .notFull)
  | .tryPop => if m.queue.isEmpty then (m, none) else (m.remove, some .notFull)

/-! ### What an operation takes and gives -/

/-- The units a condition variable stands for: the elements in the queue, or the free slots. -/
def available (capacity : ℕ) (m : QueueMonitor ι T A) : Condition → ℕ
  | .notEmpty => m.queue.length
  | .notFull => capacity - m.queue.length

/-- An operation that goes through takes one unit of what it needs, and gives one unit to the
other side. -/
inductive Turn (capacity : ℕ) (make : A → T) (op : Operation T A) (m m' : QueueMonitor ι T A) :
    Condition → Prop
  | put (x : T) (room : m.queue.length < capacity) (queue : m'.queue = m.queue ++ [x])
      (inserted : m'.inserted = m.inserted ++ [x]) (removed : m'.removed = m.removed)
      (phase : m'.phase = m.phase) (element : op.element make = some x) :
      Turn capacity make op m m' .notFull
  | take (x : T) (queue : m.queue = x :: m'.queue) (inserted : m'.inserted = m.inserted)
      (removed : m'.removed = m.removed ++ [x]) (phase : m'.phase = m.phase)
      (element : op.element make = none) : Turn capacity make op m m' .notEmpty

variable {make : A → T} {m m' t : QueueMonitor ι T A} {φ : Phase T A} {op : Operation T A}
  {c : Condition}

theorem turn_remove (h : m.queue ≠ []) (hop : op.element make = none) :
    Turn capacity make op m m.remove .notEmpty := by
  unfold remove
  split
  · exact absurd (by assumption) h
  · exact .take _ (by assumption) rfl rfl rfl hop

/-- What an operation does when it goes through. -/
theorem body_cases (make : A → T) (h : m.ready capacity op = true) :
    (∃ t, m.body make op = (t, some op.needs.other) ∧ Turn capacity make op m t op.needs) ∨
      (m.available capacity op.needs = 0 ∧ m.body make op = (m, none)) := by
  cases op with
  | push x => exact Or.inl ⟨_, rfl, .put x (of_decide_eq_true h) rfl rfl rfl rfl rfl⟩
  | emplace a => exact Or.inl ⟨_, rfl, .put (make a) (of_decide_eq_true h) rfl rfl rfl rfl
      rfl⟩
  | pop =>
    have hne : m.queue ≠ [] := List.ne_nil_of_length_pos (of_decide_eq_true h)
    exact Or.inl ⟨_, rfl, turn_remove hne rfl⟩
  | tryPop =>
    by_cases hq : m.queue = []
    · exact Or.inr ⟨by simp [available, Operation.needs, hq], by simp [body, hq]⟩
    · exact Or.inl ⟨m.remove, by simp [body, hq, Operation.needs, Condition.other],
        turn_remove hq rfl⟩

/-- An operation that is not ready finds nothing of what it needs. -/
theorem available_eq_zero (h : m.ready capacity op = false) :
    m.available capacity op.needs = 0 := by
  cases op <;> simp [ready] at h <;> simp [available, Operation.needs, h]

namespace Turn

theorem phase_eq (h : Turn capacity make op m t c) : t.phase = m.phase := by
  cases h <;> assumption

theorem available_needs (h : Turn capacity make op m t c) :
    t.available capacity c + 1 = m.available capacity c := by
  cases h with
  | put x room queue =>
    simp only [available, queue, List.length_append, List.length_singleton]
    omega
  | take x queue => simp [available, queue]

theorem available_other (h : Turn capacity make op m t c) (hm : m.queue.length ≤ capacity) :
    t.available capacity c.other = m.available capacity c.other + 1 := by
  cases h with
  | put x room queue => simp [available, Condition.other, queue]
  | take x queue =>
    simp only [available, Condition.other, queue, List.length_cons] at hm ⊢
    omega

theorem size_le (h : Turn capacity make op m t c) (hm : m.queue.length ≤ capacity) :
    t.queue.length ≤ capacity := by
  cases h with
  | put x room queue =>
    rw [queue, List.length_append]
    exact room
  | take x queue =>
    rw [queue, List.length_cons] at hm
    omega

theorem history (h : Turn capacity make op m t c) (hm : m.inserted = m.removed ++ m.queue) :
    t.inserted = t.removed ++ t.queue := by
  cases h with
  | put x room queue inserted removed => rw [inserted, removed, queue, hm, List.append_assoc]
  | take x queue inserted removed => rw [inserted, removed, hm, queue, List.append_assoc]; rfl

end Turn

/-- A thread that may run a section of `op`: it calls it now, or has been woken inside it. -/
def Enters (φ : Phase T A) (op : Operation T A) : Prop :=
  φ = .outside ∨ φ = .signalled op ∨ φ = .woken op

/-- A thread in an operation has no notification through the other condition variable. -/
theorem Enters.signalledOn_other {φ : Phase T A} (h : Enters φ op) :
    φ.signalledOn op.needs.other = false := by
  rcases h with rfl | rfl | rfl
  · rfl
  · exact decide_eq_false op.needs.ne_other
  · rfl

/-! ### The invariant -/

section Invariant

variable [Fintype ι]

/-- The number of threads notified through a condition variable and not yet resumed. -/
def signalled (m : QueueMonitor ι T A) (c : Condition) : ℕ :=
  count (Phase.signalledOn c) m.phase

/-- The queue respects its capacity, elements leave it in the order in which they came, and
where a thread sleeps at least as many wakeups are on their way as there are units to take. -/
structure Correct (capacity : ℕ) (m : QueueMonitor ι T A) : Prop where
  size_le : m.queue.length ≤ capacity
  history : m.inserted = m.removed ++ m.queue
  awake : ∀ c p, (m.phase p).sleepsOn c = true → m.available capacity c ≤ m.signalled c

theorem Correct.of_new (h : new ι T A capacity = .ok m) : Correct capacity m := by
  unfold new at h
  split_ifs at h
  obtain rfl := Except.ok.inj h
  refine ⟨Nat.zero_le _, rfl, fun c p hp => ?_⟩
  cases hp

end Invariant

/-! ### Sections under the mutex -/

variable [DecidableEq ι]

variable {p q : ι} {wake : Option ι}

/-- A thread goes to another place. -/
def moveTo (m : QueueMonitor ι T A) (p : ι) (φ : Phase T A) : QueueMonitor ι T A :=
  { m with phase := Function.update m.phase p φ }

@[simp] theorem moveTo_queue (m : QueueMonitor ι T A) (p : ι) (φ : Phase T A) :
    (m.moveTo p φ).queue = m.queue := rfl
@[simp] theorem moveTo_removed (m : QueueMonitor ι T A) (p : ι) (φ : Phase T A) :
    (m.moveTo p φ).removed = m.removed := rfl
@[simp] theorem moveTo_inserted (m : QueueMonitor ι T A) (p : ι) (φ : Phase T A) :
    (m.moveTo p φ).inserted = m.inserted := rfl
@[simp] theorem moveTo_phase (m : QueueMonitor ι T A) (p : ι) (φ : Phase T A) :
    (m.moveTo p φ).phase = Function.update m.phase p φ := rfl

/-- Who sleeps after one thread has moved slept before, unless it is the thread itself. -/
theorem sleepsOn_of_moveTo (hφ : φ.sleepsOn c = false)
    (h : ((m.moveTo p φ).phase q).sleepsOn c = true) : (m.phase q).sleepsOn c = true := by
  by_cases hq : q = p
  · rw [hq, moveTo_phase, Function.update_self, hφ] at h
    cases h
  · rwa [moveTo_phase, Function.update_of_ne hq] at h

@[simp] theorem available_moveTo (m : QueueMonitor ι T A) (p : ι) (φ : Phase T A)
    (c : Condition) : (m.moveTo p φ).available capacity c = m.available capacity c := by
  cases c <;> rfl

variable [Fintype ι]

/-- `notify_one()`: `wake` names the thread that is woken; nobody is woken only when nobody
sleeps there. -/
def notifyOne (c : Condition) (wake : Option ι) (m : QueueMonitor ι T A) :
    Option (QueueMonitor ι T A) :=
  match wake with
  | none => if ∃ q, (m.phase q).sleepsOn c = true then none else some m
  | some q =>
    match m.phase q with
    | .asleep op => if op.needs = c then some (m.moveTo q (.signalled op)) else none
    | _ => none

/-- One section under the mutex of a thread that is in operation `op`: it goes through to the
end of the operation, or the thread falls asleep. -/
def mutexSection (capacity : ℕ) (make : A → T) (m : QueueMonitor ι T A) (p : ι)
    (op : Operation T A) (wake : Option ι) : Option (QueueMonitor ι T A) :=
  if m.ready capacity op then
    match m.body make op with
    | (m', some c) => (m'.moveTo p .outside).notifyOne c wake
    | (m', none) => if wake = none then some (m'.moveTo p .outside) else none
  else if wake = none then some (m.moveTo p (.asleep op)) else none

/-- The events: a call begins, a thread that has been woken gets the mutex back, a sleeper wakes
without a notification. -/
inductive Action (ι T A : Type)
  | call (p : ι) (op : Operation T A) (wake : Option ι)
  | resume (p : ι) (wake : Option ι)
  | spurious (p : ι)

/-- The operation whose section an event is. -/
def operation (m : QueueMonitor ι T A) : Action ι T A → Option (Operation T A)
  | .call _ op _ => some op
  | .resume p _ =>
    match m.phase p with
    | .signalled op | .woken op => some op
    | _ => none
  | .spurious _ => none

/-- One event. -/
def step (capacity : ℕ) (make : A → T) (m : QueueMonitor ι T A) :
    Action ι T A → Option (QueueMonitor ι T A)
  | .call p op wake =>
    match m.phase p with
    | .outside => m.mutexSection capacity make p op wake
    | _ => none
  | .resume p wake =>
    match m.phase p with
    | .signalled op | .woken op => m.mutexSection capacity make p op wake
    | _ => none
  | .spurious p =>
    match m.phase p with
    | .asleep op => some (m.moveTo p (.woken op))
    | _ => none

/-! ### What one event can do -/

/-- The events, by what they do. -/
inductive Event (capacity : ℕ) (make : A → T) (m m' : QueueMonitor ι T A) (a : Action ι T A) : Prop
  | turn (p : ι) (op : Operation T A) (wake : Option ι) (t : QueueMonitor ι T A)
      (operation : m.operation a = some op) (enters : Enters (m.phase p) op)
      (turn : Turn capacity make op m t op.needs)
      (notify : (t.moveTo p .outside).notifyOne op.needs.other wake = some m')
  | idle (p : ι) (op : Operation T A) (φ : Phase T A) (enters : Enters (m.phase p) op)
      (unavailable : m.available capacity op.needs = 0) (place : φ = .outside ∨ φ = .asleep op)
      (eq : m' = m.moveTo p φ)
  | spurious (p : ι) (op : Operation T A) (asleep : m.phase p = .asleep op)
      (eq : m' = m.moveTo p (.woken op))

theorem event_of_mutexSection {a : Action ι T A} (ha : m.operation a = some op)
    (hp : Enters (m.phase p) op) (h : m.mutexSection capacity make p op wake = some m') :
    Event capacity make m m' a := by
  unfold mutexSection at h
  by_cases hr : m.ready capacity op = true
  · rw [if_pos hr] at h
    rcases body_cases make hr with ⟨t, hb, ht⟩ | ⟨hq, hb⟩
    · rw [hb] at h
      exact .turn p op wake t ha hp ht h
    · rw [hb] at h
      obtain ⟨-, heq⟩ := Option.ite_none_right_eq_some.mp h
      exact .idle p op .outside hp hq (Or.inl rfl) (Option.some.inj heq).symm
  · rw [if_neg hr] at h
    obtain ⟨-, heq⟩ := Option.ite_none_right_eq_some.mp h
    have hzero := available_eq_zero (Bool.eq_false_iff.mpr hr)
    exact .idle p op (.asleep op) hp hzero (Or.inr rfl) (Option.some.inj heq).symm

theorem event_of_step {a : Action ι T A} (h : m.step capacity make a = some m') :
    Event capacity make m m' a := by
  cases a with
  | call p op wake =>
    simp only [step] at h
    split at h
    · exact event_of_mutexSection rfl (Or.inl (by assumption)) h
    · cases h
  | resume p wake =>
    simp only [step] at h
    split at h
    case h_1 op hop =>
      exact event_of_mutexSection (by simp [operation, hop]) (Or.inr (Or.inl hop)) h
    case h_2 op hop =>
      exact event_of_mutexSection (by simp [operation, hop]) (Or.inr (Or.inr hop)) h
    case h_3 => cases h
  | spurious p =>
    simp only [step] at h
    split at h
    · exact .spurious p _ (by assumption) (Option.some.inj h).symm
    · cases h

/-- Either nobody sleeps on the condition variable, or one sleeper is notified. -/
theorem notifyOne_cases (h : m.notifyOne c wake = some m') :
    ((∀ q, (m.phase q).sleepsOn c = false) ∧ m' = m) ∨
      ∃ q op, m.phase q = .asleep op ∧ op.needs = c ∧ m' = m.moveTo q (.signalled op) := by
  unfold notifyOne at h
  split at h
  · split_ifs at h with hq
    exact Or.inl ⟨by simpa using hq, (Option.some.inj h).symm⟩
  · split at h
    · split_ifs at h with hc
      exact Or.inr ⟨_, _, by assumption, hc, (Option.some.inj h).symm⟩
    · cases h

/-! ### Sleepers and wakeups -/

theorem signalled_le_moveTo (m : QueueMonitor ι T A) (p : ι) (φ : Phase T A) (c : Condition) :
    m.signalled c ≤ (m.moveTo p φ).signalled c + 1 :=
  count_le_count_update _ _ _ _

theorem signalled_moveTo_of_enters (h : (m.phase p).signalledOn c = false)
    (hφ : φ.signalledOn c = true) : (m.moveTo p φ).signalled c = m.signalled c + 1 :=
  count_update_of_enters h hφ

theorem signalled_moveTo (h : φ.signalledOn c = (m.phase p).signalledOn c) :
    (m.moveTo p φ).signalled c = m.signalled c :=
  count_update_of_eq h

/-! ### Every event keeps the invariant -/

namespace Correct

/-- An operation goes through: a unit is taken where a wakeup may have been used up, and the
unit given to the other side comes with a new wakeup as long as anyone sleeps there. -/
theorem turn (hm : Correct capacity m) (hp : Enters (m.phase p) op)
    (ht : Turn capacity make op m t op.needs)
    (h : (t.moveTo p .outside).notifyOne op.needs.other wake = some m') :
    Correct capacity m' := by
  have hneeds := ht.available_needs
  have hother := ht.available_other hm.size_le
  have hsleep : ∀ c q, ((t.moveTo p .outside).phase q).sleepsOn c = true →
      (m.phase q).sleepsOn c = true := by
    intro c q hq
    rw [← ht.phase_eq]
    exact sleepsOn_of_moveTo rfl hq
  have hused : m.signalled op.needs ≤ (t.moveTo p .outside).signalled op.needs + 1 := by
    have hle := signalled_le_moveTo t p .outside op.needs
    rwa [signalled, ht.phase_eq] at hle
  have hkept : (t.moveTo p .outside).signalled op.needs.other = m.signalled op.needs.other := by
    rw [signalled_moveTo, signalled, signalled, ht.phase_eq]
    rw [ht.phase_eq, hp.signalledOn_other]
    rfl
  rcases notifyOne_cases h with ⟨hnone, rfl⟩ | ⟨q, op', hq, hc, rfl⟩
  · refine ⟨ht.size_le hm.size_le, ht.history hm.history, fun c r hr => ?_⟩
    -- nobody sleeps on the other side; this side uses up a unit and at most one wakeup
    rcases Condition.eq_or_eq_other c op.needs with rfl | rfl
    · have := hm.awake _ _ (hsleep _ r hr)
      rw [available_moveTo]
      omega
    · rw [hnone r] at hr
      cases hr
  · have hne : op'.needs ≠ op.needs := by rw [hc]; cases op.needs <;> simp [Condition.other]
    refine ⟨ht.size_le hm.size_le, ht.history hm.history, fun c r hr => ?_⟩
    -- a sleeper on the other side is notified: there is a wakeup for the unit that it gets
    have hr := hm.awake _ _ (hsleep _ r (sleepsOn_of_moveTo rfl hr))
    simp only [available_moveTo]
    rcases Condition.eq_or_eq_other c op.needs with rfl | rfl
    · rw [signalled_moveTo (by simp [Phase.signalledOn, hq, hne])]
      omega
    · rw [signalled_moveTo_of_enters (by simp [Phase.signalledOn, hq])
        (by simp [Phase.signalledOn, hc])]
      omega

/-- A thread that found nothing of what it needs returns or falls asleep. -/
theorem idle (hm : Correct capacity m) (hp : Enters (m.phase p) op)
    (hzero : m.available capacity op.needs = 0) (hφ : φ = .outside ∨ φ = .asleep op) :
    Correct capacity (m.moveTo p φ) := by
  refine ⟨hm.size_le, hm.history, fun c q hq => ?_⟩
  rw [available_moveTo]
  rcases Condition.eq_or_eq_other c op.needs with rfl | rfl
  · omega
  · have hsleeps : φ.sleepsOn op.needs.other = false := by
      rcases hφ with rfl | rfl
      · rfl
      · exact decide_eq_false op.needs.ne_other
    have hsignal : φ.signalledOn op.needs.other = false := by
      rcases hφ with rfl | rfl <;> rfl
    rw [signalled_moveTo (hsignal.trans hp.signalledOn_other.symm)]
    exact hm.awake _ q (sleepsOn_of_moveTo hsleeps hq)

theorem step {a : Action ι T A} (hm : Correct capacity m)
    (h : m.step capacity make a = some m') : Correct capacity m' := by
  cases event_of_step h with
  | turn p op wake t _ hp ht hn => exact hm.turn hp ht hn
  | idle p op φ hp hzero hφ heq => exact heq ▸ hm.idle hp hzero hφ
  | spurious p op hp heq =>
    subst heq
    refine ⟨hm.size_le, hm.history, fun c q hq => ?_⟩
    rw [available_moveTo, signalled_moveTo (by rw [hp]; rfl)]
    exact hm.awake c q (sleepsOn_of_moveTo rfl hq)

end Correct

/-- The queue is a correct monitor: in every reachable state it holds at most `capacity`
elements, what has been removed followed by what it holds is what has been inserted, and
wherever a thread sleeps unsignalled at least as many threads have been signalled and not yet
resumed as there are elements, or free slots, to take. -/
theorem monitor {m₀ : QueueMonitor ι T A} (hnew : new ι T A capacity = .ok m₀)
    (h : Reach (QueueMonitor.step capacity make) any m₀ m) :
    m.queue.length ≤ capacity ∧ m.removed ++ m.queue = m.inserted ∧
      (∀ p, (m.phase p).sleepsOn .notEmpty = true → m.queue.length ≤ m.signalled .notEmpty) ∧
      ∀ p, (m.phase p).sleepsOn .notFull = true →
        capacity - m.queue.length ≤ m.signalled .notFull := by
  have hm : Correct capacity m :=
    h.invariant (fun _ _ _ hm _ hs => hm.step hs) (Correct.of_new hnew)
  exact ⟨hm.size_le, hm.history.symm, hm.awake .notEmpty, hm.awake .notFull⟩

/-- Two threads sleep in `pop`, a third inserts an element and wakes one of them: the other
sleeps on, with one element in the queue and one wakeup on its way. -/
theorem monitor_pop_pop_push : ∃ m₀ m : QueueMonitor (Fin 3) ℕ ℕ,
    new (Fin 3) ℕ ℕ 1 = .ok m₀ ∧ Reach (QueueMonitor.step 1 id) any m₀ m ∧
      (m.phase 1).sleepsOn .notEmpty = true ∧
      m.queue.length = 1 ∧ m.queue.length ≤ m.signalled .notEmpty := by
  have hrun : (exec (QueueMonitor.step 1 id)
      (⟨[], [], [], fun _ => .outside⟩ : QueueMonitor (Fin 3) ℕ ℕ)
      [.call 0 .pop none, .call 1 .pop none, .call 2 (.push 7) (some 0)]).map
      (fun m => (m.phase 1).sleepsOn .notEmpty && m.queue.length == 1) = some true := rfl
  obtain ⟨m, hm, htest⟩ := reach_of_exec_test _ (fun _ _ _ => trivial) hrun
  have hmonitor := monitor (T := ℕ) rfl hm
  simp only [Bool.and_eq_true, beq_iff_eq] at htest
  exact ⟨_, m, rfl, hm, htest.1, htest.2, hmonitor.2.2.1 1 htest.1⟩

/-! ### The monitor behind the operations of the pipeline -/

/-- The queue as the workers see it. -/
def Correct.toQueue (hm : Correct capacity m) : BoundedThreadSafeQueue capacity T :=
  ⟨m.removed, m.queue, hm.size_le⟩

/-- One event is one `push` of what the operation puts in, one `pop` of the front element by an
operation that puts nothing in, or nothing at all on the queue the workers see. -/
theorem step_refines {a : Action ι T A} (hm : Correct capacity m)
    (h : m.step capacity make a = some m') :
    (hm.step h).toQueue = hm.toQueue ∨
      (∃ op x, m.operation a = some op ∧ op.element make = some x ∧
        hm.toQueue.push x = some (hm.step h).toQueue) ∨
      ∃ op x, m.operation a = some op ∧ op.element make = none ∧ m.queue.head? = some x ∧
        hm.toQueue.pop = some (x, (hm.step h).toQueue) := by
  cases event_of_step h with
  | turn p op wake t ha hp ht hn =>
    have hdata : m'.removed = t.removed ∧ m'.queue = t.queue := by
      rcases notifyOne_cases hn with ⟨-, rfl⟩ | ⟨q, op', -, -, rfl⟩ <;> exact ⟨rfl, rfl⟩
    generalize op.needs = c at ht
    cases ht with
    | put x room queue inserted removed phase element =>
      refine Or.inr (Or.inl ⟨op, x, ha, element, BoundedThreadSafeQueue.push_eq_some.mpr ?_⟩)
      exact ⟨room, hdata.1.trans removed, hdata.2.trans queue⟩
    | take x queue inserted removed phase element =>
      refine Or.inr (Or.inr ⟨op, x, ha, element, by rw [queue]; rfl,
        BoundedThreadSafeQueue.pop_eq_some.mpr ?_⟩)
      exact ⟨queue.trans (congrArg _ hdata.2.symm), hdata.1.trans removed⟩
  | idle p op φ hp hzero hφ heq =>
    subst heq
    exact Or.inl rfl
  | spurious p op hp heq =>
    subst heq
    exact Or.inl rfl

/-- Somebody can always be notified, or nobody sleeps. -/
theorem exists_notifyOne (c : Condition) (m : QueueMonitor ι T A) :
    ∃ wake m', m.notifyOne c wake = some m' := by
  by_cases hq : ∃ q, (m.phase q).sleepsOn c = true
  · obtain ⟨q, hq⟩ := hq
    obtain ⟨op, hop, hc⟩ := Phase.sleepsOn_eq_true.mp hq
    exact ⟨some q, m.moveTo q (.signalled op), by simp [notifyOne, hop, hc]⟩
  · exact ⟨none, m, by simp [notifyOne, hq]⟩

/-- A sleeper with something to take is never left alone: a thread that was signalled through
the same condition variable can resume, and its operation goes through. -/
theorem exists_resume (hm : Correct capacity m) (hp : (m.phase p).sleepsOn c = true)
    (havailable : 0 < m.available capacity c) :
    ∃ q op wake m', m.phase q = .signalled op ∧ op.needs = c ∧
      m.step capacity make (.resume q wake) = some m' ∧ m'.phase q = .outside := by
  obtain ⟨q, hq⟩ := exists_of_count_pos (havailable.trans_le (hm.awake c p hp))
  obtain ⟨op, hop, rfl⟩ := Phase.signalledOn_eq_true.mp hq
  have hready : m.ready capacity op = true := by
    by_contra hr
    have := available_eq_zero (Bool.eq_false_iff.mpr hr)
    omega
  rcases body_cases make hready with ⟨t, hb, ht⟩ | ⟨hzero, -⟩
  · obtain ⟨wake, m', hn⟩ := exists_notifyOne op.needs.other (t.moveTo q .outside)
    refine ⟨q, op, wake, m', hop, rfl, ?_, ?_⟩
    · simp only [QueueMonitor.step, hop, mutexSection, if_pos hready, hb]
      exact hn
    · rcases notifyOne_cases hn with ⟨-, rfl⟩ | ⟨r, op', hr, -, rfl⟩
      · simp
      · have hne : q ≠ r := by
          rintro rfl
          simp at hr
        simp [hne]
  · omega

end QueueMonitor

end Trit
