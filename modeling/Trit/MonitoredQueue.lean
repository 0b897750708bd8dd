import Trit.QueueMonitor

/-!
# The queue of a pipeline as a monitor

The bounded queue between two threads of a pipeline, with its mutex and its condition variables: the
thread in front of it pushes, the thread behind it pops.

* `QueueMonitor.after_mutexSection`: what one section does for its thread, and what it leaves to the
  others;
* `End`, `MonitoredQueue`: the two threads, the queue in a correct state;
* `enter`: one section of one of them, on its call or after a wakeup;
* `enter_push`, `enter_pop`, `enter_tryPop`: a section is an operation of the queue that the workers
  of `Pipeline` see, or the thread falls asleep where that operation is not possible;
* `Sides.blocked`: with one thread at each end, nobody sleeps where there is something to take.
-/

namespace Trit

/-! ### One section of one operation -/

namespace Phase

variable {T A : Type}

/-- The operation inside which a thread is. -/
def pending : Phase T A → Option (Operation T A)
  | .outside => none
  | .asleep op | .signalled op | .woken op => some op

end Phase

namespace QueueMonitor

variable {ι T A : Type} [Fintype ι] [DecidableEq ι] {capacity : ℕ} {make : A → T}
  {m m' : QueueMonitor ι T A} {p : ι} {op : Operation T A} {c : Condition} {wake : Option ι} {x : T}

/-- A notification moves no elements, and takes no thread out of its operation. -/
theorem notifyOne_frame (h : m.notifyOne c wake = some m') :
    m'.queue = m.queue ∧ m'.removed = m.removed ∧
      ∀ r, (m'.phase r).pending = (m.phase r).pending := by
  rcases notifyOne_cases h with ⟨-, rfl⟩ | ⟨q, op, hq, -, rfl⟩
  · exact ⟨rfl, rfl, fun _ => rfl⟩
  · refine ⟨rfl, rfl, fun r => ?_⟩
    by_cases hr : r = q
    · rw [hr, moveTo_phase, Function.update_self, hq]
      rfl
    · rw [moveTo_phase, Function.update_of_ne hr]

/-- A thread that has the mutex always gets through its section. -/
theorem exists_mutexSection (capacity : ℕ) (make : A → T) (m : QueueMonitor ι T A) (p : ι)
    (op : Operation T A) : ∃ wake m', m.mutexSection capacity make p op wake = some m' := by
  unfold mutexSection
  by_cases hr : m.ready capacity op = true
  · rcases body_cases make hr with ⟨t, hb, -⟩ | ⟨-, hb⟩
    · obtain ⟨wake, m', hn⟩ := exists_notifyOne op.needs.other (t.moveTo p .outside)
      exact ⟨wake, m', by rw [if_pos hr, hb]; exact hn⟩
    · exact ⟨none, m.moveTo p .outside, by rw [if_pos hr, hb]; rfl⟩
  · exact ⟨none, m.moveTo p (.asleep op), by rw [if_neg hr]; rfl⟩

/-- What a section leaves to the others: `m'` agrees with `t` on the elements, the thread `p` is
where `φ` says, and the other threads are in the operations in which they were in `m`. -/
structure After (m t m' : QueueMonitor ι T A) (p : ι) (φ : Option (Operation T A)) : Prop where
  queue : m'.queue = t.queue
  removed : m'.removed = t.removed
  pending : (m'.phase p).pending = φ
  others : ∀ r, r ≠ p → (m'.phase r).pending = (m.phase r).pending

omit [Fintype ι] in
theorem After.moveTo {t : QueueMonitor ι T A} (ht : t.phase = m.phase) (p : ι) (φ : Phase T A) :
    After m t (t.moveTo p φ) p φ.pending := by
  refine ⟨rfl, rfl, ?_, fun r hr => ?_⟩
  · rw [moveTo_phase, Function.update_self]
  · rw [moveTo_phase, Function.update_of_ne hr, ht]

theorem After.notifyOne {t u : QueueMonitor ι T A} {φ : Option (Operation T A)}
    (hu : After m t u p φ) (h : u.notifyOne c wake = some m') : After m t m' p φ := by
  obtain ⟨hqueue, hremoved, hphase⟩ := notifyOne_frame h
  refine ⟨hqueue.trans hu.queue, hremoved.trans hu.removed, (hphase p).trans hu.pending, ?_⟩
  exact fun r hr => (hphase r).trans (hu.others r hr)

omit [Fintype ι] [DecidableEq ι] in
theorem body_phase (make : A → T) (m : QueueMonitor ι T A) (op : Operation T A) :
    (m.body make op).1.phase = m.phase := by
  have hremove : m.remove.phase = m.phase := by
    unfold remove
    split <;> rfl
  cases op with
  | push x => rfl
  | emplace a => rfl
  | pop => exact hremove
  | tryPop =>
    unfold body
    split_ifs
    · rfl
    · exact hremove

/-- A section carries the operation out and leaves it, or does nothing and leaves the thread
inside. -/
theorem after_mutexSection (h : m.mutexSection capacity make p op wake = some m') :
    m.ready capacity op = true ∧ After m (m.body make op).1 m' p none ∨
      m.ready capacity op = false ∧ After m m m' p (some op) := by
  have hout := After.moveTo (body_phase make m op) p .outside
  unfold mutexSection at h
  by_cases hr : m.ready capacity op = true
  · rw [if_pos hr] at h
    refine Or.inl ⟨hr, ?_⟩
    split at h
    · rename_i t c hb
      rw [hb] at hout ⊢
      exact hout.notifyOne h
    · rename_i t hb
      rw [hb] at hout ⊢
      obtain ⟨-, heq⟩ := Option.ite_none_right_eq_some.mp h
      exact Option.some.inj heq ▸ hout
  · rw [if_neg hr] at h
    obtain ⟨-, heq⟩ := Option.ite_none_right_eq_some.mp h
    exact Or.inr ⟨Bool.eq_false_iff.mpr hr, Option.some.inj heq ▸ After.moveTo rfl p (.asleep op)⟩

end QueueMonitor

/-! ### The two ends of a queue of the pipeline -/

/-- The thread that pushes, and the one that pops. -/
inductive End
  | pusher
  | popper
  deriving DecidableEq

/-- The condition variable on which an end waits. -/
def End.needs : End → Condition
  | .pusher => .notFull
  | .popper => .notEmpty

instance : Fintype End := ⟨{.pusher, .popper}, fun p => by cases p <;> simp⟩

/-- A queue with its mutex, its condition variables and the two threads that use it. -/
structure MonitoredQueue (capacity : ℕ) where
  monitor : QueueMonitor End Chunk Chunk
  correct : monitor.Correct capacity

namespace MonitoredQueue

variable {capacity : ℕ} {q q' : MonitoredQueue capacity} {p : End} {op : Operation Chunk Chunk}
  {wake : Option End} {x : Chunk}

theorem correct_empty (capacity : ℕ) :
    (⟨[], [], [], fun _ => .outside⟩ : QueueMonitor End Chunk Chunk).Correct capacity :=
  ⟨Nat.zero_le _, rfl, fun _ _ h => by cases h⟩

/-- The queue before the first call. -/
def new (capacity : ℕ) : MonitoredQueue capacity := ⟨_, correct_empty capacity⟩

/-- The queue as the workers of `Pipeline` see it. -/
def queue (q : MonitoredQueue capacity) : BoundedThreadSafeQueue capacity Chunk :=
  q.correct.toQueue

/-- The operation inside which a thread is. -/
def pending (q : MonitoredQueue capacity) (p : End) : Option (Operation Chunk Chunk) :=
  (q.monitor.phase p).pending

/-- One event of the monitor. -/
def step (q : MonitoredQueue capacity) (a : QueueMonitor.Action End Chunk Chunk) :
    Option (MonitoredQueue capacity) :=
  match h : q.monitor.step capacity id a with
  | some m => some ⟨m, q.correct.step h⟩
  | none => none

/-- One section of a thread that calls `op`, or has been woken inside it. -/
def enter (q : MonitoredQueue capacity) (p : End) (op : Operation Chunk Chunk)
    (wake : Option End) : Option (MonitoredQueue capacity) :=
  match q.monitor.phase p with
  | .outside => q.step (.call p op wake)
  | _ => q.step (.resume p wake)

theorem step_eq_some {a : QueueMonitor.Action End Chunk Chunk} :
    q.step a = some q' ↔ q.monitor.step capacity id a = some q'.monitor := by
  unfold step
  split
  · rename_i m h
    constructor
    · intro hq
      obtain rfl := Option.some.inj hq
      exact h
    · intro hm
      obtain rfl : m = q'.monitor := Option.some.inj (h.symm.trans hm)
      rfl
  · rename_i h
    rw [h]
    simp

/-- A wakeup without a notification changes nothing but the place of the sleeper. -/
theorem step_spurious (h : q.step (.spurious p) = some q') :
    q'.queue = q.queue ∧ ∀ r, q'.pending r = q.pending r := by
  have hm := step_eq_some.mp h
  cases hp : q.monitor.phase p with
  | asleep op =>
    obtain hm : q.monitor.moveTo p (.woken op) = q'.monitor := by
      simpa [QueueMonitor.step, hp] using hm
    refine ⟨BoundedThreadSafeQueue.ext (congrArg QueueMonitor.removed hm).symm
      (congrArg QueueMonitor.queue hm).symm, fun r => ?_⟩
    rw [pending, pending, ← hm]
    by_cases hr : r = p
    · rw [hr, QueueMonitor.moveTo_phase, Function.update_self, hp]
      rfl
    · rw [QueueMonitor.moveTo_phase, Function.update_of_ne hr]
  | outside | signalled | woken => simp [QueueMonitor.step, hp] at hm

/-- A thread that is in no other operation runs a section of this one, unless it sleeps. -/
theorem enter_eq_some (hp : ∀ op', q.pending p = some op' → op' = op) :
    q.enter p op wake = some q' ↔ (∀ op', q.monitor.phase p ≠ .asleep op') ∧
      q.monitor.mutexSection capacity id p op wake = some q'.monitor := by
  unfold pending at hp
  unfold enter
  split
  · rename_i hphase
    rw [step_eq_some, QueueMonitor.step, hphase]
    simp
  · rename_i hphase
    rw [step_eq_some, QueueMonitor.step]
    cases h : q.monitor.phase p with
    | outside => exact absurd h hphase
    | asleep op' => simp
    | signalled op' | woken op' =>
      rw [h] at hp
      obtain rfl := hp op' rfl
      simp

/-- `push`: an element goes in at the back, or the thread goes to sleep in front of a full queue. -/
theorem enter_push (hp : ∀ op, q.pending .pusher = some op → op = .push x)
    (h : q.enter .pusher (.push x) wake = some q') :
    (q.queue.push x = some q'.queue ∧ q'.pending .pusher = none ∨
      q.queue.push x = none ∧ q'.queue = q.queue ∧ q'.pending .pusher = some (.push x)) ∧
      q'.pending .popper = q.pending .popper := by
  obtain ⟨-, hsection⟩ := (enter_eq_some hp).mp h
  rcases QueueMonitor.after_mutexSection hsection with ⟨hready, hafter⟩ | ⟨hready, hafter⟩
  · refine ⟨Or.inl ⟨?_, hafter.pending⟩, hafter.others _ (by simp)⟩
    exact BoundedThreadSafeQueue.push_eq_some.mpr
      ⟨of_decide_eq_true hready, hafter.removed, hafter.queue⟩
  · refine ⟨Or.inr ⟨?_, ?_, hafter.pending⟩, hafter.others _ (by simp)⟩
    · cases hq : q.queue.push x with
      | none => rfl
      | some t =>
        exact absurd (BoundedThreadSafeQueue.push_eq_some.mp hq).1 (of_decide_eq_false hready)
    · exact BoundedThreadSafeQueue.ext hafter.removed hafter.queue

/-- The front element. -/
def front (q : MonitoredQueue capacity) : Option Chunk := q.monitor.queue.head?

/-- Taking the front element out is a `pop` of the queue that the workers see. -/
theorem pop_of_remove {φ : Option (Operation Chunk Chunk)} (hne : q.monitor.queue ≠ [])
    (h : QueueMonitor.After q.monitor q.monitor.remove q'.monitor p φ) :
    ∃ x, q.front = some x ∧ q.queue.pop = some (x, q'.queue) := by
  obtain ⟨x, rest, hq⟩ := List.exists_cons_of_ne_nil hne
  have hremove : q.monitor.remove =
      { q.monitor with queue := rest, removed := q.monitor.removed ++ [x] } := by
    unfold QueueMonitor.remove
    rw [hq]
  rw [hremove] at h
  refine ⟨x, by rw [front, hq]; rfl, BoundedThreadSafeQueue.pop_eq_some.mpr ⟨?_, h.removed⟩⟩
  exact hq.trans (congrArg _ h.queue.symm)

theorem pop_of_nil (h : q.monitor.queue = []) : q.front = none ∧ q.queue.pop = none :=
  ⟨by rw [front, h]; rfl, BoundedThreadSafeQueue.pop_eq_none.mpr h⟩

/-- `pop`: the front element comes out, or the thread goes to sleep in front of an empty queue. -/
theorem enter_pop (hp : ∀ op, q.pending .popper = some op → op = .pop)
    (h : q.enter .popper .pop wake = some q') :
    ((∃ x, q.front = some x ∧ q.queue.pop = some (x, q'.queue) ∧ q'.pending .popper = none) ∨
      q.queue.pop = none ∧ q'.queue = q.queue ∧ q'.pending .popper = some .pop) ∧
      q'.pending .pusher = q.pending .pusher := by
  obtain ⟨-, hsection⟩ := (enter_eq_some hp).mp h
  rcases QueueMonitor.after_mutexSection hsection with ⟨hready, hafter⟩ | ⟨hready, hafter⟩
  · have hne : q.monitor.queue ≠ [] := List.ne_nil_of_length_pos (of_decide_eq_true hready)
    obtain ⟨x, hfront, hpop⟩ := pop_of_remove hne hafter
    exact ⟨Or.inl ⟨x, hfront, hpop, hafter.pending⟩, hafter.others _ (by simp)⟩
  · have hnil : q.monitor.queue = [] := by
      simpa [QueueMonitor.ready] using hready
    refine ⟨Or.inr ⟨(pop_of_nil hnil).2, ?_, hafter.pending⟩, hafter.others _ (by simp)⟩
    exact BoundedThreadSafeQueue.ext hafter.removed hafter.queue

/-- `try_pop`: the front element comes out, or there is none. -/
theorem enter_tryPop (hp : ∀ op, q.pending .popper = some op → op = .tryPop)
    (h : q.enter .popper .tryPop wake = some q') :
    ((∃ x, q.front = some x ∧ q.queue.pop = some (x, q'.queue)) ∨
      q.front = none ∧ q.queue.pop = none ∧ q'.queue = q.queue) ∧
      q'.pending .popper = none ∧ q'.pending .pusher = q.pending .pusher := by
  obtain ⟨-, hsection⟩ := (enter_eq_some hp).mp h
  rcases QueueMonitor.after_mutexSection hsection with ⟨-, hafter⟩ | ⟨hready, -⟩
  · refine ⟨?_, hafter.pending, hafter.others _ (by simp)⟩
    by_cases hq : q.monitor.queue = []
    · right
      obtain ⟨hfront, hpop⟩ := pop_of_nil hq
      simp only [QueueMonitor.body, hq, List.isEmpty_nil, if_true] at hafter
      exact ⟨hfront, hpop, BoundedThreadSafeQueue.ext hafter.removed hafter.queue⟩
    · left
      have hne : q.monitor.queue.isEmpty = false := by simpa using hq
      simp only [QueueMonitor.body, hne] at hafter
      exact pop_of_remove hq hafter
  · cases hready

/-- A thread that does not sleep gets through. -/
theorem exists_enter {o : Operation Chunk Chunk} (hp : ∀ op, q.pending p = some op → op = o)
    (hawake : ∀ op, q.monitor.phase p ≠ .asleep op) : ∃ wake q', q.enter p o wake = some q' := by
  obtain ⟨wake, m, hm⟩ := QueueMonitor.exists_mutexSection capacity id q.monitor p o
  have hstep : ∃ a, q.monitor.step capacity id a = some m := by
    cases hphase : q.monitor.phase p with
    | outside => exact ⟨.call p o wake, by simpa [QueueMonitor.step, hphase] using hm⟩
    | asleep op' => exact absurd hphase (hawake op')
    | signalled op' | woken op' =>
      obtain rfl := hp op' (by rw [pending, hphase]; rfl)
      exact ⟨.resume p wake, by simpa [QueueMonitor.step, hphase] using hm⟩
  obtain ⟨a, ha⟩ := hstep
  exact ⟨wake, ⟨m, q.correct.step ha⟩, (enter_eq_some hp).mpr ⟨hawake, hm⟩⟩

/-- The thread in front of the queue waits in `push` only, the one behind it in `pop`. -/
structure Sides (q : MonitoredQueue capacity) : Prop where
  pusher : ∀ op, q.pending .pusher = some op → ∃ c, op = .push c
  popper : ∀ op, q.pending .popper = some op → op = .pop

theorem sides_new (capacity : ℕ) : (new capacity).Sides :=
  ⟨fun _ h => (by cases h), fun _ h => (by cases h)⟩

theorem Sides.needs (hq : q.Sides) (h : q.pending p = some op) : op.needs = p.needs := by
  cases p with
  | pusher =>
    obtain ⟨c, rfl⟩ := hq.pusher op h
    rfl
  | popper =>
    obtain rfl := hq.popper op h
    rfl

/-- With one thread at each end, nobody sleeps where there is something to take. -/
theorem Sides.available_eq_zero (hq : q.Sides) (hp : q.monitor.phase p = .asleep op) :
    q.monitor.available capacity op.needs = 0 := by
  have hle := q.correct.awake op.needs p (Phase.sleepsOn_eq_true.mpr ⟨op, hp, rfl⟩)
  refine Nat.eq_zero_of_not_pos fun hpos => ?_
  -- a wakeup would be on its way to the other thread, which does not wait here
  obtain ⟨r, hr⟩ := Counting.exists_of_count_pos (hpos.trans_le hle)
  obtain ⟨op', hop', hneeds⟩ := Phase.signalledOn_eq_true.mp hr
  have hpn : op.needs = p.needs := hq.needs (by rw [pending, hp]; rfl)
  have hrn : op'.needs = r.needs := hq.needs (by rw [pending, hop']; rfl)
  have hpr : p = r := by
    rw [hrn, hpn] at hneeds
    cases p <;> cases r <;> first | rfl | cases hneeds
  subst hpr
  cases hp.symm.trans hop'

/-- Who sleeps is blocked: a `pop` sleeps in front of an empty queue, a `push` in front of a full
one. -/
theorem Sides.blocked (hq : q.Sides) (hp : q.monitor.phase p = .asleep op) :
    p = .popper ∧ op = .pop ∧ q.queue.queue = [] ∨
      ∃ c, p = .pusher ∧ op = .push c ∧ q.queue.queue.length = capacity := by
  have hzero := hq.available_eq_zero hp
  have hpending : q.pending p = some op := by
    rw [pending, hp]
    rfl
  cases p with
  | pusher =>
    obtain ⟨c, rfl⟩ := hq.pusher op hpending
    refine Or.inr ⟨c, rfl, rfl, Nat.le_antisymm q.queue.size_le ?_⟩
    exact Nat.sub_eq_zero_iff_le.mp hzero
  | popper =>
    obtain rfl := hq.popper op hpending
    exact Or.inl ⟨rfl, rfl, List.eq_nil_of_length_eq_zero hzero⟩

end MonitoredQueue

end Trit
