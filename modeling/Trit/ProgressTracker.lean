import Trit.Worker

/-!
# The progress tracker

`ProgressTracker.h`: a fourth thread that prints the progress counter until it reaches the limit
or the transfer is aborted.  The text it prints is left out; printing may fail.
-/

namespace Trit

namespace ProgressTracker

/-- The constructor of `ProgressTracker`. -/
def new (limit : UInt32) : Except Exception Unit :=
  if limit < 1 then .error (.logicError "Invalid progress tracker limit") else .ok ()

/-- The program points of `start`; `last` is `last_value`, `current` is `current_value`. -/
inductive TrackPc
  | abortCheck (last : UInt32)
  | load (last : UInt32)
  | print (current : UInt32)
  deriving DecidableEq

/-- The end of the loop body: leave the loop at the limit, else go on. -/
def next (limit current : UInt32) : Thread TrackPc :=
  if limit ≤ current then .returned else .running (.abortCheck current)

/-- `start`. -/
def start (limit : UInt32) : TrackPc → Call Unit TrackPc
  | .abortCheck last => .shouldAbort fun b => if b then .returned else .running (.load last)
  | .load last => .load fun current =>
      if current ≠ last then .running (.print current) else next limit current
  | .print current => .io (fun _ => some (next limit current, ())) (fun _ _ => ())

/-- The sentinel `std::numeric_limits<T>::max()`: no value seen yet. -/
def noValue : UInt32 := 4294967295

/-- What one operation of the tracker can be. -/
inductive TrackMove {capacity : ℕ} (limit : UInt32) (abort : Bool) (f : Option Fault)
    (v : View capacity Unit) (pc : TrackPc) : Thread TrackPc → Prop
  | abort (last : UInt32) (hpc : pc = .abortCheck last) (ha : abort = true) :
      TrackMove limit abort f v pc .returned
  | goOn (last : UInt32) (hpc : pc = .abortCheck last) (ha : abort = false) :
      TrackMove limit abort f v pc (.running (.load last))
  | changed (last : UInt32) (hpc : pc = .load last) (hc : v.counter ≠ last) :
      TrackMove limit abort f v pc (.running (.print v.counter))
  | same (hpc : pc = .load v.counter) : TrackMove limit abort f v pc (next limit v.counter)
  | printed (current : UInt32) (hpc : pc = .print current) :
      TrackMove limit abort f v pc (next limit current)
  | fault (current : UInt32) (x : Fault) (hpc : pc = .print current) (hf : f = some x) :
      TrackMove limit abort f v pc (.caught x.exception)

theorem trackMove_of_run {capacity : ℕ} {limit : UInt32} {abort : Bool} {f : Option Fault}
    {v v' : View capacity Unit} {pc : TrackPc} {t : Thread TrackPc}
    (h : (start limit pc).run abort f v = some (t, v')) : TrackMove limit abort f v pc t := by
  cases f with
  | some x =>
    cases pc with
    | print current =>
      obtain ⟨rfl, -⟩ : .caught x.exception = t ∧ v = v' := by
        simpa [Call.run, start, Call.fail] using h
      exact .fault current x rfl rfl
    | _ => simp [Call.run, start, Call.fail] at h
  | none =>
    cases pc with
    | abortCheck last =>
      obtain ⟨rfl, -⟩ : (if abort then .returned else .running (.load last)) = t ∧ v = v' := by
        simpa [Call.run, start, Call.exec] using h
      cases abort
      · exact .goOn last rfl rfl
      · exact .abort last rfl rfl
    | load last =>
      by_cases hc : v.counter = last
      · subst hc
        obtain ⟨rfl, -⟩ : next limit v.counter = t ∧ v = v' := by
          simpa [Call.run, start, Call.exec] using h
        exact .same rfl
      · obtain ⟨rfl, -⟩ : .running (.print v.counter) = t ∧ v = v' := by
          simpa [Call.run, start, Call.exec, hc] using h
        exact .changed last rfl hc
    | print current =>
      obtain ⟨rfl, -⟩ : next limit current = t ∧ v = v' := by
        simpa [Call.run, start, Call.exec] using h
      exact .printed current rfl

/-- The tracker throws only when printing fails. -/
theorem TrackMove.thrown {capacity : ℕ} {limit : UInt32} {abort : Bool}
    {v : View capacity Unit} {pc : TrackPc} {t : Thread TrackPc}
    (h : TrackMove limit abort none v pc t) : t.thrown = false := by
  have hnext : ∀ c, (next limit c).thrown = false := by
    intro c
    unfold next
    split <;> rfl
  cases h with
  | same hpc => exact hnext _
  | printed current hpc => exact hnext _
  | fault current x hpc hf => cases hf
  | _ => rfl

/-- How far the tracker is from its end, once the counter has reached the limit. -/
def trackRank (limit : UInt32) : Thread TrackPc → ℕ
  | .running (.abortCheck _) => 3
  | .running (.load _) => 2
  | .running (.print current) => if limit ≤ current then 1 else 4
  | .caught _ | .flagged _ | .returned => 0

/-- At the limit the tracker makes progress. -/
theorem start_progress {capacity : ℕ} (limit : UInt32) (v : View capacity Unit) (pc : TrackPc)
    (hlimit : limit ≤ v.counter) :
    ∃ t v', (start limit pc).run false none v = some (t, v') ∧
      trackRank limit t < trackRank limit (.running pc) := by
  cases pc with
  | abortCheck last => exact ⟨.running (.load last), v, rfl, by simp [trackRank]⟩
  | load last =>
    by_cases hc : v.counter = last
    · refine ⟨next limit v.counter, v, by simp [Call.run, start, Call.exec, hc], ?_⟩
      simp [next, hlimit, trackRank]
    · refine ⟨.running (.print v.counter), v, by simp [Call.run, start, Call.exec, hc], ?_⟩
      simp [trackRank, hlimit]
  | print current =>
    refine ⟨next limit current, v, rfl, ?_⟩
    by_cases hc : limit ≤ current
    · simp [next, trackRank, hc]
    · simp only [next, trackRank, if_neg hc]
      omega

/-- How many steps the tracker takes at most once the abort flag is set. -/
def trackAbortRank : Thread TrackPc → ℕ
  | .running (.load _) => 4
  | .running (.print _) => 3
  | .running (.abortCheck _) | .caught _ => 2
  | .flagged _ => 1
  | .returned => 0

/-- After an abort the tracker never blocks. -/
theorem start_abort_progress {capacity : ℕ} (limit : UInt32) (v : View capacity Unit)
    (pc : TrackPc) : ∃ t v', (start limit pc).run true none v = some (t, v') := by
  cases pc <;> exact ⟨_, _, rfl⟩

theorem trackAbortRank_lt {capacity : ℕ} {limit : UInt32} {f : Option Fault}
    {v : View capacity Unit} {pc : TrackPc} {t : Thread TrackPc}
    (h : TrackMove limit true f v pc t) : trackAbortRank t < trackAbortRank (.running pc) := by
  have hnext : ∀ c, trackAbortRank (next limit c) ≤ 2 := by
    intro c
    unfold next
    split_ifs
    · exact Nat.zero_le _
    · exact Nat.le_refl _
  cases h with
  | abort last hpc => subst hpc; simp [trackAbortRank]
  | goOn last hpc ha => cases ha
  | changed last hpc => subst hpc; simp [trackAbortRank]
  | same hpc =>
    subst hpc
    exact Nat.lt_of_le_of_lt (hnext _) (by simp [trackAbortRank])
  | printed current hpc =>
    subst hpc
    exact Nat.lt_of_le_of_lt (hnext _) (by simp [trackAbortRank])
  | fault current x hpc => subst hpc; simp [trackAbortRank]

end ProgressTracker

end Trit
