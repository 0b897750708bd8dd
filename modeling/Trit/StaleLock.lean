import Trit.StagingStore

/-!
# A lock that is left behind

A process that is killed while it holds the lock of the staging area leaves `.lock` behind.  No
other process can tell such a lock from one that is in use, and none removes it.

* `Pc.next_of_locked`: what a process can do while another one's `.lock` exists;
* `Locked`: the staging area is as the dead process has left it, and nobody else holds a lock;
* `run_of_locked`: what a command then does;
* `stays_locked`: so it remains in every interleaving of all later commands.
-/

namespace Trit

open Transition

namespace Staging

variable {ι : Type}

/-- While `.lock` of another process exists, a process that holds no lock changes nothing and gets
none. -/
theorem Pc.next_of_locked {p q : ι} {tree : Tree} {succeeds : Bool} {d : Directory ι}
    {fs' : Option (Directory ι)} {pc pc' : Pc} (hlock : d.lock = some p) (hpc : pc.holds = false)
    (h : pc.next q tree succeeds (some d) = some (fs', pc')) :
    fs' = some d ∧ pc'.holds = false := by
  have hrefused : ∀ c : Scope, (Pc.lock c).holds = false → c.refused = .idle := by
    intro c hc
    cases c with
    | nested k => cases hc
    | _ => rfl
  cases pc with
  | idle => cases h
  | script s => cases s <;> cases succeeds <;> cases h <;> exact ⟨rfl, rfl⟩
  | parent c =>
    cases succeeds with
    | true =>
      cases h
      exact ⟨rfl, by cases c <;> first | rfl | cases hpc⟩
    | false =>
      cases h
      refine ⟨rfl, ?_⟩
      rw [hrefused c (by cases c <;> first | rfl | cases hpc)]
      rfl
  | lock c =>
    have hnone : createLock q (some d) = none := by
      obtain ⟨_, staged⟩ := d
      obtain rfl := hlock
      rfl
    simp only [Pc.next, hnone, ite_self, Option.some.injEq, Prod.mk.injEq] at h
    obtain ⟨rfl, rfl⟩ := h
    rw [hrefused c hpc]
    exact ⟨rfl, rfl⟩
  | body c | unlock c next => cases hpc

/-- What a command does while `.lock` of another process exists: it throws, unless it is a `clear`
that finds nothing to do. -/
theorem run_of_locked (wd : WorkingDirectory) {p : ι} (q : ι) {d : Directory ι}
    (hlock : d.lock = some p) (c : Command) :
    c.script.run wd q (some d) = .error (.runtimeError "Staging file is already locked") ∨
      c = .clear ∧ d.staged = none ∧ c.script.run wd q (some d) = .ok (some d) := by
  have hrefused : lockStagingFile q (some d) =
      .error (.runtimeError "Staging file is already locked") := by
    obtain ⟨_, staged⟩ := d
    obtain rfl := hlock
    rfl
  have hload : ∀ k, (Script.load k).run wd q (some d) =
      .error (.runtimeError "Staging file is already locked") := by
    intro k
    rw [Script.run, hrefused]
    rfl
  cases c with
  | add matching | drop matching | list | send => exact Or.inl (hload _)
  | clear =>
    cases hstaged : d.staged with
    | none =>
      refine Or.inr ⟨rfl, rfl, ?_⟩
      rw [Command.script, clear, Script.run, Option.bind_some, hstaged]
      rfl
    | some text =>
      refine Or.inl ?_
      rw [Command.script, clear, Script.run, Option.bind_some, hstaged]
      show Script.run wd q (.delete .done) (some d) = _
      rw [Script.run, hrefused]
      rfl

namespace Processes

variable [DecidableEq ι] {s t : Processes ι} {p : ι} {d : Directory ι} {a : Operation ι}

/-- The staging area is as `p` has left it, and no other process holds a lock. -/
def Locked (p : ι) (d : Directory ι) (s : Processes ι) : Prop :=
  s.fs = some d ∧ ∀ q, q ≠ p → (s.pcs q).holds = false

/-- The operation is that of another process: `p` is dead. -/
def Survives (p : ι) (_ : Processes ι) (a : Operation ι) : Prop := a.process ≠ p

instance (p : ι) (s : Processes ι) (a : Operation ι) : Decidable (Survives p s a) :=
  inferInstanceAs (Decidable (_ ≠ _))

omit [DecidableEq ι] in
/-- A process that holds no lock is not in `remove_all`. -/
theorem removing_eq_false {pc : Pc} (h : pc.holds = false) : pc.removing = false := by
  cases pc with
  | body c => cases h
  | _ => rfl

theorem Locked.step (hlock : d.lock = some p) (hi : Locked p d s) (ha : a.process ≠ p)
    (h : s.step a = some t) : Locked p d t := by
  obtain ⟨hfs, hholds⟩ := hi
  have hothers : ∀ {r : ι} {pc : Pc}, pc.holds = false → ∀ q, q ≠ p →
      (Function.update s.pcs r pc q).holds = false := by
    intro r pc hpc q hq
    rcases eq_or_ne q r with rfl | hne
    · rw [Function.update_self]
      exact hpc
    · rw [Function.update_of_ne hne]
      exact hholds q hq
  cases a with
  | start r c =>
    cases hr : s.pcs r with
    | idle =>
      simp only [Processes.step, hr, Option.some.injEq] at h
      subst h
      exact ⟨hfs, hothers rfl⟩
    | _ => simp [Processes.step, hr] at h
  | next r tree succeeds =>
    obtain ⟨⟨fs', pc'⟩, hnext, rfl⟩ := Option.map_eq_some_iff.mp h
    rw [hfs] at hnext
    obtain ⟨rfl, hpc'⟩ := Pc.next_of_locked hlock (hholds r ha) hnext
    exact ⟨rfl, hothers hpc'⟩
  | remove r entry =>
    simp [Processes.step, removing_eq_false (hholds r ha)] at h

/-- A lock that is left behind is never broken.  Suppose that no lock has been taken while another
process was removing the staging area, and that a process is killed while its `.lock` exists.  From
then on, whatever the other processes do and in whatever order, `.lock` and `staged.txt` stay as
they are, no process gets the lock, and every command that would load or change the staged set
throws. -/
theorem stays_locked {fs : Option (Directory ι)} (hs : Reach step Guarded (initial fs) s)
    (hholds : (s.pcs p).holds = true) (hfs : s.fs = some d) (hlock : d.lock = some p)
    (ht : Reach step (Survives p) s t) :
    t.fs = some d ∧ (∀ q, q ≠ p → (t.pcs q).holds = false) ∧
      ∀ wd q c, (Command.script c).run wd q t.fs =
          .error (.runtimeError "Staging file is already locked") ∨
        c = .clear ∧ d.staged = none ∧ (Command.script c).run wd q t.fs = .ok t.fs := by
  have horderly : Orderly s :=
    hs.invariant (fun _ _ _ hu hg hstep => hu.step hg hstep) (Orderly.initial fs)
  have hothers : ∀ q, q ≠ p → (s.pcs q).holds = false := by
    intro q hne
    by_contra hq
    exact hne (horderly.exclusive q p (Bool.eq_true_of_not_eq_false hq) hholds)
  obtain ⟨hfs', hholds'⟩ : Locked p d t :=
    ht.invariant (fun _ _ _ hu ha hstep => hu.step hlock ha hstep) ⟨hfs, hothers⟩
  refine ⟨hfs', hholds', fun wd q c => ?_⟩
  rw [hfs']
  exact run_of_locked wd q hlock c

/-- One process is killed while it lists the staged files, and the other one cannot drop them. -/
theorem stays_locked_oneStaged : ∃ s t : Processes Bool,
    Reach step Guarded (initial oneStaged) s ∧ (s.pcs true).holds = true ∧
    Reach step (Survives true) s t ∧ t.fs = some ⟨some true, some (lines [97])⟩ ∧
    (t.pcs false).holds = false := by
  have hlist : (exec (restrict step Guarded) (initial oneStaged) listFiles).map
      (fun s => (s.pcs true).holds && decide (s.fs = some ⟨some true, some (lines [97])⟩) &&
        decide ((exec (restrict step (Survives true)) s (dropFile.take 4)).map
          (fun _ => true) = some true)) = some true := by decide +kernel
  obtain ⟨s, hs, htest⟩ := reach_of_exec_restrict _ hlist
  simp only [Bool.and_eq_true, decide_eq_true_eq] at htest
  obtain ⟨⟨hholds, hfs⟩, hdrop⟩ := htest
  obtain ⟨t, ht, -⟩ := reach_of_exec_restrict _ hdrop
  obtain ⟨hstays, hfree, -⟩ := stays_locked hs hholds hfs rfl ht
  exact ⟨s, t, hs, hholds, ht, hstays, hfree false nofun⟩

end Processes

end Staging

end Trit
