import Trit.Staging
import Trit.Lib.Transition
import Mathlib.Data.Fintype.Basic
import Mathlib.Logic.Function.Basic

/-!
# The lock of the staging area

The processes of one working directory, interleaved at the level of single operations of the file
system, and the directory `.lock` with which they try to keep each other out.

* `Directory`, `Pc`, `step`: the file system, the program points, one operation of one process;
* `holds`: a `StagingLock` is alive; `deleting`: it is that of `delete_staging_files`;
* `Guarded`: no lock is taken while another process is in `delete_staging_files`;
* `excludes_iff_guarded`: the lock excludes as long as that is so, and no longer.
-/

namespace Trit

open Transition

namespace Staging

/-! ### The processes -/

/-- The directory `.trit`; `lock` is the process that has created `.lock`. -/
structure Directory (ι : Type) where
  lock : Option ι
  staged : Store
  deriving DecidableEq

/-- The commands of a `trit` process. -/
inductive Command
  | add (matching : Bytes → Bool)
  | drop (matching : Bytes → Bool)
  | list
  | clear
  | send

/-- What the command does. -/
def Command.script : Command → Script Outside
  | .add matching => Staging.stage matching
  | .drop matching => Staging.unstage matching
  | .list => Staging.list
  | .clear => Staging.clear
  | .send => Staging.startSession

/-- The scope of a `StagingLock`: in `load_staged_files`, in `save_staged_files`, in
`delete_staging_files`, and in the `delete_staging_files` that `load_staged_files` calls. -/
inductive Scope
  | load (k : Finset Bytes → Script Outside)
  | save (staged : Finset Bytes) (k : Script Outside)
  | delete (k : Script Outside)
  | nested (k : Finset Bytes → Script Outside)

/-- The program points. -/
inductive Pc
  | idle
  | script (s : Script Outside)
  /-- `create_directories` in `lock_staging_file` -/
  | parent (c : Scope)
  /-- `create_directory` in `lock_staging_file` -/
  | lock (c : Scope)
  /-- the rest of the scope -/
  | body (c : Scope)
  /-- `unlock_staging_file`; what follows is `none` after an exception -/
  | unlock (c : Scope) (next : Option (Script Outside))

/-- The command goes on, or it has failed. -/
def Pc.resume : Option (Script Outside) → Pc
  | some s => .script s
  | none => .idle

/-- `StagingLock` throws; the lock of `load_staged_files` is released on the way.  That is so where
the exception is caught; nothing in the program catches it, and a process that terminates without
unwinding its stack leaves `.lock` behind, as one that is killed does. -/
def Scope.refused : Scope → Pc
  | .nested k => .unlock (.load k) none
  | _ => .idle

/-- Behind the destructor of the `StagingLock`, which also runs where an exception unwinds the
stack; for one that nothing catches, see `refused`. -/
def Scope.released (next : Option (Script Outside)) : Scope → Pc
  | .nested k => .unlock (.load k) next
  | _ => .resume next

/-- The entries that `remove_all` finds in `.trit`. -/
inductive Entry
  | lock
  | staged

/-- What can happen: a process begins with a command, or makes its next operation, which sees the
tree and may fail, or `remove_all` removes an entry of `.trit`. -/
inductive Operation (ι : Type)
  | start (p : ι) (c : Command)
  | next (p : ι) (tree : Tree) (succeeds : Bool)
  | remove (p : ι) (entry : Entry)

/-- The process that makes the operation. -/
def Operation.process {ι : Type} : Operation ι → ι
  | .start p _ | .next p _ _ | .remove p _ => p

variable {ι : Type}

/-- `create_directories` of `.trit`. -/
def createDirectories (fs : Option (Directory ι)) : Option (Directory ι) :=
  some (fs.getD ⟨none, none⟩)

/-- `create_directory` of `.lock`; `none` if the directory is not made. -/
def createLock (p : ι) : Option (Directory ι) → Option (Directory ι)
  | some ⟨none, staged⟩ => some ⟨some p, staged⟩
  | _ => none

/-- `remove_all` of `.lock`. -/
def removeLock (fs : Option (Directory ι)) : Option (Directory ι) :=
  fs.map fun d => { d with lock := none }

/-- The end of `remove_all` of `.trit`: the directory itself, if nothing is in it. -/
def removeParent : Option (Directory ι) → Option (Directory ι)
  | some ⟨none, none⟩ => none
  | fs => fs

/-- The next operation of a process. -/
def Pc.next (p : ι) (tree : Tree) (succeeds : Bool) (fs : Option (Directory ι)) :
    Pc → Option (Option (Directory ι) × Pc)
  | .idle => none
  | .script .done => some (fs, .idle)
  | .script (.load k) =>
      some (if succeeds then (createDirectories fs, .parent (.load k)) else (fs, .idle))
  | .script (.walk k) => some (fs, if succeeds then .script (k tree.files) else .idle)
  | .script (.save staged k) =>
      some (if succeeds then (createDirectories fs, .parent (.save staged k)) else (fs, .idle))
  | .script (.delete k) => some (fs, .parent (.delete k))
  | .script (.ifStaged yes no) =>
      some (fs, .script (if (fs.bind Directory.staged).isSome then yes else no))
  | .script (.outside _ k) => some (fs, .script (k succeeds))
  | .parent c => some (if succeeds then (createDirectories fs, .lock c) else (fs, c.refused))
  | .lock c => some (if succeeds then
      match createLock p fs with
      | some d => (some d, .body c)
      | none => (fs, c.refused)
      else (fs, c.refused))
  | .body (.load k) =>
      match fs.bind Directory.staged with
      | none => some (fs, .unlock (.load k) (some (k ∅)))
      | some text =>
          some (fs, if !succeeds then .unlock (.load k) (some (k ∅))
            else if listed tree text = ∅ then .parent (.nested k)
            else .unlock (.load k) (some (k (listed tree text))))
  | .body (.save staged k) =>
      match fs with
      | some d => some (if succeeds then
          (some { d with staged := some (stored staged) }, .unlock (.save staged k) (some k))
          else (fs, .unlock (.save staged k) none))
      | none => some (fs, .unlock (.save staged k) none)
  | .body (.delete k) =>
      some (if succeeds then removeParent fs else fs, .unlock (.delete k) (some k))
  | .body (.nested k) =>
      some (if succeeds then removeParent fs else fs, .unlock (.nested k) (some (k ∅)))
  | .unlock c next => some (if succeeds then removeLock fs else fs, c.released next)

/-- The next operation is `create_directory` of `.lock`. -/
def Pc.locking : Pc → Bool
  | .lock _ => true
  | _ => false

/-- The process is in `remove_all` of `.trit`. -/
def Pc.removing : Pc → Bool
  | .body (.delete _) | .body (.nested _) => true
  | _ => false

/-- The file system and the processes. -/
structure Processes (ι : Type) where
  fs : Option (Directory ι)
  pcs : ι → Pc

namespace Processes

/-- No process has begun. -/
def initial (fs : Option (Directory ι)) : Processes ι := ⟨fs, fun _ => .idle⟩

variable [DecidableEq ι]

/-- One operation. -/
def step (s : Processes ι) : Operation ι → Option (Processes ι)
  | .start p c =>
      match s.pcs p with
      | .idle => some { s with pcs := Function.update s.pcs p (.script c.script) }
      | _ => none
  | .next p tree succeeds => ((s.pcs p).next p tree succeeds s.fs).map fun (fs, pc) =>
      ⟨fs, Function.update s.pcs p pc⟩
  | .remove p entry =>
      if (s.pcs p).removing then
        match entry with
        | .lock => some { s with fs := removeLock s.fs }
        | .staged => some { s with fs := s.fs.map fun d => { d with staged := none } }
      else none

/-! ### Who holds the lock -/

end Processes

/-- The process is between the construction of a `StagingLock` and the end of its destruction. -/
def Pc.holds : Pc → Bool
  | .body _ | .unlock _ _ | .parent (.nested _) | .lock (.nested _) => true
  | _ => false

/-- The lock is that of `delete_staging_files`. -/
def Pc.deleting : Pc → Bool
  | .body (.delete _) | .unlock (.delete _) _ | .body (.nested _) | .unlock (.nested _) _ => true
  | _ => false

/-- The lock is the second one that `load_staged_files` takes. -/
def Pc.nested : Pc → Bool
  | .body (.nested _) | .unlock (.nested _) _ => true
  | _ => false

/-- The process that has created `.lock`. -/
def owner (fs : Option (Directory ι)) : Option ι := fs.bind Directory.lock

@[simp] theorem owner_createDirectories (fs : Option (Directory ι)) :
    owner (createDirectories fs) = owner fs := by
  cases fs <;> rfl

@[simp] theorem owner_removeLock (fs : Option (Directory ι)) : owner (removeLock fs) = none := by
  cases fs <;> rfl

@[simp] theorem owner_removeParent (fs : Option (Directory ι)) :
    owner (removeParent fs) = owner fs := by
  rcases fs with _ | ⟨_ | q, _ | text⟩ <;> rfl

/-- `create_directory` succeeds only where there is no lock. -/
theorem owner_of_createLock {p : ι} {fs : Option (Directory ι)} {d : Directory ι}
    (h : createLock p fs = some d) : owner fs = none ∧ d.lock = some p := by
  rcases fs with _ | ⟨_ | q, text⟩
  · cases h
  · cases h
    exact ⟨rfl, rfl⟩
  · cases h

/-- What an operation does to the lock: the lock is taken, a lock is released, or neither the
directory nor what the process holds changes. -/
theorem Pc.next_cases {p : ι} {tree : Tree} {succeeds : Bool} {fs fs' : Option (Directory ι)}
    {pc pc' : Pc} (h : pc.next p tree succeeds fs = some (fs', pc')) :
    (∃ c d, pc = .lock c ∧ succeeds = true ∧ createLock p fs = some d ∧ fs' = some d ∧
      pc' = .body c) ∨
    (∃ c next, pc = .unlock c next ∧ pc' = c.released next ∧
      (owner fs' = owner fs ∨ owner fs' = none)) ∨
    (owner fs' = owner fs ∧ pc'.holds = pc.holds ∧ pc'.deleting = pc.deleting ∧
      pc'.nested = pc.nested) := by
  have hrefused : ∀ c : Scope, c.refused.holds = (Pc.lock c).holds ∧
      c.refused.deleting = false ∧ c.refused.nested = false := by
    intro c
    cases c <;> exact ⟨rfl, rfl, rfl⟩
  cases pc with
  | idle => cases h
  | script s =>
    refine Or.inr (Or.inr ?_)
    cases s <;> cases succeeds <;> cases h <;> simp [Pc.holds, Pc.deleting, Pc.nested]
  | parent c =>
    refine Or.inr (Or.inr ?_)
    obtain ⟨hholds, hdeleting, hnested⟩ := hrefused c
    cases succeeds with
    | true =>
      cases h
      exact ⟨owner_createDirectories fs, by cases c <;> rfl, rfl, rfl⟩
    | false =>
      cases h
      exact ⟨rfl, by rw [hholds]; cases c <;> rfl, hdeleting, hnested⟩
  | lock c =>
    obtain ⟨hholds, hdeleting, hnested⟩ := hrefused c
    cases succeeds with
    | true =>
      cases hlock : createLock p fs with
      | some d =>
        simp only [Pc.next, hlock, if_true, Option.some.injEq, Prod.mk.injEq] at h
        exact Or.inl ⟨c, d, rfl, rfl, rfl, h.1.symm, h.2.symm⟩
      | none =>
        simp only [Pc.next, hlock, if_true, Option.some.injEq, Prod.mk.injEq] at h
        obtain ⟨rfl, rfl⟩ := h
        exact Or.inr (Or.inr ⟨rfl, hholds, hdeleting, hnested⟩)
    | false =>
      cases h
      exact Or.inr (Or.inr ⟨rfl, hholds, hdeleting, hnested⟩)
  | body c =>
    refine Or.inr (Or.inr ?_)
    cases c with
    | load k =>
      cases htext : fs.bind Directory.staged with
      | none =>
        simp only [Pc.next, htext, Option.some.injEq, Prod.mk.injEq] at h
        obtain ⟨rfl, rfl⟩ := h
        exact ⟨rfl, rfl, rfl, rfl⟩
      | some text =>
        simp only [Pc.next, htext, Option.some.injEq, Prod.mk.injEq] at h
        obtain ⟨rfl, rfl⟩ := h
        split_ifs <;> exact ⟨rfl, rfl, rfl, rfl⟩
    | save staged k =>
      cases fs <;> cases succeeds <;> cases h <;> exact ⟨rfl, rfl, rfl, rfl⟩
    | delete k =>
      cases succeeds <;> cases h
      · exact ⟨rfl, rfl, rfl, rfl⟩
      · exact ⟨owner_removeParent fs, rfl, rfl, rfl⟩
    | nested k =>
      cases succeeds <;> cases h
      · exact ⟨rfl, rfl, rfl, rfl⟩
      · exact ⟨owner_removeParent fs, rfl, rfl, rfl⟩
  | unlock c next =>
    refine Or.inr (Or.inl ⟨c, next, rfl, ?_⟩)
    cases succeeds <;> cases h
    · exact ⟨rfl, Or.inl rfl⟩
    · exact ⟨rfl, Or.inr (owner_removeLock fs)⟩

namespace Processes

variable {s t : Processes ι} {a : Operation ι}

/-- The operation is a `create_directory` of `.lock` that succeeds. -/
def Locks (s : Processes ι) : Operation ι → Prop
  | .next p _ succeeds => succeeds = true ∧ (s.pcs p).locking = true ∧
      (createLock p s.fs).isSome = true
  | _ => False

instance (s : Processes ι) (a : Operation ι) : Decidable (s.Locks a) :=
  match a with
  | .next _ _ _ => inferInstanceAs (Decidable (_ ∧ _ ∧ _))
  | .start _ _ | .remove _ _ => inferInstanceAs (Decidable False)

/-- No lock is taken while another process is in `delete_staging_files`, behind its own lock. -/
def Guarded (s : Processes ι) (a : Operation ι) : Prop :=
  s.Locks a → ∀ q, q ≠ a.process → (s.pcs q).deleting = false

instance [Fintype ι] [DecidableEq ι] (s : Processes ι) (a : Operation ι) :
    Decidable (s.Guarded a) :=
  inferInstanceAs (Decidable (_ → ∀ _, _ → _))

/-- At most one process holds the lock. -/
def Exclusive (s : Processes ι) : Prop :=
  ∀ p q, (s.pcs p).holds = true → (s.pcs q).holds = true → p = q

/-- The operation takes away a lock from another process that relies on it. -/
def Steals (s : Processes ι) (a : Operation ι) (t : Processes ι) : Prop :=
  ∃ q, owner s.fs = some q ∧ owner t.fs = none ∧ q ≠ a.process ∧ (s.pcs q).holds = true

/-- What holds as long as every operation is guarded. -/
structure Orderly (s : Processes ι) : Prop where
  exclusive : s.Exclusive
  owner : ∀ p, (s.pcs p).holds = true → (s.pcs p).deleting = false → owner s.fs = some p
  nested : ∀ p, (s.pcs p).nested = false

theorem Orderly.initial (fs : Option (Directory ι)) : Orderly (initial fs) where
  exclusive := fun _ _ hp => nomatch hp
  owner := fun _ hp => nomatch hp
  nested := fun _ => rfl

/-- A guarded operation that takes the lock finds nobody holding it. -/
theorem Orderly.not_holds_of_locks {p : ι} {tree : Tree} {c : Scope} {d : Directory ι}
    (hi : Orderly s) (hpc : s.pcs p = .lock c) (hlock : createLock p s.fs = some d)
    (hguarded : s.Guarded (.next p tree true)) (q : ι) : (s.pcs q).holds = false := by
  by_contra hq
  have hq := Bool.eq_true_of_not_eq_false hq
  have hdeleting : (s.pcs q).deleting = false := by
    rcases eq_or_ne q p with rfl | hne
    · rw [hpc]
      rfl
    · exact hguarded ⟨rfl, by rw [hpc]; rfl, by rw [hlock]; rfl⟩ q hne
  have hnone := (owner_of_createLock hlock).1
  rw [hi.owner q hq hdeleting] at hnone
  cases hnone

variable [DecidableEq ι]

/-- A process that goes on and neither takes nor releases a lock. -/
theorem Orderly.update {p : ι} {fs : Option (Directory ι)} {pc : Pc} (hi : Orderly s)
    (howner : Staging.owner fs = Staging.owner s.fs) (hholds : pc.holds = (s.pcs p).holds)
    (hdeleting : pc.deleting = (s.pcs p).deleting) (hnested : pc.nested = (s.pcs p).nested) :
    Orderly ⟨fs, Function.update s.pcs p pc⟩ := by
  have hsame : ∀ (f : Pc → Bool) (q : ι), f pc = f (s.pcs p) →
      f (Function.update s.pcs p pc q) = f (s.pcs q) := by
    intro f q hf
    rcases eq_or_ne q p with rfl | hq
    · rw [Function.update_self, hf]
    · rw [Function.update_of_ne hq]
  refine ⟨fun q q' hq hq' => ?_, fun q hq hd => ?_, fun q => ?_⟩
  · rw [hsame Pc.holds q hholds] at hq
    rw [hsame Pc.holds q' hholds] at hq'
    exact hi.exclusive q q' hq hq'
  · rw [hsame Pc.holds q hholds] at hq
    rw [hsame Pc.deleting q hdeleting] at hd
    exact howner.trans (hi.owner q hq hd)
  · rw [hsame Pc.nested q hnested]
    exact hi.nested q

/-- A step of one process nests no lock unless its next point is in one. -/
theorem Orderly.nested_update (hi : Orderly s) {p : ι} {pc : Pc} (h : pc.nested = false) (q : ι) :
    (Function.update s.pcs p pc q).nested = false := by
  rcases eq_or_ne q p with rfl | hne
  · rw [Function.update_self]
    exact h
  · rw [Function.update_of_ne hne]
    exact hi.nested q

theorem Orderly.step (hi : Orderly s) (hg : s.Guarded a) (h : s.step a = some t) :
    Orderly t := by
  cases a with
  | start p c =>
    cases hp : s.pcs p with
    | idle =>
      simp only [Processes.step, hp, Option.some.injEq] at h
      subst h
      exact hi.update rfl (by rw [hp]; rfl) (by rw [hp]; rfl) (by rw [hp]; rfl)
    | _ => simp [Processes.step, hp] at h
  | next p tree succeeds =>
    obtain ⟨⟨fs, pc⟩, hnext, rfl⟩ := Option.map_eq_some_iff.mp h
    rcases Pc.next_cases hnext with ⟨c, d, hpc, rfl, hlock, rfl, rfl⟩ | ⟨c, k, hpc, rfl, -⟩ |
      ⟨howner, hholds, hdeleting, hnested⟩
    · -- the lock is taken
      have hfree := hi.not_holds_of_locks hpc hlock hg
      have honly : ∀ q, (Function.update s.pcs p (.body c) q).holds = true → q = p := by
        intro q hq
        by_contra hne
        rw [Function.update_of_ne hne, hfree q] at hq
        cases hq
      refine ⟨fun q q' hq hq' => (honly q hq).trans (honly q' hq').symm, fun q hq _ => ?_,
        fun q => ?_⟩
      · rw [honly q hq]
        exact (owner_of_createLock hlock).2
      · refine hi.nested_update ?_ q
        have hlocked := hfree p
        rw [hpc] at hlocked
        cases c with
        | nested k => cases hlocked
        | _ => rfl
    · -- the lock is released
      have hp : (s.pcs p).holds = true := by rw [hpc]; rfl
      have hresume : ∀ {f : Pc → Bool}, f .idle = false → (∀ k, f (.script k) = false) →
          f (c.released k) = false := by
        intro f hidle hscript
        have hnested := hi.nested p
        rw [hpc] at hnested
        cases c with
        | nested k => cases hnested
        | _ => cases k <;> simp [Scope.released, Pc.resume, hidle, hscript]
      have hnone : ∀ q, (Function.update s.pcs p (c.released k) q).holds = false := by
        intro q
        rcases eq_or_ne q p with rfl | hne
        · rw [Function.update_self]
          exact hresume rfl fun _ => rfl
        · rw [Function.update_of_ne hne]
          by_contra hq
          exact hne (hi.exclusive q p (Bool.eq_true_of_not_eq_false hq) hp)
      refine ⟨fun q q' hq => ?_, fun q hq => ?_, fun q => ?_⟩
      · exact absurd (hnone q) (by rw [hq]; exact nofun)
      · exact absurd (hnone q) (by rw [hq]; exact nofun)
      · exact hi.nested_update (hresume rfl fun _ => rfl) q
    · exact hi.update howner hholds hdeleting hnested
  | remove p entry =>
    -- `remove_all` is running, so the process holds the lock that it may be removing
    have hp : (s.pcs p).holds = true ∧ (s.pcs p).deleting = true ∧ t.pcs = s.pcs := by
      simp only [Processes.step] at h
      split_ifs at h with hremoving
      cases hpc : s.pcs p with
      | body c =>
        rw [hpc] at hremoving
        cases c <;> cases hremoving <;> cases entry <;> cases h <;> exact ⟨rfl, rfl, rfl⟩
      | _ => rw [hpc] at hremoving; cases hremoving
    obtain ⟨hholds, hdeleting, hpcs⟩ := hp
    refine ⟨?_, fun q hq hd => ?_, ?_⟩
    · unfold Exclusive
      rw [hpcs]
      exact hi.exclusive
    · rw [hpcs] at hq hd
      rw [hi.exclusive q p hq hholds, hdeleting] at hd
      cases hd
    · rw [hpcs]
      exact hi.nested

/-- An operation that takes the lock while another process is in `delete_staging_files`. -/
theorem not_exclusive_of_not_guarded (hg : ¬ s.Guarded a) (h : s.step a = some t) :
    ¬ t.Exclusive := by
  unfold Guarded at hg
  push Not at hg
  obtain ⟨hlocks, q, hne, hq⟩ := hg
  cases a with
  | start p c => exact hlocks.elim
  | remove p entry => exact hlocks.elim
  | next p tree succeeds =>
    obtain ⟨rfl, hlocking, hsome⟩ := hlocks
    obtain ⟨c, hpc⟩ : ∃ c, s.pcs p = .lock c := by
      cases hpc : s.pcs p with
      | lock c => exact ⟨c, rfl⟩
      | _ => rw [hpc] at hlocking; cases hlocking
    obtain ⟨d, hd⟩ := Option.isSome_iff_exists.mp hsome
    have hstep : t = ⟨some d, Function.update s.pcs p (.body c)⟩ := by
      simp only [Processes.step, hpc, Pc.next, hd, if_true, Option.map_some,
        Option.some.injEq] at h
      exact h.symm
    subst hstep
    replace hne : q ≠ p := hne
    intro hexclusive
    refine hne (hexclusive q p ?_ ?_)
    · show (Function.update s.pcs p (.body c) q).holds = true
      rw [Function.update_of_ne hne]
      have hdeleting := Bool.eq_true_of_not_eq_false hq
      cases hpc : s.pcs q with
      | body c => rfl
      | unlock c k => rfl
      | _ => rw [hpc] at hdeleting; cases hdeleting
    · show (Function.update s.pcs p (.body c) p).holds = true
      rw [Function.update_self]
      rfl

/-- As long as the lock excludes, nobody loses it to another process. -/
theorem not_steals_of_exclusive (he : s.Exclusive) (h : s.step a = some t) : ¬ s.Steals a t := by
  rintro ⟨q, howner, hnone, hne, hq⟩
  cases a with
  | start p c =>
    cases hp : s.pcs p with
    | idle =>
      simp only [Processes.step, hp, Option.some.injEq] at h
      subst h
      exact nomatch howner.symm.trans hnone
    | _ => simp [Processes.step, hp] at h
  | next p tree succeeds =>
    obtain ⟨⟨fs, pc⟩, hnext, rfl⟩ := Option.map_eq_some_iff.mp h
    rcases Pc.next_cases hnext with ⟨c, d, -, -, hlock, -, -⟩ | ⟨c, k, hpc, -, -⟩ | ⟨hsame, -⟩
    · exact nomatch howner.symm.trans (owner_of_createLock hlock).1
    · exact hne (he q p hq (by rw [hpc]; rfl))
    · exact nomatch howner.symm.trans (hsame.symm.trans hnone)
  | remove p entry =>
    refine hne (he q p hq ?_)
    simp only [Processes.step] at h
    split_ifs at h with hremoving
    cases hpc : s.pcs p with
    | body c => rfl
    | _ => rw [hpc] at hremoving; cases hremoving

/-- The lock excludes as long as no lock is taken while another process is in
`delete_staging_files`, and no longer: the first time it happens two processes hold the lock. -/
theorem excludes_iff_guarded (fs : Option (Directory ι)) {s : Processes ι}
    (h : Reach step Guarded (Processes.initial fs) s) :
    s.Exclusive ∧ ∀ a t, s.step a = some t → ¬ s.Steals a t ∧ (t.Exclusive ↔ s.Guarded a) := by
  have hi : Orderly s := h.invariant (fun _ _ _ hi hg hs => hi.step hg hs) (Orderly.initial fs)
  refine ⟨hi.exclusive, fun a t ht => ⟨not_steals_of_exclusive hi.exclusive ht, fun he => ?_,
    fun hg => (hi.step hg ht).exclusive⟩⟩
  by_contra hg
  exact not_exclusive_of_not_guarded hg ht he

/-- A staging area with one file. -/
def oneStaged : Option (Directory Bool) := some ⟨none, some (lines [97])⟩

/-- The tree with that file. -/
def oneFile : Tree := ⟨{[97]}, {[97]}, Finset.Subset.refl _⟩

/-- One process drops the file. -/
def dropFile : List (Operation Bool) :=
  [.start false (.drop fun _ => true)] ++ List.replicate 8 (.next false oneFile true) ++
    [.remove false .staged, .remove false .lock]

/-- The other process lists the staged files, up to its lock. -/
def listFiles : List (Operation Bool) :=
  .start true .list :: List.replicate 3 (.next true oneFile true)

/-- One command after the other. -/
theorem excludes_dropFile_listFiles : ∃ s, Reach step Guarded (initial oneStaged) s ∧
    (s.pcs true).holds = true ∧ s.Exclusive := by
  have hrun : (exec (restrict step Guarded) (initial oneStaged)
      (dropFile ++ List.replicate 3 (.next false oneFile true) ++ listFiles)).map
      (fun s => (s.pcs true).holds) = some true := by decide +kernel
  obtain ⟨s, hs, hholds⟩ := reach_of_exec_restrict _ hrun
  exact ⟨s, hs, hholds, (excludes_iff_guarded oneStaged hs).1⟩

/-- `remove_all` removes the lock of its own process, another process takes the lock, and the
destructor of the first removes that one. -/
theorem exists_stolen : ∃ s t a, Reach step any (initial oneStaged) s ∧
    (s.pcs false).holds = true ∧ (s.pcs true).holds = true ∧ s.step a = some t ∧
    s.Steals a t := by
  have hrun : (exec step (initial oneStaged)
      (dropFile ++ listFiles ++ [.next false oneFile true])).map
      (fun s => (s.pcs false).holds && (s.pcs true).holds && decide (owner s.fs = some true) &&
        decide ((s.step (.next false oneFile true)).map (fun t => owner t.fs) = some none)) =
      some true := by decide +kernel
  obtain ⟨s, hs, htest⟩ := reach_of_exec_test _ (fun _ _ _ => trivial) hrun
  simp only [Bool.and_eq_true, decide_eq_true_eq] at htest
  obtain ⟨⟨⟨hfalse, htrue⟩, howner⟩, hstep⟩ := htest
  obtain ⟨t, ht, hnone⟩ := Option.map_eq_some_iff.mp hstep
  exact ⟨s, t, _, hs, hfalse, htrue, ht, true, howner, hnone, nofun, htrue⟩

end Processes

end Staging

end Trit
