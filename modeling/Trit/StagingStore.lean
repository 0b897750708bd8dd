import Trit.StagingLock
import Trit.StagingSession

/-!
# Staging as a set store

The commands on the staging area, one after the other, over a fixed tree of files.  The processes
are those of the lock: every command takes and releases `.lock` several times, and creates `.trit`
again where it is missing.

* `WorkingDirectory`: the files of the user, and what `get_files_in_cwd` makes of them;
* `Script.run`: what a command leaves behind when nothing interferes and nothing fails;
* `Command.evolve`: the command as an operation on a set;
* `Settled`: `staged.txt` stands for a set of files, and no lock is held;
* `Settled.run`: a command takes a settled staging area to the next one;
* `Pc.finish`: the same from every program point, which each operation leaves as it is;
* `refines_set_store`: in every run of one command after the other the staged set is the one that
  the operations on sets yield, and no command throws.
-/

namespace Trit

open Transition

namespace Staging

/-! ### The files of the user -/

/-- The regular files under the working directory that are the user's, and the path of
`staged.txt`, which is none of them. -/
structure WorkingDirectory where
  files : Finset Bytes
  stagingFile : Bytes
  oneLine : ∀ p ∈ files, OneLine p
  outside : stagingFile ∉ files

variable {ι : Type}

namespace WorkingDirectory

/-- The regular files that are there, `staged.txt` among them. -/
def regularFiles (wd : WorkingDirectory) (fs : Option (Directory ι)) : Finset Bytes :=
  if (fs.bind Directory.staged).isSome then insert wd.stagingFile wd.files else wd.files

/-- `get_files_in_cwd`: all regular files but `staged.txt`. -/
def getFilesInCwd (wd : WorkingDirectory) (fs : Option (Directory ι)) : Finset Bytes :=
  (wd.regularFiles fs).filter (· ≠ wd.stagingFile)

/-- What a command sees of the files. -/
def tree (wd : WorkingDirectory) (fs : Option (Directory ι)) : Tree :=
  ⟨wd.regularFiles fs, wd.getFilesInCwd fs, Finset.filter_subset _ _⟩

variable {wd : WorkingDirectory} {fs : Option (Directory ι)} {S : Finset Bytes}

/-- Every file of the user is found, and `staged.txt` is not. -/
theorem getFilesInCwd_eq (wd : WorkingDirectory) (fs : Option (Directory ι)) :
    wd.getFilesInCwd fs = wd.files := by
  ext p
  have hp : p ∈ wd.files → p ≠ wd.stagingFile := by
    rintro hp rfl
    exact wd.outside hp
  by_cases hstaged : (fs.bind Directory.staged).isSome = true
  · simp only [getFilesInCwd, regularFiles, if_pos hstaged, Finset.mem_filter, Finset.mem_insert]
    tauto
  · simp only [getFilesInCwd, regularFiles, if_neg hstaged, Finset.mem_filter]
    tauto

theorem files_subset_regularFiles (wd : WorkingDirectory) (fs : Option (Directory ι)) :
    wd.files ⊆ wd.regularFiles fs := by
  rw [← wd.getFilesInCwd_eq fs]
  exact Finset.filter_subset _ _

theorem paths_stored (hS : S ⊆ wd.files) : paths (some (stored S)) = S := by
  ext p
  constructor
  · intro hp
    obtain ⟨l, hl, rfl⟩ := Finset.mem_image.mp hp
    obtain ⟨q, hq, hl⟩ := mem_stored.mp hl
    have hone := wd.oneLine q (hS hq)
    rw [lines_path ⟨q, hone.1, hone.2⟩, Finset.mem_singleton] at hl
    rw [hl]
    exact hq
  · intro hp
    exact mem_paths_stored hp (wd.oneLine p (hS hp))

/-- A set of files of the user is read as it was written. -/
theorem listed_stored (hS : S ⊆ wd.files) (fs : Option (Directory ι)) :
    listed (wd.tree fs) (stored S) = S := by
  have hpaths : (stored S).image Line.path = S := wd.paths_stored hS
  rw [listed, hpaths, Finset.filter_eq_self]
  exact fun p hp => wd.files_subset_regularFiles fs (hS hp)

end WorkingDirectory

/-! ### A command that nothing interferes with -/

/-- `lock_staging_file`, and the exception of `StagingLock` where it fails. -/
def lockStagingFile (p : ι) (fs : Option (Directory ι)) : Except Exception (Directory ι) :=
  match createLock p (createDirectories fs) with
  | some d => .ok d
  | none => .error (.runtimeError "Staging file is already locked")

/-- What a command leaves behind when it is executed from here to its end, all its operations
succeed and nobody interferes. -/
def Script.run (wd : WorkingDirectory) (p : ι) :
    Script Outside → Option (Directory ι) → Except Exception (Option (Directory ι))
  | .done, fs => .ok fs
  | .load k, fs => do
      let d ← lockStagingFile p fs
      let staged ← loadStagedFiles (wd.tree (some d)) d.staged
      (k staged).run wd p (removeLock (some d))
  | .walk k, fs => (k (wd.tree fs).files).run wd p fs
  | .save staged k, fs => do
      let d ← lockStagingFile p fs
      k.run wd p (removeLock (some { d with staged := some (stored staged) }))
  | .delete k, fs => do
      let _ ← lockStagingFile p fs
      k.run wd p none
  | .ifStaged yes no, fs =>
      if (fs.bind Directory.staged).isSome then yes.run wd p fs else no.run wd p fs
  | .outside _ k, fs => (k true).run wd p fs

/-! ### The commands as operations on a set -/

/-- The command works on the staging area alone. -/
def Command.stages : Command → Bool
  | .send => false
  | _ => true

/-- The command as an operation on the set of staged files. -/
def Command.evolve (files S : Finset Bytes) : Command → Finset Bytes
  | .add matching => S ∪ files.filter (matching ·)
  | .drop matching => S \ S.filter (matching ·)
  | .list => S
  | .clear => ∅
  | .send => S

/-- `staged.txt` stands for the set `S` of files of the user, and no lock is held. -/
structure Settled (wd : WorkingDirectory) (S : Finset Bytes) (fs : Option (Directory ι)) :
    Prop where
  subset : S ⊆ wd.files
  unlocked : owner fs = none
  staged : fs.bind Directory.staged = if S = ∅ then none else some (stored S)

namespace Settled

variable {wd : WorkingDirectory} {S T : Finset Bytes} {fs : Option (Directory ι)} {p : ι}

/-- The lock is free, and taking it creates the directory where it is missing. -/
theorem lockStagingFile (h : Settled wd S fs) (p : ι) :
    lockStagingFile p fs = .ok ⟨some p, fs.bind Directory.staged⟩ := by
  have howner := h.unlocked
  rcases fs with _ | ⟨_ | q, text⟩
  · rfl
  · rfl
  · cases howner

theorem loadStagedFiles (h : Settled wd S fs) (fs' : Option (Directory ι)) :
    loadStagedFiles (wd.tree fs') (fs.bind Directory.staged) = .ok S := by
  rw [h.staged]
  by_cases hS : S = ∅
  · rw [if_pos hS, hS]
    rfl
  · rw [if_neg hS, Staging.loadStagedFiles, wd.listed_stored h.subset, if_neg hS]

/-- `load_staged_files` yields the set and leaves the staging area settled. -/
theorem run_load (h : Settled wd S fs) (k : Finset Bytes → Script Outside) :
    ∃ fs', Settled wd S fs' ∧ (Script.load k).run wd p fs = (k S).run wd p fs' := by
  refine ⟨some ⟨none, fs.bind Directory.staged⟩, ⟨h.subset, rfl, h.staged⟩, ?_⟩
  rw [Script.run, h.lockStagingFile]
  simp only [bind, Except.bind, h.loadStagedFiles]
  rfl

theorem run_save (h : Settled wd S fs) (hT : T ⊆ wd.files) (hne : T ≠ ∅) :
    ∃ fs', Settled wd T fs' ∧ (Effect.save T).script.run wd p fs = .ok fs' := by
  refine ⟨some ⟨none, some (stored T)⟩, ⟨hT, rfl, (if_neg hne).symm⟩, ?_⟩
  rw [Effect.script, Script.run, h.lockStagingFile]
  rfl

theorem run_delete (h : Settled wd S fs) :
    ∃ fs', Settled wd ∅ fs' ∧ (Effect.delete).script.run wd p fs = .ok fs' := by
  refine ⟨none, ⟨Finset.empty_subset _, rfl, rfl⟩, ?_⟩
  rw [Effect.script, Script.run, h.lockStagingFile]
  rfl

theorem run_nothing (h : Settled wd S fs) :
    ∃ fs', Settled wd S fs' ∧ (Effect.nothing).script.run wd p fs = .ok fs' :=
  ⟨fs, h, rfl⟩

theorem run_stageEffect (h : Settled wd S fs) (hT : T ⊆ wd.files) :
    ∃ fs', Settled wd (S ∪ T) fs' ∧ (stageEffect T S).script.run wd p fs = .ok fs' := by
  by_cases hempty : T = ∅
  · rw [stageEffect, if_pos hempty, hempty, Finset.union_empty]
    by_cases hS : S = ∅
    · rw [if_pos hS]
      have hdelete := h.run_delete (p := p)
      rwa [← hS] at hdelete
    · rw [if_neg hS]
      exact h.run_nothing
  · by_cases hsub : T ⊆ S
    · rw [stageEffect, if_neg hempty, if_pos hsub, Finset.union_eq_left.mpr hsub]
      exact h.run_nothing
    · rw [stageEffect, if_neg hempty, if_neg hsub]
      refine h.run_save (Finset.union_subset h.subset hT) ?_
      intro hunion
      exact hempty (Finset.union_eq_empty.mp hunion).2

theorem run_unstageEffect (h : Settled wd S fs) :
    ∃ fs', Settled wd (S \ T) fs' ∧ (unstageEffect T S).script.run wd p fs = .ok fs' := by
  by_cases hempty : T = ∅
  · rw [unstageEffect, if_pos hempty, hempty, Finset.sdiff_empty]
    exact h.run_nothing
  · by_cases hrest : S \ T = ∅
    · rw [unstageEffect, if_neg hempty, if_pos hrest, hrest]
      exact h.run_delete
    · rw [unstageEffect, if_neg hempty, if_neg hrest]
      exact h.run_save (Finset.sdiff_subset.trans h.subset) hrest

/-- `staged.txt` holds the set. -/
theorem paths_eq (h : Settled wd S fs) : paths (fs.bind Directory.staged) = S := by
  rw [h.staged]
  by_cases hS : S = ∅
  · rw [if_pos hS, hS]
    rfl
  · rw [if_neg hS]
    exact wd.paths_stored h.subset

/-- Where there is a `staged.txt`, it names a file. -/
theorem exists_line (h : Settled wd S fs) {text : Finset Line}
    (htext : fs.bind Directory.staged = some text) : ∃ l ∈ text, l.path ∈ wd.files := by
  have hpaths : text.image Line.path = S := by
    rw [← h.paths_eq, htext]
    rfl
  by_cases hS : S = ∅
  · rw [h.staged, if_pos hS] at htext
    cases htext
  · obtain ⟨p, hp⟩ := Finset.nonempty_iff_ne_empty.mpr hS
    rw [← hpaths] at hp
    obtain ⟨l, hl, rfl⟩ := Finset.mem_image.mp hp
    refine ⟨l, hl, h.subset ?_⟩
    rw [← hpaths]
    exact hp

/-- A command takes a settled staging area to the next one, and throws nothing. -/
theorem run (h : Settled wd S fs) {c : Command} (hc : c.stages = true) :
    ∃ fs', Settled wd (c.evolve wd.files S) fs' ∧ c.script.run wd p fs = .ok fs' := by
  cases c with
  | add matching =>
    obtain ⟨fs', h', hrun⟩ := h.run_load (p := p)
      fun staged => .walk fun filesInCwd =>
        (stageEffect (filesInCwd.filter (matching ·)) staged).script
    rw [Command.script, stage, hrun, Script.run]
    show ∃ _, _ ∧
      (stageEffect ((wd.getFilesInCwd fs').filter (matching ·)) S).script.run wd p fs' = _
    rw [wd.getFilesInCwd_eq]
    exact h'.run_stageEffect (Finset.filter_subset _ _)
  | drop matching =>
    obtain ⟨fs', h', hrun⟩ := h.run_load (p := p)
      fun staged => (unstageEffect (staged.filter (matching ·)) staged).script
    rw [Command.script, unstage, hrun]
    exact h'.run_unstageEffect
  | list =>
    obtain ⟨fs', h', hrun⟩ := h.run_load (p := p)
      fun staged => if staged = ∅ then .delete .done else .done
    rw [Command.script, list, hrun, Command.evolve]
    by_cases hS : S = ∅
    · rw [if_pos hS, hS]
      exact h'.run_delete
    · rw [if_neg hS]
      exact h'.run_nothing
  | clear =>
    rw [Command.script, clear, Script.run, h.staged, Command.evolve]
    by_cases hS : S = ∅
    · subst hS
      exact h.run_nothing (p := p)
    · rw [if_neg hS]
      exact h.run_delete
  | send => cases hc

end Settled

/-! ### The commands as processes -/

/-- What a scope of the lock leaves behind, with all that follows it. -/
def Scope.finish (wd : WorkingDirectory) (p : ι) (fs : Option (Directory ι)) :
    Scope → Except Exception (Option (Directory ι))
  | .load k => do
      let staged ← loadStagedFiles (wd.tree fs) (fs.bind Directory.staged)
      (k staged).run wd p (removeLock fs)
  | .save staged k =>
      match fs with
      | some d => k.run wd p (removeLock (some { d with staged := some (stored staged) }))
      | none => .error (.runtimeError "Failed to open staging file for writing")
  | .delete k => k.run wd p none
  | .nested _ => .error (.runtimeError "Staging file is already locked")

/-- What a command leaves behind when it goes on from a program point to its end.  A lock that
`load_staged_files` takes a second time is refused. -/
def Pc.finish (wd : WorkingDirectory) (p : ι) (fs : Option (Directory ι)) :
    Pc → Except Exception (Option (Directory ι))
  | .idle => .ok fs
  | .script s => s.run wd p fs
  | .parent c => do
      let d ← lockStagingFile p fs
      c.finish wd p (some d)
  | .lock c =>
      match createLock p fs with
      | some d => c.finish wd p (some d)
      | none => .error (.runtimeError "Staging file is already locked")
  | .body c => c.finish wd p fs
  | .unlock (.nested _) _ | .unlock _ none =>
      .error (.runtimeError "Staging file is already locked")
  | .unlock _ (some s) => s.run wd p (removeLock fs)

/-- The operation of a process succeeds, and sees the files as they are; a `remove_all` that is
over has removed everything. -/
def Succeeds (wd : WorkingDirectory) (fs : Option (Directory ι)) (pc : Pc) (tree : Tree)
    (succeeds : Bool) : Prop :=
  succeeds = true ∧ tree = wd.tree fs ∧
    (pc.removing = true → fs = none ∨ fs = some ⟨none, none⟩)

@[simp] theorem lockStagingFile_createDirectories (p : ι) (fs : Option (Directory ι)) :
    lockStagingFile p (createDirectories fs) = lockStagingFile p fs := by
  cases fs <;> rfl

/-- The constructor of `StagingLock` creates the directory where it is missing. -/
theorem Pc.finish_parent (wd : WorkingDirectory) (p : ι) (c : Scope) (fs : Option (Directory ι)) :
    (Pc.parent c).finish wd p fs = (Pc.lock c).finish wd p (createDirectories fs) := by
  rw [Pc.finish, Pc.finish, lockStagingFile]
  cases createLock p (createDirectories fs) <;> rfl

/-- Under its lock a command goes on to the release of the lock. -/
theorem Scope.finish_next {wd : WorkingDirectory} {p : ι} {fs fs' fsEnd : Option (Directory ι)}
    {c : Scope} {pc' : Pc}
    (hremoved : (Pc.body c).removing = true → fs = none ∨ fs = some ⟨none, none⟩)
    (h : (Pc.body c).next p (wd.tree fs) true fs = some (fs', pc'))
    (hf : c.finish wd p fs = .ok fsEnd) :
    pc'.finish wd p fs' = .ok fsEnd ∧ pc' ≠ .idle := by
  cases c with
  | load k =>
    cases htext : fs.bind Directory.staged with
    | none =>
      simp only [Pc.next, htext, Option.some.injEq, Prod.mk.injEq] at h
      obtain ⟨rfl, rfl⟩ := h
      rw [Scope.finish, htext] at hf
      exact ⟨hf, by simp⟩
    | some text =>
      rw [Scope.finish, htext, loadStagedFiles] at hf
      by_cases hempty : listed (wd.tree fs) text = ∅
      · rw [if_pos hempty] at hf
        cases hf
      · rw [if_neg hempty] at hf
        simp only [Pc.next, htext, Bool.not_true, Bool.false_eq_true, if_false, if_neg hempty,
          Option.some.injEq, Prod.mk.injEq] at h
        obtain ⟨rfl, rfl⟩ := h
        exact ⟨hf, by simp⟩
  -- without the directory nothing can be opened for writing
  | save staged k =>
    cases fs with
    | none => cases hf
    | some d =>
      cases h
      exact ⟨hf, by simp⟩
  | delete k =>
    cases h
    -- `remove_all` has come to its end: the directory is gone, or empty
    rcases hremoved rfl with rfl | rfl <;> exact ⟨hf, by simp⟩
  | nested k => cases hf

/-- An operation does not change what the command leaves behind, and the last one is the end of its
script: nothing is thrown. -/
theorem Pc.finish_next {wd : WorkingDirectory} {p : ι} {fs fs' fsEnd : Option (Directory ι)}
    {pc pc' : Pc} {tree : Tree} {succeeds : Bool} (hs : Succeeds wd fs pc tree succeeds)
    (h : pc.next p tree succeeds fs = some (fs', pc')) (hf : pc.finish wd p fs = .ok fsEnd) :
    pc'.finish wd p fs' = .ok fsEnd ∧ (pc' = .idle → pc = .script .done) := by
  obtain ⟨rfl, rfl, hremoved⟩ := hs
  cases pc with
  | idle => cases h
  | script s =>
    cases s with
    | done =>
      cases h
      exact ⟨hf, fun _ => rfl⟩
    | load k =>
      cases h
      refine ⟨?_, by simp⟩
      rw [Pc.finish, lockStagingFile_createDirectories]
      exact hf
    | save staged k =>
      cases h
      refine ⟨?_, by simp⟩
      rw [Pc.finish, lockStagingFile_createDirectories]
      exact hf
    | ifStaged yes no =>
      cases h
      refine ⟨?_, by simp⟩
      rw [Pc.finish, Script.run] at hf
      split_ifs at hf ⊢ <;> exact hf
    | _ =>
      cases h
      exact ⟨hf, by simp⟩
  | parent c =>
    cases h
    refine ⟨?_, by simp⟩
    rwa [Pc.finish_parent] at hf
  | lock c =>
    rw [Pc.finish] at hf
    cases hlock : createLock p fs with
    | none =>
      rw [hlock] at hf
      cases hf
    | some d =>
      rw [hlock] at hf
      simp only [Pc.next, hlock, if_true, Option.some.injEq, Prod.mk.injEq] at h
      obtain ⟨rfl, rfl⟩ := h
      exact ⟨hf, by simp⟩
  | body c =>
    obtain ⟨hfinish, hne⟩ := Scope.finish_next hremoved h hf
    exact ⟨hfinish, fun hidle => absurd hidle hne⟩
  | unlock c next =>
    cases next with
    | none => cases c <;> cases hf
    | some s =>
      cases h
      cases c with
      | nested k => cases hf
      | _ => exact ⟨hf, by simp [Scope.released, Pc.resume]⟩

/-! ### One command after the other -/

namespace Processes

/-- No process is in a command. -/
def AtRest (s : Processes ι) : Prop := ∀ p, s.pcs p = .idle

variable [DecidableEq ι]

/-- The processes next to the abstract store, which a command changes as it begins. -/
def stepWithStore (wd : WorkingDirectory) (x : Processes ι × Finset Bytes) (a : Operation ι) :
    Option (Processes ι × Finset Bytes) :=
  (x.1.step a).map fun s =>
    (s, match a with
      | .start _ c => c.evolve wd.files x.2
      | _ => x.2)

/-- A command on the staging area begins when no other is under way, and its operations succeed. -/
def Sequential (wd : WorkingDirectory) (x : Processes ι × Finset Bytes) : Operation ι → Prop
  | .start _ c => x.1.AtRest ∧ c.stages = true
  | .next p tree succeeds => Succeeds wd x.1.fs (x.1.pcs p) tree succeeds
  | .remove _ _ => True

/-- The command under way goes on. -/
def GoesOn (wd : WorkingDirectory) (x : Processes ι × Finset Bytes) : Operation ι → Prop
  | .start _ _ => False
  | a => Sequential wd x a

/-- At most one process is in a command, and the command will leave the abstract store behind. -/
structure Tracks (wd : WorkingDirectory) (x : Processes ι × Finset Bytes) : Prop where
  one : ∀ p q, x.1.pcs p ≠ .idle → x.1.pcs q ≠ .idle → p = q
  busy : ∀ p, x.1.pcs p ≠ .idle →
    ∃ fs, (x.1.pcs p).finish wd p x.1.fs = .ok fs ∧ Settled wd x.2 fs
  rest : x.1.AtRest → Settled wd x.2 x.1.fs

variable {wd : WorkingDirectory} {x y : Processes ι × Finset Bytes} {a : Operation ι}

omit [DecidableEq ι] in
theorem Tracks.initial (wd : WorkingDirectory) :
    Tracks wd ((initial none : Processes ι), (∅ : Finset Bytes)) where
  one := fun _ _ hp => absurd rfl hp
  busy := fun _ hp => absurd rfl hp
  rest := fun _ => ⟨Finset.empty_subset _, rfl, rfl⟩

/-- The process that moves is the one in a command afterwards. -/
theorem Tracks.of_update {s : Processes ι} {p : ι} {pc : Pc} {fs fsEnd : Option (Directory ι)}
    {S : Finset Bytes} (hidle : ∀ q, q ≠ p → s.pcs q = .idle)
    (hf : pc.finish wd p fs = .ok fsEnd) (hS : Settled wd S fsEnd) :
    Tracks wd (⟨fs, Function.update s.pcs p pc⟩, S) := by
  have honly : ∀ q, Function.update s.pcs p pc q ≠ .idle → q = p := by
    intro q hq
    by_contra hne
    exact hq ((Function.update_of_ne hne pc s.pcs).trans (hidle q hne))
  refine ⟨fun q q' hq hq' => (honly q hq).trans (honly q' hq').symm, fun q hq => ?_,
    fun hrest => ?_⟩
  · obtain rfl := honly q hq
    refine ⟨fsEnd, ?_, hS⟩
    show (Function.update s.pcs q pc q).finish wd q fs = _
    rw [Function.update_self]
    exact hf
  · have hpc : Function.update s.pcs p pc p = .idle := hrest p
    rw [Function.update_self] at hpc
    subst hpc
    cases hf
    exact hS

/-- Every operation keeps the concrete and the abstract store together, and the only way out of a
command is the end of its script. -/
theorem Tracks.step (hx : Tracks wd x) (hok : Sequential wd x a)
    (h : stepWithStore wd x a = some y) :
    Tracks wd y ∧ ∀ p, x.1.pcs p ≠ .idle → y.1.pcs p = .idle → x.1.pcs p = .script .done := by
  obtain ⟨⟨fs, pcs⟩, S⟩ := x
  obtain ⟨t, ht, rfl⟩ := Option.map_eq_some_iff.mp h
  cases a with
  | start p c =>
    obtain ⟨hrest, hc⟩ := hok
    have hp : pcs p = .idle := hrest p
    simp only [Processes.step, hp, Option.some.injEq] at ht
    subst ht
    obtain ⟨fs', hS, hrun⟩ := (hx.rest hrest).run (p := p) hc
    exact ⟨Tracks.of_update (fun q _ => hrest q) hrun hS, fun q hq => absurd (hrest q) hq⟩
  | next p tree succeeds =>
    obtain ⟨⟨fs', pc⟩, hnext, rfl⟩ := Option.map_eq_some_iff.mp ht
    replace hnext : (pcs p).next p tree succeeds fs = some (fs', pc) := hnext
    have hp : pcs p ≠ .idle := by
      intro hp
      rw [hp] at hnext
      cases hnext
    obtain ⟨fsEnd, hfinish, hS⟩ := hx.busy p hp
    obtain ⟨hfinish', hdone⟩ := Pc.finish_next hok hnext hfinish
    refine ⟨Tracks.of_update (s := ⟨fs, pcs⟩) (fun q hq => ?_) hfinish' hS, fun q hq hq' => ?_⟩
    · by_contra hne
      exact hq (hx.one q p hne hp)
    · obtain rfl := hx.one q p hq hp
      replace hq' : Function.update pcs q pc q = .idle := hq'
      rw [Function.update_self] at hq'
      exact hdone hq'
  | remove p entry =>
    simp only [Processes.step] at ht
    split_ifs at ht with hremoving
    obtain ⟨c, hpc⟩ : ∃ c, pcs p = .body c := by
      cases hpc : pcs p with
      | body c => exact ⟨c, rfl⟩
      | _ => rw [hpc] at hremoving; cases hremoving
    -- only `delete_staging_files` removes entries, and its end does not depend on them
    have hp : pcs p ≠ .idle := by simp [hpc]
    obtain ⟨fsEnd, hfinish, hS⟩ := hx.busy p hp
    replace hfinish : (pcs p).finish wd p fs = .ok fsEnd := hfinish
    obtain ⟨fs', ht⟩ : ∃ fs', t = ⟨fs', pcs⟩ := by
      cases entry <;> exact ⟨_, (Option.some.inj ht).symm⟩
    subst ht
    have hsame : (pcs p).finish wd p fs' = .ok fsEnd := by
      rw [hpc] at hremoving hfinish ⊢
      cases c with
      | delete k => exact hfinish
      | nested k => cases hfinish
      | _ => cases hremoving
    refine ⟨⟨hx.one, fun q hq => ?_, fun hrest => absurd (hrest p) hp⟩, fun q hq hq' => ?_⟩
    · obtain rfl := hx.one q p hq hp
      exact ⟨fsEnd, hsame, hS⟩
    · exact absurd hq' hq

/-! ### Every command comes to its end -/

/-- From this program point a command comes to its end. -/
def Ends (wd : WorkingDirectory) (p : ι) (pc : Pc) : Prop :=
  ∀ fs fsEnd pcs S, pc.finish wd p fs = .ok fsEnd →
    Reach (stepWithStore wd) (GoesOn wd) (⟨fs, Function.update pcs p pc⟩, S)
      (⟨fsEnd, Function.update pcs p .idle⟩, S)

theorem reach_next {p : ι} {pc pc' : Pc} {fs fs' : Option (Directory ι)}
    (hremoved : pc.removing = true → fs = none ∨ fs = some ⟨none, none⟩)
    (h : pc.next p (wd.tree fs) true fs = some (fs', pc')) (pcs : ι → Pc) (S : Finset Bytes) :
    Reach (stepWithStore wd) (GoesOn wd) (⟨fs, Function.update pcs p pc⟩, S)
      (⟨fs', Function.update pcs p pc'⟩, S) := by
  refine Reach.single (a := .next p (wd.tree fs) true) ?_ ?_
  · refine ⟨rfl, rfl, ?_⟩
    show (Function.update pcs p pc p).removing = true → _
    rwa [Function.update_self]
  · simp only [stepWithStore, Processes.step, Function.update_self, h, Option.map_some,
      Function.update_idem]

/-- A command that comes to its end after its next operation comes to its end. -/
theorem Ends.of_next {p : ι} {pc : Pc} (hremoving : pc.removing = false)
    (h : ∀ fs fsEnd, pc.finish wd p fs = .ok fsEnd →
      ∃ fs' pc', pc.next p (wd.tree fs) true fs = some (fs', pc') ∧ Ends wd p pc') :
    Ends wd p pc := by
  intro fs fsEnd pcs S hf
  obtain ⟨fs', pc', hnext, hends⟩ := h fs fsEnd hf
  have hs : Succeeds wd fs pc (wd.tree fs) true := ⟨rfl, rfl, by simp [hremoving]⟩
  have hfinish := (Pc.finish_next hs hnext hf).1
  exact (reach_next hs.2.2 hnext pcs S).trans (hends fs' fsEnd pcs S hfinish)

theorem ends_idle (wd : WorkingDirectory) (p : ι) : Ends wd p .idle := by
  intro fs fsEnd pcs S hf
  cases hf
  exact .refl

/-- The scripts with which a command can go on behind the scope. -/
def Continues (P : Script Outside → Prop) : Scope → Prop
  | .load k => ∀ staged, P (k staged)
  | .save _ k | .delete k => P k
  | .nested _ => True

theorem ends_unlock {p : ι} {s : Script Outside} (c : Scope) (hs : Ends wd p (.script s)) :
    Ends wd p (.unlock c (some s)) := by
  refine Ends.of_next rfl fun fs fsEnd hf => ?_
  cases c with
  | nested k => cases hf
  | _ => exact ⟨_, _, rfl, hs⟩

theorem reach_emptied (wd : WorkingDirectory) (p : ι) (k : Script Outside)
    (fs : Option (Directory ι)) (pcs : ι → Pc) (S : Finset Bytes) :
    ∃ fs', (fs' = none ∨ fs' = some ⟨none, none⟩) ∧
      Reach (stepWithStore wd) (GoesOn wd)
        (⟨fs, Function.update pcs p (.body (.delete k))⟩, S)
        (⟨fs', Function.update pcs p (.body (.delete k))⟩, S) := by
  have hremoving : (Function.update pcs p (.body (.delete k)) p).removing = true := by
    rw [Function.update_self]
    rfl
  refine ⟨removeLock (fs.map fun d => { d with staged := none }), ?_, ?_⟩
  · cases fs with
    | none => exact Or.inl rfl
    | some d => exact Or.inr rfl
  · refine Reach.head (a := .remove p .staged) trivial ?_
      (Reach.single (s := (⟨fs.map fun d => { d with staged := none },
        Function.update pcs p (.body (.delete k))⟩, S)) (a := .remove p .lock) trivial ?_)
    · simp only [stepWithStore, Processes.step, hremoving, if_true, Option.map_some]
    · simp only [stepWithStore, Processes.step, hremoving, if_true, Option.map_some]

theorem ends_body {p : ι} {c : Scope} (hc : Continues (fun s => Ends wd p (.script s)) c) :
    Ends wd p (.body c) := by
  cases c with
  | load k =>
    refine Ends.of_next rfl fun fs fsEnd hf => ?_
    cases htext : fs.bind Directory.staged with
    | none => exact ⟨fs, _, by simp only [Pc.next, htext], ends_unlock (.load k) (hc ∅)⟩
    | some text =>
      by_cases hempty : listed (wd.tree fs) text = ∅
      · rw [Pc.finish, Scope.finish, htext, loadStagedFiles, if_pos hempty] at hf
        cases hf
      · refine ⟨fs, _, ?_, ends_unlock (.load k) (hc (listed (wd.tree fs) text))⟩
        simp [Pc.next, htext, hempty]
  | save staged k =>
    refine Ends.of_next rfl fun fs fsEnd hf => ?_
    cases fs with
    | none => cases hf
    | some d => exact ⟨_, _, rfl, ends_unlock _ hc⟩
  | delete k =>
    intro fs fsEnd pcs S hf
    obtain ⟨fs', hempty, hreach⟩ := reach_emptied wd p k fs pcs S
    have hnext : (Pc.body (.delete k)).next p (wd.tree fs') true fs' =
        some (none, .unlock (.delete k) (some k)) := by
      rcases hempty with rfl | rfl <;> rfl
    refine hreach.trans ((reach_next (fun _ => hempty) hnext pcs S).trans ?_)
    exact ends_unlock (.delete k) hc none fsEnd pcs S hf
  | nested k =>
    intro fs fsEnd pcs S hf
    cases hf

theorem ends_lock {p : ι} {c : Scope} (hc : Continues (fun s => Ends wd p (.script s)) c) :
    Ends wd p (.lock c) := by
  refine Ends.of_next rfl fun fs fsEnd hf => ?_
  cases hlock : createLock p fs with
  | none =>
    rw [Pc.finish, hlock] at hf
    cases hf
  | some d => exact ⟨some d, .body c, by simp [Pc.next, hlock], ends_body hc⟩

theorem ends_parent {p : ι} {c : Scope} (hc : Continues (fun s => Ends wd p (.script s)) c) :
    Ends wd p (.parent c) :=
  Ends.of_next rfl fun _ _ _ => ⟨_, _, rfl, ends_lock hc⟩

theorem ends_script (wd : WorkingDirectory) (p : ι) (s : Script Outside) :
    Ends wd p (.script s) := by
  induction s with
  | done => exact Ends.of_next rfl fun _ _ _ => ⟨_, _, rfl, ends_idle wd p⟩
  | load k ih => exact Ends.of_next rfl fun _ _ _ => ⟨_, _, rfl, ends_parent ih⟩
  | walk k ih => exact Ends.of_next rfl fun _ _ _ => ⟨_, _, rfl, ih _⟩
  | save staged k ih => exact Ends.of_next rfl fun _ _ _ => ⟨_, _, rfl, ends_parent ih⟩
  | delete k ih => exact Ends.of_next rfl fun _ _ _ => ⟨_, _, rfl, ends_parent ih⟩
  | ifStaged yes no ihyes ihno =>
    refine Ends.of_next rfl fun fs _ _ => ⟨_, _, rfl, ?_⟩
    split
    · exact ihyes
    · exact ihno
  | outside q k ih => exact Ends.of_next rfl fun _ _ _ => ⟨_, _, rfl, ih true⟩

theorem ends (wd : WorkingDirectory) (p : ι) (pc : Pc) : Ends wd p pc := by
  have hscope : ∀ c : Scope, Continues (fun s => Ends wd p (.script s)) c := by
    intro c
    cases c with
    | load k => exact fun staged => ends_script wd p (k staged)
    | save staged k => exact ends_script wd p k
    | delete k => exact ends_script wd p k
    | nested k => trivial
  cases pc with
  | idle => exact ends_idle wd p
  | script s => exact ends_script wd p s
  | parent c => exact ends_parent (hscope c)
  | lock c => exact ends_lock (hscope c)
  | body c => exact ends_body (hscope c)
  | unlock c next =>
    cases next with
    | some s => exact ends_unlock c (ends_script wd p s)
    | none =>
      intro fs fsEnd pcs S hf
      cases c <;> cases hf

/-- A command under way comes to its end. -/
theorem Tracks.exists_atRest (hx : Tracks wd x) :
    ∃ s, Reach (stepWithStore wd) (GoesOn wd) x (s, x.2) ∧ s.AtRest := by
  obtain ⟨⟨fs, pcs⟩, S⟩ := x
  by_cases hrest : AtRest ⟨fs, pcs⟩
  · exact ⟨_, .refl, hrest⟩
  · obtain ⟨p, hp⟩ := not_forall.mp hrest
    obtain ⟨fsEnd, hfinish, -⟩ := hx.busy p hp
    have hreach := ends wd p (pcs p) fs fsEnd pcs S hfinish
    rw [Function.update_eq_self] at hreach
    refine ⟨_, hreach, fun q => ?_⟩
    show Function.update pcs p .idle q = .idle
    by_cases hq : q = p
    · rw [hq, Function.update_self]
    · rw [Function.update_of_ne hq]
      by_contra hne
      exact hq (hx.one q p hne hp)

variable (wd) in
/-- A command that begins when no other is under way comes to its end. -/
theorem exists_atRest_of_command
    (h : Reach (stepWithStore wd) (Sequential wd) (initial none, ∅) x) (hrest : x.1.AtRest) (p : ι)
    {c : Command} (hc : c.stages = true) :
    ∃ s : Processes ι, Reach (stepWithStore wd) (Sequential wd)
      (initial none, ∅) (s, c.evolve wd.files x.2) ∧ s.AtRest := by
  have hstart : stepWithStore wd x (.start p c) =
      some (⟨x.1.fs, Function.update x.1.pcs p (.script c.script)⟩, c.evolve wd.files x.2) := by
    simp [stepWithStore, step, hrest p]
  have hok : Sequential wd x (.start p c) := ⟨hrest, hc⟩
  have hrun := h.tail hok hstart
  have hx : Tracks wd (_, c.evolve wd.files x.2) :=
    hrun.invariant (fun _ _ _ hx hok hs => (hx.step hok hs).1) (Tracks.initial wd)
  obtain ⟨s, hs, hend⟩ := hx.exists_atRest
  have hgoes : ∀ x (a : Operation ι), GoesOn wd x a → Sequential wd x a := by
    rintro x (_ | _ | _) hgo
    · cases hgo
    · exact hgo
    · exact hgo
  exact ⟨s, hrun.trans (hs.mono hgoes), hend⟩

/-- Staging refines a set store.  When commands on the staging area run one after the other, no
command throws, each comes to its end, and then `staged.txt` holds the set that the operations on
sets yield: it is absent or names a file that exists, it never names itself, and no lock is left
behind.  What a pattern matches is a parameter here; that `std::regex` gives up on a pattern that is
too long for it is left out. -/
theorem refines_set_store (wd : WorkingDirectory)
    (h : Reach (stepWithStore wd) (Sequential wd) (initial none, ∅) x) :
    (∀ a y p, Sequential wd x a → stepWithStore wd x a = some y → x.1.pcs p ≠ .idle →
      y.1.pcs p = .idle → x.1.pcs p = .script .done) ∧
    (∃ s, Reach (stepWithStore wd) (GoesOn wd) x (s, x.2) ∧ s.AtRest) ∧
    (x.1.AtRest → paths (x.1.fs.bind Directory.staged) = x.2 ∧
      (∀ text, x.1.fs.bind Directory.staged = some text → ∃ l ∈ text, l.path ∈ wd.files) ∧
      owner x.1.fs = none ∧ wd.stagingFile ∉ x.2) := by
  have hx : Tracks wd x :=
    h.invariant (fun _ _ _ hx hok hs => (hx.step hok hs).1) (Tracks.initial wd)
  refine ⟨fun a y p hok hs => (hx.step hok hs).2 p, hx.exists_atRest, fun hrest => ?_⟩
  have hsettled := hx.rest hrest
  refine ⟨hsettled.paths_eq, fun text => hsettled.exists_line, hsettled.unlocked, ?_⟩
  intro hmem
  exact wd.outside (hsettled.subset hmem)

/-- A directory with the files `a` and `b`. -/
def twoUserFiles : WorkingDirectory where
  files := {[97], [98]}
  stagingFile := [99]
  oneLine := by
    intro p hp
    simp only [Finset.mem_insert, Finset.mem_singleton] at hp
    rcases hp with rfl | rfl <;> simp [OneLine]
  outside := by decide

/-- All files are added, and `a` is dropped again. -/
theorem refines_set_store_addDrop : ∃ x : Processes Unit × Finset Bytes,
    Reach (stepWithStore twoUserFiles) (Sequential twoUserFiles) (initial none, ∅) x ∧
      x.1.AtRest ∧ x.2 = {[98]} ∧ paths (x.1.fs.bind Directory.staged) = {[98]} := by
  have hidle : (initial none : Processes Unit).AtRest := fun _ => rfl
  obtain ⟨s, hs, hrest⟩ := exists_atRest_of_command twoUserFiles .refl hidle ()
    (c := .add fun _ => true) rfl
  obtain ⟨t, ht, hrest'⟩ := exists_atRest_of_command twoUserFiles hs hrest ()
    (c := .drop (· == [97])) rfl
  have hset : (Command.drop (· == [97])).evolve twoUserFiles.files
      ((Command.add fun _ => true).evolve twoUserFiles.files ∅) = {[98]} := by decide
  refine ⟨_, ht, hrest', hset, ?_⟩
  exact ((refines_set_store twoUserFiles ht).2.2 hrest').1.trans hset

end Processes

end Staging

end Trit
