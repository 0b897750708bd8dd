import Trit.StagingLock
import Trit.Lib.Lines

/-!
# The bytes of `staged.txt`

The functions under the commands of `staging.cpp`, for one process, with nothing in its way: every
call of the file system succeeds, and no other process holds the lock.

* `TritDirectory`, `Area`: `.trit` with `.lock` and the contents of `staged.txt`;
* `withStagingLock`: a scope with a `StagingLock`; `deleteStagingFiles`, `loadStagedFiles`,
  `saveStagedFiles`: the functions that open one;
* `loadStagedFiles_eq`: what loading yields and leaves behind;
* `storeOf`: the lines of the file as a set, and `loadStagedFiles_store`, `storeOf_putlines`: what
  loading and saving are on it; `runs_load`: loading as the operations of a process;
* `loadsListed_iff`: loading fails exactly where no line names a path that exists;
* `load_save_iff`: a set of paths is read as it was written unless a path holds a line break.
-/

namespace Trit

open Lines

namespace StagingFile

/-! ### The functions -/

/-- `.trit`: whether `.lock` is there, and the bytes of `staged.txt`, if there is one. -/
structure TritDirectory where
  lock : Bool
  staged : Option Bytes
  deriving DecidableEq

/-- What a working directory has of it; `.trit` itself may be missing. -/
abbrev Area := Option TritDirectory

/-- The bytes of `staged.txt`. -/
def contents (area : Area) : Option Bytes := area.bind TritDirectory.staged

/-- Is `.lock` there? -/
def locked (area : Area) : Bool := area.any TritDirectory.lock

/-- What a function returns or throws, and what it leaves behind. -/
abbrev Result (α : Type) := Except Exception α × Area

/-- `create_directories` of `.trit`. -/
def createDirectories (area : Area) : Area := some (area.getD ⟨false, none⟩)

/-- `lock_staging_file`: `create_directory` makes `.lock` where it is missing. -/
def lockStagingFile (area : Area) : Bool × Area :=
  match createDirectories area with
  | some ⟨false, staged⟩ => (true, some ⟨true, staged⟩)
  | area' => (false, area')

/-- `unlock_staging_file`. -/
def unlockStagingFile (area : Area) : Area := area.map fun d => { d with lock := false }

/-- What `StagingLock` throws. -/
def alreadyLocked : Exception := .runtimeError "Staging file is already locked"

/-- The constructor of a `StagingLock`, the rest of its scope, and the destructor, which also runs
when the rest throws. -/
def withStagingLock {α : Type} (body : Area → Result α) (area : Area) : Result α :=
  match lockStagingFile area with
  | (false, area') => (.error alreadyLocked, area')
  | (true, area') =>
      let (result, area'') := body area'
      (result, unlockStagingFile area'')

/-- `delete_staging_files`: `remove_all` of `.trit`. -/
def deleteStagingFiles : Area → Result Unit := withStagingLock fun _ => (.ok (), none)

/-- What `load_staged_files` inserts: the lines that are not empty and name a path that exists. -/
def named (present : Bytes → Bool) (text : Bytes) : Finset Bytes :=
  ((getlines 10 text).filter fun line => line ≠ [] ∧ present line = true).toFinset

/-- `load_staged_files`. -/
def loadStagedFiles (present : Bytes → Bool) (area : Area) : Result (Finset Bytes) :=
  withStagingLock (fun area => match contents area with
    | none => (.ok ∅, area)
    | some text =>
        if named present text = ∅ then
          match deleteStagingFiles area with
          | (.ok _, area') => (.ok ∅, area')
          | (.error e, area') => (.error e, area')
        else (.ok (named present text), area)) (createDirectories area)

/-- `save_staged_files`, for the paths in the order in which the set is iterated. -/
def saveStagedFiles (stagedFiles : List Bytes) (area : Area) : Result Unit :=
  withStagingLock (fun area =>
    (.ok (), area.map fun d => { d with staged := some (putlines 10 stagedFiles) }))
    (createDirectories area)

/-! ### What they do -/

variable {present : Bytes → Bool} {area : Area} {text path : Bytes}

theorem mem_named : path ∈ named present text ↔
    path ∈ getlines 10 text ∧ path ≠ [] ∧ present path = true := by
  simp [named]

theorem named_eq_empty_iff : named present text = ∅ ↔
    ∀ line ∈ getlines 10 text, line ≠ [] → present line = false := by
  rw [Finset.eq_empty_iff_forall_notMem]
  constructor
  · intro h line hline hne
    by_contra hpresent
    exact h line (mem_named.mpr ⟨hline, hne, by simpa using hpresent⟩)
  · intro h path hpath
    obtain ⟨hline, hne, hpresent⟩ := mem_named.mp hpath
    rw [h path hline hne] at hpresent
    cases hpresent

theorem lockStagingFile_eq (h : locked area = false) :
    lockStagingFile area = (true, some ⟨true, contents area⟩) := by
  rcases area with _ | ⟨_ | _, staged⟩
  · rfl
  · rfl
  · cases h

@[simp] theorem contents_createDirectories (area : Area) :
    contents (createDirectories area) = contents area := by
  cases area <;> rfl

@[simp] theorem locked_createDirectories (area : Area) :
    locked (createDirectories area) = locked area := by
  cases area <;> rfl

/-- A scope whose lock is free. -/
theorem withStagingLock_eq {α : Type} (body : Area → Result α) (h : locked area = false) :
    withStagingLock body area = ((body (some ⟨true, contents area⟩)).1,
      unlockStagingFile (body (some ⟨true, contents area⟩)).2) := by
  rw [withStagingLock, lockStagingFile_eq h]

/-- A second lock is refused, also to the process that holds the first one. -/
theorem deleteStagingFiles_of_locked (staged : Option Bytes) :
    deleteStagingFiles (some ⟨true, staged⟩) = (.error alreadyLocked, some ⟨true, staged⟩) :=
  rfl

/-- What `load_staged_files` yields: where nothing is left to load, it throws. -/
theorem loadStagedFiles_eq (present : Bytes → Bool) (h : locked area = false) :
    loadStagedFiles present area = (match contents area with
      | none => .ok ∅
      | some text => if named present text = ∅ then .error alreadyLocked
          else .ok (named present text), some ⟨false, contents area⟩) := by
  rw [loadStagedFiles, withStagingLock_eq _ (by simpa using h), contents_createDirectories]
  cases htext : contents area with
  | none => rfl
  | some text =>
    show ((if named present text = ∅ then _ else _ : Result (Finset Bytes)).1,
      unlockStagingFile (if named present text = ∅ then _ else _ : Result (Finset Bytes)).2) = _
    by_cases hempty : named present text = ∅
    · -- the lock of this function is still held
      simp only [if_pos hempty, deleteStagingFiles_of_locked]
      rfl
    · simp only [if_neg hempty]
      rfl

theorem saveStagedFiles_eq (stagedFiles : List Bytes) (h : locked area = false) :
    saveStagedFiles stagedFiles area =
      (.ok (), some ⟨false, some (putlines 10 stagedFiles)⟩) := by
  rw [saveStagedFiles, withStagingLock_eq _ (by simpa using h)]
  rfl

/-! ### The file as a set of lines -/

section Store

open Staging

/-- The lines that matter, without their order. -/
def storeOf (text : Bytes) : Finset Line := ((getlines 10 text).filterMap toLine?).toFinset

/-- `staged.txt` as a set of lines. -/
def store (area : Area) : Store := (contents area).map storeOf

theorem mem_storeOf {l : Line} : l ∈ storeOf text ↔ l.path ∈ getlines 10 text := by
  simp only [storeOf, List.mem_toFinset, List.mem_filterMap, toLine?]
  constructor
  · rintro ⟨line, hline, heq⟩
    split_ifs at heq with h
    cases heq
    exact hline
  · intro hl
    exact ⟨l.path, hl, by rw [dif_pos ⟨l.nonempty, l.unbroken⟩]⟩

/-- Of the lines of the file, those exist that are in the tree. -/
def Sees (tree : Tree) (present : Bytes → Bool) (area : Area) : Prop :=
  ∀ text, contents area = some text → ∀ line ∈ getlines 10 text,
    line ∈ tree.present ↔ present line = true

/-- What is loaded depends on the lines alone. -/
theorem listed_storeOf {tree : Tree}
    (htree : ∀ line ∈ getlines 10 text, line ∈ tree.present ↔ present line = true) :
    listed tree (storeOf text) = named present text := by
  ext path
  rw [mem_listed, mem_named]
  constructor
  · rintro ⟨⟨l, hl, rfl⟩, hpresent⟩
    have hline := mem_storeOf.mp hl
    exact ⟨hline, l.nonempty, (htree _ hline).mp hpresent⟩
  · rintro ⟨hline, hne, hpresent⟩
    exact ⟨⟨⟨path, hne, not_mem_of_mem_getlines hline⟩, mem_storeOf.mpr hline, rfl⟩,
      (htree _ hline).mpr hpresent⟩

/-- `load_staged_files` is what the commands take it for. -/
theorem loadStagedFiles_store {tree : Tree} (htree : Sees tree present area)
    (h : locked area = false) :
    (loadStagedFiles present area).1 = Staging.loadStagedFiles tree (store area) := by
  rw [loadStagedFiles_eq present h, store]
  cases htext : contents area with
  | none => rfl
  | some text =>
    rw [Option.map_some, Staging.loadStagedFiles, listed_storeOf (htree text htext)]
    rfl

/-- What `save_staged_files` writes, in whatever order, are the lines of the paths. -/
theorem storeOf_putlines (stagedFiles : List Bytes) :
    storeOf (putlines 10 stagedFiles) = stored stagedFiles.toFinset := by
  ext l
  rw [mem_storeOf, getlines_putlines, List.mem_flatMap, mem_stored]
  refine exists_congr fun path => and_congr List.mem_toFinset.symm ?_
  simp only [lines, List.mem_toFinset, List.mem_filterMap, toLine?]
  constructor
  · intro hl
    exact ⟨l.path, hl, by rw [dif_pos ⟨l.nonempty, l.unbroken⟩]⟩
  · rintro ⟨line, hline, heq⟩
    split_ifs at heq with hne
    cases heq
    exact hline

/-- Operations of one process that succeed, one after the other. -/
def runs {ι : Type} (p : ι) (tree : Tree) : ℕ → Option (Directory ι) × Pc →
    Option (Option (Directory ι) × Pc)
  | 0, s => some s
  | n + 1, (fs, pc) => (pc.next p tree true fs).bind (runs p tree n)

/-- The area as the processes see it. -/
def directory {ι : Type} (p : ι) (area : Area) : Option (Directory ι) :=
  area.map fun d => ⟨if d.lock then some p else none, d.staged.map storeOf⟩

/-- The operations of a process that loads the staged files. -/
theorem runs_load {ι : Type} (p : ι) {tree : Tree} (htree : Sees tree present area)
    (h : locked area = false)
    (k : Finset Bytes → Script Outside) :
    ∃ n, runs p tree n (directory p area, .script (.load k)) =
      some (directory p (loadStagedFiles present area).2,
        match (loadStagedFiles present area).1 with
        | .ok stagedFiles => .script (k stagedFiles)
        | .error _ => .idle) := by
  have hlock : ∀ n, runs p tree (n + 3) (directory p area, .script (.load k)) =
      runs p tree n (some ⟨some p, store area⟩, .body (.load k)) := by
    intro n
    rcases area with _ | ⟨_ | _, staged⟩
    · rfl
    · rfl
    · cases h
  rw [loadStagedFiles_eq present h]
  cases htext : contents area with
  | none =>
    refine ⟨5, (hlock 2).trans ?_⟩
    rw [store, htext]
    rfl
  | some text =>
    have hbody : Pc.next p tree true (some ⟨some p, some (storeOf text)⟩) (.body (.load k)) =
        some (some ⟨some p, some (storeOf text)⟩,
          if named present text = ∅ then .parent (.nested k)
          else .unlock (.load k) (some (k (named present text)))) := by
      rw [← listed_storeOf (htree text htext)]
      rfl
    by_cases hempty : named present text = ∅
    · refine ⟨7, (hlock 4).trans ?_⟩
      rw [store, htext, Option.map_some, runs, hbody, if_pos hempty]
      simp only [if_pos hempty]
      rfl
    · refine ⟨5, (hlock 2).trans ?_⟩
      rw [store, htext, Option.map_some, runs, hbody, if_neg hempty]
      simp only [if_neg hempty]
      rfl

end Store

/-! ### Loading -/

/-- `load_staged_files` returns the lines that are not empty and name a path that exists, and
leaves the lock to whoever comes next. -/
def LoadsNamed (present : Bytes → Bool) (area : Area) : Prop :=
  (loadStagedFiles present area).1 = .ok ((contents area).elim ∅ (named present)) ∧
    locked (loadStagedFiles present area).2 = false ∧
    (lockStagingFile (loadStagedFiles present area).2).1 = true

instance (present : Bytes → Bool) (area : Area) : Decidable (LoadsNamed present area) :=
  inferInstanceAs (Decidable (_ ∧ _ ∧ _))

/-- Loading the staged set.  It works where there is no `staged.txt`, and where a line of it names
a path that exists; where all the paths are gone, it throws. -/
theorem loadsNamed_iff (present : Bytes → Bool) (h : locked area = false) :
    LoadsNamed present area ↔ ∀ text, contents area = some text →
      ∃ line ∈ getlines 10 text, line ≠ [] ∧ present line = true := by
  rw [LoadsNamed, loadStagedFiles_eq present h]
  cases htext : contents area with
  | none =>
    constructor
    · intro _ text heq
      cases heq
    · exact fun _ => ⟨rfl, rfl, rfl⟩
  | some text =>
    by_cases hempty : named present text = ∅
    · simp only [if_pos hempty]
      constructor
      · rintro ⟨hload, -⟩
        cases hload
      · intro hnamed
        obtain ⟨line, hline, hne, hpresent⟩ := hnamed text rfl
        rw [named_eq_empty_iff.mp hempty line hline hne] at hpresent
        cases hpresent
    · simp only [if_neg hempty]
      constructor
      · rintro - text' heq
        obtain rfl := Option.some.inj heq
        obtain ⟨line, hline⟩ := Finset.nonempty_iff_ne_empty.mpr hempty
        exact ⟨line, mem_named.mp hline⟩
      · exact fun _ => ⟨rfl, rfl, rfl⟩

/-- One of two paths is left. -/
theorem loadsNamed_iff_one : LoadsNamed (· = [97]) (some ⟨false, some [97, 10, 98, 10]⟩) :=
  (loadsNamed_iff _ rfl).mpr fun _ heq =>
    Option.some.inj heq ▸ ⟨[97], by decide, by decide, by decide⟩

/-- The only path is gone. -/
theorem not_loadsNamed_of_gone : ¬ LoadsNamed (fun _ => false) (some ⟨false, some [97, 10]⟩) := by
  decide

/-! ### Saving and loading -/

/-- Writing a set of paths and reading it back.  Every path comes back unless one of them holds a
line break, which makes several lines of it. -/
theorem load_save_iff {S : Finset Bytes} {order : List Bytes} (hS : S.Nonempty)
    (horder : order.toFinset = S) (hne : ∀ path ∈ S, path ≠ [])
    (hpresent : ∀ path ∈ S, present path = true) (h : locked area = false) :
    (saveStagedFiles order area).1 = .ok () ∧
    ((loadStagedFiles present (saveStagedFiles order area).2).1 = .ok S ↔
      ∀ path ∈ S, 10 ∉ path) := by
  subst horder
  rw [saveStagedFiles_eq order h, loadStagedFiles_eq present rfl]
  refine ⟨rfl, ?_⟩
  show (if named present (putlines 10 order) = ∅ then Except.error alreadyLocked
    else .ok (named present (putlines 10 order))) = .ok order.toFinset ↔ _
  constructor
  · intro hload path hpath
    split_ifs at hload with hempty
    have hnamed := Except.ok.inj hload
    rw [← hnamed, mem_named] at hpath
    exact not_mem_of_mem_getlines hpath.1
  · intro hbreak
    have hlines : getlines 10 (putlines 10 order) = order :=
      getlines_putlines_of_not_mem fun path hpath => hbreak path (List.mem_toFinset.mpr hpath)
    have hnamed : named present (putlines 10 order) = order.toFinset := by
      ext path
      rw [mem_named, hlines, List.mem_toFinset]
      constructor
      · exact fun hpath => hpath.1
      · intro hpath
        have hmem := List.mem_toFinset.mpr hpath
        exact ⟨hpath, hne path hmem, hpresent path hmem⟩
    rw [hnamed, if_neg (Finset.nonempty_iff_ne_empty.mp hS)]

theorem load_save_iff_two :
    (loadStagedFiles (fun _ => true) (saveStagedFiles [[47, 98], [47, 97]] none).2).1 =
      .ok {[47, 97], [47, 98]} :=
  (load_save_iff (S := {[47, 97], [47, 98]}) (by simp) (by decide) (by decide) (by simp)
    rfl).2.mpr (by decide)

/-- A path with a line break in it is read as two other paths. -/
theorem not_load_save_of_break :
    (loadStagedFiles (fun _ => true) (saveStagedFiles [[47, 97, 10, 98]] none).2).1 ≠
      .ok {[47, 97, 10, 98]} := by
  decide

end StagingFile

end Trit
