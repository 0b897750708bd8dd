import Trit.CommandLine

/-!
# Which files are staged

What a sequence of command lines leaves in `staged.txt`: for every file, the last command that
concerns it decides.

* `mem_foldl_iff`: an element of a set under updates that each add it, remove it or leave it;
* `WorkingTree.Selects`: some pattern matches the relative path of a file;
* `Adds`, `Removes`: a command line adds a file, or removes it;
* `staged_iff`: the files in `staged.txt` after any session.
-/

namespace Trit

open Staging

/-- Where every update adds an element, removes it or leaves it as it is, the element is there at
the end if the last update that concerns it has added it. -/
theorem mem_foldl_iff {α β : Type} [DecidableEq α] {step : Finset α → β → Finset α} {x : α}
    {adds removes : β → Prop} (hstep : ∀ S b, x ∈ step S b ↔ adds b ∨ x ∈ S ∧ ¬ removes b)
    (S : Finset α) (bs : List β) :
    x ∈ bs.foldl step S ↔ (x ∈ S ∧ ∀ b ∈ bs, ¬ removes b) ∨
      ∃ before b after, bs = before ++ b :: after ∧ adds b ∧ ∀ c ∈ after, ¬ removes c := by
  induction bs using List.reverseRecOn with
  | nil => simp
  | append_singleton bs b ih =>
    rw [List.foldl_append, List.foldl_cons, List.foldl_nil, hstep, ih]
    constructor
    · rintro (hadds | ⟨⟨hS, hnone⟩ | ⟨before, c, after, rfl, hc, hafter⟩, hb⟩)
      · exact Or.inr ⟨bs, b, [], rfl, hadds, fun _ h => absurd h List.not_mem_nil⟩
      · refine Or.inl ⟨hS, fun c hc => ?_⟩
        rcases List.mem_append.mp hc with hc | hc
        · exact hnone c hc
        · rwa [List.mem_singleton.mp hc]
      · refine Or.inr ⟨before, c, after ++ [b], by simp, hc, fun d hd => ?_⟩
        rcases List.mem_append.mp hd with hd | hd
        · exact hafter d hd
        · rwa [List.mem_singleton.mp hd]
    · rintro (⟨hS, hnone⟩ | ⟨before, c, after, heq, hc, hafter⟩)
      · exact Or.inr ⟨Or.inl ⟨hS, fun c hc => hnone c (List.mem_append_left _ hc)⟩,
          hnone b (List.mem_append_right _ (List.mem_singleton_self b))⟩
      · -- the update in question is the last one, or one of those before
        rcases List.eq_nil_or_concat after with rfl | ⟨after, d, rfl⟩
        · obtain ⟨-, hlast⟩ := List.append_inj' heq rfl
          obtain rfl := List.singleton_inj.mp hlast
          exact Or.inl hc
        · rw [List.concat_eq_append, ← List.cons_append, ← List.append_assoc] at heq
          obtain ⟨rfl, hlast⟩ := List.append_inj' heq rfl
          obtain rfl := List.singleton_inj.mp hlast
          rw [List.concat_eq_append] at hafter
          exact Or.inr ⟨Or.inr ⟨before, c, after, rfl, hc, fun d hd =>
            hafter d (List.mem_append_left _ hd)⟩,
            hafter b (List.mem_append_right _ (List.mem_singleton_self b))⟩

namespace Staging.WorkingTree

/-- One of the patterns matches the relative path of a file. -/
def Selects (w : WorkingTree) (filePatterns : List Bytes) (p : List Bytes) : Prop :=
  ∃ pattern ∈ filePatterns,
    w.relativePath p ∈ Glob.language globAlphabet dots (w.normalizePattern pattern)

variable {w : WorkingTree} {p : List Bytes}

theorem Regular.matching_iff (hp : w.Regular p) {filePatterns : List Bytes} :
    w.matching (w.normalizePatterns filePatterns) (pathString p) = true ↔
      w.Selects filePatterns p := by
  simp [matching, normalizePatterns, relativeToCwd_pathString hp, Selects, ← regexMatch_iff]

theorem Regular.mem_getFilesInCwd (hlinks : w.tree.NoLinks) (hp : w.Regular p) :
    pathString p ∈ w.getFilesInCwd :=
  (WorkingTree.mem_getFilesInCwd hlinks).mpr ⟨p, hp, rfl⟩

end Staging.WorkingTree

namespace CommandLine

variable {isValidIpAddress : Bytes → Bool} {w : WorkingTree} {p : List Bytes}

/-- The command line adds the file. -/
def Adds (w : WorkingTree) (p : List Bytes) (l : Typed isValidIpAddress) : Prop :=
  ∃ filePatterns, main isValidIpAddress l.args = .stage filePatterns ∧ w.Selects filePatterns p

/-- The command line removes the file. -/
def Removes (w : WorkingTree) (p : List Bytes) (l : Typed isValidIpAddress) : Prop :=
  main isValidIpAddress l.args = .clear ∨
    ∃ filePatterns, main isValidIpAddress l.args = .unstage filePatterns ∧
      w.Selects filePatterns p

/-- What one command line does to one file. -/
theorem mem_evolve_iff (hlinks : w.tree.NoLinks) (hp : w.Regular p) (S : Finset Bytes)
    (l : Typed isValidIpAddress) :
    pathString p ∈ (main isValidIpAddress l.args).evolve w S ↔
      Adds w p l ∨ pathString p ∈ S ∧ ¬ Removes w p l := by
  unfold Adds Removes
  cases main isValidIpAddress l.args with
  | stage filePatterns =>
    simp [Invocation.evolve, WorkingTree.filesToStage, hp.matching_iff,
      hp.mem_getFilesInCwd hlinks, or_comm]
  | unstage filePatterns =>
    simp [Invocation.evolve, hp.matching_iff]
    exact Or.inl
  | clear => simp [Invocation.evolve]
  | _ => simp [Invocation.evolve]

/-- The last word counts.  After any command lines `staged.txt` names regular files of the working
directory only; and it names such a file if and only if a command line has added it, by a pattern
that matches its relative path, and none after it has removed it. -/
theorem staged_iff (hlinks : w.tree.NoLinks) {ι : Type} (q : ι)
    (hlines : ∀ e ∈ w.tree.entries, ∀ a ∈ e.1, 10 ∉ a) (ls : List (Typed isValidIpAddress)) :
    ∃ shown fs, session w hlines q ls none = .ok (shown, fs) ∧
      (∀ path ∈ paths (fs.bind Directory.staged), ∃ p, w.Regular p ∧ pathString p = path) ∧
      ∀ p, w.Regular p → (pathString p ∈ paths (fs.bind Directory.staged) ↔
        ∃ before l after, ls = before ++ l :: after ∧ Adds w p l ∧
          ∀ l' ∈ after, ¬ Removes w p l') := by
  have hempty : Settled (w.workingDirectory hlines) ∅ (none : Option (Directory ι)) :=
    ⟨Finset.empty_subset _, rfl, rfl⟩
  obtain ⟨shown, fs, hsession, hsettled, -, -⟩ := run_session (p := q) hempty ls
  refine ⟨shown, fs, hsession, fun path hpath => ?_, fun p hp => ?_⟩
  · rw [hsettled.paths_eq] at hpath
    exact (WorkingTree.mem_getFilesInCwd hlinks).mp (hsettled.subset hpath)
  · rw [hsettled.paths_eq, evolveAll, mem_foldl_iff (mem_evolve_iff hlinks hp)]
    simp

theorem staged_iff_addDropList : ∃ e shown fs,
    session WorkingTree.oneFile (by decide) () (addDropList e) none = .ok (shown, fs) ∧
      ascii "/w/a/b" ∈ paths (fs.bind Directory.staged) := by
  let e : Enumeration := ⟨Finset.toList, Finset.nodup_toList, Finset.toList_toFinset⟩
  have hfile : WorkingTree.oneFile.Regular [ascii "w", ascii "a", ascii "b"] :=
    ⟨by decide, by decide, by decide⟩
  have hselects : WorkingTree.oneFile.Selects [ascii "a"] [ascii "w", ascii "a", ascii "b"] :=
    hfile.matching_iff.mp (by decide +kernel)
  obtain ⟨shown, fs, hsession, -, hstaged⟩ :=
    staged_iff (w := WorkingTree.oneFile) (by decide) () (by decide) (addDropList e)
  refine ⟨e, shown, fs, hsession, (hstaged _ hfile).mpr ?_⟩
  refine ⟨[], _, _, rfl, ⟨_, rfl, hselects⟩, fun l hl => ?_⟩
  rintro (hclear | ⟨filePatterns, hunstage, -⟩)
  · rcases List.mem_cons.mp hl with rfl | hl
    · cases hclear
    · obtain rfl := List.mem_singleton.mp hl
      cases hclear
  · rcases List.mem_cons.mp hl with rfl | hl
    · cases hunstage
    · obtain rfl := List.mem_singleton.mp hl
      cases hunstage

end CommandLine

end Trit
