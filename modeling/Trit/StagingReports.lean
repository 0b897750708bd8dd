import Trit.LinkedFiles
import Trit.StagingStore
import Trit.Lib.Lines
import Trit.Lib.Quoted

/-!
# What the staging commands print

The commands of `staging.cpp` with their output, each set of paths in whatever order the process
goes through it.

* `Enumeration`: an order for every set;
* `Printing.stage`, `Printing.unstage`, `Printing.list`, `Printing.clear`: the
  commands, where printing a text is an operation;
* `Script.silent`, `silent_script`: without their output they are the commands of [Staging];
* `Script.runAloud`: what a command prints, and what it leaves behind;
* `printedPaths`: the paths that an output lists, read back;
* `Settled.printedPaths_stage`, `Settled.printedPaths_unstage`, `Settled.printedPaths_list`: which
  they are.
-/

namespace Trit

namespace Staging

/-- A text in ASCII. -/
def ascii (s : String) : Bytes := s.toList.map fun c => .ofNat c.toNat

/-- The order in which a process goes through its sets. -/
structure Enumeration where
  order : Finset Bytes → List Bytes
  nodup : ∀ S, (order S).Nodup
  toFinset_order : ∀ S, (order S).toFinset = S

@[simp] theorem Enumeration.mem_order (e : Enumeration) {S : Finset Bytes} {path : Bytes} :
    path ∈ e.order S ↔ path ∈ S := by
  rw [← List.mem_toFinset, e.toFinset_order]

/-! ### The commands with their output -/

namespace Printing

/-- `std::cout << text`. -/
def cout (text : Bytes) (k : Script Bytes) : Script Bytes := .outside text fun _ => k

/-- `std::cout << path` puts a path in quotation marks. -/
def quoted (path : Bytes) : Bytes := Quoted.quote 34 92 path

variable (relativeToCwd : Bytes → Bytes) (e : Enumeration)

/-- `list_files`. -/
def listFiles (files : Finset Bytes) : Bytes :=
  Lines.putlines 10 ((e.order files).map fun file => ascii "  " ++ quoted (relativeToCwd file))

/-- What the loop of `stage` changes. -/
structure Loop where
  stagedFiles : Finset Bytes
  filesToStage : Finset Bytes
  output : Bytes

/-- One round of it. -/
def Loop.round (s : Loop) (fileToStage : Bytes) : Loop :=
  if fileToStage ∈ s.stagedFiles then
    { s with
      filesToStage := s.filesToStage.erase fileToStage
      output :=
        s.output ++ ascii "already staged:\t" ++ quoted (relativeToCwd fileToStage) ++ [10] }
  else { s with stagedFiles := insert fileToStage s.stagedFiles }

/-- `stage`. -/
def stage (matching : Bytes → Bool) : Script Bytes :=
  .load fun stagedFiles => .walk fun filesInCwd =>
    let filesToStage := filesInCwd.filter (matching ·)
    if filesToStage = ∅ then
      cout (ascii "No files in current directory matched the provided pattern(s)\n")
        (if stagedFiles = ∅ then .delete .done else .done)
    else
      let s := (e.order filesToStage).foldl (Loop.round relativeToCwd)
        ⟨stagedFiles, filesToStage, []⟩
      cout s.output <|
        if s.filesToStage = ∅ then
          cout (ascii "All matching files were already staged, no new files added\n") .done
        else
          .save s.stagedFiles <|
            cout (ascii "Added staged files:\n") <|
            cout (listFiles relativeToCwd e s.filesToStage) .done

/-- `unstage`. -/
def unstage (matching : Bytes → Bool) : Script Bytes :=
  .load fun stagedFiles =>
    let filesToUnstage := stagedFiles.filter (matching ·)
    if filesToUnstage = ∅ then
      cout (ascii "No staged files matched the provided pattern(s)\n") .done
    else
      let stagedFiles := (e.order filesToUnstage).foldl Finset.erase stagedFiles
      if stagedFiles = ∅ then .delete .done
      else
        .save stagedFiles <|
          cout (ascii "Dropped staged files:\n") <|
          cout (listFiles relativeToCwd e filesToUnstage) .done

/-- `list`. -/
def list : Script Bytes :=
  .load fun stagedFiles =>
    if stagedFiles = ∅ then
      cout (ascii "No files are currently staged.\n") (.delete .done)
    else
      cout (ascii "Staged files:\n") <|
      cout (listFiles relativeToCwd e stagedFiles) .done

/-- `clear`, where the existence of `staged.txt` can be checked. -/
def clear : Script Bytes :=
  .ifStaged (.delete .done) (cout (ascii "No staged files to clear\n") .done)

/-- The commands, apart from `send`. -/
def script : Command → Script Bytes
  | .add matching => stage relativeToCwd e matching
  | .drop matching => unstage relativeToCwd e matching
  | .list => list relativeToCwd e
  | .clear => clear
  | .send => .done

end Printing

/-- A command without its output. -/
def Script.silent : Script Bytes → Script Outside
  | .done => .done
  | .load k => .load fun staged => (k staged).silent
  | .walk k => .walk fun files => (k files).silent
  | .save staged k => .save staged k.silent
  | .delete k => .delete k.silent
  | .ifStaged yes no => .ifStaged yes.silent no.silent
  | .outside _ k => (k true).silent

namespace Printing

variable {relativeToCwd : Bytes → Bytes} {e : Enumeration}

/-- The loop adds the files that are not staged yet, and prints the others. -/
theorem Loop.foldl_round {files : List Bytes} (hnodup : files.Nodup) (s : Loop) :
    files.foldl (Loop.round relativeToCwd) s =
      ⟨s.stagedFiles ∪ files.toFinset, s.filesToStage \ files.toFinset.filter (· ∈ s.stagedFiles),
        s.output ++ Lines.putlines 10 ((files.filter (· ∈ s.stagedFiles)).map fun file =>
          ascii "already staged:\t" ++ quoted (relativeToCwd file))⟩ := by
  induction files generalizing s with
  | nil => simp
  | cons file files ih =>
    obtain ⟨hfile, hnodup⟩ := List.nodup_cons.mp hnodup
    rw [List.foldl_cons, ih hnodup]
    by_cases hstaged : file ∈ s.stagedFiles
    · rw [Loop.round, if_pos hstaged, List.toFinset_cons, Finset.union_insert,
        Finset.insert_eq_of_mem (Finset.mem_union_left _ hstaged), Finset.filter_insert,
        if_pos hstaged, Finset.sdiff_insert, Finset.erase_sdiff_comm,
        List.filter_cons_of_pos (by simpa using hstaged)]
      simp
    · -- the file is inserted, and is none of the files that follow
      have hsame : ∀ g ∈ files, (g ∈ insert file s.stagedFiles ↔ g ∈ s.stagedFiles) := by
        intro g hg
        have hne : g ≠ file := by
          rintro rfl
          exact hfile hg
        rw [Finset.mem_insert, or_iff_right hne]
      have hfilter : files.filter (· ∈ insert file s.stagedFiles) =
          files.filter (· ∈ s.stagedFiles) :=
        List.filter_congr fun g hg => decide_eq_decide.mpr (hsame g hg)
      have hfilter' : files.toFinset.filter (· ∈ insert file s.stagedFiles) =
          files.toFinset.filter (· ∈ s.stagedFiles) :=
        Finset.filter_congr fun g hg => hsame g (List.mem_toFinset.mp hg)
      rw [Loop.round, if_neg hstaged, List.toFinset_cons, Finset.filter_insert, if_neg hstaged,
        List.filter_cons_of_neg (by simpa using hstaged), Finset.union_insert]
      simp only [hfilter, hfilter', Finset.insert_union]

/-- The loop over all files that match. -/
theorem Loop.foldl_order (stagedFiles filesToStage : Finset Bytes) :
    (e.order filesToStage).foldl (Loop.round relativeToCwd) ⟨stagedFiles, filesToStage, []⟩ =
      ⟨stagedFiles ∪ filesToStage, filesToStage \ stagedFiles,
        Lines.putlines 10 (((e.order filesToStage).filter (· ∈ stagedFiles)).map fun file =>
          ascii "already staged:\t" ++ quoted (relativeToCwd file))⟩ := by
  rw [Loop.foldl_round (e.nodup filesToStage), e.toFinset_order, Finset.filter_mem_eq_inter,
    Finset.sdiff_inter_self_left]
  rfl

theorem foldl_erase (files : List Bytes) (stagedFiles : Finset Bytes) :
    files.foldl Finset.erase stagedFiles = stagedFiles \ files.toFinset := by
  induction files generalizing stagedFiles with
  | nil => simp
  | cons file files ih =>
    rw [List.foldl_cons, ih, List.toFinset_cons, Finset.sdiff_insert, Finset.erase_sdiff_comm]

theorem silent_stage (matching : Bytes → Bool) :
    (stage relativeToCwd e matching).silent = Staging.stage matching := by
  rw [stage, Staging.stage, Script.silent]
  congr 1
  funext stagedFiles
  rw [Script.silent]
  congr 1
  funext filesInCwd
  simp only [Loop.foldl_order]
  generalize filesInCwd.filter (matching ·) = filesToStage
  rw [stageEffect]
  by_cases hempty : filesToStage = ∅
  · rw [if_pos hempty, if_pos hempty]
    by_cases hstaged : stagedFiles = ∅
    · rw [if_pos hstaged, if_pos hstaged]
      rfl
    · rw [if_neg hstaged, if_neg hstaged]
      rfl
  · rw [if_neg hempty, if_neg hempty]
    by_cases hsub : filesToStage ⊆ stagedFiles
    · rw [if_pos hsub, if_pos (Finset.sdiff_eq_empty_iff_subset.mpr hsub)]
      rfl
    · rw [if_neg hsub, if_neg (mt Finset.sdiff_eq_empty_iff_subset.mp hsub)]
      rfl

theorem silent_unstage (matching : Bytes → Bool) :
    (unstage relativeToCwd e matching).silent = Staging.unstage matching := by
  rw [unstage, Staging.unstage, Script.silent]
  congr 1
  funext stagedFiles
  simp only [foldl_erase, e.toFinset_order]
  rw [unstageEffect]
  by_cases hempty : stagedFiles.filter (matching ·) = ∅
  · rw [if_pos hempty, if_pos hempty]
    rfl
  · rw [if_neg hempty, if_neg hempty]
    by_cases hrest : stagedFiles \ stagedFiles.filter (matching ·) = ∅
    · rw [if_pos hrest, if_pos hrest]
      rfl
    · rw [if_neg hrest, if_neg hrest]
      rfl

theorem silent_list : (list relativeToCwd e).silent = Staging.list := by
  rw [list, Staging.list, Script.silent]
  congr 1
  funext stagedFiles
  by_cases hempty : stagedFiles = ∅
  · rw [if_pos hempty, if_pos hempty]
    rfl
  · rw [if_neg hempty, if_neg hempty]
    rfl

/-- Without their output the commands are those of the staging area. -/
theorem silent_script {c : Command} (hc : c.stages = true) :
    (script relativeToCwd e c).silent = c.script := by
  cases c with
  | add matching => exact silent_stage matching
  | drop matching => exact silent_unstage matching
  | list => exact silent_list
  | clear => rfl
  | send => cases hc

end Printing

/-! ### What is printed -/

section Aloud

variable {ι : Type}

/-- What a command prints when it is executed from here to its end, all its operations succeed and
nobody interferes, and what it leaves behind. -/
def Script.runAloud (wd : WorkingDirectory) (p : ι) :
    Script Bytes → Option (Directory ι) → Bytes × Except Exception (Option (Directory ι))
  | .done, fs => ([], .ok fs)
  | .load k, fs =>
      match lockStagingFile p fs with
      | .error e => ([], .error e)
      | .ok d =>
          match loadStagedFiles (wd.tree (some d)) d.staged with
          | .error e => ([], .error e)
          | .ok staged => (k staged).runAloud wd p (removeLock (some d))
  | .walk k, fs => (k (wd.tree fs).files).runAloud wd p fs
  | .save staged k, fs =>
      match lockStagingFile p fs with
      | .error e => ([], .error e)
      | .ok d => k.runAloud wd p (removeLock (some { d with staged := some (stored staged) }))
  | .delete k, fs =>
      match lockStagingFile p fs with
      | .error e => ([], .error e)
      | .ok _ => k.runAloud wd p none
  | .ifStaged yes no, fs =>
      if (fs.bind Directory.staged).isSome then yes.runAloud wd p fs else no.runAloud wd p fs
  | .outside text k, fs =>
      let r := (k true).runAloud wd p fs
      (text ++ r.1, r.2)

/-- Printing changes nothing. -/
theorem Script.runAloud_silent (wd : WorkingDirectory) (p : ι) (s : Script Bytes)
    (fs : Option (Directory ι)) : (s.runAloud wd p fs).2 = s.silent.run wd p fs := by
  induction s generalizing fs with
  | done => rfl
  | load k ih =>
    rw [Script.runAloud, Script.silent, Script.run]
    cases lockStagingFile p fs with
    | error e => rfl
    | ok d =>
      simp only [bind, Except.bind]
      cases loadStagedFiles (wd.tree (some d)) d.staged with
      | error e => rfl
      | ok staged => exact ih staged _
  | walk k ih => exact ih _ fs
  | save staged k ih =>
    rw [Script.runAloud, Script.silent, Script.run]
    cases lockStagingFile p fs with
    | error e => rfl
    | ok d => exact ih _
  | delete k ih =>
    rw [Script.runAloud, Script.silent, Script.run]
    cases lockStagingFile p fs with
    | error e => rfl
    | ok d => exact ih _
  | ifStaged yes no ihyes ihno =>
    rw [Script.runAloud, Script.silent, Script.run]
    split_ifs
    · exact ihyes fs
    · exact ihno fs
  | outside text k ih => exact ih true fs

/-- The path that a line of a list shows. -/
def printedPath : Bytes → Option Bytes
  | 32 :: 32 :: path => (Quoted.unquote 34 92 path).map Prod.fst
  | _ => none

/-- The paths that an output lists. -/
def printedPaths (output : Bytes) : Finset Bytes :=
  ((Lines.getlines 10 output).filterMap printedPath).toFinset

@[simp] theorem printedPaths_nil : printedPaths [] = ∅ := rfl

theorem printedPath_line (path : Bytes) :
    printedPath (ascii "  " ++ Printing.quoted path) = some path := by
  show (Quoted.unquote 34 92 (Printing.quoted path)).map Prod.fst = some path
  have hread := Quoted.unquote_quote (show (34 : UInt8) ≠ 92 by decide) path []
  rw [List.append_nil] at hread
  rw [Printing.quoted, hread]
  rfl

theorem printedPaths_append {ls : List Bytes} (hls : ∀ l ∈ ls, 10 ∉ l) (output : Bytes) :
    printedPaths (Lines.putlines 10 ls ++ output) =
      (ls.filterMap printedPath).toFinset ∪ printedPaths output := by
  induction ls with
  | nil => simp
  | cons l ls ih =>
    have hrest := ih fun k hk => hls k (List.mem_cons_of_mem l hk)
    rw [Lines.putlines_cons, List.append_assoc, List.cons_append, printedPaths,
      Lines.getlines_append_sep, List.splitOn_eq_singleton (hls l List.mem_cons_self),
      List.singleton_append]
    rw [printedPaths] at hrest
    cases hl : printedPath l with
    | none => rw [List.filterMap_cons_none hl, List.filterMap_cons_none hl, hrest]
    | some path =>
      rw [List.filterMap_cons_some hl, List.filterMap_cons_some hl, List.toFinset_cons,
        List.toFinset_cons, hrest, Finset.insert_union]

theorem printedPaths_message (text line : Bytes) (htext : text = line ++ [10]) (hline : 10 ∉ line)
    (hpath : printedPath line = none) (output : Bytes) :
    printedPaths (text ++ output) = printedPaths output := by
  have happend := printedPaths_append (show ∀ l ∈ [line], 10 ∉ l by simpa using hline) output
  rw [List.filterMap_cons_none hpath, Lines.putlines_cons, Lines.putlines_nil, ← htext] at happend
  rw [happend]
  exact Finset.empty_union _

variable {relativeToCwd : Bytes → Bytes} {e : Enumeration} {files : Finset Bytes}

theorem Printing.newline_notMem_quoted {path : Bytes} (h : 10 ∉ path) :
    10 ∉ Printing.quoted path := by
  intro hmem
  rcases Quoted.mem_quote hmem with heq | heq | hmem
  · cases heq
  · cases heq
  · exact h hmem

theorem Printing.newline_notMem_line {front : Bytes} (hfront : 10 ∉ front) {path : Bytes}
    (h : 10 ∉ path) : 10 ∉ front ++ Printing.quoted path := by
  rw [List.mem_append, not_or]
  exact ⟨hfront, newline_notMem_quoted h⟩

theorem printedPaths_listFiles (hline : ∀ file ∈ files, 10 ∉ relativeToCwd file)
    (output : Bytes) :
    printedPaths (Printing.listFiles relativeToCwd e files ++ output) =
      files.image relativeToCwd ∪ printedPaths output := by
  have hread : ((e.order files).map fun file =>
      ascii "  " ++ Printing.quoted (relativeToCwd file)).filterMap printedPath =
        (e.order files).map relativeToCwd := by
    rw [List.filterMap_map, ← List.filterMap_eq_map]
    exact congrArg (List.filterMap · _) (funext fun file => printedPath_line _)
  have himage : ((e.order files).map relativeToCwd).toFinset = files.image relativeToCwd := by
    ext path
    simp
  rw [Printing.listFiles, printedPaths_append, hread, himage]
  intro l hl
  obtain ⟨file, hfile, rfl⟩ := List.mem_map.mp hl
  exact Printing.newline_notMem_line (by decide) (hline file (e.mem_order.mp hfile))

/-- The lines about files that were staged already list none. -/
theorem printedPaths_already {paths : List Bytes} (hline : ∀ file ∈ paths, 10 ∉ relativeToCwd file)
    (output : Bytes) :
    printedPaths (Lines.putlines 10 (paths.map fun file =>
      ascii "already staged:\t" ++ Printing.quoted (relativeToCwd file)) ++ output) =
        printedPaths output := by
  have hnone : (paths.map fun file =>
      ascii "already staged:\t" ++ Printing.quoted (relativeToCwd file)).filterMap printedPath =
        [] := by
    rw [List.filterMap_map, List.filterMap_eq_nil_iff]
    exact fun file _ => rfl
  rw [printedPaths_append, hnone]
  · exact Finset.empty_union _
  · intro l hl
    obtain ⟨file, hfile, rfl⟩ := List.mem_map.mp hl
    exact Printing.newline_notMem_line (by decide) (hline file hfile)

namespace Settled

variable {wd : WorkingDirectory} {S : Finset Bytes} {fs : Option (Directory ι)} {p : ι}

theorem runAloud_load (h : Settled wd S fs) (k : Finset Bytes → Script Bytes) :
    ∃ fs', Settled wd S fs' ∧ (Script.load k).runAloud wd p fs = (k S).runAloud wd p fs' := by
  refine ⟨some ⟨none, fs.bind Directory.staged⟩, ⟨h.subset, rfl, h.staged⟩, ?_⟩
  rw [Script.runAloud, h.lockStagingFile]
  simp only [h.loadStagedFiles]
  rfl

theorem runAloud_save (h : Settled wd S fs) (T : Finset Bytes) (text list : Bytes) :
    ((Script.save T (Printing.cout text (Printing.cout list .done))).runAloud wd p fs).1 =
      text ++ list := by
  rw [Script.runAloud, h.lockStagingFile]
  show text ++ (list ++ []) = text ++ list
  rw [List.append_nil]

theorem runAloud_delete (h : Settled wd S fs) :
    ((Script.delete .done).runAloud wd p fs).1 = [] := by
  rw [Script.runAloud, h.lockStagingFile]
  rfl

/-- `stage` lists the files that it adds. -/
theorem printedPaths_stage (h : Settled wd S fs)
    (hline : ∀ file ∈ wd.files, 10 ∉ relativeToCwd file) (matching : Bytes → Bool) :
    printedPaths ((Printing.stage relativeToCwd e matching).runAloud wd p fs).1 =
      (wd.files.filter (matching ·) \ S).image relativeToCwd := by
  obtain ⟨fs', h', hrun⟩ := h.runAloud_load (p := p) _
  rw [Printing.stage, hrun, Script.runAloud]
  have hfiles : (wd.tree fs').files = wd.files := wd.getFilesInCwd_eq fs'
  rw [hfiles]
  simp only [Printing.Loop.foldl_order]
  have hsub : wd.files.filter (matching ·) ⊆ wd.files := Finset.filter_subset _ _
  generalize wd.files.filter (matching ·) = T at hsub ⊢
  have horder : ∀ file ∈ (e.order T).filter (· ∈ S), 10 ∉ relativeToCwd file := by
    intro file hfile
    exact hline file (hsub (e.mem_order.mp (List.mem_of_mem_filter hfile)))
  by_cases hempty : T = ∅
  · rw [if_pos hempty, hempty, Finset.empty_sdiff, Finset.image_empty]
    by_cases hS : S = ∅
    · rw [if_pos hS, Printing.cout, Script.runAloud, h'.runAloud_delete]
      rfl
    · rw [if_neg hS]
      rfl
  · rw [if_neg hempty, Printing.cout, Script.runAloud]
    dsimp only
    rw [printedPaths_already horder]
    by_cases hrest : T \ S = ∅
    · rw [if_pos hrest, hrest, Finset.image_empty]
      rfl
    · rw [if_neg hrest, h'.runAloud_save,
        printedPaths_message (ascii "Added staged files:\n") (ascii "Added staged files:") rfl
          (by decide) rfl]
      have hlist := printedPaths_listFiles (e := e)
        (fun file (hfile : file ∈ T \ S) => hline file (hsub (Finset.mem_sdiff.mp hfile).1)) []
      rwa [List.append_nil, printedPaths_nil, Finset.union_empty] at hlist

/-- `unstage` prints nothing if it drops all files that are staged, and lists the files that it
drops otherwise. -/
theorem printedPaths_unstage (h : Settled wd S fs)
    (hline : ∀ file ∈ wd.files, 10 ∉ relativeToCwd file) (matching : Bytes → Bool) :
    let output := ((Printing.unstage relativeToCwd e matching).runAloud wd p fs).1
    if output = [] then S \ S.filter (matching ·) = ∅
    else printedPaths output = (S.filter (matching ·)).image relativeToCwd := by
  obtain ⟨fs', h', hrun⟩ := h.runAloud_load (p := p) _
  rw [Printing.unstage, hrun]
  simp only [Printing.foldl_erase, e.toFinset_order]
  have hsub : S.filter (matching ·) ⊆ wd.files := (Finset.filter_subset _ _).trans h.subset
  generalize S.filter (matching ·) = U at hsub ⊢
  by_cases hempty : U = ∅
  · rw [if_pos hempty, if_neg (by exact List.cons_ne_nil _ _), hempty, Finset.image_empty]
    rfl
  · rw [if_neg hempty]
    by_cases hrest : S \ U = ∅
    · rw [if_pos hrest, h'.runAloud_delete, if_pos rfl]
      exact hrest
    · rw [if_neg hrest, h'.runAloud_save, if_neg (by exact List.cons_ne_nil _ _),
        printedPaths_message (ascii "Dropped staged files:\n") (ascii "Dropped staged files:") rfl
          (by decide) rfl]
      have hlist := printedPaths_listFiles (e := e)
        (fun file (hfile : file ∈ U) => hline file (hsub hfile)) []
      rwa [List.append_nil, printedPaths_nil, Finset.union_empty] at hlist

end Settled

end Aloud

end Staging

end Trit
