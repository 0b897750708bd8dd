import Trit.Confinement
import Trit.Freshness
import Trit.Survival
import Trit.StagingReports
import Trit.Lib.Numerals

/-!
# What the user of a receiver agrees to

The text of `TransferRequest::print`, which stands above the question whether the request is
accepted, and what the transfer changes afterwards.

* `TransferRequest.printed`: the text; `printed_eq`: it is there when `print` returns;
* `shownPaths`: the paths that the text shows, read back from its lines;
* `TransferRequest.shownPaths_eq_iff`: for which requests these are the paths of the request;
* `FileSystem.Touched`: changes that stay with some paths;
* `Writer.touched_of_reach`, `Receiver.touched_of_reach`: the writer stays with those of its
  request;
* `Receiver.Rounds`: the loop of `start_session` over the file system;
* `Receiver.changes_shown`: whatever peers send, a receiver changes only what its user was shown.
-/

namespace Trit

open Transition FileManager Staging

namespace TransferRequest

/-! ### The text -/

/-- The text of a line for one file. -/
def fileLine (platform : Platform) (info : FileInfo) : Except Exception Bytes := do
  let size ← platform.formatDataSize info.size
  return ascii "\t" ++ info.relativePath ++ ascii " (" ++ ascii size ++ ascii ")"

/-- The lines before those for the files. -/
def headLines (r : TransferRequest) : List Bytes :=
  [ascii "Transfer Request Received",
    ascii "Number of files: " ++ Numerals.decimal r.numFiles.toNat,
    ascii "Total transfer size: " ++ Numerals.decimal r.transferSize.toNat ++ ascii " bytes",
    ascii "Uncompressed chunk size: " ++ Numerals.decimal r.uncompressedChunkSize.toNat ++
      ascii " bytes",
    ascii "Uncompressed last chunk size: " ++
      Numerals.decimal r.uncompressedFinalChunkSize.toNat ++ ascii " bytes",
    ascii "Number of chunks: " ++ Numerals.decimal r.numChunks.toNat]

/-- The line behind those for the files. -/
def lastLine (r : TransferRequest) (total : String) : Bytes :=
  ascii "Total " ++ Numerals.decimal r.numFiles.toNat ++ ascii " files (" ++ ascii total ++
    ascii ")"

/-- What `print` has printed when it returns. -/
def printed (platform : Platform) (r : TransferRequest) : Except Exception Bytes := do
  let fileLines ← r.fileInfos.mapM (fileLine platform)
  let total ← platform.formatDataSize r.transferSize
  return Lines.putlines 10 (r.headLines ++ fileLines ++ [r.lastLine total])

/-- The text is complete when `print` returns. -/
theorem printed_eq (platform : Platform) (r : TransferRequest) :
    (r.printed platform).map (fun _ => ()) = r.print platform := by
  have hinfos : ∀ infos : List FileInfo,
      (infos.mapM (fileLine platform)).map (fun _ => ()) = printFileInfos platform infos := by
    intro infos
    induction infos with
    | nil => rfl
    | cons info infos ih =>
      rw [List.mapM_cons, printFileInfos, ← ih, fileLine]
      cases platform.formatDataSize info.size with
      | error e => rfl
      | ok size =>
        simp only [bind, Except.bind, pure, Except.pure]
        cases infos.mapM (fileLine platform) <;> rfl
  rw [print, ← hinfos, printed]
  cases r.fileInfos.mapM (fileLine platform) with
  | error e => rfl
  | ok lines =>
    simp only [bind, Except.bind, pure, Except.pure, Except.map]
    cases platform.formatDataSize r.transferSize <;> rfl

end TransferRequest

/-! ### Reading the text -/

/-- The path that a line shows: what stands between a tab and the last opening parenthesis. -/
def shownPath : Bytes → Option Bytes
  | 9 :: line => some ((line.reverse.dropWhile (· ≠ 40)).drop 2).reverse
  | _ => none

/-- The paths that a text shows. -/
def shownPaths (text : Bytes) : List Bytes := (Lines.getlines 10 text).filterMap shownPath

/-- A fraction is printed without a line break and without a parenthesis. -/
def Platform.Plain (platform : Platform) : Prop :=
  ∀ size k, 10 ∉ ascii (platform.showUnitValue size k) ∧
    40 ∉ ascii (platform.showUnitValue size k)

theorem ascii_append (s t : String) : ascii (s ++ t) = ascii s ++ ascii t := by
  rw [ascii, String.toList_append, List.map_append]
  rfl

/-- A number is printed with digits only. -/
theorem notMem_ascii_toString {c : UInt8} (hc : ¬ (48 ≤ c.toNat ∧ c.toNat ≤ 57)) (n : ℕ) :
    c ∉ ascii (toString n) := by
  rw [ascii, Nat.toString_eq_repr, Nat.toList_repr]
  intro hmem
  obtain ⟨d, hd, rfl⟩ := List.mem_map.mp hmem
  have hdigit := Nat.isDigit_of_mem_toDigits (by decide) (by decide) hd
  rw [Char.isDigit, Bool.and_eq_true, decide_eq_true_eq, decide_eq_true_eq,
    ge_iff_le, UInt32.le_iff_toNat_le, UInt32.le_iff_toNat_le] at hdigit
  have hlow : 48 ≤ d.toNat := hdigit.1
  have hhigh : d.toNat ≤ 57 := hdigit.2
  exact hc (by rw [UInt8.toNat_ofNat_of_lt' (by show _ < 256; omega)]; exact ⟨hlow, hhigh⟩)

theorem Platform.Plain.formatDataSize {platform : Platform} (h : platform.Plain) {size : UInt64}
    {text : String} (htext : platform.formatDataSize size = .ok text) :
    10 ∉ ascii text ∧ 40 ∉ ascii text := by
  unfold Platform.formatDataSize at htext
  dsimp only at htext
  split_ifs at htext with hzero hbytes hlarge
  · cases htext
    decide
  · cases htext
    rw [ascii_append, List.mem_append, List.mem_append, not_or, not_or]
    exact ⟨⟨notMem_ascii_toString (by decide) _, by decide⟩,
      ⟨notMem_ascii_toString (by decide) _, by decide⟩⟩
  · cases htext
    have hunit : ∀ k : ℕ, 10 ∉ ascii (["", " KB", " MB", " GB", " TB", " PB"].getD k "") ∧
        40 ∉ ascii (["", " KB", " MB", " GB", " TB", " PB"].getD k "") := by
      intro k
      match k with
      | 0 | 1 | 2 | 3 | 4 | 5 => decide
      | k + 6 => exact ⟨List.not_mem_nil, List.not_mem_nil⟩
    obtain ⟨hvalue, hvalue'⟩ := h size (platform.powerOf1000 size)
    obtain ⟨hunit, hunit'⟩ := hunit (platform.powerOf1000 size)
    rw [ascii_append, List.mem_append, List.mem_append, not_or, not_or]
    exact ⟨⟨hvalue, hunit⟩, hvalue', hunit'⟩

theorem shownPath_line (path : Bytes) {size : Bytes} (h : 40 ∉ size) :
    shownPath (ascii "\t" ++ path ++ ascii " (" ++ size ++ ascii ")") = some path := by
  have hdrop : ((41 :: size.reverse) ++ 40 :: 32 :: path.reverse).dropWhile (· ≠ (40 : UInt8)) =
      40 :: 32 :: path.reverse := by
    rw [List.dropWhile_append_of_pos]
    · rfl
    · intro c hc
      have hne : c ≠ 40 := by
        rintro rfl
        rcases List.mem_cons.mp hc with heq | hmem
        · cases heq
        · exact h (List.mem_reverse.mp hmem)
      simpa using hne
  have hline : ascii "\t" ++ path ++ ascii " (" ++ size ++ ascii ")" =
      9 :: (path ++ [32, 40] ++ size ++ [41]) := rfl
  have hreverse : (path ++ [32, 40] ++ size ++ [41]).reverse =
      (41 :: size.reverse) ++ 40 :: 32 :: path.reverse := by
    simp
  rw [hline, shownPath, hreverse, hdrop]
  simp

namespace TransferRequest

variable {platform : Platform}

/-- The paths of a request. -/
def paths (r : TransferRequest) : List Bytes := r.fileInfos.map FileInfo.relativePath

theorem shownPath_fileLine (hplain : platform.Plain) {info : FileInfo} {line : Bytes}
    (h : fileLine platform info = .ok line) : shownPath line = some info.relativePath := by
  unfold fileLine at h
  cases hsize : platform.formatDataSize info.size with
  | error e =>
    rw [hsize] at h
    cases h
  | ok size =>
    rw [hsize] at h
    cases h
    exact shownPath_line _ (hplain.formatDataSize hsize).2

/-- A path is part of its line, and the only part that may hold a line break. -/
theorem fileLine_eq (hplain : platform.Plain) {info : FileInfo} {line : Bytes}
    (h : fileLine platform info = .ok line) :
    (∃ rest, line = ascii "\t" ++ info.relativePath ++ ascii " (" ++ rest) ∧
      (10 ∈ line ↔ 10 ∈ info.relativePath) := by
  unfold fileLine at h
  cases hsize : platform.formatDataSize info.size with
  | error e =>
    rw [hsize] at h
    cases h
  | ok size =>
    rw [hsize] at h
    cases h
    refine ⟨⟨ascii size ++ ascii ")", by simp⟩, ?_⟩
    have htab : 10 ∉ ascii "\t" := by decide
    have hopen : 10 ∉ ascii " (" := by decide
    have hclose : 10 ∉ ascii ")" := by decide
    simp [htab, hopen, hclose, (hplain.formatDataSize hsize).1]

theorem forall₂_exists_of_mem {α β : Type} {R : α → β → Prop} {as : List α} {bs : List β}
    (h : List.Forall₂ R as bs) {a : α} (ha : a ∈ as) : ∃ b ∈ bs, R a b := by
  induction h with
  | nil => cases ha
  | cons hab _ ih =>
    rcases List.mem_cons.mp ha with rfl | ha
    · exact ⟨_, List.mem_cons_self, hab⟩
    · obtain ⟨b, hb, hR⟩ := ih ha
      exact ⟨b, List.mem_cons_of_mem _ hb, hR⟩

/-- The lines for the files are those of the request, in its order. -/
theorem mapM_fileLine {infos : List FileInfo} {lines : List Bytes}
    (h : infos.mapM (fileLine platform) = .ok lines) :
    List.Forall₂ (fun info line => fileLine platform info = .ok line) infos lines := by
  induction infos generalizing lines with
  | nil =>
    cases h
    exact .nil
  | cons info infos ih =>
    rw [List.mapM_cons] at h
    cases hline : fileLine platform info with
    | error e =>
      rw [hline] at h
      cases h
    | ok line =>
      cases hlines : infos.mapM (fileLine platform) with
      | error e =>
        rw [hline, hlines] at h
        cases h
      | ok rest =>
        rw [hline, hlines] at h
        cases h
        exact .cons hline (ih hlines)

theorem of_printed {r : TransferRequest} {text : Bytes} (h : r.printed platform = .ok text) :
    ∃ lines total, List.Forall₂ (fun info line => fileLine platform info = .ok line)
        r.fileInfos lines ∧ platform.formatDataSize r.transferSize = .ok total ∧
      text = Lines.putlines 10 (r.headLines ++ lines ++ [r.lastLine total]) := by
  unfold printed at h
  cases hlines : r.fileInfos.mapM (fileLine platform) with
  | error e =>
    rw [hlines] at h
    cases h
  | ok lines =>
    cases htotal : platform.formatDataSize r.transferSize with
    | error e =>
      rw [hlines, htotal] at h
      cases h
    | ok total =>
      rw [hlines, htotal] at h
      cases h
      exact ⟨lines, total, mapM_fileLine hlines, rfl, rfl⟩

theorem notMem_decimal (n : ℕ) : 10 ∉ Numerals.decimal n := fun h =>
  absurd (Numerals.isDigit_of_mem_decimal h) (by decide)

/-- The other lines hold no line break and show no path. -/
theorem headLines_plain (r : TransferRequest) {line : Bytes} (h : line ∈ r.headLines) :
    10 ∉ line ∧ shownPath line = none := by
  have hbytes : 10 ∉ ascii " bytes" := by decide
  rw [headLines] at h
  simp only [List.mem_cons, List.not_mem_nil, or_false] at h
  rcases h with rfl | rfl | rfl | rfl | rfl | rfl
  · exact ⟨by decide, rfl⟩
  all_goals
    refine ⟨?_, rfl⟩
    simp only [List.mem_append, notMem_decimal, hbytes, or_false]
    decide

theorem lastLine_plain (hplain : platform.Plain) (r : TransferRequest) {total : String}
    (h : platform.formatDataSize r.transferSize = .ok total) :
    10 ∉ r.lastLine total ∧ shownPath (r.lastLine total) = none := by
  have htotal : 10 ∉ ascii "Total " := by decide
  have hfiles : 10 ∉ ascii " files (" := by decide
  have hclose : 10 ∉ ascii ")" := by decide
  refine ⟨?_, rfl⟩
  simp [lastLine, htotal, hfiles, hclose, notMem_decimal, (hplain.formatDataSize h).1]

/-- The paths that the lines for the files show are those of the request. -/
theorem filterMap_fileLines (hplain : platform.Plain) {infos : List FileInfo} {lines : List Bytes}
    (h : List.Forall₂ (fun info line => fileLine platform info = .ok line) infos lines) :
    lines.filterMap shownPath = infos.map FileInfo.relativePath := by
  induction h with
  | nil => rfl
  | cons hline _ ih =>
    rw [List.filterMap_cons_some (shownPath_fileLine hplain hline), ih, List.map_cons]

/-- The text shows the paths of the request if and only if none of them holds a line break. -/
theorem shownPaths_eq_iff (hplain : platform.Plain) {r : TransferRequest} {text : Bytes}
    (h : r.printed platform = .ok text) :
    shownPaths text = r.paths ↔ ∀ path ∈ r.paths, 10 ∉ path := by
  obtain ⟨lines, total, hlines, htotal, rfl⟩ := of_printed h
  constructor
  · -- a path that is read from a line holds no more line breaks than the line
    intro hshown path hpath hmem
    rw [← hshown, shownPaths, List.mem_filterMap] at hpath
    obtain ⟨line, hline, hread⟩ := hpath
    refine Lines.not_mem_of_mem_getlines hline ?_
    unfold shownPath at hread
    split at hread
    · cases hread
      rename_i rest
      rw [List.mem_reverse] at hmem
      have hrest := (List.dropWhile_suffix _).subset ((List.drop_suffix _ _).subset hmem)
      exact List.mem_cons_of_mem _ (List.mem_reverse.mp hrest)
    · cases hread
  · intro hpaths
    have hbreaks : ∀ line ∈ r.headLines ++ lines ++ [r.lastLine total], 10 ∉ line := by
      intro line hline
      rcases List.mem_append.mp hline with hline | hlast
      · rcases List.mem_append.mp hline with hhead | hfile
        · exact (r.headLines_plain hhead).1
        · obtain ⟨info, hinfo, hprinted⟩ := forall₂_exists_of_mem hlines.flip hfile
          exact mt (fileLine_eq hplain hprinted).2.mp
            (hpaths _ (List.mem_map_of_mem hinfo))
      · rw [List.mem_singleton.mp hlast]
        exact (lastLine_plain hplain r htotal).1
    have hhead : r.headLines.filterMap shownPath = [] :=
      List.filterMap_eq_nil_iff.mpr fun line hline => (r.headLines_plain hline).2
    have hlast : [r.lastLine total].filterMap shownPath = [] := by
      rw [List.filterMap_cons_none (lastLine_plain hplain r htotal).2, List.filterMap_nil]
    rw [shownPaths, Lines.getlines_putlines_of_not_mem hbreaks, List.filterMap_append,
      List.filterMap_append, hhead, hlast, List.nil_append, List.append_nil,
      filterMap_fileLines hplain hlines, paths]

/-- Every path of the request is part of the text, whatever it holds. -/
theorem infix_of_printed (hplain : platform.Plain) {r : TransferRequest} {text : Bytes}
    (h : r.printed platform = .ok text) {path : Bytes} (hpath : path ∈ r.paths) :
    ascii "\t" ++ path ++ ascii " (" <:+: text := by
  obtain ⟨lines, total, hlines, -, rfl⟩ := of_printed h
  obtain ⟨info, hinfo, rfl⟩ := List.mem_map.mp hpath
  obtain ⟨line, hline, hprinted⟩ := forall₂_exists_of_mem hlines hinfo
  obtain ⟨⟨rest, hrest⟩, -⟩ := fileLine_eq hplain hprinted
  have hmem : line ++ [10] ∈ (r.headLines ++ lines ++ [r.lastLine total]).map (· ++ [10]) :=
    List.mem_map_of_mem (List.mem_append_left _ (List.mem_append_right _ hline))
  have hprefix : ascii "\t" ++ info.relativePath ++ ascii " (" <+: line ++ [10] :=
    ⟨rest ++ [10], by rw [hrest, List.append_assoc _ rest]⟩
  exact hprefix.isInfix.trans (List.infix_of_mem_flatten hmem)

end TransferRequest

/-! ### What the writer changes -/

/-- Between two states of the file system nothing but files with these paths have changed, and no
directories but their parents have been created. -/
structure FileManager.FileSystem.Touched (paths : List Bytes) (fs fs' : FileSystem) : Prop where
  files : ∀ q, q ∉ paths → fs'.files q = fs.files q
  directories : ∀ d ∈ fs'.directories, d ∈ fs.directories ∨
    ∃ q ∈ paths, d = FileSystem.parentPath q

namespace FileManager.FileSystem

variable {paths : List Bytes} {path : Bytes}

theorem Touched.refl (fs : FileSystem) : Touched paths fs fs := ⟨fun _ _ => rfl, fun _ => Or.inl⟩

theorem Touched.trans {fs₁ fs₂ fs₃ : FileSystem} (h : Touched paths fs₁ fs₂)
    (h' : Touched paths fs₂ fs₃) : Touched paths fs₁ fs₃ where
  files q hq := (h'.files q hq).trans (h.files q hq)
  directories d hd := (h'.directories d hd).elim (h.directories d) Or.inr

theorem touched_createParent (fs : FileSystem) (h : path ∈ paths) :
    Touched paths fs (fs.createParent path) where
  files q _ := by rw [createParent_files]
  directories d hd := by
    unfold createParent at hd
    split_ifs at hd
    · exact Or.inl hd
    · rcases List.mem_cons.mp hd with rfl | hd
      · exact Or.inr ⟨path, h, rfl⟩
      · exact Or.inl hd

theorem touched_truncate (fs : FileSystem) (h : path ∈ paths) :
    Touched paths fs (fs.truncate path) where
  files _ hq := Function.update_of_ne (ne_of_mem_of_not_mem h hq).symm _ _
  directories _ := Or.inl

theorem touched_append (fs : FileSystem) (h : path ∈ paths) (bytes : Bytes) :
    Touched paths fs (fs.append path bytes) where
  files _ hq := Function.update_of_ne (ne_of_mem_of_not_mem h hq).symm _ _
  directories _ := Or.inl

end FileManager.FileSystem

namespace Writer

open FileSystem (Touched touched_createParent touched_truncate touched_append)

variable {capacity : ℕ} {r : TransferRequest}

/-- The path of the file that is open. -/
def openPath : Thread WritePc → Option Bytes
  | .running (.abortCheck _ path _ _) | .running (.write _ path _ _)
  | .running (.increment _ path _ _) | .running (.inputDone _ path _ _)
  | .running (.inputEmpty _ path _ _) | .running (.pop path _ _) => some path
  | _ => none

/-- The open file and those that are still to be opened are files of the request. -/
structure Keeps (r : TransferRequest) (t : Thread WritePc) : Prop where
  opened : ∀ path, openPath t = some path → path ∈ r.paths
  upcoming : ∀ info ∈ upcoming r t, info.relativePath ∈ r.paths

theorem openPath_forLoop (l : WriteLocals) (infos : List FileInfo) :
    openPath (forLoop l infos) = none := by
  cases infos <;> rfl

theorem openPath_whileLoop {l : WriteLocals} {path p : Bytes} {n : ℕ} {infos : List FileInfo}
    (h : openPath (whileLoop l path n infos) = some p) : p = path := by
  unfold whileLoop at h
  split_ifs at h
  · cases h
    rfl
  · rw [openPath_forLoop] at h
    cases h

theorem openPath_afterWrite {l : WriteLocals} {path p : Bytes} {n : ℕ} {infos : List FileInfo}
    (h : openPath (afterWrite l path n infos) = some p) : p = path := by
  unfold afterWrite at h
  dsimp only at h
  split_ifs at h
  · cases h
    rfl
  · exact openPath_whileLoop h

/-- The file that is open after an operation was open before it, or was the next to be opened. -/
theorem openPath_move {abort : Bool} {f : Option Fault} {v v' : View capacity FileSystem}
    {pc : WritePc} {t : Thread WritePc} (h : WriteMove r abort f v pc t v') {path : Bytes}
    (hpath : openPath t = some path) :
    openPath (.running pc) = some path ∨
      ∃ info ∈ upcoming r (.running pc), info.relativePath = path := by
  cases h with
  | firstPopped c q hpc =>
    rw [openPath_forLoop] at hpath
    cases hpath
  | opened l info infos hpc =>
    rw [openPath_whileLoop hpath, hpc]
    exact Or.inr ⟨info, List.mem_cons_self, rfl⟩
  | wrote l p n infos hpc =>
    rw [openPath_afterWrite hpath, hpc]
    exact Or.inl rfl
  | drained l p n infos hpc =>
    rw [openPath_forLoop] at hpath
    cases hpath
  | popped p n infos c q hpc =>
    rw [openPath_whileLoop hpath, hpc]
    exact Or.inl rfl
  | openFault | abort | writeFault => cases hpath
  | goOn l p n infos hpc | counted l p n infos hpc | doneSeen l p n infos hpc
  | notDone l p n infos hpc | more l p n infos hpc =>
    rw [hpc]
    exact Or.inl hpath

theorem keeps_of_ne_running {t : Thread WritePc} (h : ∀ pc, t ≠ .running pc) : Keeps r t := by
  cases t with
  | running pc => exact absurd rfl (h pc)
  | _ =>
    constructor
    · intro path hpath
      cases hpath
    · intro info hinfo
      cases hinfo

theorem Keeps.move {abort : Bool} {f : Option Fault} {v v' : View capacity FileSystem}
    {pc : WritePc} {t : Thread WritePc} (h : Keeps r (.running pc))
    (hmove : WriteMove r abort f v pc t v') : Keeps r t where
  opened path hpath := by
    rcases openPath_move hmove hpath with hopen | ⟨info, hinfo, rfl⟩
    · exact h.opened path hopen
    · exact h.upcoming info hinfo
  upcoming info hinfo := h.upcoming info ((upcoming_move hmove).subset hinfo)

/-- An operation changes only the open file, or the one that it opens. -/
theorem Keeps.touched {abort : Bool} {f : Option Fault} {v v' : View capacity FileSystem}
    {pc : WritePc} {t : Thread WritePc} (h : Keeps r (.running pc))
    (hmove : WriteMove r abort f v pc t v') : Touched r.paths v.world v'.world := by
  cases hmove with
  | opened l info infos hpc =>
    have hmem := h.upcoming info (by rw [hpc]; exact List.mem_cons_self)
    exact (touched_createParent _ hmem).trans (touched_truncate _ hmem)
  | openFault l info infos x hpc =>
    have hmem := h.upcoming info (by rw [hpc]; exact List.mem_cons_self)
    dsimp only
    split_ifs
    · exact .refl _
    · exact touched_createParent _ hmem
  | wrote l path n infos hpc => exact touched_append _ (h.opened path (by rw [hpc]; rfl)) _
  | writeFault l path n infos x hpc => exact touched_append _ (h.opened path (by rw [hpc]; rfl)) _
  | firstPopped | abort | goOn | counted | doneSeen | notDone | drained | more | popped =>
    exact .refl _

/-- In every run, the writer has changed nothing but the files of its request. -/
theorem touched_of_reach {ok : Writer capacity → Event → Prop} {fs : FileSystem}
    {w : Writer capacity} (h : Reach (step r) ok (start capacity fs) w) :
    Touched r.paths fs w.view.world := by
  have hrun : Keeps r w.thread ∧ Touched r.paths fs w.view.world := by
    have hstart : Keeps r (.running .firstPop) := by
      constructor
      · intro path hpath
        cases hpath
      · exact fun info hinfo => List.mem_map_of_mem hinfo
    refine h.invariant (I := fun w => Keeps r w.thread ∧ Touched r.paths fs w.view.world) ?_
      ⟨hstart, .refl fs⟩
    rintro w a w' ⟨hkeeps, htouched⟩ - hstep
    cases a with
    | step f =>
      obtain ⟨⟨th, ctx, v⟩, hth, rfl⟩ := Option.map_eq_some_iff.mp hstep
      rcases Thread.step_cases hth with ⟨pc, hpc, -, hrun⟩ | ⟨e, -, -, rfl, -, rfl⟩ |
        ⟨e, -, -, rfl, -, rfl⟩
      · rw [hpc] at hkeeps
        have hmove := writeMove_of_run hrun
        exact ⟨hkeeps.move hmove, htouched.trans (hkeeps.touched hmove)⟩
      · exact ⟨keeps_of_ne_running (by simp), htouched⟩
      · exact ⟨keeps_of_ne_running (by simp), htouched⟩
    | arrive c =>
      obtain ⟨q, -, rfl⟩ := Option.map_eq_some_iff.mp hstep
      exact ⟨hkeeps, htouched⟩
    | finish =>
      cases hstep
      exact ⟨hkeeps, htouched⟩
    | abort =>
      cases hstep
      exact ⟨hkeeps, htouched⟩
  exact hrun.2

end Writer

namespace Receiver

open FileSystem (Touched)

variable {na : Sodium} {platform : Platform} {password : Bytes}

/-- In every run, `receive_files` has changed nothing but the files of its request. -/
theorem touched_of_reach {capacity : ℕ} {ss : SecretStream} {r : TransferRequest}
    {socket : TransferManager.Incoming} {start : FileSystem} {st : ss.State}
    {s : State capacity ss} (h : Reach (step r) any (initial capacity r socket start st) s) :
    Touched r.paths start s.sink := by
  obtain ⟨w, hw, hmatches⟩ : ∃ w, Reach (Writer.step r) any (Writer.start capacity start) w ∧
      w.Matches s := by
    refine h.invariant (I := fun s => ∃ w, Reach (Writer.step r) any
      (Writer.start capacity start) w ∧ w.Matches s) ?_ ⟨_, .refl, rfl, rfl, rfl⟩
    rintro s a t ⟨w, hw, hmatches⟩ - hstep
    obtain ⟨w', hmatches', rfl | ⟨b, hb, -⟩⟩ := hmatches.step hstep
    · exact ⟨w', hw, hmatches'⟩
    · exact ⟨w', hw.tail trivial hb, hmatches'⟩
  have htouched := Writer.touched_of_reach hw
  rw [hmatches.view] at htouched
  exact htouched

/-! ### The loop over the file system -/

/-- The loop of `start_session` from one state of the file system to another: these peers have been
served, the last of them perhaps not to its end.  `start_session` leaves its loop after a transfer;
`returned` allows it to be called again, and so more than one run of it. -/
inductive Rounds (na : Sodium) (platform : Platform) (password : Bytes) :
    List Peer → FileSystem → FileSystem → Prop
  | nil (fs : FileSystem) : Rounds na platform password [] fs fs
  | waiting {p : Peer} {ps : List Peer} {fs fs' : FileSystem}
      (hserve : serve na platform password p = .waiting)
      (hrest : Rounds na platform password ps fs fs') : Rounds na platform password (p :: ps) fs fs'
  | receiving {p : Peer} {r : TransferRequest} {st : na.stream.State} {coming : Bytes}
      {fs : FileSystem} {s : State queueCapacity na.stream}
      (hserve : serve na platform password p = .receiving r st coming)
      (hs : Reach (step r) any (initial queueCapacity r ⟨coming, true⟩ fs st) s) :
      Rounds na platform password [p] fs s.sink
  | returned {p : Peer} {ps : List Peer} {r : TransferRequest} {st : na.stream.State}
      {coming : Bytes} {fs fs' : FileSystem} {s : State queueCapacity na.stream}
      (hserve : serve na platform password p = .receiving r st coming)
      (hs : Reach (step r) any (initial queueCapacity r ⟨coming, true⟩ fs st) s)
      (hmain : s.main ≠ .joining) (hrest : Rounds na platform password ps s.sink fs') :
      Rounds na platform password (p :: ps) fs fs'

/-- The handshake of the peer verified, as that of one who knows the password or replays another's
bytes does, and the user has accepted its request for this path: the text above the question has the
path between a tab and a parenthesis, and its lines show exactly the paths of the request, unless
one of these holds a line break. -/
def Peer.Shown (na : Sodium) (platform : Platform) (password : Bytes) (p : Peer) (path : Bytes) :
    Prop :=
  p.accepts = true ∧ (∃ st, Verified na password p.bytes st) ∧
    ∃ r text, Requested platform (p.bytes.drop handshakeSize) r ∧
      r.printed platform = .ok text ∧ path ∈ r.paths ∧
      ascii "\t" ++ path ++ ascii " (" <:+: text ∧
      (shownPaths text = r.paths ↔ ∀ path ∈ r.paths, 10 ∉ path)

theorem shown_of_serve (hplain : platform.Plain) {p : Peer} {r : TransferRequest}
    {st : na.stream.State} {coming : Bytes}
    (h : serve na platform password p = .receiving r st coming) {path : Bytes}
    (hpath : path ∈ r.paths) : p.Shown na platform password path := by
  obtain ⟨-, haccepts, -, hverified, hrequested, -⟩ := of_serve_eq_receiving h
  have hprint : r.print platform = .ok () := hrequested.2.2.2
  rw [← TransferRequest.printed_eq] at hprint
  cases htext : r.printed platform with
  | error e =>
    rw [htext] at hprint
    cases hprint
  | ok text =>
    exact ⟨haccepts, ⟨st, hverified⟩, r, text, hrequested, htext, hpath,
      TransferRequest.infix_of_printed hplain htext hpath,
      TransferRequest.shownPaths_eq_iff hplain htext⟩

/-- Whatever peers send and however their transfers end: each file that the receiver has changed,
and each directory that it has created, belongs to a path that its user was shown and accepted. -/
theorem changes_shown (hplain : platform.Plain) {peers : List Peer} {fs fs' : FileSystem}
    (h : Rounds na platform password peers fs fs') :
    (∀ path, fs'.files path ≠ fs.files path →
      ∃ p ∈ peers, p.Shown na platform password path) ∧
    ∀ d ∈ fs'.directories, d ∉ fs.directories → ∃ path, d = FileSystem.parentPath path ∧
      ∃ p ∈ peers, p.Shown na platform password path := by
  induction h with
  | nil fs => exact ⟨fun _ hne => absurd rfl hne, fun d hd hnot => absurd hd hnot⟩
  | waiting _ _ ih =>
    obtain ⟨ihfiles, ihdirectories⟩ := ih
    constructor
    · intro path hne
      obtain ⟨p, hp, hshown⟩ := ihfiles path hne
      exact ⟨p, List.mem_cons_of_mem _ hp, hshown⟩
    · intro d hd hnot
      obtain ⟨path, hpath, p, hp, hshown⟩ := ihdirectories d hd hnot
      exact ⟨path, hpath, p, List.mem_cons_of_mem _ hp, hshown⟩
  | receiving hserve hs =>
    have htouched := touched_of_reach hs
    constructor
    · intro path hne
      have hpath := not_imp_comm.mp (htouched.files path) hne
      exact ⟨_, List.mem_cons_self, shown_of_serve hplain hserve hpath⟩
    · intro d hd hnot
      obtain ⟨path, hpath, hparent⟩ := (htouched.directories d hd).resolve_left hnot
      exact ⟨path, hparent, _, List.mem_cons_self, shown_of_serve hplain hserve hpath⟩
  | @returned p ps r st coming fs fs' s hserve hs _ _ ih =>
    obtain ⟨ihfiles, ihdirectories⟩ := ih
    have htouched := touched_of_reach hs
    constructor
    · intro path hne
      -- changed by this transfer, or by a later one
      by_cases hpath : path ∈ r.paths
      · exact ⟨p, List.mem_cons_self, shown_of_serve hplain hserve hpath⟩
      · rw [← htouched.files path hpath] at hne
        obtain ⟨p', hp', hshown⟩ := ihfiles path hne
        exact ⟨p', List.mem_cons_of_mem _ hp', hshown⟩
    · intro d hd hnot
      by_cases hhere : d ∈ s.sink.directories
      · obtain ⟨path, hpath, hparent⟩ := (htouched.directories d hhere).resolve_left hnot
        exact ⟨path, hparent, p, List.mem_cons_self, shown_of_serve hplain hserve hpath⟩
      · obtain ⟨path, hparent, p', hp', hshown⟩ := ihdirectories d hd hhere
        exact ⟨path, hparent, p', List.mem_cons_of_mem _ hp', hshown⟩

set_option maxRecDepth 4000 in
/-- A peer whose handshake verifies sends the file `a`, and the user accepts it. -/
theorem changes_shown_recorded : ∃ fs',
    Rounds .plain .large [112] [⟨World.recordedSession, true, true, 2⟩] emptyDirectory fs' ∧
      fs'.files [97] = some [7] ∧
      ∃ p : Peer, p.Shown .plain .large [112] [97] := by
  have hserve : serve .plain .large [112] ⟨World.recordedSession, true, true, 2⟩ =
      .receiving Sender.oneByteRequest World.recordedState World.recordedFrame := rfl
  have hrun : (exec (step Sender.oneByteRequest)
      (initial queueCapacity Sender.oneByteRequest ⟨World.recordedFrame, true⟩ emptyDirectory
        World.recordedState)
      (List.replicate 4 (.producer none) ++ List.replicate 9 (.stage none) ++
        List.replicate 7 (.consumer none))).map
      (fun s => decide (s.sink.files [97] = some [7])) = some true := by decide +kernel
  obtain ⟨s, hs, hfile⟩ := reach_of_exec_test _ (fun _ _ _ => trivial) hrun
  have hchanged := of_decide_eq_true hfile
  have hrounds := Rounds.receiving hserve hs
  have hplain : Platform.large.Plain := fun _ _ => ⟨List.not_mem_nil, List.not_mem_nil⟩
  obtain ⟨p, -, hshown⟩ := (changes_shown hplain hrounds).1 [97] (by
    rw [hchanged]
    exact Option.some_ne_none _)
  exact ⟨s.sink, hrounds, hchanged, p, hshown⟩

end Receiver

end Trit
