import Trit.Confinement
import Trit.FilePatterns
import Trit.StagingCommands
import Trit.Lib.FileTree

/-!
# The files under the working directory

What `stage` finds in a file system, and what it selects.

* `WorkingTree`: a file system with a working directory; `canonical`: where a path leads in it;
* `getFilesInCwd`, `relativeToCwd`, `normalizePatterns`, `filesToStage`: the functions of
  `staging.cpp` before `stage` and `unstage`;
* `Regular`: the entries that `get_files_in_cwd` collects, if there are no symbolic links;
* `mem_filesToStage`: which of them a pattern selects.
-/

namespace Trit

open Glob

namespace Staging

/-! ### Paths -/

/-- What an entry of a directory can be called. -/
def IsName (a : Bytes) : Prop := a ≠ [] ∧ a ≠ [46] ∧ a ≠ [46, 46] ∧ 47 ∉ a ∧ 0 ∉ a

instance : DecidablePred IsName := fun _ => inferInstanceAs (Decidable (_ ∧ _))

/-- Names with a slash between them. -/
def separated (names : List Bytes) : Bytes := [47].intercalate names

/-- The absolute path of a place. -/
def pathString (p : List Bytes) : Bytes := 47 :: separated p

/-- What stands between the slashes of a path. -/
def components (path : Bytes) : List Bytes := (path.splitOn 47).filter (· ≠ [])

/-- `path.generic_string()`: runs of slashes become one. -/
def genericString (path : Bytes) : Bytes :=
  (if path.head? = some 47 then [47] else []) ++ separated (components path) ++
    (if path.getLast? = some 47 ∧ components path ≠ [] then [47] else [])

/-- `path / name`, for a relative `name`. -/
def appendPath (path name : Bytes) : Bytes :=
  if path = [] ∨ path.getLast? = some 47 then path ++ name else path ++ 47 :: name

/-- A part of a path that was computed. -/
def partString : LexicalPath.Part Bytes → Bytes
  | .here => [46]
  | .up => [46, 46]
  | .name a => a

/-- A relative path that was computed, as a string. -/
def relativeString (p : LexicalPath Bytes) : Bytes :=
  if p.parts = [] then [46] else separated (p.parts.map partString)

/-! ### The functions of `staging.cpp` -/

/-- A file system and the working directory, which is a directory in it. -/
structure WorkingTree where
  tree : FileTree Bytes
  names : ∀ e ∈ tree.entries, ∀ a ∈ e.1, IsName a
  cwd : List Bytes
  cwd_directory : tree.kind cwd = some .directory

/-- The most symbolic links that are followed on one path. -/
def maxSymlinks : ℕ := 40

namespace WorkingTree

variable (w : WorkingTree)

/-- `canonical`: the place to which a path leads, if there is an entry. -/
def canonical (path : Bytes) : Option (List Bytes) :=
  if cString path = [] then none else w.tree.resolve maxSymlinks w.cwd (lexicalPath path)

/-- What the path leads to. -/
def status (path : Bytes) : Option (FileTree.Kind Bytes) := (w.canonical path).bind w.tree.kind

/-- `get_staging_file_path`. -/
def stagingFilePath : List Bytes :=
  w.cwd ++ [[46, 116, 114, 105, 116], [115, 116, 97, 103, 101, 100, 46, 116, 120, 116]]

/-- `get_files_in_cwd`: the iterator visits the entries below the working directory, and does not
follow links to directories. -/
def getFilesInCwd : Finset Bytes :=
  (w.tree.places.filter fun p => w.cwd <+: p ∧ w.status (pathString p) = some .file ∧
    p ≠ w.stagingFilePath).image pathString

/-- `relative_to_cwd(path).generic_string()`, for a path that leads to an entry: both paths are made
canonical first. -/
def relativeToCwd (path : Bytes) : Option Bytes :=
  (w.canonical path).map fun p => relativeString (FileTree.relative w.cwd p)

/-- The test of `match_file_patterns_to_paths`. -/
def matching (filePatterns : List Bytes) (path : Bytes) : Bool :=
  filePatterns.any fun pattern =>
    ((w.relativeToCwd path).bind (regexMatch · (filePatternToRegex pattern))) = some true

/-- What `normalize_patterns` makes of one pattern. -/
def normalizePattern (pattern : Bytes) : Bytes :=
  if w.status pattern = some .directory then genericString (appendPath pattern [42, 42])
  else pattern

/-- `normalize_patterns`. -/
def normalizePatterns (inputPatterns : List Bytes) : List Bytes :=
  inputPatterns.map w.normalizePattern

/-- `files_to_stage`, as `stage` computes it. -/
def filesToStage (filePatterns : List Bytes) : Finset Bytes :=
  w.getFilesInCwd.filter (w.matching (w.normalizePatterns filePatterns) ·)

end WorkingTree

/-! ### Names and slashes -/

theorem IsName.pathPart_eq {a : Bytes} (h : IsName a) : pathPart a = .name a := by
  rw [pathPart, if_neg (by rintro (rfl | rfl) <;> simp [IsName] at h), if_neg h.2.2.1]

theorem separated_nil : separated [] = [] := rfl

theorem separated_singleton (a : Bytes) : separated [a] = a := List.intercalate_singleton

theorem separated_splitOn (s : Bytes) : separated (s.splitOn 47) = s := List.intercalate_splitOn 47

theorem separated_cons {a : Bytes} {names : List Bytes} (h : names ≠ []) :
    separated (a :: names) = a ++ 47 :: separated names := by
  rw [separated, List.intercalate_cons_of_ne_nil h, List.append_assoc]
  rfl

theorem separated_append {l r : List Bytes} (hl : l ≠ []) (hr : r ≠ []) :
    separated (l ++ r) = separated l ++ 47 :: separated r := by
  induction l with
  | nil => exact absurd rfl hl
  | cons a l ih =>
    by_cases hnil : l = []
    · rw [hnil, List.singleton_append, separated_cons hr]
      simp [separated]
    · rw [List.cons_append, separated_cons (by simp [hnil]), ih hnil, separated_cons hnil,
        List.append_assoc, List.cons_append]

theorem splitOn_separated {names : List Bytes} (h : ∀ a ∈ names, IsName a) (hne : names ≠ []) :
    (separated names).splitOn 47 = names :=
  List.splitOn_intercalate 47 (fun a ha => (h a ha).2.2.2.1) hne

theorem head?_ne_slash {s : Bytes} (h : [] ∉ s.splitOn 47) : s.head? ≠ some 47 := by
  intro hhead
  obtain ⟨tail, rfl⟩ := List.head?_eq_some_iff.mp hhead
  have hsplit := List.splitOn_append_cons_self_of_not_mem (a := (47 : UInt8)) List.not_mem_nil tail
  rw [List.nil_append] at hsplit
  exact h (by rw [hsplit]; exact List.mem_cons_self)

theorem mem_separated {names : List Bytes} {c : UInt8} (h : c ∈ separated names) :
    c = 47 ∨ ∃ a ∈ names, c ∈ a := by
  induction names with
  | nil => cases h
  | cons a names ih =>
    by_cases hnil : names = []
    · rw [hnil, separated_singleton] at h
      exact Or.inr ⟨a, List.mem_cons_self, h⟩
    · rw [separated_cons hnil, List.mem_append, List.mem_cons] at h
      rcases h with h | h | h
      · exact Or.inr ⟨a, List.mem_cons_self, h⟩
      · exact Or.inl h
      · exact (ih h).imp id fun ⟨b, hb, hc⟩ => ⟨b, List.mem_cons_of_mem a hb, hc⟩

theorem mem_separated_of_mem {names : List Bytes} {a : Bytes} (ha : a ∈ names) {c : UInt8}
    (hc : c ∈ a) : c ∈ separated names := by
  induction names with
  | nil => cases ha
  | cons b names ih =>
    by_cases hnil : names = []
    · rw [hnil, List.mem_singleton] at ha
      rw [hnil, separated_singleton, ← ha]
      exact hc
    · rw [separated_cons hnil, List.mem_append, List.mem_cons]
      rcases List.mem_cons.mp ha with rfl | ha
      · exact Or.inl hc
      · exact Or.inr (Or.inr (ih ha))

theorem zero_notMem_pathString {p : List Bytes} (h : ∀ a ∈ p, IsName a) : 0 ∉ pathString p := by
  intro hzero
  rcases List.mem_cons.mp hzero with hzero | hzero
  · cases hzero
  · rcases mem_separated hzero with hzero | ⟨a, ha, hzero⟩
    · cases hzero
    · exact (h a ha).2.2.2.2 hzero

theorem splitOn_pathString {p : List Bytes} (h : ∀ a ∈ p, IsName a) (hne : p ≠ []) :
    (pathString p).splitOn 47 = [] :: p := by
  have hsplit := List.splitOn_append_cons_self (a := (47 : UInt8)) [] (separated p)
  rw [splitOn_separated h hne] at hsplit
  exact hsplit

/-- The path that is written for a place is read as its names. -/
theorem lexicalPath_pathString {p : List Bytes} (h : ∀ a ∈ p, IsName a) (hne : p ≠ []) :
    lexicalPath (pathString p) = ⟨true, .here :: p.map .name⟩ := by
  have hparts : p.map pathPart = p.map .name :=
    List.map_congr_left fun a ha => (h a ha).pathPart_eq
  rw [lexicalPath, cString_eq_self (zero_notMem_pathString h), splitOn_pathString h hne,
    List.map_cons, hparts]
  rfl

theorem pathString_injective {p q : List Bytes} (hp : ∀ a ∈ p, IsName a)
    (hq : ∀ a ∈ q, IsName a) (hpne : p ≠ []) (hqne : q ≠ [])
    (h : pathString p = pathString q) : p = q := by
  have hsplit := splitOn_pathString hp hpne
  rw [h, splitOn_pathString hq hqne] at hsplit
  exact (List.cons.inj hsplit).2.symm

namespace WorkingTree

variable {w : WorkingTree} {p rel : List Bytes}

/-! ### What is collected -/

theorem isName_of_kind {k : FileTree.Kind Bytes} (h : w.tree.kind p = some k) :
    ∀ a ∈ p, IsName a := w.names _ (FileTree.kind_eq_some.mp h)

/-- The path of an entry leads to it, if it is no link. -/
theorem canonical_pathString {k : FileTree.Kind Bytes} (h : w.tree.kind p = some k)
    (hk : k.isLink = false) (hne : p ≠ []) :
    w.canonical (pathString p) = some p := by
  have hnames := isName_of_kind h
  have hcString : cString (pathString p) ≠ [] := by
    rw [cString_eq_self (zero_notMem_pathString hnames)]
    exact List.cons_ne_nil _ _
  rw [canonical, if_neg hcString, lexicalPath_pathString hnames hne]
  show w.tree.walk maxSymlinks [] (.here :: p.map .name) = some p
  rw [FileTree.walk_here FileTree.kind_root, FileTree.walk_entry (by exact h) hk]
  rfl

/-- A regular file under the working directory, other than `staged.txt`. -/
def Regular (w : WorkingTree) (p : List Bytes) : Prop :=
  w.tree.kind p = some .file ∧ w.cwd <+: p ∧ p ≠ w.stagingFilePath

/-- The path of a place below the working directory, relative to it. -/
def relativePath (w : WorkingTree) (p : List Bytes) : Bytes :=
  separated (p.drop w.cwd.length)

theorem relativePath_append (w : WorkingTree) (rel : List Bytes) :
    w.relativePath (w.cwd ++ rel) = separated rel := by
  rw [relativePath, List.drop_left]

theorem Regular.ne_nil (h : w.Regular p) : p ≠ [] := by
  rintro rfl
  have hroot := h.1
  rw [FileTree.kind_root] at hroot
  cases hroot

theorem Regular.ne_cwd (h : w.Regular p) : p ≠ w.cwd := by
  rintro rfl
  have hkind := h.1
  rw [w.cwd_directory] at hkind
  cases hkind

theorem Regular.exists_append (h : w.Regular p) : ∃ rel, rel ≠ [] ∧ p = w.cwd ++ rel := by
  obtain ⟨rel, hrel⟩ := h.2.1
  refine ⟨rel, ?_, hrel.symm⟩
  rintro rfl
  rw [List.append_nil] at hrel
  exact h.ne_cwd hrel.symm

theorem Regular.status (h : w.Regular p) : w.status (pathString p) = some .file := by
  rw [WorkingTree.status, canonical_pathString h.1 rfl h.ne_nil]
  exact h.1

theorem status_root (w : WorkingTree) : w.status (pathString []) = some .directory := by
  show (w.tree.walk maxSymlinks [] [.here, .here]).bind w.tree.kind = _
  rw [FileTree.walk_here FileTree.kind_root, FileTree.walk_here FileTree.kind_root,
    FileTree.walk_nil]
  exact FileTree.kind_root

/-- Without symbolic links, `get_files_in_cwd` collects the regular files. -/
theorem mem_getFilesInCwd (hlinks : w.tree.NoLinks) {path : Bytes} :
    path ∈ w.getFilesInCwd ↔ ∃ p, w.Regular p ∧ pathString p = path := by
  simp only [getFilesInCwd, Finset.mem_image, Finset.mem_filter]
  constructor
  · rintro ⟨p, ⟨hplace, hcwd, hstatus, hstaging⟩, rfl⟩
    obtain ⟨k, hk⟩ := FileTree.mem_places.mp hplace
    refine ⟨p, ⟨?_, hcwd, hstaging⟩, rfl⟩
    by_cases hne : p = []
    · rw [hne, status_root] at hstatus
      cases hstatus
    · have hlink := FileTree.isLink_eq_false hlinks hk
      rwa [status, canonical_pathString hk hlink hne] at hstatus
  · rintro ⟨p, hp, rfl⟩
    exact ⟨p, ⟨FileTree.mem_places.mpr ⟨_, hp.1⟩, hp.2.1, hp.status, hp.2.2⟩, rfl⟩

theorem relativeToCwd_pathString (h : w.Regular p) :
    w.relativeToCwd (pathString p) = some (w.relativePath p) := by
  obtain ⟨rel, hne, rfl⟩ := h.exists_append
  have hparts : rel.map (.name : Bytes → LexicalPath.Part Bytes) ≠ [] := by simpa using hne
  rw [relativeToCwd, canonical_pathString h.1 rfl h.ne_nil, Option.map_some,
    FileTree.relative_append, relativeString, if_neg hparts, List.map_map, relativePath_append]
  have hid : partString ∘ LexicalPath.Part.name = id := rfl
  rw [hid, List.map_id]

/-- A pattern selects the files whose relative paths it matches. -/
theorem mem_filesToStage (hlinks : w.tree.NoLinks) {pattern path : Bytes} :
    path ∈ w.filesToStage [pattern] ↔ ∃ p, w.Regular p ∧
      w.relativePath p ∈ Glob.language globAlphabet dots (w.normalizePattern pattern) ∧
      pathString p = path := by
  have hmatching : ∀ {p}, w.Regular p →
      (w.matching (w.normalizePatterns [pattern]) (pathString p) = true ↔
        w.relativePath p ∈ Glob.language globAlphabet dots (w.normalizePattern pattern)) := by
    intro p hp
    rw [← regexMatch_iff]
    simp [matching, normalizePatterns, relativeToCwd_pathString hp]
  rw [filesToStage, Finset.mem_filter, mem_getFilesInCwd hlinks]
  constructor
  · rintro ⟨⟨p, hp, rfl⟩, hmatches⟩
    exact ⟨p, hp, (hmatching hp).mp hmatches, rfl⟩
  · rintro ⟨p, hp, hmem, rfl⟩
    exact ⟨⟨p, hp, rfl⟩, (hmatching hp).mpr hmem⟩

theorem Regular.pathString_injective {q : List Bytes} (hp : w.Regular p) (hq : w.Regular q)
    (h : pathString p = pathString q) : p = q :=
  Staging.pathString_injective (isName_of_kind hp.1) (isName_of_kind hq.1) hp.ne_nil hq.ne_nil h

theorem Regular.mem_filesToStage (hlinks : w.tree.NoLinks) {pattern : Bytes} (hp : w.Regular p) :
    pathString p ∈ w.filesToStage [pattern] ↔
      w.relativePath p ∈ Glob.language globAlphabet dots (w.normalizePattern pattern) := by
  rw [WorkingTree.mem_filesToStage hlinks]
  constructor
  · rintro ⟨q, hq, hmem, heq⟩
    rwa [← hq.pathString_injective hp heq]
  · intro hmem
    exact ⟨p, hp, hmem, rfl⟩

end WorkingTree

end Staging

end Trit
