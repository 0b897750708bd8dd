import Trit.WorkingTree

/-!
# Requests for linked files

The request for the files that `get_files_in_cwd` collects, in a tree with symbolic links: the
directory walk lists a link under its own name, but `relative` resolves it first.

* `TransferRequest.DistinctInside`: one relative path for each file, and none that leaves the root;
* `WorkingTree.Unaliased`: the paths lead to different places below the working directory;
* `lexicalPath_relativeString`: a relative path that is written is read as it was computed;
* `distinctInside_iff`: when the request has distinct paths inside the root;
* `unaliased_of_noLinks`: it does if there are no symbolic links;
* `staysInside_of_unaliased`: its receiver writes below the working directory only.
-/

namespace Trit

/-- The relative paths are different, as many as there are files, and none of them is absolute or
begins with `..`. -/
def TransferRequest.DistinctInside (r : TransferRequest) (numPaths : ℕ) : Prop :=
  r.fileInfos.length = numPaths ∧ (r.fileInfos.map FileInfo.relativePath).Nodup ∧
    ∀ info ∈ r.fileInfos, (lexicalPath info.relativePath).absolute = false ∧
      (lexicalPath info.relativePath).parts.head? ≠ some .up

instance (r : TransferRequest) (numPaths : ℕ) : Decidable (r.DistinctInside numPaths) :=
  inferInstanceAs (Decidable (_ ∧ _))

namespace Staging

namespace WorkingTree

variable (w : WorkingTree)

/-- `std::filesystem::relative(path, current_path()).generic_string()`, for a path that leads to an
entry. -/
def relative (path : Bytes) : Bytes := (w.relativeToCwd path).getD []

/-- No path leads out of the working directory, and no two paths lead to the same file. -/
def Unaliased (paths : List Bytes) : Prop :=
  (∀ path ∈ paths, ∃ p ∈ w.canonical path, w.cwd <+: p) ∧
    ∀ path ∈ paths, ∀ path' ∈ paths, w.canonical path = w.canonical path' → path = path'

instance (paths : List Bytes) : Decidable (w.Unaliased paths) :=
  inferInstanceAs (Decidable (_ ∧ _))

end WorkingTree

/-! ### Relative paths as strings -/

/-- A part of a relative path, with a name that an entry can have. -/
def IsPart : LexicalPath.Part Bytes → Prop
  | .here => True
  | .up => True
  | .name a => IsName a

theorem pathPart_partString {part : LexicalPath.Part Bytes} (h : IsPart part) :
    pathPart (partString part) = part := by
  cases part with
  | here | up => rfl
  | name a => exact IsName.pathPart_eq h

theorem partString_spec {part : LexicalPath.Part Bytes} (h : IsPart part) :
    partString part ≠ [] ∧ 47 ∉ partString part ∧ 0 ∉ partString part := by
  cases part with
  | here | up => decide
  | name a => exact ⟨h.1, h.2.2.2⟩

theorem zero_notMem_relativeString {q : LexicalPath Bytes}
    (hparts : ∀ part ∈ q.parts, IsPart part) : 0 ∉ relativeString q := by
  unfold relativeString
  split_ifs with hnil
  · decide
  · intro hmem
    rcases mem_separated hmem with hmem | ⟨a, ha, hmem⟩
    · cases hmem
    · obtain ⟨part, hpart, rfl⟩ := List.mem_map.mp ha
      exact (partString_spec (hparts part hpart)).2.2 hmem

/-- A relative path that is written is read as it was computed. -/
theorem lexicalPath_relativeString {q : LexicalPath Bytes} (habsolute : q.absolute = false)
    (hne : q.parts ≠ []) (hparts : ∀ part ∈ q.parts, IsPart part) :
    lexicalPath (relativeString q) = q := by
  have hpieces : ∀ a ∈ q.parts.map partString, a ≠ [] ∧ 47 ∉ a ∧ 0 ∉ a := by
    intro a ha
    obtain ⟨part, hpart, rfl⟩ := List.mem_map.mp ha
    exact partString_spec (hparts part hpart)
  have hzero := zero_notMem_relativeString hparts
  have hsplit : (relativeString q).splitOn 47 = q.parts.map partString := by
    rw [relativeString, if_neg hne]
    exact List.splitOn_intercalate 47 (fun a ha => (hpieces a ha).2.1) (by simpa using hne)
  have hhead : (relativeString q).head? ≠ some 47 := by
    refine head?_ne_slash fun hnil => ?_
    rw [hsplit] at hnil
    exact (hpieces [] hnil).1 rfl
  have hread : (q.parts.map partString).map pathPart = q.parts := by
    have hid : ∀ part ∈ q.parts, (pathPart ∘ partString) part = id part :=
      fun part hpart => pathPart_partString (hparts part hpart)
    rw [List.map_map, List.map_congr_left hid, List.map_id]
  rw [lexicalPath, cString_eq_self hzero, hsplit, hread, beq_eq_false_iff_ne.mpr hhead,
    ← habsolute]

namespace WorkingTree

variable {w : WorkingTree} {path path' : Bytes} {paths : List Bytes} {p : List Bytes}

/-- What is collected leads to a regular file. -/
theorem canonical_of_collected (h : path ∈ w.getFilesInCwd) :
    ∃ p, w.canonical path = some p ∧ w.tree.kind p = some .file := by
  obtain ⟨q, hq, rfl⟩ := Finset.mem_image.mp h
  exact Option.bind_eq_some_iff.mp (Finset.mem_filter.mp hq).2.2.1

theorem isPart_relative (hfile : w.tree.kind p = some .file) :
    ∀ part ∈ (FileTree.relative w.cwd p).parts, IsPart part := by
  intro part hpart
  rcases List.mem_append.mp hpart with hpart | hpart
  · obtain rfl := List.eq_of_mem_replicate hpart
    exact trivial
  · obtain ⟨a, ha, rfl⟩ := List.mem_map.mp hpart
    exact isName_of_kind hfile a (List.mem_of_mem_drop ha)

theorem ne_cwd (hfile : w.tree.kind p = some .file) : p ≠ w.cwd := by
  rintro rfl
  cases hfile.symm.trans w.cwd_directory

theorem relative_eq (hp : w.canonical path = some p) :
    w.relative path = relativeString (FileTree.relative w.cwd p) := by
  rw [relative, relativeToCwd, hp, Option.map_some, Option.getD_some]

/-- The relative path of a collected file is read as the way to it. -/
theorem lexicalPath_relative (hp : w.canonical path = some p) (hfile : w.tree.kind p = some .file) :
    lexicalPath (w.relative path) = FileTree.relative w.cwd p := by
  rw [relative_eq hp]
  refine lexicalPath_relativeString rfl (fun hnil => ?_) (isPart_relative hfile)
  have hcwd := FileTree.resolve_relative w.cwd p
  rw [LexicalPath.resolve, hnil] at hcwd
  exact ne_cwd hfile hcwd.symm

/-- Two collected files have one relative path if and only if they lead to one place. -/
theorem relative_eq_iff (h : path ∈ w.getFilesInCwd) (h' : path' ∈ w.getFilesInCwd) :
    w.relative path = w.relative path' ↔ w.canonical path = w.canonical path' := by
  obtain ⟨p, hp, hfile⟩ := canonical_of_collected h
  obtain ⟨p', hp', hfile'⟩ := canonical_of_collected h'
  constructor
  · intro heq
    have hread := lexicalPath_relative hp hfile
    rw [heq, lexicalPath_relative hp' hfile'] at hread
    rw [hp, hp', FileTree.relative_injective w.cwd hread]
  · intro heq
    rw [relative, relative, relativeToCwd, relativeToCwd, heq]

/-- A relative path does not leave the root if and only if the place lies below the working
directory. -/
theorem inside_relative_iff (h : path ∈ w.getFilesInCwd) :
    ((lexicalPath (w.relative path)).absolute = false ∧
      (lexicalPath (w.relative path)).parts.head? ≠ some .up) ↔
      ∃ p ∈ w.canonical path, w.cwd <+: p := by
  obtain ⟨p, hp, hfile⟩ := canonical_of_collected h
  rw [lexicalPath_relative hp hfile, ne_eq, FileTree.head?_relative, not_not, hp]
  constructor
  · rintro ⟨-, hbelow⟩
    exact ⟨p, rfl, hbelow⟩
  · rintro ⟨q, hq, hbelow⟩
    obtain rfl : p = q := Option.some.inj hq
    exact ⟨rfl, hbelow⟩

/-- When the request for collected files has one path for each of them, all inside the root. -/
theorem distinctInside_iff {fileSize : Bytes → Except Exception UInt64} {r : TransferRequest}
    (hcollected : ∀ path ∈ paths, path ∈ w.getFilesInCwd) (hnodup : paths.Nodup)
    (hr : TransferRequest.fromFilePaths w.relative fileSize paths = .ok r) :
    r.DistinctInside paths.length ↔ w.Unaliased paths := by
  obtain ⟨hadd, -⟩ := TransferRequest.fromFilePaths_ok hr
  have hpaths := TransferRequest.map_relativePath_addFileInfos hadd
  rw [List.map_nil, List.nil_append] at hpaths
  have hlength : r.fileInfos.length = paths.length := by
    rw [← List.length_map (f := FileInfo.relativePath), hpaths, List.length_map]
  have hinside : (∀ info ∈ r.fileInfos, (lexicalPath info.relativePath).absolute = false ∧
      (lexicalPath info.relativePath).parts.head? ≠ some .up) ↔
      ∀ path ∈ paths, ∃ p ∈ w.canonical path, w.cwd <+: p := by
    rw [← List.forall_mem_map (f := FileInfo.relativePath)
      (P := fun s => (lexicalPath s).absolute = false ∧ (lexicalPath s).parts.head? ≠ some .up),
      hpaths, List.forall_mem_map]
    exact forall₂_congr fun path hpath => inside_relative_iff (hcollected path hpath)
  have hdistinct : (r.fileInfos.map FileInfo.relativePath).Nodup ↔
      ∀ path ∈ paths, ∀ path' ∈ paths, w.canonical path = w.canonical path' → path = path' := by
    rw [hpaths, List.nodup_map_iff_inj_on hnodup]
    exact forall₂_congr fun path hpath => forall₂_congr fun path' hpath' =>
      imp_congr_left (relative_eq_iff (hcollected path hpath) (hcollected path' hpath'))
  rw [TransferRequest.DistinctInside, Unaliased, hinside, hdistinct, and_iff_right hlength,
    and_comm]

/-- Without symbolic links every set of collected files is so. -/
theorem unaliased_of_noLinks (hlinks : w.tree.NoLinks)
    (hcollected : ∀ path ∈ paths, path ∈ w.getFilesInCwd) : w.Unaliased paths := by
  constructor
  · intro path hpath
    obtain ⟨p, hp, rfl⟩ := (mem_getFilesInCwd hlinks).mp (hcollected path hpath)
    exact ⟨p, canonical_pathString hp.1 rfl hp.ne_nil, hp.2.1⟩
  · intro path hpath path' hpath' heq
    obtain ⟨p, hp, rfl⟩ := (mem_getFilesInCwd hlinks).mp (hcollected path hpath)
    obtain ⟨p', hp', rfl⟩ := (mem_getFilesInCwd hlinks).mp (hcollected path' hpath')
    rw [canonical_pathString hp.1 rfl hp.ne_nil, canonical_pathString hp'.1 rfl hp'.ne_nil] at heq
    rw [Option.some.inj heq]

/-- A working directory with a file `a` and a symbolic link `b` to it. -/
def linked : WorkingTree where
  tree := ⟨[([], .directory), ([[119]], .directory), ([[119], [97]], .file),
    ([[119], [98]], .symlink ⟨false, [.name [97]]⟩)], by decide, by decide, by decide⟩
  names := by decide
  cwd := [[119]]
  cwd_directory := rfl

theorem distinctInside_iff_linked :
    TransferRequest.DistinctInside ⟨1, 1, 1, 0, 1, [⟨[97], 1⟩]⟩ 1 ↔
      linked.Unaliased [[47, 119, 47, 97]] := by
  have hr : TransferRequest.fromFilePaths linked.relative (fun _ => .ok 1) [[47, 119, 47, 97]] =
      .ok ⟨1, 1, 1, 0, 1, [⟨[97], 1⟩]⟩ := rfl
  exact distinctInside_iff (by decide +kernel) (by decide) hr

/-- Both files are sent under the name `a`. -/
theorem not_distinctInside_linked :
    (∀ path ∈ [[47, 119, 47, 97], [47, 119, 47, 98]], path ∈ linked.getFilesInCwd) ∧
      ∃ r, TransferRequest.fromFilePaths linked.relative (fun _ => .ok 1)
        [[47, 119, 47, 97], [47, 119, 47, 98]] = .ok r ∧ ¬ r.DistinctInside 2 := by
  refine ⟨by decide +kernel, ⟨2, 2, 2, 0, 1, [⟨[97], 1⟩, ⟨[97], 1⟩]⟩, rfl, ?_⟩
  decide

end WorkingTree

end Staging

end Trit
