import Trit.WorkingTree

/-!
# Staging a directory

`trit add` with the name of a directory: `normalize_patterns` appends `**` to it, and the text that
results is matched with the relative paths of the files.

* `WorkingTree.toTree`: what the commands on the staging area see; `resulting`: the staged set after
  a command;
* `Canonical`: a directory that is spelled by its names alone;
* `notMem_of_not_canonical`: the pattern for any other spelling matches no path;
* `mem_of_unbroken`: the pattern for a canonical spelling matches what lies under the directory;
* `stagesDirectory_iff`: when a directory argument stages the files under it.
-/

namespace Trit

open Glob

namespace Staging

/-! ### The staged set -/

/-- The staged set after `stage` or `unstage`. -/
def Effect.resulting (staged : Finset Bytes) : Effect → Finset Bytes
  | .nothing => staged
  | .save files => files
  | .delete => ∅

/-- `stage` adds the files that are to be staged. -/
theorem resulting_stageEffect (T S : Finset Bytes) : (stageEffect T S).resulting S = S ∪ T := by
  unfold stageEffect
  split_ifs with hfiles hempty hsub
  · rw [hfiles, hempty]
    rfl
  · rw [hfiles, Finset.union_empty]
    rfl
  · exact (Finset.union_eq_left.mpr hsub).symm
  · rfl

namespace WorkingTree

variable (w : WorkingTree)

/-- What the commands see of the files. -/
def toTree : Tree where
  present := (w.tree.places.filter fun p => (w.status (pathString p)).isSome).image pathString
  files := w.getFilesInCwd
  files_subset := by
    refine Finset.image_subset_image fun p hp => ?_
    obtain ⟨hplace, -, hstatus, -⟩ := Finset.mem_filter.mp hp
    exact Finset.mem_filter.mpr ⟨hplace, by rw [hstatus]; rfl⟩

/-- What `stage` does with the patterns, once it has loaded the staged files. -/
def stageAll (filePatterns : List Bytes) (staged : Finset Bytes) : Finset Bytes :=
  ((Update.stage (w.matching (w.normalizePatterns filePatterns))).effect w.toTree
    staged).resulting staged

theorem stageAll_eq (filePatterns : List Bytes) (staged : Finset Bytes) :
    w.stageAll filePatterns staged = staged ∪ w.filesToStage filePatterns :=
  resulting_stageEffect _ _

/-- The regular files at any depth under a directory, `staged.txt` apart. -/
def filesUnder (d : List Bytes) : Finset Bytes :=
  (w.tree.places.filter fun p => w.tree.kind p = some .file ∧ d <+: p ∧
    p ≠ w.stagingFilePath).image pathString

/-- `stage({arg})` adds the files under the directory, and no others. -/
def StagesDirectory (arg : Bytes) (d : List Bytes) (staged : Finset Bytes) : Prop :=
  w.stageAll [arg] staged = staged ∪ w.filesUnder d

end WorkingTree

/-! ### Spellings of a directory -/

/-- A relative path without `.` and `..`; slashes may be repeated. -/
def Canonical (arg : Bytes) : Prop := arg.head? ≠ some 47 ∧ ∀ a ∈ components arg, IsName a

instance : DecidablePred Canonical := fun _ => inferInstanceAs (Decidable (_ ∧ _))

/-- Some name has a line terminator in it, for which `.` does not stand. -/
def Broken (names : List Bytes) : Prop := ∃ a ∈ names, ∃ c ∈ a, c ∈ Regex.terminators

theorem mem_components {arg a : Bytes} : a ∈ components arg ↔ a ∈ arg.splitOn 47 ∧ a ≠ [] := by
  simp [components]

theorem components_append (p q : Bytes) :
    components (p ++ 47 :: q) = components p ++ components q := by
  rw [components, List.splitOn_append_cons_self, List.filter_append]
  rfl

theorem components_recursive : components [42, 42] = [[42, 42]] := by decide

/-- The pattern for the files under a directory. -/
theorem genericString_appendPath {arg : Bytes} (h : arg ≠ []) :
    genericString (appendPath arg [42, 42]) =
      (if arg.head? = some 47 then [47] else []) ++ separated (components arg ++ [[42, 42]]) := by
  have hcomponents : components (appendPath arg [42, 42]) = components arg ++ [[42, 42]] := by
    unfold appendPath
    split_ifs with hslash
    · have hlast := hslash.resolve_left h
      obtain ⟨init, rfl⟩ := List.getLast?_eq_some_iff.mp hlast
      rw [List.append_assoc, List.singleton_append, components_append, components_recursive,
        components_append]
      simp [components]
    · rw [components_append, components_recursive]
  have hhead : (appendPath arg [42, 42]).head? = arg.head? := by
    unfold appendPath
    split_ifs <;> exact List.head?_append_of_ne_nil _ h
  have hlast : (appendPath arg [42, 42]).getLast? = some 42 := by
    unfold appendPath
    split_ifs <;> simp
  rw [genericString, hcomponents, hhead, hlast]
  simp

theorem slash_notMem {s a : Bytes} (h : a ∈ s.splitOn 47) : 47 ∉ a := by
  induction s generalizing a with
  | nil =>
    obtain rfl : a = [] := by simpa using h
    exact List.not_mem_nil
  | cons c s ih =>
    rw [List.splitOn_cons_eq_if_modifyHead] at h
    split_ifs at h with hc
    · rcases List.mem_cons.mp h with rfl | h
      · exact List.not_mem_nil
      · exact ih h
    · obtain ⟨b, l, hl⟩ := List.exists_cons_of_ne_nil (List.splitOn_ne_nil 47 s)
      rw [hl, List.modifyHead_cons] at h
      rcases List.mem_cons.mp h with rfl | h
      · intro hmem
        rcases List.mem_cons.mp hmem with rfl | hmem
        · exact hc rfl
        · exact ih (by rw [hl]; exact List.mem_cons_self) hmem
      · exact ih (by rw [hl]; exact List.mem_cons_of_mem b h)

theorem plain_slash : Plain globAlphabet 47 := plain_separator (A := globAlphabet)

/-- A name without wildcards that stands in a pattern before a slash stands in every path that
matches. -/
theorem mem_splitOn_of_mem_language {a s : Bytes} {l r : List Bytes}
    (ha : ∀ c ∈ a, Plain globAlphabet c) (hslash : 47 ∉ a) (hr : r ≠ [])
    (h : s ∈ Glob.language globAlphabet dots (separated (l ++ a :: r))) : a ∈ s.splitOn 47 := by
  have hplain : ∀ c ∈ a ++ [47], Plain globAlphabet c := by
    intro c hc
    rcases List.mem_append.mp hc with hc | hc
    · exact ha c hc
    · rw [List.mem_singleton.mp hc]
      exact plain_slash
  have hfirst : ∀ u, u ∈ Glob.language globAlphabet dots (separated (a :: r)) →
      ∃ v, u = a ++ 47 :: v := by
    intro u hu
    rw [separated_cons hr, List.append_cons] at hu
    obtain ⟨v, -, rfl⟩ := (mem_language_plain_append hplain _ u).mp hu
    exact ⟨v, (List.append_cons a 47 v).symm⟩
  by_cases hl : l = []
  · rw [hl] at h
    obtain ⟨v, rfl⟩ := hfirst s h
    rw [List.splitOn_append_cons_self_of_not_mem hslash]
    exact List.mem_cons_self
  · rw [separated_append hl (List.cons_ne_nil a r)] at h
    obtain ⟨u, -, w, hw, rfl⟩ := (mem_language_separated (A := globAlphabet) _ _ s).mp h
    obtain ⟨v, rfl⟩ := hfirst w hw
    show a ∈ (u ++ 47 :: (a ++ 47 :: v)).splitOn 47
    rw [List.splitOn_append_cons_self, List.splitOn_append_cons_self_of_not_mem hslash]
    exact List.mem_append_right _ List.mem_cons_self

/-- The pattern for a spelling that is not canonical matches no relative path. -/
theorem notMem_of_not_canonical {arg : Bytes} {rel : List Bytes} (hne : arg ≠ [])
    (h : ¬ Canonical arg) (hrel : rel ≠ []) (hnames : ∀ a ∈ rel, IsName a) :
    separated rel ∉ Glob.language globAlphabet dots (genericString (appendPath arg [42, 42])) := by
  intro hmem
  rw [genericString_appendPath hne] at hmem
  have hsplit := splitOn_separated hnames hrel
  by_cases hhead : arg.head? = some 47
  · -- an absolute path: the first name would be empty
    rw [if_pos hhead] at hmem
    obtain ⟨v, -, hv⟩ := (mem_language_plain_append (u := [47])
      (by simpa using plain_slash) _ _).mp hmem
    refine head?_ne_slash (s := separated rel) ?_ (by rw [hv]; rfl)
    rw [hsplit]
    exact fun hnil => (hnames [] hnil).1 rfl
  · rw [if_neg hhead, List.nil_append] at hmem
    obtain ⟨a, ha, hname⟩ : ∃ a ∈ components arg, ¬ IsName a := by
      by_contra hall
      exact h ⟨hhead, fun a ha => by_contra fun hname => hall ⟨a, ha, hname⟩⟩
    obtain ⟨hasplit, hane⟩ := mem_components.mp ha
    have hslash := slash_notMem hasplit
    by_cases hzero : 0 ∈ a
    · have hpattern := mem_separated_of_mem (List.mem_append_left [[42, 42]] ha) hzero
      have hin := mem_of_mem_language (A := globAlphabet) (by decide) hpattern hmem
      rcases mem_separated hin with hin | ⟨b, hb, hin⟩
      · cases hin
      · exact (hnames b hb).2.2.2.2 hin
    · have hdots : a = [46] ∨ a = [46, 46] := by
        by_contra hnot
        rw [not_or] at hnot
        exact hname ⟨hane, hnot.1, hnot.2, hslash, hzero⟩
      have hplain : ∀ c ∈ a, Plain globAlphabet c := by
        rcases hdots with rfl | rfl <;> decide +kernel
      obtain ⟨l, r, hlr⟩ := List.append_of_mem ha
      rw [hlr, List.append_assoc, List.cons_append] at hmem
      have hrel := mem_splitOn_of_mem_language hplain hslash (by simp) hmem
      rw [hsplit] at hrel
      exact hname (hnames a hrel)

/-! ### Canonical spellings -/

theorem filterMap_name_pathPart {l : List Bytes} (h : ∀ a ∈ l, a = [] ∨ IsName a) :
    (l.map pathPart).filterMap LexicalPath.Part.name? = l.filter (· ≠ []) := by
  induction l with
  | nil => rfl
  | cons a l ih =>
    have ih := ih fun b hb => h b (List.mem_cons_of_mem a hb)
    rw [List.map_cons]
    rcases h a List.mem_cons_self with rfl | hname
    · exact ih
    · rw [hname.pathPart_eq, List.filter_cons_of_pos (by simpa using hname.1), ← ih]
      rfl

theorem Canonical.components_ne_nil {arg : Bytes} (h : Canonical arg) (hne : arg ≠ []) :
    components arg ≠ [] := by
  obtain ⟨c, arg, rfl⟩ := List.exists_cons_of_ne_nil hne
  have hc : c ≠ 47 := by
    rintro rfl
    exact h.1 rfl
  obtain ⟨a, l, hl⟩ := List.exists_cons_of_ne_nil (List.splitOn_ne_nil (47 : UInt8) arg)
  have hmem : c :: a ∈ components (c :: arg) := by
    rw [mem_components, List.splitOn_cons_eq_if_modifyHead, if_neg (by simpa using hc), hl]
    exact ⟨List.mem_cons_self, List.cons_ne_nil c a⟩
  exact List.ne_nil_of_mem hmem

/-- A canonical spelling leads to the directory with its names. -/
theorem resolve_of_canonical {arg : Bytes} (h : Canonical arg) (cwd : List Bytes) :
    (lexicalPath arg).resolve cwd = cwd ++ components arg := by
  have hpart : ∀ a ∈ arg.splitOn 47, a = [] ∨ IsName a := by
    intro a ha
    by_cases hnil : a = []
    · exact Or.inl hnil
    · exact Or.inr (h.2 a (mem_components.mpr ⟨ha, hnil⟩))
  have hzero : 0 ∉ arg := by
    intro hmem
    rw [← separated_splitOn arg] at hmem
    rcases mem_separated hmem with hmem | ⟨a, ha, hmem⟩
    · cases hmem
    · rcases hpart a ha with rfl | hname
      · cases hmem
      · exact hname.2.2.2.2 hmem
  have hup : .up ∉ (lexicalPath arg).parts := by
    intro hmem
    rw [lexicalPath, cString_eq_self hzero] at hmem
    obtain ⟨a, ha, hup⟩ := List.mem_map.mp hmem
    rcases hpart a ha with rfl | hname
    · cases hup
    · rw [hname.pathPart_eq] at hup
      cases hup
  have habsolute : (lexicalPath arg).absolute = false := by
    rw [lexicalPath, cString_eq_self hzero]
    simpa using h.1
  rw [LexicalPath.resolve_of_descends ⟨habsolute, hup⟩]
  rw [lexicalPath, cString_eq_self hzero, components, filterMap_name_pathPart hpart]

theorem mem_language_recursive {s : Bytes} :
    s ∈ Glob.language globAlphabet dots [42, 42] ↔ ∀ c ∈ s, c ∈ dots := by
  have hdeep : Glob.language globAlphabet dots [42, 42] =
      Token.language globAlphabet dots .deep * 1 := language_star_star (A := globAlphabet) []
  rw [hdeep, mul_one]
  rfl

/-- Two stars match names without line terminators. -/
theorem mem_recursive_of_unbroken {names : List Bytes} (h : ¬ Broken names) :
    separated names ∈ Glob.language globAlphabet dots [42, 42] := by
  refine mem_language_recursive.mpr fun c hc hterminator => ?_
  rcases mem_separated hc with rfl | ⟨a, ha, hca⟩
  · exact absurd hterminator (by decide)
  · exact h ⟨a, ha, c, hca, hterminator⟩

/-- The pattern for a canonical spelling matches what lies under the directory, as long as no line
terminator is in the way. -/
theorem mem_of_unbroken {dir tail : List Bytes} (hdir : dir ≠ []) (htail : tail ≠ [])
    (h : ¬ Broken tail) :
    separated (dir ++ tail) ∈
      Glob.language globAlphabet dots (separated (dir ++ [[42, 42]])) := by
  rw [separated_append hdir htail, separated_append hdir (List.cons_ne_nil _ _)]
  refine (mem_language_separated (A := globAlphabet) _ _ _).mpr ⟨separated dir,
    self_mem_language (by decide) (by decide) _, separated tail, ?_, rfl⟩
  rw [separated_singleton]
  exact mem_recursive_of_unbroken h

namespace WorkingTree

variable {w : WorkingTree} {arg : Bytes} {d p : List Bytes} {staged : Finset Bytes}

/-- The relative path of a file matches the spelling of a directory with `/**` behind it. -/
def NamedBy (w : WorkingTree) (arg : Bytes) (p : List Bytes) : Prop :=
  w.relativePath p ∈ Glob.language globAlphabet dots (separated (components arg ++ [[42, 42]]))

/-- The directory is spelled canonically, no file under it is missed because of a line terminator
in its name, and no file elsewhere matches the wildcards in the name of the directory; or it is
spelled otherwise, and there is nothing under it to stage. -/
def Names (w : WorkingTree) (arg : Bytes) (d : List Bytes) (staged : Finset Bytes) : Prop :=
  if Canonical arg then
    (∀ p, w.Regular p → pathString p ∉ staged → d <+: p → Broken (p.drop d.length) →
      w.NamedBy arg p) ∧
    ∀ p, w.Regular p → pathString p ∉ staged → ¬ d <+: p → ¬ w.NamedBy arg p
  else ∀ p, w.Regular p → d <+: p → pathString p ∈ staged

theorem ne_nil_of_canonical (hd : w.canonical arg = some d) : arg ≠ [] := by
  rintro rfl
  cases hd

theorem mem_filesUnder (hbelow : w.cwd <+: d) {path : Bytes} :
    path ∈ w.filesUnder d ↔ ∃ p, w.Regular p ∧ d <+: p ∧ pathString p = path := by
  simp only [filesUnder, Finset.mem_image, Finset.mem_filter]
  constructor
  · rintro ⟨p, ⟨-, hfile, hunder, hstaging⟩, rfl⟩
    exact ⟨p, ⟨hfile, hbelow.trans hunder, hstaging⟩, hunder, rfl⟩
  · rintro ⟨p, hregular, hunder, rfl⟩
    exact ⟨p, ⟨FileTree.mem_places.mpr ⟨_, hregular.1⟩, hregular.1, hunder, hregular.2.2⟩, rfl⟩

theorem Regular.mem_filesUnder (hbelow : w.cwd <+: d) (hp : w.Regular p) :
    pathString p ∈ w.filesUnder d ↔ d <+: p := by
  rw [WorkingTree.mem_filesUnder hbelow]
  constructor
  · rintro ⟨q, hq, hunder, heq⟩
    rwa [← hq.pathString_injective hp heq]
  · intro hunder
    exact ⟨p, hp, hunder, rfl⟩

/-- `StagesDirectory`, file by file: the pattern agrees with the directory on every file that was
not staged before. -/
theorem stagesDirectory_iff_forall (hlinks : w.tree.NoLinks) (hbelow : w.cwd <+: d) :
    w.StagesDirectory arg d staged ↔ ∀ p, w.Regular p → pathString p ∉ staged →
      (w.relativePath p ∈ Glob.language globAlphabet dots (w.normalizePattern arg) ↔
        d <+: p) := by
  rw [StagesDirectory, stageAll_eq]
  constructor
  · intro h p hp hnot
    have hmem := Finset.ext_iff.mp h (pathString p)
    rw [Finset.mem_union, Finset.mem_union, or_iff_right hnot, or_iff_right hnot,
      hp.mem_filesToStage hlinks, hp.mem_filesUnder hbelow] at hmem
    exact hmem
  · intro h
    ext path
    rw [Finset.mem_union, Finset.mem_union]
    by_cases hnot : path ∈ staged
    · exact iff_of_true (Or.inl hnot) (Or.inl hnot)
    · rw [or_iff_right hnot, or_iff_right hnot, mem_filesToStage hlinks, mem_filesUnder hbelow]
      constructor
      · rintro ⟨p, hp, hmem, rfl⟩
        exact ⟨p, hp, (h p hp hnot).mp hmem, rfl⟩
      · rintro ⟨p, hp, hunder, rfl⟩
        exact ⟨p, hp, (h p hp hnot).mpr hunder, rfl⟩

/-- The pattern for a spelling that is not canonical selects nothing. -/
theorem Regular.notMem_of_not_canonical (hp : w.Regular p) (hne : arg ≠ [])
    (h : ¬ Canonical arg) :
    w.relativePath p ∉
      Glob.language globAlphabet dots (genericString (appendPath arg [42, 42])) := by
  obtain ⟨rel, hrel, rfl⟩ := hp.exists_append
  rw [relativePath_append]
  exact Staging.notMem_of_not_canonical hne h hrel fun a ha =>
    isName_of_kind hp.1 a (List.mem_append_right _ ha)

/-- The pattern for a canonical spelling selects what lies under the directory. -/
theorem Regular.namedBy_of_unbroken (hp : w.Regular p) (hdir : components arg ≠ [])
    (hunder : w.cwd ++ components arg <+: p) (hd : w.tree.kind (w.cwd ++ components arg) =
      some .directory) (h : ¬ Broken (p.drop (w.cwd ++ components arg).length)) :
    w.NamedBy arg p := by
  obtain ⟨tail, rfl⟩ := hunder
  rw [List.drop_left] at h
  have htail : tail ≠ [] := by
    rintro rfl
    have hfile := hp.1
    rw [List.append_nil, hd] at hfile
    cases hfile
  rw [NamedBy, List.append_assoc, relativePath_append]
  exact mem_of_unbroken hdir htail h

/-- When a directory argument stages exactly the files under the directory. -/
theorem stagesDirectory_iff (hlinks : w.tree.NoLinks) (hd : w.canonical arg = some d)
    (hdir : w.tree.kind d = some .directory) (hbelow : w.cwd <+: d) (staged : Finset Bytes) :
    w.StagesDirectory arg d staged ↔ w.Names arg d staged := by
  have hne := ne_nil_of_canonical hd
  have hnormal : w.normalizePattern arg = genericString (appendPath arg [42, 42]) := by
    rw [normalizePattern, if_pos (by rw [status, hd]; exact hdir)]
  rw [stagesDirectory_iff_forall hlinks hbelow, hnormal, Names]
  split_ifs with hcanonical
  · have hplace : d = w.cwd ++ components arg := by
      rw [canonical] at hd
      split_ifs at hd
      rw [FileTree.resolve_eq hlinks hd, resolve_of_canonical hcanonical]
    have hpattern : genericString (appendPath arg [42, 42]) =
        separated (components arg ++ [[42, 42]]) := by
      rw [genericString_appendPath hne, if_neg hcanonical.1, List.nil_append]
    rw [hpattern]
    constructor
    · intro h
      exact ⟨fun p hp hnot hunder _ => (h p hp hnot).mpr hunder,
        fun p hp hnot hunder hnamed => hunder ((h p hp hnot).mp hnamed)⟩
    · rintro ⟨hmissed, hother⟩ p hp hnot
      by_cases hunder : d <+: p
      · refine iff_of_true ?_ hunder
        by_cases hbroken : Broken (p.drop d.length)
        · exact hmissed p hp hnot hunder hbroken
        · rw [hplace] at hunder hbroken hdir
          exact hp.namedBy_of_unbroken (hcanonical.components_ne_nil hne) hunder hdir hbroken
      · exact iff_of_false (hother p hp hnot hunder) hunder
  · constructor
    · intro h p hp hunder
      by_contra hnot
      exact hp.notMem_of_not_canonical hne hcanonical ((h p hp hnot).mpr hunder)
    · intro h p hp hnot
      exact iff_of_false (hp.notMem_of_not_canonical hne hcanonical)
        fun hunder => hnot (h p hp hunder)

/-- A canonical spelling without wildcards names the files under the directory, unless a line
terminator is in the way. -/
theorem names_of_plain (hne : arg ≠ []) (hcanonical : Canonical arg)
    (hplain : ∀ c ∈ arg, Plain globAlphabet c)
    (hunbroken : ∀ p, w.Regular p → w.cwd ++ components arg <+: p →
      ¬ Broken (p.drop (w.cwd ++ components arg).length)) :
    w.Names arg (w.cwd ++ components arg) staged := by
  rw [Names, if_pos hcanonical]
  refine ⟨fun p hp _ hunder hbroken => absurd hbroken (hunbroken p hp hunder), ?_⟩
  intro p hp _ hnot hnamed
  obtain ⟨rel, hrel, rfl⟩ := hp.exists_append
  have hnames : ∀ a ∈ rel, IsName a := fun a ha =>
    isName_of_kind hp.1 a (List.mem_append_right _ ha)
  have hdir := hcanonical.components_ne_nil hne
  have hchars : ∀ c ∈ separated (components arg), Plain globAlphabet c := by
    intro c hc
    rcases mem_separated hc with rfl | ⟨a, ha, hca⟩
    · exact plain_slash
    · refine hplain c ?_
      rw [← separated_splitOn arg]
      exact mem_separated_of_mem (mem_components.mp ha).1 hca
  rw [NamedBy, relativePath_append, separated_append hdir (List.cons_ne_nil _ _)] at hnamed
  obtain ⟨u, hu, v, -, hv⟩ := (mem_language_separated (A := globAlphabet) _ _ _).mp hnamed
  rw [mem_language_plain hchars] at hu
  have hsplit : rel = components arg ++ v.splitOn 47 := by
    have hdirsplit := splitOn_separated hcanonical.2 hdir
    rw [← splitOn_separated hnames hrel, hv, hu]
    exact (List.splitOn_append_cons_self _ _).trans (by rw [hdirsplit])
  apply hnot
  rw [hsplit, ← List.append_assoc]
  exact List.prefix_append _ _

/-- A working directory with one file, in a subdirectory. -/
def oneFile : WorkingTree where
  tree := ⟨[([], .directory), ([[119]], .directory), ([[119], [97]], .directory),
    ([[119], [97], [98]], .file)], by decide, by decide, by decide⟩
  names := by decide
  cwd := [[119]]
  cwd_directory := rfl

theorem stagesDirectory_iff_oneFile :
    oneFile.StagesDirectory [97] [[119], [97]] ∅ ↔ oneFile.Names [97] [[119], [97]] ∅ :=
  stagesDirectory_iff (by decide) (by decide) (by decide) (by decide) ∅

/-- `trit add .` stages nothing. -/
theorem not_stagesDirectory_here : oneFile.canonical [46] = some oneFile.cwd ∧
    ¬ oneFile.StagesDirectory [46] oneFile.cwd ∅ := by
  refine ⟨by decide, ?_⟩
  unfold StagesDirectory
  decide +kernel

end WorkingTree

end Staging

end Trit
