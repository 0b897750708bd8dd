import Trit.StagingDirectories

/-!
# Recursive patterns

`trit add '**/*.ext'` and `trit add 'p/**/*.ext'`: which files with the extension are selected.

* `recursivePattern`: the pattern of a subdirectory and an extension;
* `Ends`: the name of a file ends in the extension;
* `mem_language_recursivePattern`: below the subdirectory the pattern matches the names with the
  extension, but not those directly in it;
* `selectsRecursively_iff`: when the pattern selects the files with the extension at every depth.
-/

namespace Trit

open Glob

namespace Staging

/-- `p/**/*.ext`, or `**/*.ext` without a subdirectory. -/
def recursivePattern (sub : List Bytes) (ext : Bytes) : Bytes :=
  separated (sub ++ [[42, 42], 42 :: 46 :: ext])

/-- The last name of a path ends in the extension. -/
def Ends (ext : Bytes) (p : List Bytes) : Prop := ∃ a ∈ p.getLast?, 46 :: ext <:+ a

instance (ext : Bytes) : DecidablePred (Ends ext) := fun p =>
  inferInstanceAs (Decidable (∃ a ∈ p.getLast?, 46 :: ext <:+ a))

instance : DecidablePred Broken := fun names =>
  inferInstanceAs (Decidable (∃ a ∈ names, ∃ c ∈ a, c ∈ Regex.terminators))

/-- An extension as the user writes it in a pattern. -/
def IsExtension (ext : Bytes) : Prop := 47 ∉ ext ∧ 42 ∉ ext ∧ 63 ∉ ext

instance : DecidablePred IsExtension := fun _ => inferInstanceAs (Decidable (_ ∧ _))

namespace WorkingTree

variable (w : WorkingTree)

/-- The regular files at any depth under a directory whose names end in the extension, `staged.txt`
apart. -/
def filesEnding (d : List Bytes) (ext : Bytes) : Finset Bytes :=
  (w.tree.places.filter fun p => w.tree.kind p = some .file ∧ d <+: p ∧ p ≠ w.stagingFilePath ∧
    Ends ext p).image pathString

/-- `stage({"p/**/*.ext"})` selects the files with the extension at any depth under `p`. -/
def SelectsRecursively (sub : List Bytes) (ext : Bytes) : Prop :=
  w.filesToStage [recursivePattern sub ext] = w.filesEnding (w.cwd ++ sub) ext

/-- The relative path of a place matches the pattern. -/
def Matches (sub : List Bytes) (ext : Bytes) (p : List Bytes) : Prop :=
  w.relativePath p ∈ Glob.language globAlphabet dots (recursivePattern sub ext)

/-- A place two or more levels below the subdirectory, with the extension. -/
def Deep (sub : List Bytes) (ext : Bytes) (p : List Bytes) : Prop :=
  ∃ rel, p = w.cwd ++ sub ++ rel ∧ 2 ≤ rel.length ∧ Ends ext rel

/-- No file directly in the subdirectory has the extension, and no file elsewhere matches the
wildcards in the names of the subdirectory.  If there is a directory that is called like the pattern
itself, then `normalize_patterns` makes another pattern of it, and the files below the places that
match have to be those with the extension. -/
def Covers (sub : List Bytes) (ext : Bytes) : Prop :=
  if w.status (recursivePattern sub ext) = some .directory then
    (∀ p, w.Regular p → w.cwd ++ sub <+: p →
      (Ends ext p ↔ ∃ q, q <+: p ∧ q ≠ p ∧ w.Deep sub ext q)) ∧
    ∀ p, w.Regular p → ¬ w.cwd ++ sub <+: p → ∀ q, q <+: p → q ≠ p → ¬ w.Matches sub ext q
  else
    (∀ p, w.Regular p → w.cwd ++ sub <+: p → Ends ext p → w.Deep sub ext p) ∧
    ∀ p, w.Regular p → ¬ w.cwd ++ sub <+: p → ¬ w.Matches sub ext p

end WorkingTree

/-! ### What the pattern matches -/

theorem Broken.append_left {l : List Bytes} (h : Broken l) (r : List Bytes) : Broken (l ++ r) :=
  let ⟨a, ha, c, hc⟩ := h
  ⟨a, List.mem_append_left r ha, c, hc⟩

theorem Broken.append_right {r : List Bytes} (h : Broken r) (l : List Bytes) : Broken (l ++ r) :=
  let ⟨a, ha, c, hc⟩ := h
  ⟨a, List.mem_append_right l ha, c, hc⟩

theorem Ends.append_left {ext : Bytes} {rel : List Bytes} (h : Ends ext rel) (hrel : rel ≠ [])
    (l : List Bytes) : Ends ext (l ++ rel) := by
  rwa [Ends, List.getLast?_append_of_ne_nil _ hrel]

theorem count_separated {names : List Bytes} (h : ∀ a ∈ names, 47 ∉ a) (hne : names ≠ []) :
    (separated names).count 47 + 1 = names.length := by
  induction names with
  | nil => exact absurd rfl hne
  | cons a names ih =>
    have ha : a.count 47 = 0 := List.count_eq_zero.mpr (h a List.mem_cons_self)
    by_cases hnil : names = []
    · rw [hnil, separated_singleton, ha]
      rfl
    · have ih := ih (fun b hb => h b (List.mem_cons_of_mem a hb)) hnil
      rw [separated_cons hnil, List.count_append, List.count_cons_self, List.length_cons]
      omega

/-- One star and the extension match a name with the extension. -/
theorem mem_language_extension {ext s : Bytes} (hext : IsExtension ext) :
    s ∈ Glob.language globAlphabet dots (42 :: 46 :: ext) ↔ 47 ∉ s ∧ 46 :: ext <:+ s := by
  have hplain : ∀ c ∈ 46 :: ext, Plain globAlphabet c := by
    intro c hc
    rcases List.mem_cons.mp hc with rfl | hc
    · decide
    · exact ⟨fun (hstar : c = 42) => hext.2.1 (hstar ▸ hc),
        fun (hmark : c = 63) => hext.2.2 (hmark ▸ hc)⟩
  have hstar : Glob.language globAlphabet dots (42 :: 46 :: ext) =
      Token.language globAlphabet dots .shallow * Glob.language globAlphabet dots (46 :: ext) :=
    language_star (by decide) ext
  rw [hstar, Language.mem_mul]
  constructor
  · rintro ⟨u, hu, v, hv, rfl⟩
    obtain rfl := (mem_language_plain hplain v).mp hv
    refine ⟨?_, List.suffix_append u _⟩
    intro hslash
    rcases List.mem_append.mp hslash with hslash | hslash
    · exact hu hslash
    · rcases List.mem_cons.mp hslash with hslash | hslash
      · cases hslash
      · exact hext.1 hslash
  · rintro ⟨hslash, u, rfl⟩
    exact ⟨u, fun hu => hslash (List.mem_append_left _ hu), _,
      (mem_language_plain hplain _).mpr rfl, rfl⟩

/-- Only files with the extension match, wherever they lie. -/
theorem ends_of_mem_language {sub rel : List Bytes} {ext : Bytes} (hext : IsExtension ext)
    (hnames : ∀ a ∈ rel, IsName a) (hrel : rel ≠ [])
    (h : separated rel ∈ Glob.language globAlphabet dots (recursivePattern sub ext)) :
    Ends ext rel := by
  have hpattern : recursivePattern sub ext =
      separated (sub ++ [[42, 42]]) ++ 47 :: (42 :: 46 :: ext) := by
    rw [recursivePattern, List.append_cons, separated_append (by simp) (by simp)]
    rw [separated_singleton]
  rw [hpattern] at h
  obtain ⟨u, -, v, hv, heq⟩ := (mem_language_separated (A := globAlphabet) _ _ _).mp h
  obtain ⟨hslash, hsuffix⟩ := (mem_language_extension hext).mp hv
  have hsplit : rel = u.splitOn 47 ++ [v] := by
    rw [← splitOn_separated hnames hrel, heq]
    exact (List.splitOn_append_cons_self u v).trans
      (congrArg _ (List.splitOn_eq_singleton hslash))
  refine ⟨v, ?_, hsuffix⟩
  rw [hsplit, List.getLast?_concat]
  exact rfl

theorem recursivePattern_parts {sub : List Bytes} {ext : Bytes} (hsub : ∀ a ∈ sub, IsName a)
    (hext : IsExtension ext) : ∀ a ∈ sub ++ [[42, 42], 42 :: 46 :: ext], 47 ∉ a ∧ a ≠ [] := by
  intro a ha
  rcases List.mem_append.mp ha with ha | ha
  · exact ⟨(hsub a ha).2.2.2.1, (hsub a ha).1⟩
  · rcases List.mem_pair.mp ha with rfl | rfl
    · decide
    · simpa using hext.1

/-- The pattern asks for two levels below the subdirectory. -/
theorem length_of_mem_language {sub rel : List Bytes} {ext : Bytes} (hsub : ∀ a ∈ sub, IsName a)
    (hext : IsExtension ext) (hnames : ∀ a ∈ rel, IsName a)
    (h : separated rel ∈ Glob.language globAlphabet dots (recursivePattern sub ext)) :
    sub.length + 2 ≤ rel.length := by
  have hpattern := count_separated (fun a ha => (recursivePattern_parts hsub hext a ha).1) (by simp)
  have hcount := count_le_of_mem plain_slash h
  rw [recursivePattern] at hcount
  rw [List.length_append, List.length_cons, List.length_singleton] at hpattern
  by_cases hrel : rel = []
  · rw [hrel, separated_nil, List.count_nil] at hcount
    omega
  · have hlength := count_separated (fun a ha => (hnames a ha).2.2.2.1) hrel
    omega

/-- Below the subdirectory the pattern matches what is two or more levels down and has the
extension. -/
theorem mem_language_recursivePattern {sub rel : List Bytes} {ext : Bytes}
    (hext : IsExtension ext) (hnames : ∀ a ∈ sub ++ rel, IsName a) (hunbroken : ¬ Broken rel) :
    separated (sub ++ rel) ∈ Glob.language globAlphabet dots (recursivePattern sub ext) ↔
      2 ≤ rel.length ∧ Ends ext rel := by
  constructor
  · intro h
    have hlength := length_of_mem_language (fun a ha => hnames a (List.mem_append_left _ ha)) hext
      hnames h
    rw [List.length_append] at hlength
    have hrel : rel ≠ [] := by
      rintro rfl
      rw [List.length_nil] at hlength
      omega
    obtain ⟨a, ha, hsuffix⟩ := ends_of_mem_language hext hnames (by simp [hrel]) h
    rw [List.getLast?_append_of_ne_nil _ hrel] at ha
    exact ⟨by omega, a, ha, hsuffix⟩
  · rintro ⟨hlength, a, ha, hsuffix⟩
    obtain ⟨dirs, rfl⟩ := List.getLast?_eq_some_iff.mp ha
    have hdirs : dirs ≠ [] := by
      rintro rfl
      simp at hlength
    have hname := hnames a (by simp)
    have hdeep := mem_recursive_of_unbroken fun hbroken : Broken dirs =>
      hunbroken (hbroken.append_left [a])
    have hlow : separated (dirs ++ [a]) ∈
        Glob.language globAlphabet dots (separated [[42, 42], 42 :: 46 :: ext]) := by
      rw [separated_append hdirs (List.cons_ne_nil _ _), separated_cons (List.cons_ne_nil _ _),
        separated_singleton, separated_singleton]
      exact (mem_language_separated (A := globAlphabet) _ _ _).mpr ⟨_, hdeep, a,
        (mem_language_extension hext).mpr ⟨hname.2.2.2.1, hsuffix⟩, rfl⟩
    by_cases hsub : sub = []
    · rw [hsub]
      exact hlow
    · rw [recursivePattern, separated_append hsub (by simp), separated_append hsub (by simp)]
      exact (mem_language_separated (A := globAlphabet) _ _ _).mpr
        ⟨_, self_mem_language (by decide) (by decide) _, _, hlow, rfl⟩

/-- With two more stars behind it a pattern matches what lies below the places it matches. -/
theorem mem_language_below {l rel : List Bytes} (hl : l ≠ []) (hnames : ∀ a ∈ rel, IsName a)
    (hrel : rel ≠ []) (hunbroken : ¬ Broken rel) :
    separated rel ∈ Glob.language globAlphabet dots (separated (l ++ [[42, 42]])) ↔
      ∃ dirs tail, rel = dirs ++ tail ∧ dirs ≠ [] ∧ tail ≠ [] ∧
        separated dirs ∈ Glob.language globAlphabet dots (separated l) := by
  rw [separated_append hl (List.cons_ne_nil _ _), separated_singleton]
  refine (mem_language_separated (A := globAlphabet) _ _ _).trans ?_
  constructor
  · rintro ⟨u, hu, v, -, heq⟩
    refine ⟨u.splitOn 47, v.splitOn 47, ?_, List.splitOn_ne_nil _ _, List.splitOn_ne_nil _ _, ?_⟩
    · rw [← splitOn_separated hnames hrel, heq]
      exact List.splitOn_append_cons_self u v
    · rwa [separated_splitOn]
  · rintro ⟨dirs, tail, rfl, hdirs, htail, hmem⟩
    exact ⟨_, hmem, separated tail, mem_recursive_of_unbroken fun hbroken =>
      hunbroken (hbroken.append_right dirs), separated_append hdirs htail⟩

namespace WorkingTree

variable {w : WorkingTree} {sub p q : List Bytes} {ext : Bytes}

/-! ### What is selected -/

theorem mem_filesEnding {path : Bytes} :
    path ∈ w.filesEnding (w.cwd ++ sub) ext ↔
      ∃ p, w.Regular p ∧ (w.cwd ++ sub <+: p ∧ Ends ext p) ∧ pathString p = path := by
  simp only [filesEnding, Finset.mem_image, Finset.mem_filter]
  constructor
  · rintro ⟨p, ⟨-, hfile, hunder, hstaging, hends⟩, rfl⟩
    exact ⟨p, ⟨hfile, (List.prefix_append _ _).trans hunder, hstaging⟩, ⟨hunder, hends⟩, rfl⟩
  · rintro ⟨p, hregular, ⟨hunder, hends⟩, rfl⟩
    exact ⟨p, ⟨FileTree.mem_places.mpr ⟨_, hregular.1⟩, hregular.1, hunder, hregular.2.2, hends⟩,
      rfl⟩

/-- `SelectsRecursively`, file by file: the pattern that is used matches the relative paths of the
right files. -/
theorem selectsRecursively_iff_forall (hlinks : w.tree.NoLinks) :
    w.SelectsRecursively sub ext ↔ ∀ p, w.Regular p →
      (w.relativePath p ∈ Glob.language globAlphabet dots
        (w.normalizePattern (recursivePattern sub ext)) ↔ w.cwd ++ sub <+: p ∧ Ends ext p) := by
  rw [SelectsRecursively]
  constructor
  · intro h p hp
    rw [← hp.mem_filesToStage hlinks, h, mem_filesEnding]
    constructor
    · rintro ⟨q, hq, hends, heq⟩
      rwa [← hq.pathString_injective hp heq]
    · intro hends
      exact ⟨p, hp, hends, rfl⟩
  · intro h
    ext path
    rw [mem_filesToStage hlinks, mem_filesEnding]
    exact exists_congr fun p => and_congr_right fun hp => and_congr_left fun _ => h p hp

/-- A place that matches lies at least two levels below the working directory. -/
theorem Matches.exists_append (hsub : ∀ a ∈ sub, IsName a) (hext : IsExtension ext)
    (hnames : ∀ a ∈ p, IsName a) (hbelow : w.cwd <+: p) (hq : q <+: p)
    (h : w.Matches sub ext q) : ∃ rel, q = w.cwd ++ rel ∧ sub.length + 2 ≤ rel.length := by
  have hlength := length_of_mem_language hsub hext
    (fun a ha => hnames a (hq.subset (List.mem_of_mem_drop ha))) h
  rcases List.prefix_or_prefix_of_prefix hbelow hq with ⟨rel, rfl⟩ | hshort
  · rw [List.drop_left] at hlength
    exact ⟨rel, rfl, hlength⟩
  · rw [List.drop_eq_nil_of_le hshort.length_le, List.length_nil] at hlength
    omega

/-- On the way to a place below the subdirectory, the pattern matches what lies deep enough and has
the extension. -/
theorem matches_iff_deep (hext : IsExtension ext) (hnames : ∀ a ∈ p, IsName a)
    (hunbroken : ¬ Broken (p.drop w.cwd.length)) (hunder : w.cwd ++ sub <+: p) (hq : q <+: p) :
    w.Matches sub ext q ↔ w.Deep sub ext q := by
  have hsub : ∀ a ∈ sub, IsName a := fun a ha =>
    hnames a (hunder.subset (List.mem_append_right _ ha))
  have hrel : ∀ rel, w.cwd ++ sub ++ rel <+: p →
      (w.Matches sub ext (w.cwd ++ sub ++ rel) ↔ 2 ≤ rel.length ∧ Ends ext rel) := by
    rintro rel ⟨tail, rfl⟩
    rw [Matches, List.append_assoc, relativePath_append]
    refine mem_language_recursivePattern hext (fun a ha => hnames a ?_) fun hbroken =>
      hunbroken ?_
    · rw [List.append_assoc w.cwd]
      exact List.mem_append_left _ (List.mem_append_right _ ha)
    · rw [List.append_assoc, List.append_assoc, List.drop_left]
      exact (hbroken.append_left tail).append_right sub
  constructor
  · intro h
    obtain ⟨r, rfl, hlength⟩ :=
      h.exists_append hsub hext hnames ((List.prefix_append _ _).trans hunder) hq
    obtain ⟨rel, heq⟩ : w.cwd ++ sub <+: w.cwd ++ r := by
      refine List.prefix_of_prefix_length_le hunder hq ?_
      rw [List.length_append, List.length_append]
      omega
    rw [← heq] at h hq ⊢
    exact ⟨rel, rfl, (hrel rel hq).mp h⟩
  · rintro ⟨rel, rfl, hdeep⟩
    exact (hrel rel hq).mpr hdeep

/-- The pattern that `normalize_patterns` makes of the name of a directory that is called like the
pattern. -/
theorem genericString_recursivePattern (hsub : ∀ a ∈ sub, IsName a) (hext : IsExtension ext) :
    genericString (appendPath (recursivePattern sub ext) [42, 42]) =
      separated (sub ++ [[42, 42], 42 :: 46 :: ext] ++ [[42, 42]]) := by
  have hslash := recursivePattern_parts hsub hext
  have hsplit : (recursivePattern sub ext).splitOn 47 = sub ++ [[42, 42], 42 :: 46 :: ext] :=
    List.splitOn_intercalate 47 (fun a ha => (hslash a ha).1) (by simp)
  have hcomponents : components (recursivePattern sub ext) =
      sub ++ [[42, 42], 42 :: 46 :: ext] := by
    rw [components, hsplit, List.filter_eq_self]
    exact fun a ha => by simpa using (hslash a ha).2
  have hne : recursivePattern sub ext ≠ [] := by
    intro hnil
    rw [hnil] at hcomponents
    have hlength := congrArg List.length hcomponents
    simp [components] at hlength
  have hhead : (recursivePattern sub ext).head? ≠ some 47 := by
    refine head?_ne_slash fun hnil => ?_
    rw [hsplit] at hnil
    exact (hslash [] hnil).2 rfl
  rw [genericString_appendPath hne, if_neg hhead, List.nil_append, hcomponents]

/-- What is selected if there is a directory that is called like the pattern. -/
theorem Regular.mem_language_below (hp : w.Regular p) (hsub : ∀ a ∈ sub, IsName a)
    (hext : IsExtension ext) (hunbroken : ¬ Broken (p.drop w.cwd.length)) :
    w.relativePath p ∈ Glob.language globAlphabet dots
        (genericString (appendPath (recursivePattern sub ext) [42, 42])) ↔
      ∃ q, q <+: p ∧ q ≠ p ∧ w.Matches sub ext q := by
  have hnames := isName_of_kind hp.1
  obtain ⟨rel, hrel, rfl⟩ := hp.exists_append
  rw [List.drop_left] at hunbroken
  rw [genericString_recursivePattern hsub hext, relativePath_append,
    Staging.mem_language_below (by simp)
      (fun a ha => hnames a (List.mem_append_right _ ha)) hrel hunbroken]
  constructor
  · rintro ⟨dirs, tail, rfl, -, htail, hmem⟩
    refine ⟨w.cwd ++ dirs, ⟨tail, List.append_assoc _ _ _⟩, by simpa using htail.symm, ?_⟩
    rw [Matches, relativePath_append]
    exact hmem
  · rintro ⟨q, hq, hne, hmatches⟩
    obtain ⟨dirs, rfl, hlength⟩ :=
      hmatches.exists_append hsub hext hnames (List.prefix_append _ _) hq
    obtain ⟨tail, htail⟩ := (List.prefix_append_right_inj _).mp hq
    refine ⟨dirs, tail, htail.symm, ?_, ?_, ?_⟩
    · rintro rfl
      simp at hlength
    · rintro rfl
      rw [List.append_nil] at htail
      exact hne (by rw [htail])
    · rw [Matches, relativePath_append] at hmatches
      exact hmatches

/-- When `**/*.ext` and `p/**/*.ext` select the files with the extension at every depth. -/
theorem selectsRecursively_iff (hlinks : w.tree.NoLinks)
    (hunbroken : ∀ p ∈ w.tree.places, w.cwd <+: p → ¬ Broken (p.drop w.cwd.length))
    (hsub : w.tree.kind (w.cwd ++ sub) = some .directory) (hext : IsExtension ext) :
    w.SelectsRecursively sub ext ↔ w.Covers sub ext := by
  have hsubnames : ∀ a ∈ sub, IsName a := fun a ha =>
    isName_of_kind hsub a (List.mem_append_right _ ha)
  have hbroken : ∀ {p}, w.Regular p → ¬ Broken (p.drop w.cwd.length) := fun hp =>
    hunbroken _ (FileTree.mem_places.mpr ⟨_, hp.1⟩) hp.2.1
  have hdeep : ∀ {p}, w.Regular p → w.cwd ++ sub <+: p →
      ((∃ q, q <+: p ∧ q ≠ p ∧ w.Matches sub ext q) ↔
        ∃ q, q <+: p ∧ q ≠ p ∧ w.Deep sub ext q) := fun hp hunder =>
    exists_congr fun q => and_congr_right fun hq => and_congr_right fun _ =>
      matches_iff_deep hext (isName_of_kind hp.1) (hbroken hp) hunder hq
  rw [selectsRecursively_iff_forall hlinks, Covers, normalizePattern]
  split_ifs with hdirectory
  · constructor
    · intro h
      refine ⟨fun p hp hunder => ?_, fun p hp hunder q hq hne hmatches => ?_⟩
      · have hselected := h p hp
        rw [hp.mem_language_below hsubnames hext (hbroken hp), and_iff_right hunder] at hselected
        rw [← hselected]
        exact hdeep hp hunder
      · have hselected := (hp.mem_language_below hsubnames hext (hbroken hp)).mpr
          ⟨q, hq, hne, hmatches⟩
        exact hunder ((h p hp).mp hselected).1
    · rintro ⟨hbelow, hother⟩ p hp
      rw [hp.mem_language_below hsubnames hext (hbroken hp)]
      by_cases hunder : w.cwd ++ sub <+: p
      · rw [and_iff_right hunder, hbelow p hp hunder]
        exact hdeep hp hunder
      · refine iff_of_false ?_ fun h => hunder h.1
        rintro ⟨q, hq, hne, hmatches⟩
        exact hother p hp hunder q hq hne hmatches
  · constructor
    · intro h
      refine ⟨fun p hp hunder hends => ?_, fun p hp hunder hmatches => ?_⟩
      · exact (matches_iff_deep hext (isName_of_kind hp.1) (hbroken hp) hunder
          List.prefix_rfl).mp ((h p hp).mpr ⟨hunder, hends⟩)
      · exact hunder ((h p hp).mp hmatches).1
    · rintro ⟨hbelow, hother⟩ p hp
      by_cases hunder : w.cwd ++ sub <+: p
      · rw [and_iff_right hunder]
        refine (matches_iff_deep hext (isName_of_kind hp.1) (hbroken hp) hunder
          List.prefix_rfl).trans ⟨?_, hbelow p hp hunder⟩
        rintro ⟨rel, rfl, hlength, hends⟩
        exact hends.append_left (by rintro rfl; simp at hlength) _
      · exact iff_of_false (hother p hp hunder) fun h => hunder h.1

/-- The extension `c` in the tree with one file. -/
theorem selectsRecursively_iff_oneFile :
    oneFile.SelectsRecursively [[97]] [99] ↔ oneFile.Covers [[97]] [99] :=
  selectsRecursively_iff (by decide) (by decide) (by decide) (by decide)

/-- A working directory with one file, `b.c`. -/
def topFile : WorkingTree where
  tree := ⟨[([], .directory), ([[119]], .directory), ([[119], [98, 46, 99]], .file)], by decide,
    by decide, by decide⟩
  names := by decide
  cwd := [[119]]
  cwd_directory := rfl

/-- `**/*.c` does not select `b.c`. -/
theorem not_selectsRecursively_top : topFile.tree.NoLinks ∧
    ¬ topFile.SelectsRecursively [] [99] := by
  refine ⟨by decide, ?_⟩
  unfold SelectsRecursively
  decide +kernel

end WorkingTree

end Staging

end Trit
