import Trit.Lib.LexicalPath
import Mathlib.Data.List.Nodup
import Mathlib.Data.Finset.Dedup

/-!
# File trees

A file system as the finite list of its entries, over an arbitrary type of names: directories,
regular files, symbolic links and others, each with the names on the way to it from the root.

* `Kind`, `FileTree`: the entries; every entry but the root lies in a directory;
* `walk`, `resolve`: where a path leads, symbolic links and missing entries included;
* `walk_entry`: the path that names an entry leads to it;
* `walk_eq_foldl`: without symbolic links a path leads where it leads lexically;
* `relative`: the way from a directory to an entry.
-/

variable {α : Type*}

/-- What an entry can be. -/
inductive FileTree.Kind (α : Type*)
  | directory
  | file
  | symlink (target : LexicalPath α)
  | other
  deriving DecidableEq

/-- Is it a symbolic link? -/
def FileTree.Kind.isLink : Kind α → Bool
  | symlink _ => true
  | _ => false

open FileTree in
/-- A file system. -/
structure FileTree (α : Type*) where
  entries : List (List α × Kind α)
  nodup : (entries.map Prod.fst).Nodup
  root : ([], Kind.directory) ∈ entries
  parent : ∀ e ∈ entries, e.1 = [] ∨ (e.1.dropLast, Kind.directory) ∈ entries

namespace FileTree

open LexicalPath

variable [DecidableEq α] (t : FileTree α)

/-- What is at a place, if anything. -/
def kind (p : List α) : Option (Kind α) := t.entries.lookup p

/-- All places with an entry. -/
def places : Finset (List α) := (t.entries.map Prod.fst).toFinset

/-- There is no symbolic link. -/
def NoLinks : Prop := ∀ e ∈ t.entries, e.2.isLink = false

instance : Decidable t.NoLinks := inferInstanceAs (Decidable (∀ e ∈ t.entries, e.2.isLink = false))

/-- Where the parts of a path lead from a directory.  At a symbolic link `k` goes on, with the
directory where its target begins, and the parts of the target before those that are left. -/
def walkWith (k : List α → List (LexicalPath.Part α) → Option (List α)) :
    List α → List (LexicalPath.Part α) → Option (List α)
  | d, [] => some d
  | d, .here :: ps => if t.kind d = some .directory then walkWith k d ps else none
  | d, .up :: ps => if t.kind d = some .directory then walkWith k d.dropLast ps else none
  | d, .name a :: ps =>
      match t.kind (d ++ [a]) with
      | none => none
      | some (.symlink target) => k (if target.absolute then [] else d) (target.parts ++ ps)
      | some _ => walkWith k (d ++ [a]) ps

/-- Where parts lead if at most so many links are followed. -/
def walk : ℕ → List α → List (LexicalPath.Part α) → Option (List α)
  | 0 => walkWith t fun _ _ => none
  | n + 1 => walkWith t (walk n)

/-- Where a path leads from a working directory. -/
def resolve (n : ℕ) (cwd : List α) (p : LexicalPath α) : Option (List α) :=
  walk t n (if p.absolute then [] else cwd) p.parts

variable {t}

/-! ### Entries -/

theorem kind_eq_some {p : List α} {k : Kind α} : t.kind p = some k ↔ (p, k) ∈ t.entries := by
  constructor
  · intro h
    obtain ⟨l₁, l₂, heq, -⟩ := List.lookup_eq_some_iff.mp h
    rw [heq]
    exact List.mem_append_right l₁ List.mem_cons_self
  · intro h
    obtain ⟨l₁, l₂, heq⟩ := List.append_of_mem h
    refine List.lookup_eq_some_iff.mpr ⟨l₁, l₂, heq, fun q hq => ?_⟩
    have hnodup := t.nodup
    rw [heq, List.map_append, List.map_cons, List.nodup_append] at hnodup
    have hne := hnodup.2.2 q.1 (List.mem_map_of_mem hq) p List.mem_cons_self
    simpa using fun h => hne h.symm

theorem kind_root : t.kind [] = some .directory := kind_eq_some.mpr t.root

theorem mem_places {p : List α} : p ∈ t.places ↔ ∃ k, t.kind p = some k := by
  simp only [places, List.mem_toFinset, List.mem_map, kind_eq_some]
  constructor
  · rintro ⟨⟨q, k⟩, hmem, rfl⟩
    exact ⟨k, hmem⟩
  · rintro ⟨k, hmem⟩
    exact ⟨(p, k), hmem, rfl⟩

theorem kind_parent {d : List α} {a : α} {k : Kind α} (h : t.kind (d ++ [a]) = some k) :
    t.kind d = some .directory := by
  rcases t.parent _ (kind_eq_some.mp h) with hnil | hparent
  · simp at hnil
  · rw [List.dropLast_concat] at hparent
    exact kind_eq_some.mpr hparent

/-- All places on the way to an entry are directories. -/
theorem kind_of_append {d names : List α} {k : Kind α} (hne : names ≠ [])
    (h : t.kind (d ++ names) = some k) : t.kind d = some .directory := by
  induction names using List.reverseRecOn generalizing k with
  | nil => exact absurd rfl hne
  | append_singleton names a ih =>
    rw [← List.append_assoc] at h
    have hparent := kind_parent h
    by_cases hnil : names = []
    · rwa [hnil, List.append_nil] at hparent
    · exact ih hnil hparent

theorem isLink_eq_false (h : t.NoLinks) {p : List α} {k : Kind α} (hk : t.kind p = some k) :
    k.isLink = false := h _ (kind_eq_some.mp hk)

/-! ### Walking -/

theorem walk_nil (n : ℕ) (d : List α) : t.walk n d [] = some d := by
  cases n <;> rw [walk, walkWith]

theorem walk_here {n : ℕ} {d : List α} (h : t.kind d = some .directory)
    (ps : List (LexicalPath.Part α)) :
    t.walk n d (.here :: ps) = t.walk n d ps := by
  cases n <;> rw [walk, walkWith, if_pos h]

theorem walk_name {n : ℕ} {d : List α} {a : α} {k : Kind α} (h : t.kind (d ++ [a]) = some k)
    (hk : k.isLink = false) (ps : List (LexicalPath.Part α)) :
    t.walk n d (.name a :: ps) = t.walk n (d ++ [a]) ps := by
  cases k with
  | symlink target => cases hk
  | directory | file | other => cases n <;> rw [walk, walkWith, h]

theorem walk_directories {n : ℕ} {d names : List α} (h : t.kind (d ++ names) = some .directory)
    (ps : List (LexicalPath.Part α)) :
    t.walk n d (names.map .name ++ ps) = t.walk n (d ++ names) ps := by
  induction names generalizing d with
  | nil => rw [List.append_nil]; rfl
  | cons a names ih =>
    rw [List.append_cons] at h ⊢
    have ha : t.kind (d ++ [a]) = some .directory := by
      by_cases hnil : names = []
      · rwa [hnil, List.append_nil] at h
      · exact kind_of_append hnil h
    rw [List.map_cons, List.cons_append, walk_name ha rfl, ih h]

/-- The path that names an entry leads to it, if it is no link. -/
theorem walk_entry {n : ℕ} {d names : List α} {k : Kind α} (h : t.kind (d ++ names) = some k)
    (hk : k.isLink = false) :
    t.walk n d (names.map .name) = some (d ++ names) := by
  induction names using List.reverseRecOn with
  | nil => rw [List.map_nil, walk_nil, List.append_nil]
  | append_singleton names a ih =>
    rw [← List.append_assoc] at h ⊢
    rw [List.map_append, walk_directories (kind_parent h), List.map_singleton, walk_name h hk,
      walk_nil]

/-- Without symbolic links each part leads where it leads lexically. -/
theorem walk_cons (hlinks : t.NoLinks) {n : ℕ} {d q : List α} {part : LexicalPath.Part α}
    {ps : List (LexicalPath.Part α)} (h : t.walk n d (part :: ps) = some q) :
    t.walk n (follow d part) ps = some q := by
  cases part with
  | here =>
    cases n <;> rw [walk, walkWith] at h <;> split_ifs at h <;> exact h
  | up =>
    cases n <;> rw [walk, walkWith] at h <;> split_ifs at h <;> exact h
  | name a =>
    cases hkind : t.kind (d ++ [a]) with
    | none => cases n <;> rw [walk, walkWith, hkind] at h <;> cases h
    | some k =>
      rwa [walk_name hkind (isLink_eq_false hlinks hkind)] at h

/-- Without symbolic links a path leads where it leads lexically, if it leads anywhere. -/
theorem walk_eq_foldl (hlinks : t.NoLinks) {n : ℕ} {d q : List α} {ps : List (LexicalPath.Part α)}
    (h : t.walk n d ps = some q) : q = ps.foldl follow d := by
  induction ps generalizing d with
  | nil =>
    rw [walk_nil] at h
    exact (Option.some.inj h).symm
  | cons part ps ih => exact ih (walk_cons hlinks h)

theorem resolve_eq (hlinks : t.NoLinks) {n : ℕ} {cwd q : List α} {p : LexicalPath α}
    (h : t.resolve n cwd p = some q) : q = p.resolve cwd := walk_eq_foldl hlinks h

/-! ### Relative paths -/

/-- The parts that two places have in common. -/
def common : List α → List α → ℕ
  | a :: as, b :: bs => if a = b then common as bs + 1 else 0
  | _, _ => 0

/-- The way from a directory to a place: up to the last directory on both ways, and down again. -/
def relative (base p : List α) : LexicalPath α where
  absolute := false
  parts := List.replicate (base.length - common base p) .up ++
    (p.drop (common base p)).map .name

theorem common_append (base names : List α) : common base (base ++ names) = base.length := by
  induction base with
  | nil => cases names <;> rfl
  | cons a base ih => rw [List.cons_append, common, if_pos rfl, ih, List.length_cons]

theorem relative_append (base names : List α) :
    relative base (base ++ names) = ⟨false, names.map .name⟩ := by
  rw [relative, common_append, Nat.sub_self, List.replicate_zero, List.nil_append,
    List.drop_left]

theorem common_le (base p : List α) : common base p ≤ base.length := by
  induction base generalizing p with
  | nil => cases p <;> exact Nat.zero_le _
  | cons a base ih =>
    cases p with
    | nil => exact Nat.zero_le _
    | cons b p =>
      rw [common]
      split_ifs
      · exact Nat.succ_le_succ (ih p)
      · exact Nat.zero_le _

theorem take_common (base p : List α) : base.take (common base p) = p.take (common base p) := by
  induction base generalizing p with
  | nil => cases p <;> simp [common]
  | cons a base ih =>
    cases p with
    | nil => simp [common]
    | cons b p =>
      rw [common]
      split_ifs with h
      · rw [List.take_succ_cons, List.take_succ_cons, ih, h]
      · rfl

omit [DecidableEq α] in
theorem foldl_follow_up (k : ℕ) (d : List α) :
    (List.replicate k LexicalPath.Part.up).foldl follow d = d.take (d.length - k) := by
  induction k generalizing d with
  | zero => simp
  | succ k ih =>
    rw [List.replicate_succ, List.foldl_cons, ih, follow, List.dropLast_eq_take, List.take_take,
      List.length_take]
    congr 1
    omega

/-- The way leads to the place. -/
theorem resolve_relative (base p : List α) : (relative base p).resolve base = p := by
  have hle := common_le base p
  have hnames : .up ∉ (p.drop (common base p)).map LexicalPath.Part.name := by
    intro hup
    obtain ⟨a, -, ha⟩ := List.mem_map.mp hup
    cases ha
  show ((List.replicate (base.length - common base p) LexicalPath.Part.up ++
    (p.drop (common base p)).map LexicalPath.Part.name).foldl follow base) = p
  rw [List.foldl_append, foldl_follow_up, foldl_follow hnames, Nat.sub_sub_self hle,
    take_common, List.filterMap_map]
  have hid : LexicalPath.Part.name? ∘ LexicalPath.Part.name = (some : α → Option α) := rfl
  rw [hid, List.filterMap_some, List.take_append_drop]

theorem relative_injective (base : List α) : Function.Injective (relative base) := by
  intro p q h
  rw [← resolve_relative base p, h, resolve_relative]

theorem common_eq_length_iff (base p : List α) :
    common base p = base.length ↔ base <+: p := by
  constructor
  · intro h
    have htake := take_common base p
    rw [h, List.take_length] at htake
    exact List.prefix_iff_eq_take.mpr htake
  · rintro ⟨names, rfl⟩
    exact common_append base names

/-- The way to a place begins with `..` unless it lies at or below the directory. -/
theorem head?_relative (base p : List α) :
    (relative base p).parts.head? = some .up ↔ ¬ base <+: p := by
  rw [← common_eq_length_iff, relative]
  dsimp only
  have hle := common_le base p
  by_cases h : common base p = base.length
  · rw [h, Nat.sub_self, List.replicate_zero, List.nil_append, List.head?_map]
    simp
  · obtain ⟨k, hk⟩ : ∃ k, base.length - common base p = k + 1 :=
      Nat.exists_eq_succ_of_ne_zero (by omega)
    rw [hk, List.replicate_succ]
    simp [h]

end FileTree
