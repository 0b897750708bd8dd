import Trit.Chunk
import Mathlib.Data.Finset.Image
import Mathlib.Data.Finset.Union

/-!
# The staging area

`staging.cpp`: the list of staged paths in `.trit/staged.txt`, and the commands on it.

* `Line`, `Store`: what `staged.txt` holds; `stored`, `listed`: how a set of paths is written to it
  and read back;
* `Script`: what a command does, one operation on the staging area after the other;
* `stage`, `unstage`, `list`, `clear`, `startSession`: the commands, and `start_session`;
* `Script.alone`: a command that nothing interferes with.
-/

namespace Trit

namespace Staging

/-- A line of `staged.txt` that `load_staged_files` looks at. -/
structure Line where
  path : Bytes
  nonempty : path ≠ []
  unbroken : 10 ∉ path
  deriving DecidableEq

/-- `std::getline`, up to the test `line.empty()`. -/
def toLine? (l : Bytes) : Option Line :=
  if h : l ≠ [] ∧ 10 ∉ l then some ⟨l, h.1, h.2⟩ else none

/-- The lines that a path becomes when it is written to a file, one unless it holds a line break. -/
def lines (path : Bytes) : Finset Line := ((path.splitOn 10).filterMap toLine?).toFinset

theorem lines_path (l : Line) : lines l.path = {l} := by
  have hline : toLine? l.path = some l := by
    rw [toLine?, dif_pos ⟨l.nonempty, l.unbroken⟩]
  rw [lines, List.splitOn_eq_singleton l.unbroken, List.filterMap_cons, hline]
  rfl

/-- `staged.txt`: the set of its lines, or `none` if there is no such file.  The order of the lines
is that of an `unordered_set`, and is left out. -/
abbrev Store := Option (Finset Line)

/-- The files that the commands can see: those for which `exists` holds, and those that
`get_files_in_cwd` finds. -/
structure Tree where
  present : Finset Bytes
  files : Finset Bytes
  files_subset : files ⊆ present

/-! ### Reading and writing -/

/-- What `save_staged_files` writes. -/
def stored (staged : Finset Bytes) : Finset Line := staged.biUnion lines

/-- What `load_staged_files` inserts for the lines of the file. -/
def listed (tree : Tree) (text : Finset Line) : Finset Bytes :=
  (text.image Line.path).filter (· ∈ tree.present)

theorem mem_listed {tree : Tree} {text : Finset Line} {p : Bytes} :
    p ∈ listed tree text ↔ (∃ l ∈ text, l.path = p) ∧ p ∈ tree.present := by
  simp [listed]

theorem mem_stored {staged : Finset Bytes} {l : Line} :
    l ∈ stored staged ↔ ∃ p ∈ staged, l ∈ lines p := by
  simp [stored]

/-- Every line of the file stands for a path that exists. -/
def Clean (tree : Tree) (text : Finset Line) : Prop := ∀ l ∈ text, l.path ∈ tree.present

/-- A set of paths that was read is written as it was read. -/
theorem mem_stored_of_listed {tree : Tree} {text : Finset Line} {staged : Finset Bytes}
    (h : staged ⊆ listed tree text) {l : Line} : l ∈ stored staged ↔ l.path ∈ staged := by
  rw [mem_stored]
  constructor
  · rintro ⟨p, hp, hl⟩
    obtain ⟨⟨l', -, rfl⟩, -⟩ := mem_listed.mp (h hp)
    rw [lines_path, Finset.mem_singleton] at hl
    rw [hl]
    exact hp
  · intro hl
    exact ⟨l.path, hl, by rw [lines_path]; exact Finset.mem_singleton_self l⟩

/-- A clean file is not changed by reading it and writing it back. -/
theorem stored_listed {tree : Tree} {text : Finset Line} (h : Clean tree text) :
    stored (listed tree text) = text := by
  ext l
  rw [mem_stored_of_listed (Finset.Subset.refl _), mem_listed]
  constructor
  · rintro ⟨⟨l', hl', hpath⟩, -⟩
    have heq : l' = l := by
      cases l'
      cases l
      cases hpath
      rfl
    rw [← heq]
    exact hl'
  · intro hl
    exact ⟨⟨l, hl, rfl⟩, h l hl⟩

/-- `load_staged_files` when no other process interferes.  If no line is left,
`delete_staging_files` constructs a second lock while the first one is held, and that throws. -/
def loadStagedFiles (tree : Tree) : Store → Except Exception (Finset Bytes)
  | none => .ok ∅
  | some text =>
      if listed tree text = ∅ then .error (.runtimeError "Staging file is already locked")
      else .ok (listed tree text)

/-! ### The commands -/

/-- The steps of `start_session` that depend on the outside world: whether the connection, the
handshake and the transfer succeed, whether `from_file_paths` builds a request for the staged files,
and what the receiver answers. -/
inductive Outside
  | connect
  | handshake
  | request (staged : Finset Bytes)
  | response
  | transfer
  deriving DecidableEq

/-- What a command does with the staging area, and what then; `Q` are the questions it asks the
outside world. -/
inductive Script (Q : Type)
  | done
  /-- `load_staged_files` -/
  | load (k : Finset Bytes → Script Q)
  /-- `get_files_in_cwd` -/
  | walk (k : Finset Bytes → Script Q)
  /-- `save_staged_files` -/
  | save (staged : Finset Bytes) (k : Script Q)
  /-- `delete_staging_files` -/
  | delete (k : Script Q)
  /-- `exists` of `staged.txt` -/
  | ifStaged (yes no : Script Q)
  /-- anything else -/
  | outside (q : Q) (k : Bool → Script Q)

variable {Q : Type}

/-- What `stage` and `unstage` do once they know the staged files. -/
inductive Effect
  | nothing
  | save (staged : Finset Bytes)
  | delete
  deriving DecidableEq

def Effect.script : Effect → Script Q
  | .nothing => .done
  | .save staged => .save staged .done
  | .delete => .delete .done

/-- `stage`, after the patterns have been matched. -/
def stageEffect (filesToStage staged : Finset Bytes) : Effect :=
  if filesToStage = ∅ then
    if staged = ∅ then .delete else .nothing
  else if filesToStage ⊆ staged then .nothing
  else .save (staged ∪ filesToStage)

/-- `unstage`, after the patterns have been matched. -/
def unstageEffect (filesToUnstage staged : Finset Bytes) : Effect :=
  if filesToUnstage = ∅ then .nothing
  else if staged \ filesToUnstage = ∅ then .delete
  else .save (staged \ filesToUnstage)

/-- `stage`; `matching` are the paths that match one of the patterns. -/
def stage (matching : Bytes → Bool) : Script Q :=
  .load fun staged => .walk fun filesInCwd =>
    (stageEffect (filesInCwd.filter (matching ·)) staged).script

/-- `unstage`. -/
def unstage (matching : Bytes → Bool) : Script Q :=
  .load fun staged => (unstageEffect (staged.filter (matching ·)) staged).script

/-- `list`. -/
def list : Script Q :=
  .load fun staged => if staged = ∅ then .delete .done else .done

/-- `clear`. -/
def clear : Script Q := .ifStaged (.delete .done) .done

/-- `Sender::start_session`; the first staged set is only tested, the second makes the request. -/
def startSession : Script Outside :=
  .load fun staged => if staged = ∅ then .done else
    .outside .connect fun connected => if !connected then .done else
      .outside .handshake fun verified => if !verified then .done else
        .load fun staged => .outside (.request staged) fun created => if !created then .done else
          .outside .response fun accepted => if !accepted then .done else
            .outside .transfer fun completed => if completed then clear else .done

/-- A command that asks nothing, executed while nothing else happens. -/
def Script.alone (tree : Tree) : Script Empty → Store → Except Exception Store
  | .done, store => .ok store
  | .load k, store =>
      match loadStagedFiles tree store with
      | .ok staged => (k staged).alone tree store
      | .error e => .error e
  | .walk k, store => (k tree.files).alone tree store
  | .save staged k, _ => k.alone tree (some (stored staged))
  | .delete k, _ => k.alone tree none
  | .ifStaged yes no, store => if store.isSome then yes.alone tree store else no.alone tree store
  | .outside q _, _ => nomatch q

theorem stageEffect_eq_delete {T S : Finset Bytes} (h : stageEffect T S = .delete) : S = ∅ := by
  unfold stageEffect at h
  split_ifs at h with hempty hstaged
  exact hstaged

theorem stageEffect_eq_save {T S files : Finset Bytes} (h : stageEffect T S = .save files) :
    files = S ∪ T := by
  unfold stageEffect at h
  split_ifs at h with hempty hstaged hsub
  exact (Effect.save.inj h).symm

theorem unstageEffect_eq_delete {T S : Finset Bytes} (h : unstageEffect T S = .delete) :
    S \ T = ∅ := by
  unfold unstageEffect at h
  split_ifs at h with hempty hrest
  exact hrest

theorem unstageEffect_eq_save {T S files : Finset Bytes} (h : unstageEffect T S = .save files) :
    files = S \ T := by
  unfold unstageEffect at h
  split_ifs at h with hempty hrest
  exact (Effect.save.inj h).symm

theorem Script.alone_load {tree : Tree} {store : Store} {staged : Finset Bytes}
    (h : loadStagedFiles tree store = .ok staged) (k : Finset Bytes → Script Empty) :
    (Script.load k).alone tree store = (k staged).alone tree store := by
  rw [Script.alone, h]

end Staging

end Trit
