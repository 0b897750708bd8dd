import Trit.Solo
import Trit.FileStreams
import Trit.Confinement

/-!
# Received files and their places

`write_files_from_chunks` over a file system in which not every path can be opened, and in which two
paths may lead to the same file.

* `Naming`: what the writer needs to know of a file system: which directories it can create, and
  which file a path leads to; `Naming.openFile`: what it does with a path before the first write;
* `Naming.openAll`: the places of the files of a request, if they can all be opened;
* `Names.naming`: a tree without links;
* `PlacedWriter`: the writer with the contents of all files;
* `Tracks`, `tracked_of_reach`: a place holds what has been written under the path that was opened
  there last.
-/

namespace Trit

open Transition FileManager

/-! ### File systems -/

/-- A file system as the writer sees it, whose directories, links and files by name are the state
`N`.  `createDirectories` makes the missing directories of a path, or throws; `openStream` opens an
`ofstream`, which creates the file or truncates it, and says which regular file that is.  After an
exception the writer opens no more files, so what is left then of the names does not matter. -/
structure Naming (N Place : Type) where
  cwd : Bytes
  createDirectories : N → Bytes → Except Exception N
  openStream : N → Bytes → Option (Place × N)

namespace Naming

variable {N Place : Type} (nm : Naming N Place)

/-- `current_path() / relative_path`. -/
def absPath (path : Bytes) : Bytes :=
  if path.head? = some 47 then path
  else if nm.cwd.getLast? = some 47 then nm.cwd ++ path
  else nm.cwd ++ 47 :: path

/-- The head of the loop over the files: the parent directories are created, where the path names
any, and the file is opened. -/
def openFile (names : N) (path : Bytes) : Except Exception (Place × N) := do
  let parentPath := FileSystem.parentPath path
  let names' ← if parentPath = [] then pure names else nm.createDirectories names parentPath
  match nm.openStream names' path with
  | none => throw (.runtimeError ("Failed to open file: " ++ (nm.absPath path).text))
  | some opened => return opened

/-- All files of a request, one after the other. -/
def openAll (names : N) : List FileInfo → Except Exception (List Place × N)
  | [] => .ok ([], names)
  | info :: infos => do
      let (place, names') ← nm.openFile names info.relativePath
      let (places, names'') ← openAll names' infos
      return (place :: places, names'')

variable {nm} {names names' : N} {info : FileInfo} {infos : List FileInfo} {place : Place}
  {places : List Place}

theorem openAll_cons_ok {x : List Place × N} :
    nm.openAll names (info :: infos) = .ok x ↔ ∃ place names' places names'',
      nm.openFile names info.relativePath = .ok (place, names') ∧
        nm.openAll names' infos = .ok (places, names'') ∧ x = (place :: places, names'') := by
  constructor
  · intro h
    obtain ⟨⟨place, names'⟩, hfile, hrest⟩ := Except.bind_eq_ok.mp h
    obtain ⟨⟨places, names''⟩, hall, hx⟩ := Except.bind_eq_ok.mp hrest
    exact ⟨place, names', places, names'', hfile, hall, (Except.ok.inj hx).symm⟩
  · rintro ⟨place, names', places, names'', hfile, hall, rfl⟩
    rw [openAll, hfile]
    show (nm.openAll names' infos >>= fun x => _) = _
    rw [hall]
    rfl

theorem openAll_concat {names'' : N} (h : nm.openAll names infos = .ok (places, names'))
    (hfile : nm.openFile names' info.relativePath = .ok (place, names'')) :
    nm.openAll names (infos ++ [info]) = .ok (places ++ [place], names'') := by
  induction infos generalizing names places with
  | nil =>
    obtain ⟨rfl, rfl⟩ := Prod.mk.inj (Except.ok.inj h)
    exact openAll_cons_ok.mpr ⟨place, names'', [], names'', hfile, rfl, rfl⟩
  | cons other infos ih =>
    obtain ⟨p, n, ps, n', hother, hall, hx⟩ := openAll_cons_ok.mp h
    obtain ⟨rfl, rfl⟩ := Prod.mk.inj hx
    exact openAll_cons_ok.mpr ⟨p, n, _, _, hother, ih hall, rfl⟩

theorem not_openAll_of_error {e : Exception} (h : nm.openAll names infos = .ok (places, names'))
    (hfile : nm.openFile names' info.relativePath = .error e) (rest : List FileInfo)
    (x : List Place × N) : nm.openAll names (infos ++ info :: rest) ≠ .ok x := by
  induction infos generalizing names places x with
  | nil =>
    obtain ⟨rfl, rfl⟩ := Prod.mk.inj (Except.ok.inj h)
    intro hx
    obtain ⟨p, n, ps, n', hp, -, -⟩ := openAll_cons_ok.mp hx
    cases hfile.symm.trans hp
  | cons other infos ih =>
    obtain ⟨p, n, ps, n', hother, hall, hx⟩ := openAll_cons_ok.mp h
    obtain ⟨rfl, rfl⟩ := Prod.mk.inj hx
    intro hx
    obtain ⟨p', m, ps', m', hother', hall', -⟩ := openAll_cons_ok.mp hx
    obtain ⟨rfl, rfl⟩ := Prod.mk.inj (Except.ok.inj (hother.symm.trans hother'))
    exact ih hall _ hall'

theorem length_openAll (h : nm.openAll names infos = .ok (places, names')) :
    places.length = infos.length := by
  induction infos generalizing names places with
  | nil =>
    obtain ⟨rfl, -⟩ := Prod.mk.inj (Except.ok.inj h)
    rfl
  | cons info infos ih =>
    obtain ⟨p, n, ps, n', -, hall, hx⟩ := openAll_cons_ok.mp h
    obtain ⟨rfl, rfl⟩ := Prod.mk.inj hx
    rw [List.length_cons, List.length_cons, ih hall]

end Naming

/-! ### A file system without links -/

/-- The directories and files of a tree without links, by the names on the way from the root. -/
structure Names where
  directories : List (List Bytes)
  files : List (List Bytes)
  deriving DecidableEq

namespace Names

/-- One directory is made, where it is missing. -/
def createDirectory (names : Names) (d : List Bytes) : Except Exception Names :=
  if d ∈ names.files then
    .error (.systemError "filesystem error: cannot create directories: Not a directory")
  else if d ∈ names.directories then .ok names
  else .ok { names with directories := d :: names.directories }

/-- A file can be opened in a directory that is there, where its name is not that of another
directory. -/
def openStream (cwd : List Bytes) (names : Names) (path : Bytes) : Option (List Bytes × Names) :=
  let place := (lexicalPath path).resolve cwd
  if Openable path ∧ place.dropLast ∈ names.directories ∧ place ∉ names.directories then
    some (place, { names with files := place :: names.files })
  else none

/-- The tree seen from a working directory. -/
def naming (cwd : List Bytes) : Naming Names (List Bytes) where
  cwd := 47 :: List.intercalate [47] cwd
  createDirectories names path :=
    (lexicalPath path).namedPrefixes.foldlM (fun names d => names.createDirectory (d.resolve cwd))
      names
  openStream := openStream cwd

/-- A directory `d`, which is empty. -/
def emptyDirectory : Names := ⟨[[], [[100]]], []⟩

/-- Two paths of one file. -/
example : (naming [[100]]).openAll emptyDirectory [⟨[97], 2⟩, ⟨[46, 47, 97], 1⟩] =
    .ok ([[[100], [97]], [[100], [97]]],
      ⟨[[], [[100]]], [[[100], [97]], [[100], [97]]]⟩) := by
  decide +kernel

/-- A file stands in the way of another. -/
example : ((naming [[100]]).openAll emptyDirectory [⟨[97], 2⟩, ⟨[97, 47, 98], 1⟩]).isOk =
    false := by
  decide +kernel

end Names

/-! ### The writer over a file system -/

/-- The writer thread with the files.  Its own `FileSystem` records what has been written under
which path; `contents` is what the files hold, and `file` the one that the stream is open on. -/
structure PlacedWriter (capacity : ℕ) (N Place : Type) where
  writer : Solo capacity FileSystem WritePc
  names : N
  file : Option Place
  contents : Place → Bytes

namespace PlacedWriter

variable {capacity : ℕ} {N Place : Type} [DecidableEq Place] {nm : Naming N Place}
  {r : TransferRequest} {cs : List Chunk}

/-- Before the first step, with the whole input queued and marked as done. -/
def start (names : N) (contents : Place → Bytes) (cs : List Chunk) (h : cs.length ≤ capacity) :
    PlacedWriter capacity N Place where
  writer := .fed .firstPop ⟨fun _ => none, []⟩ cs h
  names := names
  file := none
  contents := contents

/-- The files after bytes have been appended to the open one. -/
def append (s : PlacedWriter capacity N Place) (bytes : Bytes) : Place → Bytes :=
  match s.file with
  | none => s.contents
  | some place => Function.update s.contents place (s.contents place ++ bytes)

/-- The bytes that a write gets to its file. -/
def written (l : WriteLocals) (n : ℕ) : Option Fault → Bytes
  | none => bytesToWrite l n
  | some x => (bytesToWrite l n).take x.progress

/-- One step of the writer, which may fail; a file that cannot be opened makes it throw. -/
def step (nm : Naming N Place) (r : TransferRequest) (s : PlacedWriter capacity N Place)
    (f : Option Fault) : Option (PlacedWriter capacity N Place) :=
  match s.writer.thread, f with
  | .running (.openFile _ info _), none =>
      match nm.openFile s.names info.relativePath with
      | .error e => (s.writer.step (writeFilesFromChunks r) (.step (some ⟨e, 0⟩))).map fun w =>
          { s with writer := w }
      | .ok (place, names) => (s.writer.step (writeFilesFromChunks r) (.step none)).map fun w =>
          ⟨w, names, some place, Function.update s.contents place []⟩
  | .running (.write l _ n _), f =>
      (s.writer.step (writeFilesFromChunks r) (.step f)).map fun w =>
        { s with writer := w, contents := s.append (written l n f) }
  | _, f => (s.writer.step (writeFilesFromChunks r) (.step f)).map fun w => { s with writer := w }

variable {s t : PlacedWriter capacity N Place} {f : Option Fault}

theorem step_cases (h : s.step nm r f = some t) :
    (∃ l info infos e w, s.writer.thread = .running (.openFile l info infos) ∧
      nm.openFile s.names info.relativePath = .error e ∧
      s.writer.step (writeFilesFromChunks r) (.step (some ⟨e, 0⟩)) = some w ∧
      t = { s with writer := w }) ∨
    (∃ l info infos place names w, s.writer.thread = .running (.openFile l info infos) ∧
      nm.openFile s.names info.relativePath = .ok (place, names) ∧
      s.writer.step (writeFilesFromChunks r) (.step none) = some w ∧
      t = ⟨w, names, some place, Function.update s.contents place []⟩) ∨
    (∃ l path n infos w, s.writer.thread = .running (.write l path n infos) ∧
      s.writer.step (writeFilesFromChunks r) (.step f) = some w ∧
      t = { s with writer := w, contents := s.append (written l n f) }) ∨
    ∃ w, (∀ l info infos, s.writer.thread = .running (.openFile l info infos) → f ≠ none) ∧
      (∀ l path n infos, s.writer.thread ≠ .running (.write l path n infos)) ∧
      s.writer.step (writeFilesFromChunks r) (.step f) = some w ∧ t = { s with writer := w } := by
  unfold step at h
  split at h
  case h_1 l info infos hthread =>
    split at h
    case h_1 e he =>
      obtain ⟨w, hw, rfl⟩ := Option.map_eq_some_iff.mp h
      exact Or.inl ⟨l, info, infos, e, w, hthread, he, hw, rfl⟩
    case h_2 place names hopened =>
      obtain ⟨w, hw, rfl⟩ := Option.map_eq_some_iff.mp h
      exact Or.inr (Or.inl ⟨l, info, infos, place, names, w, hthread, hopened, hw, rfl⟩)
  case h_2 l path n infos hthread =>
    obtain ⟨w, hw, rfl⟩ := Option.map_eq_some_iff.mp h
    exact Or.inr (Or.inr (Or.inl ⟨l, path, n, infos, w, hthread, hw, rfl⟩))
  case h_3 hwrite hopen =>
    obtain ⟨w, hw, rfl⟩ := Option.map_eq_some_iff.mp h
    exact Or.inr (Or.inr (Or.inr ⟨w, hopen, hwrite, hw, rfl⟩))

/-- The writer itself takes a step, which fails if a file cannot be opened. -/
theorem writer_of_step (h : s.step nm r f = some t) :
    ∃ f', s.writer.step (writeFilesFromChunks r) (.step f') = some t.writer := by
  rcases step_cases h with ⟨l, info, infos, e, w, -, -, hw, rfl⟩ |
    ⟨l, info, infos, place, names, w, -, -, hw, rfl⟩ | ⟨l, path, n, infos, w, -, hw, rfl⟩ |
    ⟨w, -, -, hw, rfl⟩
  · exact ⟨_, hw⟩
  · exact ⟨_, hw⟩
  · exact ⟨_, hw⟩
  · exact ⟨_, hw⟩

variable (nm) in
/-- An operation of the writer that succeeds, unless it is the opening of a file that cannot be
opened. -/
theorem exists_step_of_run {pc : WritePc} {th : Thread WritePc} {v : View capacity FileSystem}
    (hthread : s.writer.thread = .running pc)
    (hrun : (writeFilesFromChunks r pc).run s.writer.ctx.shouldAbort none s.writer.view =
      some (th, v)) :
    (∃ t, s.step nm r none = some t ∧ t.writer = ⟨th, s.writer.ctx, v⟩) ∨
    ∃ l info infos e t, pc = .openFile l info infos ∧
      nm.openFile s.names info.relativePath = .error e ∧ s.step nm r none = some t ∧
      t.writer = ⟨.caught e, s.writer.ctx, s.writer.view⟩ := by
  have hw := Solo.step_of_run hthread hrun
  cases pc with
  | openFile l info infos =>
    cases hfile : nm.openFile s.names info.relativePath with
    | error e =>
      have hfault : (writeFilesFromChunks r (.openFile l info infos)).run s.writer.ctx.shouldAbort
          (some ⟨e, 0⟩) s.writer.view = some (.caught e, s.writer.view) := rfl
      have hw' := Solo.step_of_run hthread hfault
      exact Or.inr ⟨l, info, infos, e,
        { s with writer := ⟨.caught e, s.writer.ctx, s.writer.view⟩ }, rfl, hfile,
        by simp [step, hthread, hfile, hw'], rfl⟩
    | ok opened =>
      obtain ⟨place, names⟩ := opened
      refine Or.inl ⟨⟨⟨th, s.writer.ctx, v⟩, names, some place,
        Function.update s.contents place []⟩, ?_, rfl⟩
      simp only [step, hthread, hfile, hw, Option.map_some]
  | write l path n infos =>
    refine Or.inl ⟨{ s with
      writer := ⟨th, s.writer.ctx, v⟩, contents := s.append (written l n none) }, ?_, rfl⟩
    simp only [step, hthread, hw, Option.map_some]
  | _ =>
    refine Or.inl ⟨{ s with writer := ⟨th, s.writer.ctx, v⟩ }, ?_, rfl⟩
    simp only [step, hthread, hw, Option.map_some]

/-! ### What the places hold -/

/-- What a place holds when the files in `opened`, the last one first, have been opened: what has
been written under the path that was opened there last. -/
def held (opened : List (FileInfo × Place)) (fs : FileSystem) (contents : Place → Bytes)
    (place : Place) : Bytes :=
  match opened.find? fun x => x.2 = place with
  | some x => (fs.files x.1.relativePath).getD []
  | none => contents place

/-- The files in `opened` have been opened, the others of the request are to come, and the stream is
open on the one opened last. -/
structure Tracks (nm : Naming N Place) (r : TransferRequest) (names : N) (contents : Place → Bytes)
    (s : PlacedWriter capacity N Place) (opened : List (FileInfo × Place)) : Prop where
  files : (opened.map Prod.fst).reverse ++ Writer.upcoming r s.writer.thread = r.fileInfos
  places : nm.openAll names (opened.map Prod.fst).reverse =
    .ok ((opened.map Prod.snd).reverse, s.names)
  contents : s.contents = held opened s.writer.view.world contents
  file : ∀ path, FileStreams.openPath s.writer.thread = some path →
    ∃ info place rest, opened = (info, place) :: rest ∧ info.relativePath = path ∧
      s.file = some place

/-- The operations other than opening and writing leave the files alone. -/
theorem frame_of_move {v v' : View capacity FileSystem} {pc : WritePc} {th : Thread WritePc}
    (h : WriteMove r false f v pc th v') (hopen : ∀ l info infos, pc ≠ .openFile l info infos)
    (hwrite : ∀ l path n infos, pc ≠ .write l path n infos) :
    v'.world = v.world ∧ Writer.upcoming r th = Writer.upcoming r (.running pc) ∧
      ∀ path, FileStreams.openPath th = some path →
        FileStreams.openPath (.running pc) = some path := by
  have hloop : ∀ {l path n infos} (q : Bytes),
      FileStreams.openPath (whileLoop l path n infos) = some q → q = path := by
    intro l path n infos q hq
    rcases FileStreams.openPath_whileLoop l path n infos with hnone | hsome
    · cases hnone.symm.trans hq
    · exact Option.some.inj (hq.symm.trans hsome)
  cases h with
  | firstPopped c q hpc =>
    subst hpc
    refine ⟨rfl, Writer.upcoming_forLoop _ _, fun path hpath => ?_⟩
    cases (FileStreams.openPath_forLoop _ _).symm.trans hpath
  | drained l path n infos hpc =>
    subst hpc
    refine ⟨rfl, Writer.upcoming_forLoop _ _, fun path hpath => ?_⟩
    cases (FileStreams.openPath_forLoop _ _).symm.trans hpath
  | popped path n infos c q hpc =>
    subst hpc
    refine ⟨rfl, Writer.upcoming_whileLoop _ _ _ _, fun p hp => ?_⟩
    rw [hloop p hp]
    rfl
  | abort l path n infos hpc ha => cases ha
  | opened l info infos hpc => exact absurd hpc (hopen l info infos)
  | openFault l info infos x hpc => exact absurd hpc (hopen l info infos)
  | wrote l path n infos hpc => exact absurd hpc (hwrite l path n infos)
  | writeFault l path n infos x hpc => exact absurd hpc (hwrite l path n infos)
  | goOn l path n infos hpc | counted l path n infos hpc | doneSeen l path n infos hpc
  | notDone l path n infos hpc | more l path n infos hpc =>
    subst hpc
    exact ⟨rfl, rfl, fun p hp => hp⟩

/-- Opening a file empties its place. -/
theorem held_openFile {opened : List (FileInfo × Place)} {fs : FileSystem}
    {contents : Place → Bytes} {info : FileInfo} (place : Place)
    (hnew : ∀ x ∈ opened, x.1.relativePath ≠ info.relativePath) :
    Function.update (held opened fs contents) place [] = held ((info, place) :: opened)
      ((fs.createParent info.relativePath).truncate info.relativePath) contents := by
  funext q
  unfold held
  by_cases hq : q = place
  · subst hq
    rw [Function.update_self, List.find?_cons_of_pos (by simp)]
    simp [FileSystem.truncate]
  · rw [Function.update_of_ne hq, List.find?_cons_of_neg (by simpa using Ne.symm hq)]
    cases hfind : opened.find? fun x => x.2 = q with
    | none => rfl
    | some x =>
      have hne := hnew x (List.mem_of_find?_eq_some hfind)
      simp only [FileSystem.truncate, FileSystem.createParent_files, Function.update_of_ne hne]

/-- A write goes to the place that was opened last. -/
theorem held_append {opened : List (FileInfo × Place)} {fs : FileSystem}
    {contents : Place → Bytes} {info : FileInfo} {place : Place} (bytes : Bytes)
    (hnew : ∀ x ∈ opened, x.1.relativePath ≠ info.relativePath) :
    Function.update (held ((info, place) :: opened) fs contents) place
        (held ((info, place) :: opened) fs contents place ++ bytes) =
      held ((info, place) :: opened) (fs.append info.relativePath bytes) contents := by
  funext q
  unfold held
  by_cases hq : q = place
  · subst hq
    rw [Function.update_self, List.find?_cons_of_pos (by simp)]
    simp [FileSystem.append]
  · rw [Function.update_of_ne hq, List.find?_cons_of_neg (by simpa using Ne.symm hq)]
    cases hfind : opened.find? fun x => x.2 = q with
    | none => rfl
    | some x =>
      have hne := hnew x (List.mem_of_find?_eq_some hfind)
      simp only [FileSystem.append, Function.update_of_ne hne]

section Runs

variable {names : N} {contents : Place → Bytes} {opened : List (FileInfo × Place)}

omit [DecidableEq Place] in
theorem Tracks.relativePath_ne (hpaths : (r.fileInfos.map FileInfo.relativePath).Nodup)
    {infos : List FileInfo} {rest : List (FileInfo × Place)} {info : FileInfo}
    (hfiles : (rest.map Prod.fst).reverse ++ info :: infos = r.fileInfos) :
    ∀ x ∈ rest, x.1.relativePath ≠ info.relativePath := by
  intro x hx heq
  rw [← hfiles, List.map_append, List.map_cons] at hpaths
  refine (List.nodup_append.mp hpaths).2.2 x.1.relativePath ?_ info.relativePath
    List.mem_cons_self heq
  exact List.mem_map_of_mem (List.mem_reverse.mpr (List.mem_map_of_mem hx))

theorem Tracks.openFile (hpaths : (r.fileInfos.map FileInfo.relativePath).Nodup)
    {l : WriteLocals} {info : FileInfo} {infos : List FileInfo} {place : Place} {names' : N}
    {w : Solo capacity FileSystem WritePc} (hi : Tracks nm r names contents s opened)
    (hthread : s.writer.thread = .running (.openFile l info infos))
    (hfile : nm.openFile s.names info.relativePath = .ok (place, names'))
    (hw : s.writer.step (writeFilesFromChunks r) (.step none) = some w) :
    Tracks nm r names contents ⟨w, names', some place, Function.update s.contents place []⟩
      ((info, place) :: opened) := by
  obtain ⟨hfiles, hplaces, hcontents, -⟩ := hi
  rw [hthread] at hfiles
  change _ ++ info :: infos = _ at hfiles
  rcases Solo.step_cases hw with ⟨pc, th, v, hpc, hrun, rfl⟩ | ⟨e, he, -, -⟩ | ⟨e, he, -, -⟩
  · obtain rfl := Thread.running.inj (hthread.symm.trans hpc)
    cases writeMove_of_run hrun with
    | opened l' info' infos' hpc' =>
      cases hpc'
      refine ⟨?_, ?_, ?_, fun path hpath => ?_⟩
      · show _ ++ Writer.upcoming r (whileLoop l info.relativePath info.size.toNat infos) = _
        rw [Writer.upcoming_whileLoop, ← hfiles]
        simp
      · rw [List.map_cons, List.map_cons, List.reverse_cons, List.reverse_cons]
        exact Naming.openAll_concat hplaces hfile
      · show Function.update s.contents place [] = _
        rw [hcontents]
        exact held_openFile place (relativePath_ne hpaths hfiles)
      · rcases FileStreams.openPath_whileLoop l info.relativePath info.size.toNat infos with
          hnone | hsome
        · cases hnone.symm.trans hpath
        · exact ⟨info, place, opened, rfl, Option.some.inj (hsome.symm.trans hpath), rfl⟩
    | openFault _ _ _ _ _ hf => cases hf
    | firstPopped _ _ hpc' | abort _ _ _ _ hpc' | goOn _ _ _ _ hpc' | wrote _ _ _ _ hpc'
    | writeFault _ _ _ _ _ hpc' | counted _ _ _ _ hpc' | doneSeen _ _ _ _ hpc'
    | notDone _ _ _ _ hpc' | drained _ _ _ _ hpc' | more _ _ _ _ hpc' | popped _ _ _ _ _ hpc' =>
      cases hpc'
  · cases hthread.symm.trans he
  · cases hthread.symm.trans he

theorem Tracks.write (hpaths : (r.fileInfos.map FileInfo.relativePath).Nodup)
    {l : WriteLocals} {path : Bytes} {n : ℕ} {infos : List FileInfo}
    {w : Solo capacity FileSystem WritePc} (hi : Tracks nm r names contents s opened)
    (hthread : s.writer.thread = .running (.write l path n infos))
    (hw : s.writer.step (writeFilesFromChunks r) (.step f) = some w) :
    (∃ e, w.thread = .caught e) ∨ Tracks nm r names contents
      { s with writer := w, contents := s.append (written l n f) } opened := by
  obtain ⟨hfiles, hplaces, hcontents, hopen⟩ := hi
  rw [hthread] at hfiles hopen
  obtain ⟨info, place, rest, rfl, rfl, hplace⟩ := hopen path rfl
  rcases Solo.step_cases hw with ⟨pc, th, v, hpc, hrun, rfl⟩ | ⟨e, he, -, -⟩ | ⟨e, he, -, -⟩
  · obtain rfl := Thread.running.inj (hthread.symm.trans hpc)
    cases f with
    | some x =>
      obtain rfl := Call.eq_caught_of_run hrun
      exact Or.inl ⟨_, rfl⟩
    | none =>
      cases writeMove_of_run hrun with
      | wrote l' path' n' infos' hpc' =>
        cases hpc'
        refine Or.inr ⟨?_, hplaces, ?_, fun path hpath => ?_⟩
        · show _ ++ Writer.upcoming r (afterWrite l info.relativePath n infos) = _
          rw [Writer.upcoming_afterWrite]
          exact hfiles
        · show s.append (bytesToWrite l n) = _
          have hfiles' : (rest.map Prod.fst).reverse ++ info :: infos = r.fileInfos := by
            rw [← hfiles]
            simp [Writer.upcoming]
          unfold append
          rw [hplace, hcontents]
          exact held_append _ (relativePath_ne hpaths hfiles')
        · rcases FileStreams.openPath_afterWrite l info.relativePath n infos with hnone | hsome
          · cases hnone.symm.trans hpath
          · exact ⟨info, place, rest, rfl, Option.some.inj (hsome.symm.trans hpath), hplace⟩
      | writeFault _ _ _ _ _ _ hf => cases hf
      | firstPopped _ _ hpc' | abort _ _ _ _ hpc' | goOn _ _ _ _ hpc' | opened _ _ _ hpc'
      | openFault _ _ _ _ hpc' | counted _ _ _ _ hpc' | doneSeen _ _ _ _ hpc'
      | notDone _ _ _ _ hpc' | drained _ _ _ _ hpc' | more _ _ _ _ hpc' | popped _ _ _ _ _ hpc' =>
        cases hpc'
  · cases hthread.symm.trans he
  · cases hthread.symm.trans he

/-- As long as the abort flag is clear, the places are known, or an exception has been thrown. -/
def Tracked (nm : Naming N Place) (r : TransferRequest) (names : N) (contents : Place → Bytes)
    (s : PlacedWriter capacity N Place) : Prop :=
  s.writer.ctx.shouldAbort = false →
    (∃ e, s.writer.thread = .caught e) ∨ ∃ opened, Tracks nm r names contents s opened

theorem Tracks.other {w : Solo capacity FileSystem WritePc}
    (hi : Tracks nm r names contents s opened) (habort : s.writer.ctx.shouldAbort = false)
    (hopen : ∀ l info infos, s.writer.thread = .running (.openFile l info infos) → f ≠ none)
    (hwrite : ∀ l path n infos, s.writer.thread ≠ .running (.write l path n infos))
    (hw : s.writer.step (writeFilesFromChunks r) (.step f) = some w) :
    Tracked nm r names contents { s with writer := w } := by
  intro habort'
  obtain ⟨hfiles, hplaces, hcontents, hfile⟩ := hi
  rcases Solo.step_cases hw with ⟨pc, th, v, hpc, hrun, rfl⟩ | ⟨e, -, -, rfl⟩ | ⟨e, he, -, rfl⟩
  · cases f with
    | some x =>
      obtain rfl := Call.eq_caught_of_run hrun
      exact Or.inl ⟨_, rfl⟩
    | none =>
      have hmove := writeMove_of_run hrun
      rw [habort] at hmove
      obtain ⟨hworld, hupcoming, hpath⟩ := frame_of_move hmove
        (fun l info infos h => hopen l info infos (h ▸ hpc) rfl)
        (fun l path n infos h => hwrite l path n infos (h ▸ hpc))
      rw [hpc] at hfiles hfile
      refine Or.inr ⟨opened, ?_, hplaces, ?_, fun path h => hfile path (hpath path h)⟩
      · rw [← hfiles, ← hupcoming]
      · show s.contents = held opened v.world contents
        rw [hworld]
        exact hcontents
  · cases habort'
  · rw [he] at hfiles hfile
    exact Or.inr ⟨opened, hfiles, hplaces, hcontents, fun path h => nomatch h⟩

theorem Tracked.step (hpaths : (r.fileInfos.map FileInfo.relativePath).Nodup)
    (hi : Tracked nm r names contents s) (h : s.step nm r f = some t) :
    Tracked nm r names contents t := by
  intro habort
  obtain ⟨f', hf'⟩ := writer_of_step h
  -- the flag is not cleared
  have habort' : s.writer.ctx.shouldAbort = false := by
    rcases Solo.step_cases hf' with ⟨pc, th, v, -, -, heq⟩ | ⟨e, -, -, heq⟩ | ⟨e, -, -, heq⟩ <;>
      rw [heq] at habort
    · exact habort
    · cases habort
    · exact habort
  rcases hi habort' with ⟨e, he⟩ | ⟨opened, htracks⟩
  · -- the handler sets it
    rcases Solo.step_cases hf' with ⟨pc, th, v, hpc, -, heq⟩ | ⟨e', -, -, heq⟩ | ⟨e', he', -, heq⟩
    · cases he.symm.trans hpc
    · rw [heq] at habort
      cases habort
    · cases he.symm.trans he'
  · rcases step_cases h with ⟨l, info, infos, e, w, hthread, -, hw, rfl⟩ |
      ⟨l, info, infos, place, names', w, hthread, hfile, hw, rfl⟩ |
      ⟨l, path, n, infos, w, hthread, hw, rfl⟩ | ⟨w, hopen, hwrite, hw, rfl⟩
    · rcases Solo.step_cases hw with ⟨pc, th, v, hpc, hrun, rfl⟩ | ⟨e', he', -, -⟩ |
        ⟨e', he', -, -⟩
      · obtain rfl := Thread.running.inj (hthread.symm.trans hpc)
        cases hrun
        exact Or.inl ⟨e, rfl⟩
      · cases hthread.symm.trans he'
      · cases hthread.symm.trans he'
    · exact Or.inr ⟨_, htracks.openFile hpaths hthread hfile hw⟩
    · exact (htracks.write hpaths hthread hw).imp id fun htracks' => ⟨opened, htracks'⟩
    · exact htracks.other habort' hopen hwrite hw habort

/-- In every run the places are known until an exception is thrown. -/
theorem tracked_of_reach (hpaths : (r.fileInfos.map FileInfo.relativePath).Nodup)
    {hcap : cs.length ≤ capacity} (h : Reach (step nm r) any (start names contents cs hcap) s) :
    Tracked nm r names contents s := by
  refine h.invariant (fun _ _ _ hi _ hs => Tracked.step hpaths hi hs) fun _ => Or.inr ⟨[], ?_⟩
  exact ⟨rfl, rfl, rfl, fun path hpath => nomatch hpath⟩

/-- A writer that has returned has opened all files. -/
theorem Tracks.openAll_eq (hi : Tracks nm r names contents s opened)
    (hreturned : s.writer.thread = .returned) :
    nm.openAll names r.fileInfos = .ok ((opened.map Prod.snd).reverse, s.names) := by
  obtain ⟨hfiles, hplaces, -, -⟩ := hi
  rw [hreturned] at hfiles
  change _ ++ [] = _ at hfiles
  rw [← hfiles, List.append_nil]
  exact hplaces

/-- Once the writer has returned, a place holds what has been written under one of the paths that
lead there. -/
theorem Tracks.exists_contents_eq (hi : Tracks nm r names contents s opened)
    (hreturned : s.writer.thread = .returned) {i : ℕ} {place : Place}
    (hplace : (opened.map Prod.snd).reverse[i]? = some place) :
    ∃ (j : ℕ) (info : FileInfo), r.fileInfos[j]? = some info ∧
      (opened.map Prod.snd).reverse[j]? = some place ∧
      s.contents place = (s.writer.view.world.files info.relativePath).getD [] := by
  have hfiles := hi.files
  rw [hreturned] at hfiles
  change _ ++ [] = _ at hfiles
  rw [hi.contents]
  unfold held
  cases hfind : opened.find? fun x => x.2 = place with
  | none =>
    obtain ⟨x, hx, hxplace⟩ := List.mem_map.mp (List.mem_reverse.mp (List.mem_of_getElem? hplace))
    exact absurd (decide_eq_true hxplace) (List.find?_eq_none.mp hfind x hx)
  | some x =>
    have hx : x.2 = place := by simpa using List.find?_some hfind
    obtain ⟨j, hj⟩ := List.mem_iff_getElem?.mp
      (List.mem_reverse.mpr (List.mem_of_find?_eq_some hfind))
    refine ⟨j, x.1, ?_, ?_, rfl⟩
    · rw [← hfiles, List.append_nil, ← List.map_reverse, List.getElem?_map, hj]
      rfl
    · rw [← List.map_reverse, List.getElem?_map, hj, Option.map_some, hx]

end Runs

end PlacedWriter

end Trit
