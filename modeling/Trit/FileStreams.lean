import Trit.Receiver
import Trit.Writer
import Trit.Lib.BufferedOutput

/-!
# The streams of the writer

`write_files_from_chunks` with the `ofstream`s that it writes to.  A write puts bytes into the
stream of the open file, and the check behind it sees whether an underlying write has failed so far.
When the file goes out of scope the destructor of the stream writes the rest of the buffer, and
nobody looks at the result.

* `FileStreams`, `FileStreams.step`: the writer, the stream of its open file, and the disk;
* `Left`, `Finished`: it has thrown or was told to abort, or it has returned otherwise;
* `Kept`: a stream is not destroyed with bytes that can no longer be written;
* `Consistent`: the disk and the stream hold what has been written;
* `writer_of_reach`: the writer takes the steps of `write_files_from_chunks`;
* `whole_of_finished`: if every stream is kept, then a writer that has returned has everything on
  the disk.
-/

namespace Trit

open Transition FileManager BufferedOutput

/-- The writer with the stream of its open file and what has reached the disk.  The files of the
writer are as if every write reached the disk at once. -/
structure FileStreams (capacity : ℕ) where
  writer : Writer capacity
  file : Option (Bytes × Stream UInt8)
  disk : Bytes → Option Bytes
  /-- it has left the function at a check of the abort flag -/
  aborted : Bool

namespace FileStreams

variable {capacity : ℕ} {r : TransferRequest}

/-- The file that is in scope at a point of the inner loop. -/
def openPath : Thread WritePc → Option Bytes
  | .running (.abortCheck _ path _ _) | .running (.write _ path _ _)
  | .running (.increment _ path _ _) | .running (.inputDone _ path _ _)
  | .running (.inputEmpty _ path _ _) | .running (.pop path _ _) => some path
  | _ => none

/-- What can happen: an event of the writer; some bytes of the buffer reach the disk; a write of
such bytes fails after some of them; the destructor of the stream. -/
inductive Event
  | writer (a : Writer.Event)
  | drain (n : ℕ)
  | fail (n : ℕ)
  | destroy

/-- Before the first step. -/
def start (capacity : ℕ) (fs : FileSystem) : FileStreams capacity where
  writer := .start capacity fs
  file := none
  disk := fs.files
  aborted := false

/-- The stream has gone out of scope, so its destructor is next. -/
def leaving (s : FileStreams capacity) : Bool :=
  s.file.isSome && (openPath s.writer.thread).isNone

/-- The writer is at a `file.write` whose check will find that the stream has failed. -/
def refused (s : FileStreams capacity) : Bool :=
  match s.writer.thread, s.file with
  | .running (.write _ _ _ _), some (_, out) => out.failed
  | _, _ => false

/-- The stream after an operation of the writer. -/
def fileAfter (s : FileStreams capacity) (f : Option Fault) : Option (Bytes × Stream UInt8) :=
  match s.writer.thread, f with
  | .running (.openFile _ info _), none => some (info.relativePath, .opened)
  | .running (.write l _ n _), none => s.file.map fun (path, out) =>
      (path, out.put (bytesToWrite l n))
  | .running (.write l _ n _), some x => s.file.map fun (path, out) =>
      (path, (out.put (bytesToWrite l n)).fail x.progress)
  | _, _ => s.file

/-- The disk after an operation of the writer: opening a file truncates it. -/
def diskAfter (s : FileStreams capacity) (f : Option Fault) : Bytes → Option Bytes :=
  match s.writer.thread, f with
  | .running (.openFile _ info _), none => Function.update s.disk info.relativePath (some [])
  | _, _ => s.disk

/-- Is the writer at a check of the abort flag? -/
def atAbortCheck : Thread WritePc → Bool
  | .running (.abortCheck _ _ _ _) => true
  | _ => false

/-- One event. -/
def step (r : TransferRequest) (s : FileStreams capacity) : Event → Option (FileStreams capacity)
  | .writer (.step f) =>
      if s.leaving || (s.refused && f.isNone) then none
      else (s.writer.step r (.step f)).map fun t =>
        ⟨t, s.fileAfter f, s.diskAfter f,
          s.aborted || (atAbortCheck s.writer.thread && t.thread.isReturned)⟩
  | .writer a => (s.writer.step r a).map fun t => { s with writer := t }
  | .drain n => s.file.map fun (path, out) => { s with file := some (path, out.drain n) }
  | .fail n => s.file.map fun (path, out) => { s with file := some (path, out.fail n) }
  | .destroy =>
      match s.file with
      | none => none
      | some (path, out) =>
          if s.leaving then some { s with
            file := none, disk := Function.update s.disk path (some out.close.file) }
          else none

/-- An exception has been thrown, or the abort flag has been seen. -/
def Left (s : FileStreams capacity) : Prop :=
  s.aborted = true ∨ s.writer.thread.thrown = true ∨ s.writer.ctx.handled ≠ []

/-- It has returned without an exception and without abort. -/
def Finished (s : FileStreams capacity) : Prop :=
  s.writer.thread = .returned ∧ s.file = none ∧ ¬ s.Left

/-- All bytes of every file have reached the disk. -/
def Whole (s : FileStreams capacity) : Prop := ∀ path, s.disk path = s.writer.view.world.files path

instance (s : FileStreams capacity) : Decidable s.Left := inferInstanceAs (Decidable (_ ∨ _))

instance (s : FileStreams capacity) : Decidable s.Finished := inferInstanceAs (Decidable (_ ∧ _))

/-- When a stream goes out of scope without an exception and without abort, no bytes are left in the
buffer that can no longer be written because a write has failed. -/
def Kept (s : FileStreams capacity) : Event → Prop
  | .destroy => s.Left ∨ ∀ file ∈ s.file, file.2.failed = true → file.2.buffer = []
  | _ => True

instance (s : FileStreams capacity) (a : Event) : Decidable (s.Kept a) :=
  match a with
  | .destroy => inferInstanceAs (Decidable (_ ∨ _))
  | .writer _ | .drain _ | .fail _ => instDecidableTrue

/-- The stream of the open file and the disk hold what has been written. -/
structure Consistent (s : FileStreams capacity) : Prop where
  closed : s.file = none → openPath s.writer.thread = none ∧ s.Whole
  opened : ∀ path out, s.file = some (path, out) →
    (openPath s.writer.thread = none ∨ openPath s.writer.thread = some path) ∧
      s.writer.view.world.files path = some (out.file ++ out.buffer) ∧
      ∀ q, q ≠ path → s.disk q = s.writer.view.world.files q

variable {s t : FileStreams capacity} {a : Event} {f : Option Fault}

/-! ### Where the open file is in scope -/

theorem openPath_forLoop (l : WriteLocals) (infos : List FileInfo) :
    openPath (forLoop l infos) = none := by
  cases infos <;> rfl

theorem openPath_whileLoop (l : WriteLocals) (path : Bytes) (n : ℕ) (infos : List FileInfo) :
    openPath (whileLoop l path n infos) = none ∨
      openPath (whileLoop l path n infos) = some path := by
  unfold whileLoop
  split_ifs
  · exact Or.inr rfl
  · exact Or.inl (openPath_forLoop l infos)

theorem openPath_afterWrite (l : WriteLocals) (path : Bytes) (n : ℕ) (infos : List FileInfo) :
    openPath (afterWrite l path n infos) = none ∨
      openPath (afterWrite l path n infos) = some path := by
  unfold afterWrite
  dsimp only
  split_ifs
  · exact Or.inr rfl
  · exact openPath_whileLoop _ _ _ _

/-! ### Steps -/

theorem step_writer (h : s.step r (.writer (.step f)) = some t) :
    s.leaving = false ∧ (s.refused = true → f ≠ none) ∧
      s.writer.step r (.step f) = some t.writer ∧ t.file = s.fileAfter f ∧
      t.disk = s.diskAfter f ∧
      t.aborted = (s.aborted || (atAbortCheck s.writer.thread && t.writer.thread.isReturned)) := by
  rw [step] at h
  split_ifs at h with hguard
  obtain ⟨w, hw, rfl⟩ := Option.map_eq_some_iff.mp h
  rw [Bool.or_eq_true, not_or, Bool.not_eq_true] at hguard
  refine ⟨hguard.1, fun hrefused hf => hguard.2 ?_, hw, rfl, rfl, rfl⟩
  rw [hrefused, hf]
  rfl

/-- An event of the others leaves the thread and its files alone. -/
theorem step_outside {a : Writer.Event} (ha : ∀ f, a ≠ .step f)
    (h : s.step r (.writer a) = some t) :
    s.writer.step r a = some t.writer ∧ t.file = s.file ∧ t.disk = s.disk ∧
      t.aborted = s.aborted := by
  cases a with
  | step f => exact absurd rfl (ha f)
  | arrive c =>
    obtain ⟨w, hw, rfl⟩ := Option.map_eq_some_iff.mp h
    exact ⟨hw, rfl, rfl, rfl⟩
  | finish | abort =>
    cases h
    exact ⟨rfl, rfl, rfl, rfl⟩

/-- What the others do leaves the thread, the files and the exceptions alone. -/
theorem writer_outside {u v : Writer capacity} {a : Writer.Event} (ha : ∀ f, a ≠ .step f)
    (h : u.step r a = some v) : v.thread = u.thread ∧ v.view.world = u.view.world ∧
      v.ctx.handled = u.ctx.handled := by
  cases a with
  | step f => exact absurd rfl (ha f)
  | arrive c =>
    obtain ⟨q, -, rfl⟩ := Option.map_eq_some_iff.mp h
    exact ⟨rfl, rfl, rfl⟩
  | finish | abort =>
    cases h
    exact ⟨rfl, rfl, rfl⟩

/-- What a step of the writer can be. -/
theorem writer_step_cases {u v : Writer capacity} (h : u.step r (.step f) = some v) :
    (∃ pc, u.thread = .running pc ∧ v.ctx = u.ctx ∧
      WriteMove r u.ctx.shouldAbort f u.view pc v.thread v.view) ∨
    u.thread.thrown = true ∧ (v.thread.thrown = true ∨ v.ctx.handled ≠ []) := by
  obtain ⟨⟨th, ctx, view⟩, hstep, rfl⟩ := Option.map_eq_some_iff.mp h
  rcases Thread.step_cases hstep with ⟨pc, hpc, hctx, hrun⟩ | ⟨e, he, -, rfl, rfl, -⟩ |
    ⟨e, he, -, rfl, rfl, -⟩
  · exact Or.inl ⟨pc, hpc, hctx, writeMove_of_run hrun⟩
  · exact Or.inr ⟨by rw [he]; rfl, Or.inl rfl⟩
  · exact Or.inr ⟨by rw [he]; rfl, Or.inr (by simp)⟩

/-- Once the function has been left by an exception or by the abort check, it stays so. -/
theorem Left.step (hleft : s.Left) (h : s.step r a = some t) : t.Left := by
  cases a with
  | writer a =>
    by_cases ha : ∃ f, a = .step f
    · obtain ⟨f, rfl⟩ := ha
      obtain ⟨-, -, hwriter, -, -, haborted⟩ := step_writer h
      rcases writer_step_cases hwriter with ⟨pc, hpc, hctx, -⟩ | ⟨-, hthrown⟩
      · rcases hleft with hleft | hleft | hleft
        · exact Or.inl (by rw [haborted, hleft]; rfl)
        · rw [hpc] at hleft
          cases hleft
        · exact Or.inr (Or.inr (by rwa [hctx]))
      · exact Or.inr hthrown
    · have ha : ∀ f, a ≠ .step f := fun f hf => ha ⟨f, hf⟩
      obtain ⟨hwriter, -, -, haborted⟩ := step_outside ha h
      obtain ⟨hthread, -, hhandled⟩ := writer_outside ha hwriter
      unfold Left
      rwa [haborted, hthread, hhandled]
  | drain n | fail n =>
    obtain ⟨⟨path, out⟩, -, rfl⟩ := Option.map_eq_some_iff.mp h
    exact hleft
  | destroy =>
    simp only [FileStreams.step] at h
    split at h
    · cases h
    · split_ifs at h
      cases h
      exact hleft

/-- An operation that fails leaves the function. -/
theorem left_of_fault {x : Fault} (h : s.step r (.writer (.step (some x))) = some t) : t.Left := by
  obtain ⟨-, -, hwriter, -⟩ := step_writer h
  obtain ⟨⟨th, ctx, view⟩, hstep, heq⟩ := Option.map_eq_some_iff.mp hwriter
  refine Or.inr (Or.inl ?_)
  rw [← heq]
  exact Thread.thrown_of_fault hstep

/-! ### What the disk and the stream hold -/

/-- A step that leaves the files alone, and the open file in scope or not. -/
theorem Consistent.keep (hi : s.Consistent) (hfile : t.file = s.file) (hdisk : t.disk = s.disk)
    (hworld : t.writer.view.world = s.writer.view.world)
    (hpath : openPath t.writer.thread = none ∨
      openPath t.writer.thread = openPath s.writer.thread) : t.Consistent := by
  constructor
  · intro hnone
    obtain ⟨hscope, hwhole⟩ := hi.closed (hfile ▸ hnone)
    refine ⟨?_, fun path => by rw [hdisk, hworld, hwhole path]⟩
    rcases hpath with hpath | hpath
    · exact hpath
    · rw [hpath, hscope]
  · intro path out hsome
    obtain ⟨hscope, hhas, hother⟩ := hi.opened path out (hfile ▸ hsome)
    refine ⟨?_, by rw [hworld, hhas], fun q hq => by rw [hdisk, hworld, hother q hq]⟩
    rcases hpath with hpath | hpath
    · exact Or.inl hpath
    · rwa [hpath]

theorem Consistent.openFile {l : WriteLocals} {info : FileInfo} {infos : List FileInfo}
    (hi : s.Consistent) (hnone : s.file = none)
    (hfile : t.file = some (info.relativePath, .opened))
    (hdisk : t.disk = Function.update s.disk info.relativePath (some []))
    (hthread : t.writer.thread = whileLoop l info.relativePath info.size.toNat infos)
    (hworld : t.writer.view.world =
      (s.writer.view.world.createParent info.relativePath).truncate info.relativePath) :
    t.Consistent := by
  obtain ⟨-, hwhole⟩ := hi.closed hnone
  constructor
  · intro habsent
    rw [hfile] at habsent
    cases habsent
  · intro path out hsome
    rw [hfile, Option.some.injEq, Prod.mk.injEq] at hsome
    obtain ⟨rfl, rfl⟩ := hsome
    refine ⟨?_, ?_, fun q hq => ?_⟩
    · rw [hthread]
      exact openPath_whileLoop _ _ _ _
    · rw [hworld]
      simp [FileSystem.truncate, Stream.opened]
    · rw [hdisk, hworld, Function.update_of_ne hq, hwhole q]
      simp [FileSystem.truncate, Function.update_of_ne hq]

theorem Consistent.write {l : WriteLocals} {path : Bytes} {n : ℕ} {infos : List FileInfo}
    {out : Stream UInt8} (hi : s.Consistent) (hsome : s.file = some (path, out))
    (hgood : out.failed = false)
    (hfile : t.file = some (path, out.put (bytesToWrite l n))) (hdisk : t.disk = s.disk)
    (hthread : t.writer.thread = afterWrite l path n infos)
    (hworld : t.writer.view.world = s.writer.view.world.append path (bytesToWrite l n)) :
    t.Consistent := by
  obtain ⟨-, hhas, hother⟩ := hi.opened path out hsome
  constructor
  · intro habsent
    rw [hfile] at habsent
    cases habsent
  · intro path' out' hsome'
    rw [hfile, Option.some.injEq, Prod.mk.injEq] at hsome'
    obtain ⟨rfl, rfl⟩ := hsome'
    refine ⟨?_, ?_, fun q hq => ?_⟩
    · rw [hthread]
      exact openPath_afterWrite _ _ _ _
    · rw [hworld, Stream.append_put hgood]
      simp [FileSystem.append, hhas]
    · rw [hdisk, hworld, hother q hq]
      simp [FileSystem.append, Function.update_of_ne hq]

/-- Where the writer is about to write to a file, this file is open. -/
theorem Consistent.file_of_write {l : WriteLocals} {path : Bytes} {n : ℕ} {infos : List FileInfo}
    (hi : s.Consistent) (hpc : s.writer.thread = .running (.write l path n infos)) :
    ∃ out, s.file = some (path, out) := by
  cases hs : s.file with
  | none =>
    have hscope := (hi.closed hs).1
    rw [hpc] at hscope
    cases hscope
  | some file =>
    obtain ⟨path', out⟩ := file
    rcases (hi.opened path' out hs).1 with hscope | hscope
    · rw [hpc] at hscope
      cases hscope
    · rw [hpc] at hscope
      obtain rfl : path = path' := Option.some.inj hscope
      exact ⟨out, rfl⟩

theorem Consistent.writer (hi : s.Consistent) (h : s.step r (.writer (.step none)) = some t) :
    t.Left ∨ t.Consistent := by
  obtain ⟨hleaving, hrefused, hwriter, hfile, hdisk, haborted⟩ := step_writer h
  rcases writer_step_cases hwriter with ⟨pc, hpc, -, hmove⟩ | ⟨-, hthrown⟩
  swap
  · exact Or.inl (Or.inr hthrown)
  generalize hthread : t.writer.thread = th at hmove
  generalize hview : t.writer.view = v at hmove
  have hkeep : (∀ l info infos, pc ≠ .openFile l info infos) →
      (∀ l path n infos, pc ≠ .write l path n infos) → v.world = s.writer.view.world →
      (openPath th = none ∨ openPath th = openPath (.running pc)) → t.Consistent := by
    intro hopen hwrite hworld hpath
    refine hi.keep ?_ ?_ (by rw [hview, hworld]) (by rwa [hthread, hpc])
    · rw [hfile]
      unfold fileAfter
      rw [hpc]
      cases pc with
      | openFile l info infos => exact absurd rfl (hopen l info infos)
      | write l path n infos => exact absurd rfl (hwrite l path n infos)
      | _ => rfl
    · rw [hdisk]
      unfold diskAfter
      rw [hpc]
      cases pc with
      | openFile l info infos => exact absurd rfl (hopen l info infos)
      | _ => rfl
  cases hmove with
  | firstPopped c q hpc' =>
    subst hpc'
    exact Or.inr (hkeep nofun nofun rfl (Or.inl (openPath_forLoop _ _)))
  | opened l info infos hpc' =>
    subst hpc'
    have hnone : s.file = none := by
      rw [leaving, hpc] at hleaving
      cases hs : s.file with
      | none => rfl
      | some file =>
        rw [hs] at hleaving
        cases hleaving
    refine Or.inr (hi.openFile hnone ?_ ?_ hthread (by rw [hview]))
    · simp [hfile, fileAfter, hpc]
    · simp [hdisk, diskAfter, hpc]
  | openFault l info infos x hpc' hf | writeFault l path n infos x hpc' hf => cases hf
  | abort l path n infos hpc' =>
    subst hpc'
    refine Or.inl (Or.inl ?_)
    rw [haborted, hpc, hthread]
    exact Bool.or_true _
  | wrote l path n infos hpc' =>
    subst hpc'
    obtain ⟨out, hsome⟩ := hi.file_of_write hpc
    have hgood : out.failed = false := by
      rw [Bool.eq_false_iff]
      intro hfailed
      refine hrefused ?_ rfl
      rw [refused, hpc, hsome]
      exact hfailed
    refine Or.inr (hi.write hsome hgood ?_ ?_ hthread (by rw [hview]))
    · simp [hfile, fileAfter, hpc, hsome]
    · simp [hdisk, diskAfter, hpc]
  | drained l path n infos hpc' =>
    subst hpc'
    exact Or.inr (hkeep nofun nofun rfl (Or.inl (openPath_forLoop _ _)))
  | popped path n infos c q hpc' =>
    subst hpc'
    exact Or.inr (hkeep nofun nofun rfl (openPath_whileLoop _ _ _ _))
  | goOn l path n infos hpc' | counted l path n infos hpc' | doneSeen l path n infos hpc'
  | notDone l path n infos hpc' | more l path n infos hpc' =>
    subst hpc'
    exact Or.inr (hkeep nofun nofun rfl (Or.inr rfl))

theorem Consistent.buffer {path : Bytes} {out out' : Stream UInt8} (hi : s.Consistent)
    (hsome : s.file = some (path, out)) (hout : out'.file ++ out'.buffer = out.file ++ out.buffer) :
    Consistent { s with file := some (path, out') } := by
  obtain ⟨hscope, hhas, hother⟩ := hi.opened path out hsome
  constructor
  · intro habsent
    cases habsent
  · intro path' out'' hsome'
    obtain ⟨rfl, rfl⟩ : path = path' ∧ out' = out'' := by simpa using hsome'
    exact ⟨hscope, hhas.trans (congrArg some hout.symm), hother⟩

theorem Consistent.destroy {path : Bytes} {out : Stream UInt8} (hi : s.Consistent)
    (hsome : s.file = some (path, out)) (hleaving : s.leaving = true)
    (hkept : out.failed = true → out.buffer = []) :
    Consistent { s with
      file := none, disk := Function.update s.disk path (some out.close.file) } := by
  obtain ⟨-, hhas, hother⟩ := hi.opened path out hsome
  constructor
  · intro _
    rw [leaving, Bool.and_eq_true, Option.isNone_iff_eq_none] at hleaving
    refine ⟨hleaving.2, fun q => ?_⟩
    show Function.update s.disk path (some out.close.file) q = s.writer.view.world.files q
    by_cases hq : q = path
    · rw [hq, Function.update_self, hhas, Stream.file_close hkept]
    · rw [Function.update_of_ne hq, hother q hq]
  · intro path' out' habsent
    cases habsent

theorem Consistent.step (hi : s.Consistent) (hkept : s.Kept a) (h : s.step r a = some t) :
    t.Left ∨ t.Consistent := by
  cases a with
  | writer a =>
    by_cases ha : ∃ f, a = .step f
    · obtain ⟨f, rfl⟩ := ha
      cases f with
      | none => exact hi.writer h
      | some x => exact Or.inl (left_of_fault h)
    · have ha : ∀ f, a ≠ .step f := fun f hf => ha ⟨f, hf⟩
      obtain ⟨hwriter, hfile, hdisk, -⟩ := step_outside ha h
      obtain ⟨hthread, hworld, -⟩ := writer_outside ha hwriter
      exact Or.inr (hi.keep hfile hdisk hworld (Or.inr (by rw [hthread])))
  | drain n =>
    obtain ⟨⟨path, out⟩, hsome, rfl⟩ := Option.map_eq_some_iff.mp h
    exact Or.inr (hi.buffer hsome (out.append_drain n))
  | fail n =>
    obtain ⟨⟨path, out⟩, hsome, rfl⟩ := Option.map_eq_some_iff.mp h
    exact Or.inr (hi.buffer hsome (out.append_fail n))
  | destroy =>
    rcases hkept with hleft | hkept
    · exact Or.inl (hleft.step h)
    · simp only [FileStreams.step] at h
      split at h
      · cases h
      · rename_i path out hsome
        split_ifs at h with hleaving
        cases h
        exact Or.inr (hi.destroy hsome hleaving (hkept (path, out) hsome))

theorem consistent_start (capacity : ℕ) (fs : FileSystem) : (start capacity fs).Consistent := by
  constructor
  · intro _
    exact ⟨rfl, fun _ => rfl⟩
  · intro path out habsent
    cases habsent

/-- What every run preserves in which every stream is kept. -/
theorem left_or_consistent {fs : FileSystem} (hs : Reach (step r) Kept (start capacity fs) s) :
    s.Left ∨ s.Consistent := by
  refine hs.invariant (I := fun s => s.Left ∨ s.Consistent) ?_ (Or.inr (consistent_start _ _))
  rintro s a t (hleft | hi) hkept hstep
  · exact Or.inl (hleft.step hstep)
  · exact hi.step hkept hstep

/-- The writer takes the steps of `write_files_from_chunks`, and its files are those that it would
leave without buffers. -/
theorem writer_of_reach {ok : FileStreams capacity → Event → Prop} {fs : FileSystem}
    (hs : Reach (step r) ok (start capacity fs) s) :
    Reach (Writer.step r) any (.start capacity fs) s.writer := by
  refine hs.invariant
    (I := fun s => Reach (Writer.step r) any (.start capacity fs) s.writer) ?_ .refl
  intro s a t hi _ hstep
  cases a with
  | writer a =>
    by_cases ha : ∃ f, a = .step f
    · obtain ⟨f, rfl⟩ := ha
      obtain ⟨-, -, hwriter, -⟩ := step_writer hstep
      exact hi.tail trivial hwriter
    · obtain ⟨hwriter, -⟩ := step_outside (fun f hf => ha ⟨f, hf⟩) hstep
      exact hi.tail trivial hwriter
  | drain n | fail n =>
    obtain ⟨⟨path, out⟩, -, rfl⟩ := Option.map_eq_some_iff.mp hstep
    exact hi
  | destroy =>
    simp only [step] at hstep
    split at hstep
    · cases hstep
    · split_ifs at hstep
      cases hstep
      exact hi

/-- In every run in which every stream is kept, a writer that has returned without an exception and
without abort has all bytes of every file on the disk. -/
theorem whole_of_finished {fs : FileSystem} (hs : Reach (step r) Kept (start capacity fs) s)
    (h : s.Finished) : s.Whole := by
  obtain ⟨-, hnone, hnot⟩ := h
  rcases left_or_consistent hs with hleft | hi
  · exact absurd hleft hnot
  · exact (hi.closed hnone).2

/-! ### One byte -/

/-- The request for a file `a` of one byte. -/
def oneByte : TransferRequest := ⟨1, 1, 1, 0, 1, [⟨[97], 1⟩]⟩

/-- The chunk with the byte arrives, the writer takes it, opens the file, and returns. -/
def oneByteEvents : List Event :=
  [.writer (.arrive (.plain 1 [7])), .writer .finish] ++
    List.replicate 7 (.writer (.step none))

theorem whole_of_finished_oneByte : ∃ s : FileStreams Receiver.queueCapacity,
    Reach (step oneByte) Kept (start _ ⟨fun _ => none, []⟩) s ∧ s.Finished ∧ s.Whole ∧
      s.disk [97] = some [7] := by
  have hrun : (exec (restrict (step oneByte) Kept)
      (start Receiver.queueCapacity ⟨fun _ => none, []⟩) (oneByteEvents ++ [.destroy])).map
      (fun s => decide (s.Finished ∧ s.disk [97] = some [7])) = some true := by
    decide +kernel
  obtain ⟨s, hs, htest⟩ := reach_of_exec_restrict _ hrun
  obtain ⟨hfinished, hdisk⟩ := of_decide_eq_true htest
  exact ⟨s, hs, hfinished, whole_of_finished hs hfinished, hdisk⟩

/-- The write in the destructor fails, and the writer returns as if nothing had happened. -/
theorem not_whole_of_lost : ∃ s : FileStreams Receiver.queueCapacity,
    Reach (step oneByte) any (start _ ⟨fun _ => none, []⟩) s ∧ s.Finished ∧ ¬ s.Whole := by
  have hrun : (exec (step oneByte) (start Receiver.queueCapacity ⟨fun _ => none, []⟩)
      (oneByteEvents ++ [.fail 0, .destroy])).map (fun s => decide (s.Finished ∧
        s.disk [97] = some [] ∧ s.writer.view.world.files [97] = some [7])) = some true := by
    decide +kernel
  obtain ⟨s, hs, htest⟩ := reach_of_exec_test _ (fun _ _ _ => trivial) hrun
  obtain ⟨hfinished, hdisk, hfiles⟩ := of_decide_eq_true htest
  refine ⟨s, hs, hfinished, fun hwhole => ?_⟩
  have hpath := hwhole [97]
  rw [hdisk, hfiles] at hpath
  cases hpath

end FileStreams

end Trit
