import Trit.Pipeline
import Trit.FileManager

/-!
# The writer on its own

`write_files_from_chunks` with any chunk stream: chunks arrive in its queue and the flags are set
when the outside likes.  The receiver's pipeline is one such outside.

* `Writer`, `Writer.Event`, `Writer.step`: the writer thread, its queue and the flags;
* `Writer.Opening`: the writer is about to open a file;
* `Writer.upcoming_move`, `Writer.upcoming_of_reach`: the files that are still to be opened;
* `Writer.mem_of_opening`, `Writer.reach_first`: the writer only opens files of its request, and it
  gets to the first of them.
-/

namespace Trit

open Transition FileManager

/-- The writer thread with what it shares with others. -/
structure Writer (capacity : ℕ) where
  thread : Thread WritePc
  ctx : WorkerContext
  view : View capacity FileSystem

namespace Writer

variable {capacity : ℕ} {r : TransferRequest}

/-- What can happen: the writer takes a step, which may fail; a chunk arrives; the input is marked
as done; another thread sets the abort flag. -/
inductive Event
  | step (f : Option Fault)
  | arrive (c : Chunk)
  | finish
  | abort

/-- The writer before its first step, in a working directory. -/
def start (capacity : ℕ) (fs : FileSystem) : Writer capacity where
  thread := .running .firstPop
  ctx := .new
  view := ⟨.new capacity, .new capacity, 0, fs⟩

/-- One event. -/
def step (r : TransferRequest) (s : Writer capacity) : Event → Option (Writer capacity)
  | .step f => (s.thread.step (writeFilesFromChunks r) f s.ctx s.view).map fun (t, ctx, v) =>
      ⟨t, ctx, v⟩
  | .arrive c => (s.view.input.queue.push c).map fun q =>
      { s with view := { s.view with input := { s.view.input with queue := q } } }
  | .finish => some { s with view := { s.view with input := { s.view.input with done := true } } }
  | .abort => some { s with ctx := s.ctx.raise }

/-- The writer is about to create the parent directories of this file and to open it. -/
def Opening (s : Writer capacity) (info : FileInfo) : Prop :=
  ∃ l infos, s.thread = .running (.openFile l info infos)

/-- The files that are still to be opened. -/
def upcoming (r : TransferRequest) : Thread WritePc → List FileInfo
  | .running .firstPop => r.fileInfos
  | .running (.openFile _ info infos) => info :: infos
  | .running (.abortCheck _ _ _ infos) | .running (.write _ _ _ infos)
  | .running (.increment _ _ _ infos) | .running (.inputDone _ _ _ infos)
  | .running (.inputEmpty _ _ _ infos) | .running (.pop _ _ infos) => infos
  | _ => []

theorem upcoming_forLoop (l : WriteLocals) (infos : List FileInfo) :
    upcoming r (forLoop l infos) = infos := by
  cases infos <;> rfl

theorem upcoming_whileLoop (l : WriteLocals) (path : Bytes) (n : ℕ) (infos : List FileInfo) :
    upcoming r (whileLoop l path n infos) = infos := by
  unfold whileLoop
  split_ifs
  · rfl
  · exact upcoming_forLoop l infos

theorem upcoming_afterWrite (l : WriteLocals) (path : Bytes) (n : ℕ) (infos : List FileInfo) :
    upcoming r (afterWrite l path n infos) = infos := by
  unfold afterWrite
  dsimp only
  split_ifs
  · rfl
  · exact upcoming_whileLoop _ _ _ _

/-- No operation adds a file to those that are still to be opened. -/
theorem upcoming_move {abort : Bool} {f : Option Fault} {v v' : View capacity FileSystem}
    {pc : WritePc} {t : Thread WritePc} (h : WriteMove r abort f v pc t v') :
    upcoming r t <:+ upcoming r (.running pc) := by
  cases h with
  | firstPopped c q hpc =>
    rw [hpc, upcoming_forLoop]
    exact List.suffix_rfl
  | opened l info infos hpc =>
    rw [hpc, upcoming_whileLoop]
    exact List.suffix_cons info infos
  | wrote l path n infos hpc =>
    rw [hpc, upcoming_afterWrite]
    exact List.suffix_rfl
  | drained l path n infos hpc =>
    rw [hpc, upcoming_forLoop]
    exact List.suffix_rfl
  | popped path n infos c q hpc =>
    rw [hpc, upcoming_whileLoop]
    exact List.suffix_rfl
  | openFault | abort | writeFault => exact List.nil_suffix
  | goOn l path n infos hpc | counted l path n infos hpc | doneSeen l path n infos hpc
  | notDone l path n infos hpc | more l path n infos hpc =>
    rw [hpc]
    exact List.suffix_rfl

/-- The writer has no output side. -/
theorem output_of_move {abort : Bool} {f : Option Fault} {v v' : View capacity FileSystem}
    {pc : WritePc} {t : Thread WritePc} (h : WriteMove r abort f v pc t v') :
    v'.output = v.output := by
  cases h <;> rfl

/-- The first pop takes the writer into the loop over the files. -/
theorem move_of_firstPop {abort : Bool} {f : Option Fault} {v v' : View capacity FileSystem}
    {t : Thread WritePc} (h : WriteMove r abort f v .firstPop t v') :
    ∃ c, t = forLoop (.ofChunk c) r.fileInfos := by
  cases h with
  | firstPopped c q hpc hq => exact ⟨c, rfl⟩
  | _ => contradiction

/-- What one event does to the writer thread. -/
theorem thread_of_step {s t : Writer capacity} {a : Event} (h : s.step r a = some t) :
    t.thread = s.thread ∨
      (∃ f pc, a = .step f ∧ s.thread = .running pc ∧
        WriteMove r s.ctx.shouldAbort f s.view pc t.thread t.view) ∨
      (∀ pc, s.thread ≠ .running pc) ∧ ∀ pc, t.thread ≠ .running pc := by
  cases a with
  | step f =>
    obtain ⟨⟨th, ctx, v⟩, hstep, rfl⟩ := Option.map_eq_some_iff.mp h
    rcases Thread.step_cases hstep with ⟨pc, hpc, -, hrun⟩ | ⟨e, he, -, rfl, -⟩ |
      ⟨e, he, -, rfl, -⟩
    · exact Or.inr (Or.inl ⟨f, pc, rfl, hpc, writeMove_of_run hrun⟩)
    · exact Or.inr (Or.inr ⟨by simp [he], by simp⟩)
    · exact Or.inr (Or.inr ⟨by simp [he], by simp⟩)
  | arrive c =>
    obtain ⟨q, -, rfl⟩ := Option.map_eq_some_iff.mp h
    exact Or.inl rfl
  | finish =>
    cases h
    exact Or.inl rfl
  | abort =>
    cases h
    exact Or.inl rfl

theorem not_running_of_fault {s t : Writer capacity} {x : Fault}
    (h : s.step r (.step (some x)) = some t) (pc : WritePc) : t.thread ≠ .running pc := by
  obtain ⟨⟨th, ctx, v⟩, hstep, rfl⟩ := Option.map_eq_some_iff.mp h
  intro hrunning
  have hthrown := Thread.thrown_of_fault hstep
  rw [show th = .running pc from hrunning] at hthrown
  cases hthrown

/-- In every run, the files that are still to be opened are the last ones of the request. -/
theorem upcoming_of_reach {ok : Writer capacity → Event → Prop} {fs : FileSystem}
    {s : Writer capacity} (h : Reach (step r) ok (start capacity fs) s) :
    upcoming r s.thread <:+ r.fileInfos := by
  refine h.invariant (I := fun s => upcoming r s.thread <:+ r.fileInfos) ?_ List.suffix_rfl
  intro s a t hs _ hstep
  rcases thread_of_step hstep with heq | ⟨f, pc, -, hpc, hmove⟩ | ⟨-, hnot⟩
  · rw [heq]
    exact hs
  · rw [hpc] at hs
    exact (upcoming_move hmove).trans hs
  · have hnil : upcoming r t.thread = [] := by
      cases ht : t.thread with
      | running pc => exact absurd ht (hnot pc)
      | _ => rfl
    rw [hnil]
    exact List.nil_suffix

/-- The writer only opens files of its request. -/
theorem mem_of_opening {ok : Writer capacity → Event → Prop} {fs : FileSystem}
    {s : Writer capacity} (h : Reach (step r) ok (start capacity fs) s) {info : FileInfo}
    (hinfo : s.Opening info) : info ∈ r.fileInfos := by
  obtain ⟨l, infos, hthread⟩ := hinfo
  have hsuffix := upcoming_of_reach h
  rw [hthread] at hsuffix
  exact hsuffix.subset List.mem_cons_self

/-- A chunk that arrives takes the writer to its first file. -/
theorem reach_first {ok : Writer capacity → Event → Prop} (hcap : 0 < capacity) (fs : FileSystem)
    (c : Chunk) {info : FileInfo} {infos : List FileInfo} (hinfos : r.fileInfos = info :: infos)
    (hok : ∀ s a, (∀ i, ¬ s.Opening i) → ok s a) :
    ∃ s, Reach (step r) ok (start capacity fs) s ∧
      s.thread = .running (.openFile (.ofChunk c) info infos) := by
  obtain ⟨n, rfl⟩ := Nat.exists_eq_add_of_le' hcap
  have hnot : ∀ s : Writer (n + 1), s.thread = .running .firstPop → ∀ i, ¬ s.Opening i := by
    rintro s hs i ⟨l, infos, hthread⟩
    rw [hs] at hthread
    cases hthread
  refine ⟨_, Reach.head (hok _ (.arrive c) (hnot _ rfl)) rfl
    (Reach.single (hok _ (.step none) (hnot _ rfl)) rfl), ?_⟩
  show forLoop (.ofChunk c) r.fileInfos = _
  rw [hinfos]
  rfl

end Writer

end Trit
