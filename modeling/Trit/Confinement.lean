import Trit.Receiver
import Trit.PeerInput
import Trit.Writer
import Trit.Lib.LexicalPath
import Mathlib.Data.List.TakeWhile

/-!
# Where received files go

The paths of a request, as `write_files_from_chunks` hands them to `create_directories` and
`ofstream`, and where they lead from the receiver's working directory.

* `lexicalPath`, `directories`, `Openable`: a path of a request, the directories that are created
  for its file, and whether the file can be opened at all;
* `Confined`, `Inert`: a path that stays below the working directory, and one that does nothing;
* `confined_of_descends`: a relative path without `..` is confined;
* `Writer.StaysInside`: what the writer of a request opens and creates stays below;
* `Writer.Matches`, `Receiver.exists_matches`: every run of `receive_files` is one of its writer;
* `Receiver.stays_inside_iff`: the received bytes for which it is confined.
-/

namespace Trit

open Transition FileManager TransferManager
open LexicalPath (Below)

/-! ### Paths -/

/-- What the operating system sees of a path, by `c_str()`: a zero byte ends it. -/
def cString (path : Bytes) : Bytes := path.takeWhile (· ≠ 0)

/-- The part of a path between two slashes. -/
def pathPart (bytes : Bytes) : LexicalPath.Part Bytes :=
  if bytes = [] ∨ bytes = [46] then .here
  else if bytes = [46, 46] then .up
  else .name bytes

/-- A path, taken apart at its slashes; one at the start makes it absolute. -/
def lexicalPath (path : Bytes) : LexicalPath Bytes where
  absolute := (cString path).head? == some 47
  parts := ((cString path).splitOn 47).map pathPart

/-- The directories that `create_directories` makes for a file, where they are missing. -/
def directories (path : Bytes) : List (LexicalPath Bytes) :=
  (lexicalPath (FileSystem.parentPath path)).namedPrefixes

/-- Can an `ofstream` be opened?  Its path must not end in a slash, `.` or `..`, and no zero byte
may cut it off at one of its directories.  The limits of the file system on the length of names and
paths are left out. -/
def Openable (path : Bytes) : Prop :=
  0 ∉ FileSystem.parentPath path ∧ (lexicalPath path).hasName = true

instance (path : Bytes) : Decidable (Openable path) := inferInstanceAs (Decidable (_ ∧ _))

/-- The file lies below the working directory, and so do the directories that are created for it;
those on the way to the working directory are there already. -/
def Confined (cwd : List Bytes) (path : Bytes) : Prop :=
  Below cwd ((lexicalPath path).resolve cwd) ∧
    ∀ d ∈ directories path, d.resolve cwd <+: cwd ∨ Below cwd (d.resolve cwd)

instance (cwd : List Bytes) (path : Bytes) : Decidable (Confined cwd path) :=
  inferInstanceAs (Decidable (_ ∧ _))

/-- Neither can the file be opened, nor is a directory created for it. -/
def Inert (cwd : List Bytes) (path : Bytes) : Prop :=
  ¬ Openable path ∧ ∀ d ∈ directories path, d.resolve cwd <+: cwd

theorem cString_eq_self {path : Bytes} (h : 0 ∉ path) : cString path = path := by
  refine List.takeWhile_eq_self_iff.mpr fun c hc => ?_
  have hne : c ≠ 0 := by
    rintro rfl
    exact h hc
  simpa using hne

namespace Writer

variable {capacity : ℕ} {r : TransferRequest} {cwd : List Bytes}

/-- The events that can happen: an `ofstream` that cannot be opened is not. -/
def Possible (s : Writer capacity) (a : Event) : Prop :=
  ∀ info, s.Opening info → a = .step none → Openable info.relativePath

/-- The event opens a file. -/
def Opens (s : Writer capacity) (a : Event) (path : Bytes) : Prop :=
  ∃ info, s.Opening info ∧ a = .step none ∧ info.relativePath = path

/-- The event creates a directory that is not one of those that are `present`. -/
def Creates (cwd : List Bytes) (present : Set (List Bytes)) (s : Writer capacity) (a : Event)
    (d : List Bytes) : Prop :=
  ∃ info f, s.Opening info ∧ a = .step f ∧ (∀ x, f = some x → x.progress ≠ 0) ∧
    d ∉ present ∧ ∃ q ∈ directories info.relativePath, q.resolve cwd = d

/-- Whatever chunks arrive, and whatever fails: every file that is opened and every directory that
is created lies below the working directory, and there are none if a path of the request is not
confined. -/
def StaysInside (cwd : List Bytes) (r : TransferRequest) : Prop :=
  ∀ (fs : FileSystem) (present : Set (List Bytes)), (∀ d, d <+: cwd → d ∈ present) →
    ∀ s a, Reach (step r) Possible (start Receiver.queueCapacity fs) s → Possible s a →
      (∀ path, s.Opens a path → Below cwd ((lexicalPath path).resolve cwd)) ∧
      (∀ d, s.Creates cwd present a d → Below cwd d) ∧
      ((∃ info ∈ r.fileInfos, ¬ Confined cwd info.relativePath) →
        (∀ path, ¬ s.Opens a path) ∧ ∀ d, ¬ s.Creates cwd present a d)

theorem staysInside_of_confined (h : ∀ info ∈ r.fileInfos, Confined cwd info.relativePath) :
    StaysInside cwd r := by
  intro fs present hpresent s a hs ha
  refine ⟨?_, ?_, ?_⟩
  · rintro path ⟨info, hinfo, -, rfl⟩
    exact (h info (mem_of_opening hs hinfo)).1
  · rintro d ⟨info, f, hinfo, -, -, habsent, q, hq, rfl⟩
    rcases (h info (mem_of_opening hs hinfo)).2 q hq with hup | hbelow
    · exact absurd (hpresent _ hup) habsent
    · exact hbelow
  · rintro ⟨info, hinfo, hnot⟩
    exact absurd (h info hinfo) hnot

/-- A writer that cannot open its first file does not get past it. -/
theorem thread_of_not_openable {info : FileInfo} {infos : List FileInfo}
    (hinfos : r.fileInfos = info :: infos) (hnot : ¬ Openable info.relativePath)
    {fs : FileSystem} {s : Writer capacity} (hs : Reach (step r) Possible (start capacity fs) s) :
    s.thread = .running .firstPop ∨ (∃ l, s.thread = .running (.openFile l info infos)) ∨
      ∀ pc, s.thread ≠ .running pc := by
  refine hs.invariant (I := fun s => s.thread = .running .firstPop ∨
    (∃ l, s.thread = .running (.openFile l info infos)) ∨ ∀ pc, s.thread ≠ .running pc) ?_
    (Or.inl rfl)
  intro s a t hi hpossible hstep
  rcases thread_of_step hstep with heq | ⟨f, pc, rfl, hpc, hmove⟩ | ⟨-, hover⟩
  · rw [heq]
    exact hi
  · rcases hi with hfirst | ⟨l, hopen⟩ | hover
    · rw [hfirst] at hpc
      cases hpc
      obtain ⟨c, hthread⟩ := move_of_firstPop hmove
      rw [hinfos] at hthread
      exact Or.inr (Or.inl ⟨.ofChunk c, hthread⟩)
    · cases f with
      | none => exact absurd (hpossible info ⟨l, infos, hopen⟩ rfl) hnot
      | some x => exact Or.inr (Or.inr (not_running_of_fault hstep))
    · exact absurd hpc (hover pc)
  · exact Or.inr (Or.inr hover)

theorem staysInside_of_inert {info : FileInfo} {infos : List FileInfo}
    (hinfos : r.fileInfos = info :: infos) (h : Inert cwd info.relativePath) :
    StaysInside cwd r := by
  intro fs present hpresent s a hs ha
  have hopening : ∀ i, s.Opening i → i = info := by
    rintro i ⟨l, later, hthread⟩
    rcases thread_of_not_openable hinfos h.1 hs with hfirst | ⟨l', hopen⟩ | hover
    · rw [hfirst] at hthread
      cases hthread
    · rw [hopen] at hthread
      cases hthread
      rfl
    · exact absurd hthread (hover _)
  have hopens : ∀ path, ¬ s.Opens a path := by
    rintro path ⟨i, hi, rfl, -⟩
    have hopenable := ha i hi rfl
    rw [hopening i hi] at hopenable
    exact h.1 hopenable
  have hcreates : ∀ d, ¬ s.Creates cwd present a d := by
    rintro d ⟨i, f, hi, -, -, habsent, q, hq, rfl⟩
    rw [hopening i hi] at hq
    exact habsent (hpresent _ (h.2 q hq))
  exact ⟨fun path hp => absurd hp (hopens path), fun d hd => absurd hd (hcreates d),
    fun _ => ⟨hopens, hcreates⟩⟩

/-- A writer whose first path is not inert opens its file, or creates a directory outside the
working directory and those above it. -/
theorem exists_act {info : FileInfo} {infos : List FileInfo}
    (hinfos : r.fileInfos = info :: infos) (hacts : ¬ Inert cwd info.relativePath) :
    ∃ s a, Reach (step r) Possible (start Receiver.queueCapacity ⟨fun _ => none, []⟩) s ∧
      Possible s a ∧ (s.Opens a info.relativePath ∨ ∃ d, s.Creates cwd {d | d <+: cwd} a d) := by
  obtain ⟨s, hs, hthread⟩ : ∃ s : Writer Receiver.queueCapacity,
      Reach (step r) Possible (start Receiver.queueCapacity ⟨fun _ => none, []⟩) s ∧
        s.thread = .running (.openFile (.ofChunk (.plain 1 [])) info infos) :=
    reach_first (Nat.succ_pos 49) _ _ hinfos fun s a hs i hi => absurd hi (hs i)
  have hopening : s.Opening info := ⟨_, _, hthread⟩
  have honly : ∀ i, s.Opening i → i = info := by
    rintro i ⟨l, later, hi⟩
    rw [hthread] at hi
    cases hi
    rfl
  by_cases hopen : Openable info.relativePath
  · refine ⟨s, .step none, hs, ?_, Or.inl ⟨info, hopening, rfl, rfl⟩⟩
    intro i hi _
    rw [honly i hi]
    exact hopen
  · obtain ⟨q, hq, habsent⟩ : ∃ q ∈ directories info.relativePath, ¬ q.resolve cwd <+: cwd := by
      by_contra hall
      simp only [not_exists, not_and, not_not] at hall
      exact hacts ⟨hopen, hall⟩
    -- the directories are created before the file fails to open
    refine ⟨s, .step (some ⟨.badAlloc, 1⟩), hs, ?_,
      Or.inr ⟨_, info, _, hopening, rfl, ?_, habsent, q, hq, rfl⟩⟩
    · intro i _ ha
      cases ha
    · rintro x ⟨⟩
      exact Nat.one_ne_zero

/-- When the writer of a request stays inside: all its paths are confined, or already the first does
nothing. -/
theorem staysInside_iff_confined :
    StaysInside cwd r ↔ (∀ info ∈ r.fileInfos, Confined cwd info.relativePath) ∨
      ∃ info infos, r.fileInfos = info :: infos ∧ Inert cwd info.relativePath := by
  constructor
  · intro h
    by_contra hnot
    obtain ⟨hconfined, hinert⟩ := not_or.mp hnot
    have hunconfined : ∃ info ∈ r.fileInfos, ¬ Confined cwd info.relativePath := by
      simpa only [not_forall, exists_prop] using hconfined
    cases hinfos : r.fileInfos with
    | nil =>
      rw [hinfos] at hconfined
      exact hconfined (by simp)
    | cons info infos =>
      have hacts : ¬ Inert cwd info.relativePath := fun h => hinert ⟨info, infos, hinfos, h⟩
      -- a path that is not confined forbids the very first file and directory
      obtain ⟨s, a, hs, ha, hact⟩ := exists_act hinfos hacts
      obtain ⟨-, -, hrejected⟩ := h _ {d | d <+: cwd} (fun d hd => hd) s a hs ha
      obtain ⟨hopens, hcreates⟩ := hrejected hunconfined
      rcases hact with hopened | ⟨d, hcreated⟩
      · exact hopens _ hopened
      · exact hcreates d hcreated
  · rintro (h | ⟨info, infos, hinfos, h⟩)
    · exact staysInside_of_confined h
    · exact staysInside_of_inert hinfos h

/-! ### The writer of a transfer -/

/-- The writer is the one of the pipeline, up to what the other threads have stored. -/
structure Matches {ss : SecretStream} (w : Writer capacity) (s : Receiver.State capacity ss) :
    Prop where
  thread : w.thread = s.consumer
  abort : w.ctx.abortFlag = s.ctx.abortFlag
  view : w.view = s.consumerView

/-- At most one event takes the writer from `w` to `w'`, one of its own steps only if the action is
one of its thread. -/
def Answers (r : TransferRequest) (a : Action) (w w' : Writer capacity) : Prop :=
  w' = w ∨ ∃ b, w.step r b = some w' ∧ ∀ f, b = .step f → a = .consumer f

variable {ss : SecretStream} {w : Writer capacity} {s t : Receiver.State capacity ss}

/-- Another thread sets the abort flag. -/
theorem Matches.raised {a : Action} (h : w.Matches s) (hconsumer : t.consumer = s.consumer)
    (hctx : t.ctx = s.ctx.raise) (hview : t.consumerView = s.consumerView) :
    ∃ w', w'.Matches t ∧ Answers r a w w' := by
  refine ⟨{ w with ctx := w.ctx.raise }, ⟨h.thread.trans hconsumer.symm, ?_,
    h.view.trans hview.symm⟩, Or.inr ⟨.abort, rfl, by simp⟩⟩
  rw [hctx]
  rfl

/-- A step of the decryptor may make a chunk arrive, or end the input. -/
theorem Matches.decryptor {f : Option Fault} (h : w.Matches s)
    (hstep : Receiver.step r s (.stage f) = some t) :
    ∃ w', w'.Matches t ∧ Answers r (.stage f) w w' := by
  obtain ⟨hthread, habort, hview⟩ := h
  rcases Pipeline.step_stage_cases hstep with ⟨pc, th, v, -, hmove, rfl⟩ | ⟨e, -, -, rfl⟩ |
    ⟨e, -, -, rfl⟩
  · rcases hmove.output_cases with hv | ⟨c, q, hq, hv⟩ | hv
    · refine ⟨w, ⟨hthread, habort, ?_⟩, Or.inl rfl⟩
      rw [hview]
      show (⟨s.downstream, _, _, _⟩ : View capacity FileSystem) = ⟨v.output, _, _, _⟩
      rw [hv]
      rfl
    -- the decryptor pushes a chunk, which arrives at the writer
    · have harrive : w.step r (.arrive c) =
          some { w with view := { w.view with input := { w.view.input with queue := q } } } := by
        refine Option.map_eq_some_iff.mpr ⟨q, ?_, rfl⟩
        rw [hview]
        exact hq
      refine ⟨{ w with view := { w.view with input := { w.view.input with queue := q } } },
        ⟨hthread, habort, ?_⟩, Or.inr ⟨.arrive c, harrive, by simp⟩⟩
      show _ = (⟨v.output, _, _, _⟩ : View capacity FileSystem)
      rw [hv, hview]
      rfl
    · refine ⟨{ w with view := { w.view with input := { w.view.input with done := true } } },
        ⟨hthread, habort, ?_⟩, Or.inr ⟨.finish, rfl, by simp⟩⟩
      show _ = (⟨v.output, _, _, _⟩ : View capacity FileSystem)
      rw [hv, hview]
      rfl
  · exact Matches.raised ⟨hthread, habort, hview⟩ rfl rfl rfl
  · exact ⟨w, ⟨hthread, habort, hview⟩, Or.inl rfl⟩

theorem Matches.consumer {f : Option Fault} (h : w.Matches s)
    (hstep : Receiver.step r s (.consumer f) = some t) :
    ∃ w', w'.Matches t ∧ Answers r (.consumer f) w w' := by
  obtain ⟨hthread, habort, hview⟩ := h
  have hwriter : ∀ {th : Thread WritePc} {ctx : WorkerContext} {v : View capacity FileSystem},
      s.consumer.step (writeFilesFromChunks r) f w.ctx s.consumerView = some (th, ctx, v) →
        w.step r (.step f) = some ⟨th, ctx, v⟩ := by
    intro th ctx v hrun
    refine Option.map_eq_some_iff.mpr ⟨(th, ctx, v), ?_, rfl⟩
    rw [hthread, hview]
    exact hrun
  rcases Pipeline.step_consumer_cases hstep with ⟨pc, th, v, hpc, hrun, rfl⟩ |
    ⟨e, he, rfl, rfl⟩ | ⟨e, he, rfl, rfl⟩
  · have hmove : WriteMove r s.ctx.shouldAbort f s.consumerView pc th v := writeMove_of_run hrun
    refine ⟨⟨th, w.ctx, v⟩, ⟨rfl, habort, ?_⟩, Or.inr ⟨.step f, hwriter ?_, by simp⟩⟩
    · show v = ⟨v.input, .new capacity, v.counter, v.world⟩
      rw [← show v.output = .new capacity from output_of_move hmove]
    · rw [hpc, Thread.step, show w.ctx.shouldAbort = s.ctx.shouldAbort from habort]
      exact Option.map_eq_some_iff.mpr ⟨(th, v), hrun, rfl⟩
  · refine ⟨⟨.flagged e, w.ctx.raise, s.consumerView⟩, ⟨rfl, rfl, rfl⟩,
      Or.inr ⟨.step none, hwriter ?_, by simp⟩⟩
    rw [he]
    rfl
  · refine ⟨⟨.returned, w.ctx.store e, s.consumerView⟩, ⟨rfl, ?_, rfl⟩,
      Or.inr ⟨.step none, hwriter ?_, by simp⟩⟩
    · show (w.ctx.store e).abortFlag = (s.ctx.store e).abortFlag
      rw [WorkerContext.store_abortFlag, WorkerContext.store_abortFlag, habort]
    · rw [he]
      rfl

/-- Every step of `receive_files` is at most one event for its writer. -/
theorem Matches.step {a : Action} (h : w.Matches s) (hstep : Receiver.step r s a = some t) :
    ∃ w', w'.Matches t ∧ Answers r a w w' := by
  cases a with
  | producer f =>
    rcases Pipeline.step_producer_cases hstep with ⟨pc, th, v, -, -, rfl⟩ | ⟨e, -, -, rfl⟩ |
      ⟨e, -, -, rfl⟩
    · exact ⟨w, ⟨h.thread, h.abort, h.view⟩, Or.inl rfl⟩
    · exact h.raised rfl rfl rfl
    · exact ⟨w, ⟨h.thread, h.abort, h.view⟩, Or.inl rfl⟩
  | stage f => exact h.decryptor hstep
  | consumer f => exact h.consumer hstep
  | tracker f =>
    rcases Pipeline.step_tracker_cases hstep with ⟨pc, th, -, -, rfl⟩ | ⟨e, -, -, rfl⟩ |
      ⟨e, -, -, rfl⟩
    · exact ⟨w, ⟨h.thread, h.abort, h.view⟩, Or.inl rfl⟩
    · exact h.raised rfl rfl rfl
    · exact ⟨w, ⟨h.thread, h.abort, h.view⟩, Or.inl rfl⟩
  | main =>
    obtain ⟨-, -, ⟨e, -, rfl⟩ | ⟨-, rfl⟩⟩ := Pipeline.step_main_cases hstep
    · exact ⟨w, ⟨h.thread, h.abort, h.view⟩, Or.inl rfl⟩
    · exact ⟨w, ⟨h.thread, h.abort, h.view⟩, Or.inl rfl⟩

end Writer

namespace Receiver

variable {ss : SecretStream} {r : TransferRequest} {cwd : List Bytes}

/-- The steps of `receive_files` that can happen: an `ofstream` that cannot be opened is not. -/
def Possible (s : State queueCapacity ss) (a : Action) : Prop :=
  ∀ l info infos, s.consumer = .running (.openFile l info infos) → a = .consumer none →
    Openable info.relativePath

/-- Every run of `receive_files` is one of its writer. -/
theorem exists_matches {socket : Incoming} {start : FileSystem} {st : ss.State}
    {s : State queueCapacity ss}
    (h : Reach (step r) Possible (initial queueCapacity r socket start st) s) :
    ∃ w, Reach (Writer.step r) Writer.Possible (Writer.start queueCapacity start) w ∧
      w.Matches s := by
  refine h.invariant (I := fun s => ∃ w, Reach (Writer.step r) Writer.Possible
    (Writer.start queueCapacity start) w ∧ w.Matches s) ?_ ⟨_, .refl, rfl, rfl, rfl⟩
  rintro s a t ⟨w, hw, hmatches⟩ hpossible hstep
  obtain ⟨w', hmatches', rfl | ⟨b, hb, hconsumer⟩⟩ := hmatches.step hstep
  · exact ⟨w', hw, hmatches'⟩
  · refine ⟨w', hw.tail ?_ hb, hmatches'⟩
    rintro info ⟨l, infos, hthread⟩ rfl
    exact hpossible l info infos (hmatches.thread.symm.trans hthread) (hconsumer none rfl)

/-- What `receive_files` opens of a request whose paths are confined. -/
theorem below_of_reach (h : ∀ info ∈ r.fileInfos, Confined cwd info.relativePath)
    {socket : Incoming} {start : FileSystem} {st : ss.State} {s : State queueCapacity ss}
    (hs : Reach (step r) Possible (initial queueCapacity r socket start st) s) {l : WriteLocals}
    {info : FileInfo} {infos : List FileInfo}
    (hopen : s.consumer = .running (.openFile l info infos)) :
    Below cwd ((lexicalPath info.relativePath).resolve cwd) := by
  obtain ⟨w, hw, hmatches⟩ := exists_matches hs
  exact (h info (Writer.mem_of_opening hw ⟨l, infos, hmatches.thread.trans hopen⟩)).1

/-- The received bytes for which every file and every directory stays below the working directory,
or nothing is written: those whose paths are all confined, and those whose first path already does
nothing. -/
theorem stays_inside_iff (platform : Platform) (cwd : List Bytes) (buffer : Bytes) :
    (∀ r, TransferRequest.deserialize buffer = .ok r → r.print platform = .ok () →
      Writer.StaysInside cwd r) ↔
    ∀ r, TransferRequest.deserialize buffer = .ok r → r.print platform = .ok () →
      (∀ info ∈ r.fileInfos, Confined cwd info.relativePath) ∨
        ∃ info infos, r.fileInfos = info :: infos ∧ Inert cwd info.relativePath := by
  constructor
  · intro h r hdecode hprint
    exact Writer.staysInside_iff_confined.mp (h r hdecode hprint)
  · intro h r hdecode hprint
    exact Writer.staysInside_iff_confined.mpr (h r hdecode hprint)

/-- A request for one byte in the file `../b`. -/
def escapingRequest : Bytes :=
  [1, 0, 0, 0] ++ [1, 0, 0, 0, 0, 0, 0, 0] ++ [1, 0, 0, 0] ++ [0, 0, 0, 0] ++ [1, 0, 0, 0] ++
    ([4, 0] ++ [46, 46, 47, 98] ++ [1, 0, 0, 0, 0, 0, 0, 0])

/-- The request is accepted, and its file does not stay below the working directory `/w`. -/
theorem exists_escape :
    ∃ r, TransferRequest.deserialize escapingRequest = .ok r ∧ r.print .large = .ok () ∧
      ¬ Writer.StaysInside [[119]] r := by
  refine ⟨⟨1, 1, 1, 0, 1, [⟨[46, 46, 47, 98], 1⟩]⟩, rfl, rfl, ?_⟩
  rw [Writer.staysInside_iff_confined]
  rintro (hconfined | ⟨info, infos, hinfos, hinert⟩)
  · have hnot : ¬ Confined [[119]] [46, 46, 47, 98] := by decide
    exact hnot (hconfined ⟨[46, 46, 47, 98], 1⟩ (by simp))
  · cases hinfos
    have hopen : Openable [46, 46, 47, 98] := by decide
    exact hinert.1 hopen

end Receiver

end Trit
