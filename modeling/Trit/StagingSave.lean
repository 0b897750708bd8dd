import Trit.StagingFile
import Trit.Lib.BufferedOutput

/-!
# Saving the staged set when writing may stop

`save_staged_files` operation by operation.  Any call of the file system may fail, the stream
writes through a buffer, and the process may be killed at any point, which ends a run there.

* `SavePc`, `Saving`, `SaveEvent`, `Saving.step`: the function and what can happen;
* `Saving.contents`: the bytes of `staged.txt`;
* `Saves`: what holds at each point, and `Saves.step`;
* `save_overwrites`: `staged.txt` is as before, or a prefix of what is to be written, and all of it
  if nothing has failed;
* `exists_cut`: it need not be the encoding of any set.
-/

namespace Trit

open Transition Lines BufferedOutput

namespace StagingFile

/-- The program points of `save_staged_files`. -/
inductive SavePc
  | createDirectories
  | lock
  | openFile
  /-- the pieces that are still to be put into the stream -/
  | put (pieces : List Bytes)
  /-- the destructor of the stream -/
  | close
  /-- the destructor of the `StagingLock`; `e` is an exception on its way -/
  | unlock (e : Option Exception)
  | returned
  | threw (e : Exception)
  deriving DecidableEq

/-- The pieces that the loop puts into the stream: `path.string()` and `'\n'` for each path. -/
def pieces (stagedFiles : List Bytes) : List Bytes := stagedFiles.flatMap fun path => [path, [10]]

/-- The function at work: `before` are the bytes of `staged.txt` before it is opened, and `outfile`
is the open stream. -/
structure Saving where
  pc : SavePc
  before : Option Bytes
  outfile : Option (Stream UInt8)
  deriving DecidableEq

/-- What can happen: the next operation, which fails if there is a message; some bytes of the
buffer reach the file; a write fails after some bytes. -/
inductive SaveEvent
  | next (failure : Option String)
  | drain (n : ℕ)
  | fail (n : ℕ)

namespace Saving

/-- Before `save_staged_files`. -/
def start (before : Option Bytes) : Saving := ⟨.createDirectories, before, none⟩

/-- The bytes of `staged.txt`. -/
def contents (s : Saving) : Option Bytes :=
  match s.outfile with
  | none => s.before
  | some out => some out.file

/-- The stream is open. -/
def writing (s : Saving) : Bool :=
  match s.pc with
  | .put _ | .close => true
  | _ => false

/-- The next operation of the function. -/
def next (stagedFiles : List Bytes) (s : Saving) (failure : Option String) : Option Saving :=
  match s.pc with
  | .createDirectories => some { s with pc := match failure with
      | none => .lock
      | some message => .threw (.runtimeError ("Failed to create .trit directory: " ++ message)) }
  | .lock => some { s with pc := match failure with
      | none => .openFile
      | some _ => .threw alreadyLocked }
  | .openFile =>
      match failure with
      | none => some { s with pc := .put (pieces stagedFiles), outfile := some .opened }
      | some _ => some { s with
          pc := .unlock (some (.runtimeError "Failed to open staging file for writing")) }
  | .put (piece :: rest) =>
      some { s with pc := .put rest, outfile := s.outfile.map (·.put piece) }
  | .put [] => some { s with pc := .close }
  | .close => some { s with pc := .unlock none, outfile := s.outfile.map Stream.close }
  | .unlock (some e) => some { s with pc := .threw e }
  | .unlock none => some { s with pc := .returned }
  | .returned | .threw _ => none

/-- One event. -/
def step (stagedFiles : List Bytes) (s : Saving) : SaveEvent → Option Saving
  | .next failure => s.next stagedFiles failure
  | .drain n =>
      if s.writing then some { s with outfile := s.outfile.map (·.drain n) } else none
  | .fail n =>
      if s.writing then some { s with outfile := s.outfile.map (·.fail n) } else none

/-- No write, flush or close has failed. -/
def Sound (s : Saving) : Prop := ∀ out, s.outfile = some out → out.failed = false

end Saving

@[simp] theorem flatten_pieces (stagedFiles : List Bytes) :
    (pieces stagedFiles).flatten = putlines 10 stagedFiles := by
  induction stagedFiles with
  | nil => rfl
  | cons path rest ih =>
    rw [putlines_cons, ← ih]
    simp [pieces]

/-- What holds while the paths are saved over the bytes `before`. -/
def Saves (stagedFiles : List Bytes) (before : Option Bytes) (s : Saving) : Prop :=
  s.before = before ∧ match s.pc with
    | .createDirectories | .lock | .openFile | .unlock (some _) | .threw _ => s.outfile = none
    | .put rest => ∃ out text, s.outfile = some out ∧ Holds text out ∧
        text ++ rest.flatten = putlines 10 stagedFiles
    | .close => ∃ out, s.outfile = some out ∧ Holds (putlines 10 stagedFiles) out
    | .unlock none | .returned => ∃ out, s.outfile = some out ∧
        out.file <+: putlines 10 stagedFiles ∧
        (out.failed = false → out.file = putlines 10 stagedFiles)

variable {stagedFiles : List Bytes} {before : Option Bytes} {s t : Saving}

theorem Saves.next {failure : Option String} (hi : Saves stagedFiles before s)
    (h : s.next stagedFiles failure = some t) : Saves stagedFiles before t := by
  obtain ⟨pc, old, outfile⟩ := s
  obtain ⟨rfl, hi⟩ := hi
  cases pc with
  | createDirectories =>
    cases failure <;> cases h <;> exact ⟨rfl, hi⟩
  | lock =>
    cases failure <;> cases h <;> exact ⟨rfl, hi⟩
  | openFile =>
    cases failure with
    | none =>
      cases h
      exact ⟨rfl, _, _, rfl, holds_opened, flatten_pieces stagedFiles⟩
    | some message =>
      cases h
      exact ⟨rfl, hi⟩
  | put rest =>
    obtain ⟨out, text, hout, hholds, htext⟩ := hi
    obtain rfl : outfile = some out := hout
    cases rest with
    | nil =>
      cases h
      rw [List.flatten_nil, List.append_nil] at htext
      exact ⟨rfl, out, rfl, htext ▸ hholds⟩
    | cons piece rest =>
      cases h
      refine ⟨rfl, _, text ++ piece, rfl, hholds.put piece, ?_⟩
      rw [← htext, List.flatten_cons, List.append_assoc]
  | close =>
    obtain ⟨out, hout, hholds⟩ := hi
    obtain rfl : outfile = some out := hout
    cases h
    refine ⟨rfl, _, rfl, hholds.close.isPrefix, fun hok => ?_⟩
    rw [failed_close] at hok
    exact hholds.file_close hok
  | unlock e =>
    cases e <;> cases h <;> exact ⟨rfl, hi⟩
  | returned => cases h
  | threw e => cases h

theorem Saves.stream {f : Stream UInt8 → Stream UInt8}
    (hf : ∀ text out, Holds text out → Holds text (f out)) (hi : Saves stagedFiles before s)
    (hs : s.writing = true) :
    Saves stagedFiles before { s with outfile := s.outfile.map f } := by
  obtain ⟨pc, old, outfile⟩ := s
  obtain ⟨rfl, hi⟩ := hi
  cases pc with
  | put rest =>
    obtain ⟨out, text, hout, hholds, htext⟩ := hi
    obtain rfl : outfile = some out := hout
    exact ⟨rfl, f out, text, rfl, hf text out hholds, htext⟩
  | close =>
    obtain ⟨out, hout, hholds⟩ := hi
    obtain rfl : outfile = some out := hout
    exact ⟨rfl, f out, rfl, hf _ out hholds⟩
  | _ => cases hs

theorem Saves.step {a : SaveEvent} (hi : Saves stagedFiles before s)
    (h : s.step stagedFiles a = some t) : Saves stagedFiles before t := by
  cases a with
  | next failure => exact hi.next h
  | drain n =>
    simp only [Saving.step] at h
    split_ifs at h with hs
    cases h
    exact hi.stream (fun _ _ hholds => hholds.drain n) hs
  | fail n =>
    simp only [Saving.step] at h
    split_ifs at h with hs
    cases h
    exact hi.stream (fun _ _ hholds => hholds.fail n) hs

theorem Saves.of_reach
    (h : Reach (Saving.step stagedFiles) any (Saving.start before) s) :
    Saves stagedFiles before s :=
  h.invariant (fun _ _ _ hi _ hs => hi.step hs) ⟨rfl, rfl⟩

/-! ### When nothing fails -/

/-- The operations left, for a function that no exception is passing through. -/
def SavePc.rank (stagedFiles : List Bytes) : SavePc → Option ℕ
  | .createDirectories => some ((pieces stagedFiles).length + 6)
  | .lock => some ((pieces stagedFiles).length + 5)
  | .openFile => some ((pieces stagedFiles).length + 4)
  | .put rest => some (rest.length + 3)
  | .close => some 2
  | .unlock none => some 1
  | .returned => some 0
  | .unlock (some _) | .threw _ => none

/-- A function that nothing has disturbed takes its next operation. -/
theorem Saves.progress {n : ℕ} (hi : Saves stagedFiles before s) (hsound : s.Sound)
    (hrank : s.pc.rank stagedFiles = some n) (hs : s.pc ≠ .returned) :
    ∃ t m, s.next stagedFiles none = some t ∧ t.Sound ∧
      t.pc.rank stagedFiles = some m ∧ m < n := by
  obtain ⟨pc, old, outfile⟩ := s
  have hrank' : pc.rank stagedFiles = some n := hrank
  have hputs : ∀ f : Stream UInt8 → Stream UInt8, (∀ out, (f out).failed = out.failed) →
      ∀ pc', Saving.Sound ⟨pc', old, outfile.map f⟩ := by
    intro f hf pc' out' hout'
    obtain ⟨out, hout, rfl⟩ := Option.map_eq_some_iff.mp hout'
    rw [hf]
    exact hsound out hout
  cases pc with
  | createDirectories | lock =>
    cases hrank'
    exact ⟨_, _, rfl, hsound, rfl, by omega⟩
  | openFile =>
    cases hrank'
    refine ⟨_, _, rfl, ?_, rfl, by omega⟩
    intro out hout
    obtain rfl := Option.some.inj hout
    rfl
  | put rest =>
    cases rest with
    | nil =>
      cases hrank'
      exact ⟨_, _, rfl, hsound, rfl, by simp⟩
    | cons piece rest =>
      cases hrank'
      refine ⟨_, _, rfl, hputs _ (fun out => ?_) _, rfl, by simp⟩
      unfold Stream.put
      split_ifs <;> rfl
  | close =>
    cases hrank'
    exact ⟨_, _, rfl, hputs _ failed_close _, rfl, by omega⟩
  | unlock e =>
    cases e with
    | none =>
      cases hrank'
      exact ⟨_, _, rfl, hsound, rfl, by omega⟩
    | some e => cases hrank'
  | returned => exact absurd rfl hs
  | threw e => cases hrank'

/-- A function that has returned without a failure has written everything. -/
theorem Saves.contents_eq (hi : Saves stagedFiles before s) (hsound : s.Sound)
    (hs : s.pc = .returned) : s.contents = some (putlines 10 stagedFiles) := by
  obtain ⟨pc, old, outfile⟩ := s
  obtain rfl : pc = .returned := hs
  obtain ⟨-, out, hout, -, hall⟩ := hi
  obtain rfl : outfile = some out := hout
  show some out.file = _
  rw [hall (hsound out rfl)]

/-- When nothing fails, the function returns, and has written everything. -/
theorem canReach_saved (stagedFiles : List Bytes) (before : Option Bytes) :
    CanReach (Saving.step stagedFiles) (fun _ a => a = .next none)
      (fun s => s.pc = .returned ∧ s.contents = some (putlines 10 stagedFiles))
      (Saving.start before) := by
  have hstart : Saving.Sound (Saving.start before) := by
    intro out hout
    cases hout
  refine CanReach.of_measure (I := fun s => Saves stagedFiles before s ∧ s.Sound ∧
    (s.pc.rank stagedFiles).isSome = true) (fun s => (s.pc.rank stagedFiles).getD 0) ?_
    ⟨⟨rfl, rfl⟩, hstart, rfl⟩
  rintro s ⟨hi, hsound, hrank⟩ hG
  obtain ⟨n, hn⟩ := Option.isSome_iff_exists.mp hrank
  have hs : s.pc ≠ .returned := fun hs => hG ⟨hs, hi.contents_eq hsound hs⟩
  obtain ⟨t, m, hnext, hsound', hm, hlt⟩ := hi.progress hsound hn hs
  refine ⟨.next none, t, rfl, hnext, ⟨hi.next hnext, hsound', by rw [hm]; rfl⟩, ?_⟩
  rw [hm, hn]
  exact hlt

/-- These are the bytes that `save_staged_files` leaves where nothing is in its way. -/
theorem contents_saveStagedFiles {area : Area} (h : locked area = false) :
    contents (saveStagedFiles stagedFiles area).2 = some (putlines 10 stagedFiles) := by
  rw [saveStagedFiles_eq stagedFiles h]
  rfl

/-! ### When something fails -/

/-- Saving overwrites the staged set in place.  Wherever it stops, `staged.txt` is as it was, if it
has not been opened yet, and otherwise it holds a prefix of what is to be written.  After an
exception it is as it was.  After a return it holds all that is to be written, if no write has
failed; and when nothing fails, there is such a return. -/
theorem save_overwrites (h : Reach (Saving.step stagedFiles) any (Saving.start before) s) :
    (s.outfile = none ∧ s.contents = before ∨
      ∃ text, s.contents = some text ∧ text <+: putlines 10 stagedFiles) ∧
    (∀ e, s.pc = .threw e → s.contents = before) ∧
    (s.pc = .returned → s.Sound → s.contents = some (putlines 10 stagedFiles)) ∧
    CanReach (Saving.step stagedFiles) (fun _ a => a = .next none)
      (fun t => t.pc = .returned ∧ t.contents = some (putlines 10 stagedFiles))
      (Saving.start before) := by
  have hi := Saves.of_reach h
  refine ⟨?_, ?_, fun hs hsound => hi.contents_eq hsound hs, canReach_saved stagedFiles before⟩
  · obtain ⟨pc, old, outfile⟩ := s
    obtain ⟨rfl, hi⟩ := hi
    cases outfile with
    | none => exact Or.inl ⟨rfl, rfl⟩
    | some out =>
      refine Or.inr ⟨out.file, rfl, ?_⟩
      cases pc with
      | createDirectories | lock | openFile | threw _ => cases hi
      | put rest =>
        obtain ⟨out', text, hout, hholds, htext⟩ := hi
        obtain rfl := Option.some.inj hout
        exact htext ▸ hholds.isPrefix.trans (List.prefix_append _ _)
      | close =>
        obtain ⟨out', hout, hholds⟩ := hi
        obtain rfl := Option.some.inj hout
        exact hholds.isPrefix
      | unlock e =>
        cases e with
        | some e => cases hi
        | none =>
          obtain ⟨out', hout, hprefix, -⟩ := hi
          obtain rfl := Option.some.inj hout
          exact hprefix
      | returned =>
        obtain ⟨out', hout, hprefix, -⟩ := hi
        obtain rfl := Option.some.inj hout
        exact hprefix
  · intro e hs
    obtain ⟨pc, old, outfile⟩ := s
    obtain rfl : pc = .threw e := hs
    obtain ⟨rfl, hi⟩ := hi
    obtain rfl : outfile = none := hi
    rfl

/-- A run that is not disturbed. -/
theorem save_overwrites_two : ∃ s,
    Reach (Saving.step [[47, 97], [47, 98]]) any (Saving.start none) s ∧
    s.contents = some [47, 97, 10, 47, 98, 10] := by
  have hrun : (exec (Saving.step [[47, 97], [47, 98]]) (Saving.start none)
      (List.replicate 10 (.next none))).map
      (fun s => decide (s.pc = .returned ∧ s.outfile.map Stream.failed = some false)) =
      some true := by
    decide +kernel
  obtain ⟨s, hs, htest⟩ := reach_of_exec_test _ (fun _ _ _ => trivial) hrun
  obtain ⟨hreturned, hfailed⟩ := of_decide_eq_true htest
  refine ⟨s, hs, (save_overwrites hs).2.2.1 hreturned ?_⟩
  intro out hout
  rw [hout] at hfailed
  exact Option.some.inj hfailed

/-- The bytes are the encoding of a set of paths, in some order. -/
def Encodes (S : Finset Bytes) (text : Option Bytes) : Prop :=
  ∃ order : List Bytes, order.toFinset = S ∧ text = some (putlines 10 order)

/-- An empty file encodes the empty set only. -/
theorem not_encodes_nil {S : Finset Bytes} (hS : S ≠ ∅) : ¬ Encodes S (some []) := by
  rintro ⟨order, rfl, htext⟩
  cases order with
  | nil => exact hS rfl
  | cons path rest =>
    rw [putlines_cons] at htext
    have hlen := congrArg List.length (Option.some.inj htext)
    simp at hlen

/-- A process that is killed as soon as it has opened `staged.txt` leaves neither the old set nor
the new one. -/
theorem exists_cut : ∃ s,
    Reach (Saving.step [[47, 97], [47, 98]]) any (Saving.start (some (putlines 10 [[47, 97]]))) s ∧
    ¬ (Encodes {[47, 97]} s.contents ∨ Encodes {[47, 97], [47, 98]} s.contents) := by
  have hrun : (exec (Saving.step [[47, 97], [47, 98]])
      (Saving.start (some (putlines 10 [[47, 97]]))) (List.replicate 3 (.next none))).map
      (fun s => decide (s.contents = some [])) = some true := by
    decide +kernel
  obtain ⟨s, hs, htest⟩ := reach_of_exec_test _ (fun _ _ _ => trivial) hrun
  refine ⟨s, hs, ?_⟩
  rw [of_decide_eq_true htest]
  rintro (hold | hnew)
  · exact not_encodes_nil (by decide) hold
  · exact not_encodes_nil (by decide) hnew

end StagingFile

end Trit
