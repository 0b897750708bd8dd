import Mathlib.Data.List.Basic
import Mathlib.Tactic.SplitIfs

/-!
# Buffered output

A file that is written through a buffer.  What is put into the stream reaches the file later, in
pieces of any size; an underlying write may fail half way, and from then on nothing reaches the
file any more.

* `Stream`, `Stream.opened`: the file and the buffer, and both after opening with truncation;
* `put`, `drain`, `fail`, `close`: what happens to them;
* `append_drain`, `append_fail`, `file_close`: what the file and the buffer hold together;
* `Holds`: the file holds a prefix of what has been put, and nothing is lost before a failure.
-/

namespace BufferedOutput

/-- A stream: what the file holds, what is still in the buffer, and whether a write has failed. -/
structure Stream (α : Type*) where
  file : List α
  buffer : List α
  failed : Bool
  deriving DecidableEq

variable {α : Type*} {s : Stream α} {total : List α}

namespace Stream

/-- A stream whose file has just been truncated. -/
def opened : Stream α := ⟨[], [], false⟩

/-- The program puts more into the stream. -/
def put (s : Stream α) (bs : List α) : Stream α :=
  if s.failed then s else { s with buffer := s.buffer ++ bs }

/-- The first `n` elements of the buffer reach the file. -/
def drain (s : Stream α) (n : ℕ) : Stream α :=
  if s.failed then s else ⟨s.file ++ s.buffer.take n, s.buffer.drop n, false⟩

/-- The first `n` elements of the buffer reach the file, and then the write fails. -/
def fail (s : Stream α) (n : ℕ) : Stream α := { s.drain n with failed := true }

/-- The stream is closed, which drains the buffer. -/
def close (s : Stream α) : Stream α := s.drain s.buffer.length

/-- What has been put before stays in the file and the buffer. -/
theorem append_drain (s : Stream α) (n : ℕ) :
    (s.drain n).file ++ (s.drain n).buffer = s.file ++ s.buffer := by
  unfold drain
  split_ifs
  · rfl
  · show (s.file ++ s.buffer.take n) ++ s.buffer.drop n = s.file ++ s.buffer
    rw [List.append_assoc, List.take_append_drop]

theorem append_fail (s : Stream α) (n : ℕ) :
    (s.fail n).file ++ (s.fail n).buffer = s.file ++ s.buffer := s.append_drain n

theorem append_put (h : s.failed = false) (bs : List α) :
    (s.put bs).file ++ (s.put bs).buffer = s.file ++ s.buffer ++ bs := by
  rw [put, if_neg (by simp [h]), List.append_assoc]

/-- Closing a stream loses what is left in the buffer of a stream that has failed. -/
theorem file_close (h : s.failed = true → s.buffer = []) : s.close.file = s.file ++ s.buffer := by
  unfold close drain
  split_ifs with hfailed
  · rw [h hfailed, List.append_nil]
  · rw [List.take_length]

end Stream

/-- The file holds a prefix of `total`; as long as no write has failed, the buffer holds the
rest. -/
structure Holds (total : List α) (s : Stream α) : Prop where
  isPrefix : s.file <+: total
  all : s.failed = false → s.file ++ s.buffer = total

theorem holds_opened : Holds ([] : List α) .opened := ⟨List.nil_prefix, fun _ => rfl⟩

theorem Holds.put (h : Holds total s) (bs : List α) : Holds (total ++ bs) (s.put bs) := by
  unfold Stream.put
  split_ifs with hfailed
  · exact ⟨h.isPrefix.trans (List.prefix_append _ _), fun hok => by rw [hfailed] at hok; cases hok⟩
  · refine ⟨h.isPrefix.trans (List.prefix_append _ _), fun hok => ?_⟩
    show s.file ++ (s.buffer ++ bs) = total ++ bs
    rw [← List.append_assoc, h.all hok]

theorem Holds.drain (h : Holds total s) (n : ℕ) : Holds total (s.drain n) := by
  unfold Stream.drain
  split_ifs with hfailed
  · exact h
  · have hall := h.all (Bool.eq_false_iff.mpr hfailed)
    constructor
    · rw [← hall]
      exact (List.prefix_append_right_inj _).mpr (List.take_prefix _ _)
    · intro _
      rw [List.append_assoc, List.take_append_drop, hall]

theorem Holds.fail (h : Holds total s) (n : ℕ) : Holds total (s.fail n) :=
  ⟨(h.drain n).isPrefix, fun hok => by cases hok⟩

theorem Holds.close (h : Holds total s) : Holds total s.close := h.drain _

theorem failed_close (s : Stream α) : s.close.failed = s.failed := by
  unfold Stream.close Stream.drain
  split_ifs with hfailed
  · rfl
  · exact (Bool.eq_false_iff.mpr hfailed).symm

/-- Without a failure all of it is in the file once the stream has been closed. -/
theorem Holds.file_close (h : Holds total s) (hok : s.failed = false) :
    s.close.file = total := by
  rw [← h.all hok, Stream.file_close (by simp [hok])]

end BufferedOutput
