import Trit.FileManager
import Mathlib.Logic.Function.Iterate

/-!
# Reading depends on sizes

The chunker without its queue and its flags is a deterministic machine.  What it pushes, up to the
contents of the chunks, depends on the sizes of the files alone.

* `Reading`, `Reading.advance`: the machine;
* `Chunk.shape`: what is left of a chunk without its contents;
* `Same`: two machines that differ in contents only, and `Same.advance`: a step keeps it;
* `Reading.shapes_comparable`: after any numbers of steps, two machines have pushed the same shapes,
  up to those that one of them has pushed in addition.
-/

namespace Trit

/-- The number of a chunk and its size. -/
def Chunk.shape (c : Chunk) : UInt64 × ℕ := (c.sequenceNum, c.data.length)

namespace FileManager

/-! ### The machine -/

/-- Where the chunker stands, and the chunks it has pushed. -/
structure Reading where
  thread : Thread ReadPc
  pushed : List Chunk

namespace Reading

/-- The machine before its first step. -/
def start (r : TransferRequest) : Reading := ⟨.running (.nextFile (.initial r) r.fileInfos), []⟩

/-- One step, when nothing outside fails and the abort flag is not set. -/
def advance (r : TransferRequest) (disk : Disk) (x : Reading) : Reading :=
  match x.thread with
  | .running (.nextFile _ []) => ⟨.returned, x.pushed⟩
  | .running (.nextFile l (info :: infos)) => ⟨.running (.openFile l info infos), x.pushed⟩
  | .running (.openFile l info infos) => ⟨openForReading disk l info infos, x.pushed⟩
  | .running (.abortCheck l file n infos) => ⟨.running (.read l file n infos), x.pushed⟩
  | .running (.read l file n infos) => ⟨readIntoBuffer l file n infos, x.pushed⟩
  | .running (.push c l file n infos) =>
      ⟨.running (.whileLoop (.afterPush r l.sequenceCounter) file n infos), x.pushed ++ [c]⟩
  | .running .outputDone => ⟨.returned, x.pushed⟩
  | .caught _ | .flagged _ | .returned => x

/-- The machine after a number of steps. -/
def after (r : TransferRequest) (disk : Disk) (n : ℕ) : Reading := (advance r disk)^[n] (start r)

theorem after_succ (r : TransferRequest) (disk : Disk) (n : ℕ) :
    after r disk (n + 1) = advance r disk (after r disk n) :=
  Function.iterate_succ_apply' _ _ _

variable {r : TransferRequest} {disk disk' : Disk} {x y : Reading}

theorem thrown_advance (h : x.thread.thrown = true) : (advance r disk x).thread.thrown = true := by
  obtain ⟨thread, pushed⟩ := x
  cases thread with
  | running pc => cases h
  | _ => exact h

theorem not_thrown_of_le {m n : ℕ} (hle : m ≤ n) (h : (after r disk n).thread.thrown = false) :
    (after r disk m).thread.thrown = false := by
  induction n, hle using Nat.le_induction with
  | base => exact h
  | succ n hle ih =>
    refine ih (Bool.eq_false_iff.mpr fun hn => ?_)
    rw [after_succ, thrown_advance hn] at h
    cases h

theorem pushed_advance : x.pushed <+: (advance r disk x).pushed := by
  unfold advance
  split
  case h_6 c l file n infos => exact List.prefix_append _ _
  all_goals exact List.prefix_rfl

theorem pushed_of_le {m n : ℕ} (hle : m ≤ n) :
    (after r disk m).pushed <+: (after r disk n).pushed := by
  induction n, hle using Nat.le_induction with
  | base => exact List.prefix_rfl
  | succ n hle ih =>
    rw [after_succ]
    exact ih.trans pushed_advance

/-- An operation of the chunker that does not throw is a step of the machine. -/
theorem advance_of_move {capacity : ℕ} {f : Option Fault} {v v' : View capacity Disk} {pc : ReadPc}
    {t : Thread ReadPc} (h : ReadMove r false f v pc t v') (ht : t.thrown = false) :
    advance r v.world ⟨.running pc, v.output.queue.pushed⟩ = ⟨t, v'.output.queue.pushed⟩ := by
  cases h with
  | abortFile l info infos hpc ha => cases ha
  | abortRead l file n infos hpc ha => cases ha
  -- faults and aborts throw or return early, which `ht` and the flag exclude
  | openFault l info infos x hpc hf => cases ht
  | readFault l file n infos x hpc hf => cases ht
  | pushed c l file n infos q hpc hq =>
    subst hpc
    show (⟨_, _⟩ : Reading) = ⟨_, q.pushed⟩
    rw [BoundedThreadSafeQueue.pushed_push hq]
  | finished l hpc | goOnFile l info infos hpc | opened l info infos hpc
  | goOnRead l file n infos hpc | read l file n infos hpc | aborted hpc =>
    subst hpc
    rfl

end Reading

/-! ### Two machines -/

/-- The locals differ in the contents of the buffer only. -/
structure SameLocals (l l' : ReadLocals) : Prop where
  sequenceCounter : l.sequenceCounter = l'.sequenceCounter
  remainingBufferCapacity : l.remainingBufferCapacity = l'.remainingBufferCapacity
  length : l.buffer.length = l'.buffer.length

/-- The program points differ in contents only. -/
inductive SamePoint : Thread ReadPc → Thread ReadPc → Prop
  | nextFile {l l' : ReadLocals} (infos : List FileInfo) (h : SameLocals l l') :
      SamePoint (.running (.nextFile l infos)) (.running (.nextFile l' infos))
  | openFile {l l' : ReadLocals} (info : FileInfo) (infos : List FileInfo) (h : SameLocals l l') :
      SamePoint (.running (.openFile l info infos)) (.running (.openFile l' info infos))
  | abortCheck {l l' : ReadLocals} {file file' : Bytes} (n : ℕ) (infos : List FileInfo)
      (h : SameLocals l l') (hfile : file.length = file'.length) :
      SamePoint (.running (.abortCheck l file n infos)) (.running (.abortCheck l' file' n infos))
  | read {l l' : ReadLocals} {file file' : Bytes} (n : ℕ) (infos : List FileInfo)
      (h : SameLocals l l') (hfile : file.length = file'.length) :
      SamePoint (.running (.read l file n infos)) (.running (.read l' file' n infos))
  | push {c c' : Chunk} {l l' : ReadLocals} {file file' : Bytes} (n : ℕ) (infos : List FileInfo)
      (hc : c.shape = c'.shape) (h : SameLocals l l') (hfile : file.length = file'.length) :
      SamePoint (.running (.push c l file n infos)) (.running (.push c' l' file' n infos))
  | outputDone : SamePoint (.running .outputDone) (.running .outputDone)
  | returned : SamePoint .returned .returned

theorem SamePoint.whileLoop {l l' : ReadLocals} {file file' : Bytes} (n : ℕ)
    (infos : List FileInfo) (h : SameLocals l l') (hfile : file.length = file'.length) :
    SamePoint (.running (.whileLoop l file n infos)) (.running (.whileLoop l' file' n infos)) := by
  unfold ReadPc.whileLoop
  split_ifs
  · exact .abortCheck n infos h hfile
  · exact .nextFile infos h

theorem openForReading_of_not_thrown {disk : Disk} {l : ReadLocals} {info : FileInfo}
    {infos : List FileInfo} (h : (openForReading disk l info infos).thrown = false) :
    ∃ b, b.length = info.size.toNat ∧
      openForReading disk l info infos = .running (.whileLoop l b info.size.toNat infos) := by
  unfold openForReading at h ⊢
  cases hb : disk info.relativePath with
  | none =>
    rw [hb] at h
    cases h
  | some b =>
    rw [hb] at h
    dsimp only at h ⊢
    by_cases hlen : b.length = info.size.toNat
    · refine ⟨b, hlen, ?_⟩
      rw [if_neg (not_not.mpr hlen), hlen]
    · rw [if_pos hlen] at h
      cases h

theorem SamePoint.openForReading {disk disk' : Disk} {l l' : ReadLocals} {info : FileInfo}
    {infos : List FileInfo} (h : SameLocals l l')
    (ht : (openForReading disk l info infos).thrown = false)
    (ht' : (openForReading disk' l' info infos).thrown = false) :
    SamePoint (openForReading disk l info infos) (openForReading disk' l' info infos) := by
  obtain ⟨b, hb, hopen⟩ := openForReading_of_not_thrown ht
  obtain ⟨b', hb', hopen'⟩ := openForReading_of_not_thrown ht'
  rw [hopen, hopen']
  exact .whileLoop _ infos h (hb.trans hb'.symm)

theorem length_overwrite_eq {buffer buffer' bytes bytes' : Bytes} (offset : ℕ)
    (h : buffer.length = buffer'.length) (hbytes : bytes.length = bytes'.length) :
    (overwrite buffer offset bytes).length = (overwrite buffer' offset bytes').length := by
  simp only [overwrite, List.length_append, List.length_take, List.length_drop, h, hbytes]

theorem SamePoint.readIntoBuffer {l l' : ReadLocals} {file file' : Bytes} {n : ℕ}
    {infos : List FileInfo} (h : SameLocals l l') (hfile : file.length = file'.length)
    (ht : (readIntoBuffer l file n infos).thrown = false) :
    SamePoint (readIntoBuffer l file n infos) (readIntoBuffer l' file' n infos) := by
  obtain ⟨hseq, hcap, hlen⟩ := h
  have hbytes : ∀ k, (file.take k).length = (file'.take k).length := by
    intro k
    rw [List.length_take, List.length_take, hfile]
  have hdrop : ∀ k, (file.drop k).length = (file'.drop k).length := by
    intro k
    rw [List.length_drop, List.length_drop, hfile]
  have hbuffer := length_overwrite_eq (l.buffer.length - l.remainingBufferCapacity) hlen
    (hbytes (min n l.remainingBufferCapacity))
  unfold FileManager.readIntoBuffer at ht ⊢
  dsimp only at ht ⊢
  rw [← hseq, ← hcap, ← hlen, ← hbytes]
  split_ifs at ht ⊢ with hread hfull
  · cases ht
  -- the buffer is full: the chunk has the length of the buffer, whatever it holds
  · exact .push _ _ (Prod.ext rfl hbuffer) ⟨rfl, rfl, hbuffer⟩ (hdrop _)
  · exact .whileLoop _ _ ⟨rfl, rfl, hbuffer⟩ (hdrop _)

/-- The two machines differ in contents only. -/
structure Same (x y : Reading) : Prop where
  point : SamePoint x.thread y.thread
  pushed : x.pushed.map Chunk.shape = y.pushed.map Chunk.shape

/-- Steps that do not throw keep two machines together. -/
theorem Same.advance {r : TransferRequest} {disk disk' : Disk} {x y : Reading} (h : Same x y)
    (hx : (x.advance r disk).thread.thrown = false)
    (hy : (y.advance r disk').thread.thrown = false) :
    Same (x.advance r disk) (y.advance r disk') := by
  obtain ⟨thread, pushed⟩ := x
  obtain ⟨thread', pushed'⟩ := y
  obtain ⟨hpoint, hpushed⟩ := h
  cases hpoint with
  | nextFile infos h =>
    cases infos with
    | nil => exact ⟨.returned, hpushed⟩
    | cons info infos => exact ⟨.openFile info infos h, hpushed⟩
  | openFile info infos h => exact ⟨.openForReading h hx hy, hpushed⟩
  | abortCheck n infos h hfile => exact ⟨.read n infos h hfile, hpushed⟩
  | read n infos h hfile => exact ⟨.readIntoBuffer h hfile hx, hpushed⟩
  | push n infos hc h hfile =>
    refine ⟨?_, ?_⟩
    · show SamePoint (.running (.whileLoop _ _ _ _)) (.running (.whileLoop _ _ _ _))
      rw [h.sequenceCounter]
      exact .whileLoop n infos ⟨rfl, rfl, rfl⟩ hfile
    · show (pushed ++ [_]).map Chunk.shape = (pushed' ++ [_]).map Chunk.shape
      rw [List.map_append, List.map_append, hpushed, List.map_singleton, List.map_singleton, hc]
  | outputDone => exact ⟨.returned, hpushed⟩
  | returned => exact ⟨.returned, hpushed⟩

namespace Reading

variable {r : TransferRequest} {disk disk' : Disk}

/-- After the same number of steps, two machines that have not thrown are together. -/
theorem same_after {n : ℕ} (h : (after r disk n).thread.thrown = false)
    (h' : (after r disk' n).thread.thrown = false) : Same (after r disk n) (after r disk' n) := by
  induction n with
  | zero => exact ⟨.nextFile _ ⟨rfl, rfl, rfl⟩, rfl⟩
  | succ n ih =>
    have hsame := ih (not_thrown_of_le (Nat.le_succ n) h) (not_thrown_of_le (Nat.le_succ n) h')
    rw [after_succ] at h h' ⊢
    rw [after_succ]
    exact hsame.advance h h'

/-- After any numbers of steps, one of two machines that have not thrown has pushed the shapes that
the other has pushed. -/
theorem shapes_comparable {m n : ℕ} (h : (after r disk m).thread.thrown = false)
    (h' : (after r disk' n).thread.thrown = false) :
    (after r disk m).pushed.map Chunk.shape <+: (after r disk' n).pushed.map Chunk.shape ∨
      (after r disk' n).pushed.map Chunk.shape <+: (after r disk m).pushed.map Chunk.shape := by
  rcases Nat.le_total m n with hle | hle
  · left
    rw [(same_after h (not_thrown_of_le hle h')).pushed]
    exact (pushed_of_le hle).map Chunk.shape
  · right
    rw [← (same_after (not_thrown_of_le hle h) h').pushed]
    exact (pushed_of_le hle).map Chunk.shape

end Reading

end FileManager

end Trit
