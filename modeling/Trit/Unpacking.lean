import Trit.Packing

/-!
# Unpacking

What `write_files_from_chunks` makes of the chunks of a packing, when nothing fails.

* `Written`: some of the files of a request are complete, and no other file has changed;
* `Writing`: one more file is open, and has all but its last bytes;
* `Unread`: the chunk in hand, followed by the chunks to come, holds the bytes still to write;
* `WriteFlow`: the state of the writer at each of its program points, and `WriteFlow.move`: its
  operations keep it.
-/

namespace Trit

open Blocks

namespace FileManager

/-- The listed files have the sender's contents, and the others are as they were at the start. -/
def Written (disk : Disk) (start : FileSystem) (infos : List FileInfo) (fs : FileSystem) : Prop :=
  ∀ path, fs.files path =
    if path ∈ infos.map FileInfo.relativePath then disk path else start.files path

/-- Between two files: the files before are complete, and `rest` are the bytes of the `infos`
that follow. -/
def Between (r : TransferRequest) (disk : Disk) (start fs : FileSystem) (infos : List FileInfo)
    (rest : Bytes) : Prop :=
  ∃ prior, r.fileInfos = prior ++ infos ∧ Written disk start prior fs ∧ rest = payload disk infos

/-- Inside a file: it lacks its last `n` bytes, the files before are complete, and `rest` are the
bytes that are missing, followed by those of the `infos` that follow. -/
def Writing (r : TransferRequest) (disk : Disk) (start fs : FileSystem) (path : Bytes) (n : ℕ)
    (infos : List FileInfo) (rest : Bytes) : Prop :=
  ∃ prior info b, r.fileInfos = prior ++ info :: infos ∧ info.relativePath = path ∧
    disk path = some b ∧ n ≤ b.length ∧ fs.files path = some (b.take (b.length - n)) ∧
    (∀ p, p ≠ path → fs.files p =
      if p ∈ prior.map FileInfo.relativePath then disk p else start.files p) ∧
    rest = b.drop (b.length - n) ++ payload disk infos

theorem Writing.close {r : TransferRequest} {disk : Disk} {start fs : FileSystem} {path : Bytes}
    {infos : List FileInfo} {rest : Bytes} (h : Writing r disk start fs path 0 infos rest) :
    Between r disk start fs infos rest := by
  obtain ⟨prior, info, b, hinfos, rfl, hb, -, hfile, hothers, rfl⟩ := h
  refine ⟨prior ++ [info], by simp [hinfos], fun p => ?_, by simp⟩
  by_cases hp : p = info.relativePath
  · subst hp
    simp [hfile, hb]
  · rw [hothers p hp]
    simp [hp]

theorem Between.openFile {r : TransferRequest} {disk : Disk} {start fs : FileSystem}
    {info : FileInfo} {infos : List FileInfo} {rest : Bytes} (hr : Fits r disk)
    (h : Between r disk start fs (info :: infos) rest) :
    Writing r disk start ((fs.createParent info.relativePath).truncate info.relativePath)
      info.relativePath info.size.toNat infos rest := by
  obtain ⟨prior, hinfos, hwritten, rfl⟩ := h
  obtain ⟨b, hb, hlen⟩ := hr.sizes info (by rw [hinfos]; simp)
  refine ⟨prior, info, b, hinfos, rfl, hb, by omega, ?_, fun p hp => ?_, ?_⟩
  · simp [FileSystem.truncate, ← hlen]
  · simp only [FileSystem.truncate, FileSystem.createParent_files, Function.update_of_ne hp]
    exact hwritten p
  · rw [payload_cons hb, ← hlen, Nat.sub_self, List.drop_zero]

/-- When nothing is left to write, the open file is complete. -/
theorem Writing.eq_zero {r : TransferRequest} {disk : Disk} {start fs : FileSystem}
    {path : Bytes} {n : ℕ} {infos : List FileInfo}
    (h : Writing r disk start fs path n infos []) : n = 0 := by
  obtain ⟨prior, info, b, -, -, -, hle, -, -, hbytes⟩ := h
  have hlen := congrArg List.length hbytes
  rw [List.length_append, List.length_drop, List.length_nil] at hlen
  omega

theorem Writing.append {r : TransferRequest} {disk : Disk} {start fs : FileSystem} {path : Bytes}
    {n m : ℕ} {infos : List FileInfo} {rest : Bytes} (hm : m ≤ n)
    (h : Writing r disk start fs path n infos rest) :
    Writing r disk start (fs.append path (rest.take m)) path (n - m) infos (rest.drop m) := by
  obtain ⟨prior, info, b, hinfos, hpath, hb, hn, hfile, hothers, rfl⟩ := h
  have hlen : m ≤ (b.drop (b.length - n)).length := by
    rw [List.length_drop]
    omega
  have hnext : b.length - (n - m) = b.length - n + m := by omega
  refine ⟨prior, info, b, hinfos, hpath, hb, by omega, ?_, fun p hp => ?_, ?_⟩
  · rw [List.take_append_of_le_length hlen, hnext, List.take_add]
    simp [FileSystem.append, hfile]
  · simp only [FileSystem.append, Function.update_of_ne hp]
    exact hothers p hp
  · rw [List.drop_append_of_le_length hlen, hnext, List.drop_drop]

/-- What is left of the chunk in hand, followed by the chunks from the `k`-th on, is `rest`. -/
structure Unread (r : TransferRequest) (disk : Disk) (k : ℕ) (l : WriteLocals) (rest : Bytes) :
    Prop where
  remaining : l.remainingChunkData = (l.chunk.data.drop l.chunkOffset).length
  bytes : l.chunk.data.drop l.chunkOffset ++
    (payload disk r.fileInfos).drop (k * r.uncompressedChunkSize.toNat) = rest

theorem Unread.ofChunk {r : TransferRequest} {disk : Disk} {k : ℕ} {c : Chunk} (hr : Fits r disk)
    (hc : (packing r disk)[k]? = some c) :
    Unread r disk (k + 1) (.ofChunk c)
        ((payload disk r.fileInfos).drop (k * r.uncompressedChunkSize.toNat)) ∧
      0 < (WriteLocals.ofChunk c).remainingChunkData := by
  have hk : k < r.numChunks.toNat := by
    have := (List.getElem?_eq_some_iff.mp hc).1
    rwa [length_packing] at this
  rw [getElem?_packing disk hk] at hc
  obtain rfl := Option.some.inj hc
  obtain ⟨hpos, hle⟩ := hr.length_block_bounds hk
  have hsize : (Chunk.plain (.ofNat (k + 1)) (block r.uncompressedChunkSize.toNat
      (payload disk r.fileInfos) k)).size.toNat =
      (block r.uncompressedChunkSize.toNat (payload disk r.fileInfos) k).length := by
    have hcs := hr.chunkSize_le
    exact Chunk.size_toNat_of_le (by
      show (block r.uncompressedChunkSize.toNat (payload disk r.fileInfos) k).length ≤ uint16Max
      unfold uint16Max
      omega)
  refine ⟨⟨hsize, ?_⟩, ?_⟩
  · exact block_append _ _ k
  · show 0 < (Chunk.size _).toNat
    omega

theorem Unread.advance {r : TransferRequest} {disk : Disk} {k : ℕ} {l : WriteLocals}
    {rest : Bytes} {m : ℕ} (hm : m ≤ l.remainingChunkData) (h : Unread r disk k l rest) :
    Unread r disk k ⟨l.chunk, l.remainingChunkData - m, l.chunkOffset + m⟩ (rest.drop m) := by
  obtain ⟨hremaining, rfl⟩ := h
  rw [hremaining] at hm
  refine ⟨?_, ?_⟩
  · show l.remainingChunkData - m = (l.chunk.data.drop (l.chunkOffset + m)).length
    rw [hremaining, List.length_drop, List.length_drop]
    omega
  · rw [List.drop_append_of_le_length hm, List.drop_drop]

/-- The bytes of one write are the first of those still to write. -/
theorem Unread.bytesToWrite_eq {r : TransferRequest} {disk : Disk} {k n : ℕ} {l : WriteLocals}
    {rest : Bytes} (h : Unread r disk k l rest) :
    bytesToWrite l n = rest.take (min n l.remainingChunkData) := by
  obtain ⟨hremaining, rfl⟩ := h
  rw [List.take_append_of_le_length (by rw [← hremaining]; exact min_le_right _ _), bytesToWrite]

/-- The counter leaves out the chunk in hand, unless that is the last one and exhausted. -/
def Counted (r : TransferRequest) (k : ℕ) (counter : UInt32) (l : WriteLocals) : Prop :=
  0 < l.remainingChunkData ∧ counter.toNat + 1 = k ∨
    l.remainingChunkData = 0 ∧ k = r.numChunks.toNat ∧ counter.toNat = k

/-- The writer has written the first bytes of the payload to the right files. -/
def WriteFlow (r : TransferRequest) (disk : Disk) (start : FileSystem) (done : Bool)
    (popped : List Chunk) (fs : FileSystem) (counter : UInt32) : Thread WritePc → Prop
  | .running .firstPop => popped = [] ∧ fs = start ∧ counter = 0
  | .running (.openFile l info infos) => ∃ rest, Between r disk start fs (info :: infos) rest ∧
      Unread r disk popped.length l rest ∧ Counted r popped.length counter l
  | .running (.abortCheck l path n infos) | .running (.write l path n infos) =>
      ∃ rest, Writing r disk start fs path n infos rest ∧ Unread r disk popped.length l rest ∧
        0 < n ∧ 0 < l.remainingChunkData ∧ counter.toNat + 1 = popped.length
  | .running (.increment l path n infos) =>
      ∃ rest, Writing r disk start fs path n infos rest ∧ Unread r disk popped.length l rest ∧
        l.remainingChunkData = 0 ∧ counter.toNat + 1 = popped.length
  | .running (.inputDone l path n infos) =>
      ∃ rest, Writing r disk start fs path n infos rest ∧ Unread r disk popped.length l rest ∧
        l.remainingChunkData = 0 ∧ counter.toNat = popped.length
  | .running (.inputEmpty l path n infos) => done = true ∧
      ∃ rest, Writing r disk start fs path n infos rest ∧ Unread r disk popped.length l rest ∧
        l.remainingChunkData = 0 ∧ counter.toNat = popped.length
  | .running (.pop path n infos) => counter.toNat = popped.length ∧
      Writing r disk start fs path n infos
        ((payload disk r.fileInfos).drop (popped.length * r.uncompressedChunkSize.toNat))
  | .returned => Written disk start r.fileInfos fs ∧ popped.length = r.numChunks.toNat ∧
      counter = r.numChunks
  | .caught _ | .flagged _ => False

theorem WriteFlow.thrown {r : TransferRequest} {disk : Disk} {start fs : FileSystem} {done : Bool}
    {popped : List Chunk} {counter : UInt32} {t : Thread WritePc}
    (h : WriteFlow r disk start done popped fs counter t) : t.thrown = false := by
  cases t with
  | running pc => rfl
  | returned => rfl
  | caught e => exact h.elim
  | flagged e => exact h.elim

theorem Unread.rest_of_zero {r : TransferRequest} {disk : Disk} {k : ℕ} {l : WriteLocals}
    {rest : Bytes} (h : Unread r disk k l rest) (hremaining : l.remainingChunkData = 0) :
    rest = (payload disk r.fileInfos).drop (k * r.uncompressedChunkSize.toNat) := by
  obtain ⟨hlen, rfl⟩ := h
  rw [hremaining] at hlen
  rw [List.eq_nil_of_length_eq_zero hlen.symm, List.nil_append]

/-- Once the last chunk is exhausted, nothing is left to write. -/
theorem Unread.rest_eq_nil {r : TransferRequest} {disk : Disk} {k : ℕ} {l : WriteLocals}
    {rest : Bytes} (hr : Fits r disk) (h : Unread r disk k l rest)
    (hremaining : l.remainingChunkData = 0) (hk : k = r.numChunks.toNat) : rest = [] := by
  rw [h.rest_of_zero hremaining, hk, List.drop_of_length_le hr.length_le]

theorem WriteFlow.forLoop {r : TransferRequest} {disk : Disk} {start fs : FileSystem}
    {done : Bool} {popped : List Chunk} {counter : UInt32} {l : WriteLocals}
    {infos : List FileInfo} {rest : Bytes} (h : Between r disk start fs infos rest)
    (hl : Unread r disk popped.length l rest) (hc : Counted r popped.length counter l) :
    WriteFlow r disk start done popped fs counter (forLoop l infos) := by
  cases infos with
  | cons info infos => exact ⟨rest, h, hl, hc⟩
  | nil =>
    obtain ⟨prior, hinfos, hwritten, rfl⟩ := h
    rw [List.append_nil] at hinfos
    -- the files are complete, so the chunk in hand is exhausted
    have hnil := (List.append_eq_nil_iff.mp hl.bytes).1
    have hlen := hl.remaining
    rw [hnil] at hlen
    rcases hc with ⟨hpos, -⟩ | ⟨-, hk, hcounter⟩
    · exact absurd hlen (Nat.ne_of_gt hpos)
    · exact ⟨hinfos ▸ hwritten, hk, UInt32.toNat.inj (hcounter.trans hk)⟩

theorem WriteFlow.whileLoop {r : TransferRequest} {disk : Disk} {start fs : FileSystem}
    {done : Bool} {popped : List Chunk} {counter : UInt32} {l : WriteLocals} {path : Bytes}
    {n : ℕ} {infos : List FileInfo} {rest : Bytes} (hr : Fits r disk)
    (h : Writing r disk start fs path n infos rest)
    (hl : Unread r disk popped.length l rest) (hc : Counted r popped.length counter l) :
    WriteFlow r disk start done popped fs counter (whileLoop l path n infos) := by
  unfold FileManager.whileLoop
  split_ifs with hn
  · rcases hc with ⟨hpos, hcounter⟩ | ⟨hzero, hk, -⟩
    · exact ⟨rest, h, hl, hn, hpos, hcounter⟩
    · -- the missing bytes of the file would be among those still to write
      rw [hl.rest_eq_nil hr hzero hk] at h
      exact absurd h.eq_zero (Nat.ne_of_gt hn)
  · obtain rfl : n = 0 := by omega
    exact WriteFlow.forLoop h.close hl hc

/-- One operation of the writer, when nothing fails and the flag of its input is set only after
the last chunk. -/
theorem WriteFlow.move {capacity : ℕ} {r : TransferRequest} {disk : Disk} {start : FileSystem}
    {v v' : View capacity FileSystem} {pc : WritePc} {t : Thread WritePc} (hr : Fits r disk)
    (h : WriteMove r false none v pc t v') (hpushed : v.input.queue.pushed <+: packing r disk)
    (hall : v.input.done = true → v.input.queue.pushed = packing r disk)
    (hi : WriteFlow r disk start v.input.done v.input.queue.popped v.world v.counter
      (.running pc)) :
    WriteFlow r disk start v'.input.done v'.input.queue.popped v'.world v'.counter t := by
  have hpop : ∀ {c q}, v.input.queue.pop = some (c, q) →
      (packing r disk)[v.input.queue.popped.length]? = some c ∧
        q.popped.length = v.input.queue.popped.length + 1 := by
    intro c q hq
    obtain ⟨hqueue, hpopped⟩ := BoundedThreadSafeQueue.pop_eq_some.mp hq
    obtain ⟨rest, hrest⟩ := hpushed
    refine ⟨?_, by rw [hpopped, List.length_append, List.length_singleton]⟩
    rw [← hrest, BoundedThreadSafeQueue.pushed, hqueue]
    simp
  cases h with
  | firstPopped c q hpc hq =>
    subst hpc
    obtain ⟨hnil, hfs, hcounter⟩ := hi
    obtain ⟨hc, hlen⟩ := hpop hq
    obtain ⟨hl, hpos⟩ := Unread.ofChunk hr hc
    rw [hnil, List.length_nil] at hlen hl
    rw [← hlen, Nat.zero_mul, List.drop_zero] at hl
    have hbetween : Between r disk start v.world r.fileInfos (payload disk r.fileInfos) :=
      ⟨[], rfl, fun path => by simp [hfs], rfl⟩
    refine WriteFlow.forLoop hbetween hl (Or.inl ⟨hpos, ?_⟩)
    · show v.counter.toNat + 1 = _
      rw [hcounter, hlen]
      rfl
  | opened l info infos hpc =>
    subst hpc
    obtain ⟨rest, hbetween, hl, hc⟩ := hi
    exact WriteFlow.whileLoop hr (hbetween.openFile hr) hl hc
  | openFault l info infos x hpc hf => cases hf
  | abort l path n infos hpc ha => cases ha
  | goOn l path n infos hpc => subst hpc; exact hi
  | wrote l path n infos hpc =>
    subst hpc
    obtain ⟨rest, hwriting, hl, hn, hpos, hcounter⟩ := hi
    have happend := hwriting.append (min_le_left n l.remainingChunkData)
    rw [← hl.bytesToWrite_eq] at happend
    have hadvance := hl.advance (min_le_right n l.remainingChunkData)
    unfold afterWrite
    dsimp only
    split_ifs with hzero
    · exact ⟨_, happend, hadvance, hzero, hcounter⟩
    · exact WriteFlow.whileLoop hr happend hadvance (Or.inl ⟨Nat.pos_of_ne_zero hzero, hcounter⟩)
  | writeFault l path n infos x hpc hf => cases hf
  | counted l path n infos hpc =>
    subst hpc
    obtain ⟨rest, hwriting, hl, hzero, hcounter⟩ := hi
    refine ⟨rest, hwriting, hl, hzero, ?_⟩
    show (v.counter + 1).toNat = v.input.queue.popped.length
    have hle := hpushed.length_le
    rw [BoundedThreadSafeQueue.pushed, List.length_append, length_packing] at hle
    have hnum := r.numChunks.toNat_lt
    have hone : (1 : UInt32).toNat = 1 := rfl
    rw [UInt32.toNat_add, hone]
    omega
  | doneSeen l path n infos hpc hd => subst hpc; exact ⟨hd, hi⟩
  | notDone l path n infos hpc hd =>
    subst hpc
    obtain ⟨rest, hwriting, hl, hzero, hcounter⟩ := hi
    exact ⟨hcounter, hl.rest_of_zero hzero ▸ hwriting⟩
  | drained l path n infos hpc hq =>
    subst hpc
    obtain ⟨hdone, rest, hwriting, hl, hzero, hcounter⟩ := hi
    -- the flag is set and the queue is empty: this was the last chunk
    have hk : v.input.queue.popped.length = r.numChunks.toNat := by
      have hlen := congrArg List.length (hall hdone)
      rwa [BoundedThreadSafeQueue.pushed, hq, List.append_nil, length_packing] at hlen
    obtain rfl := hl.rest_eq_nil hr hzero hk
    obtain rfl := hwriting.eq_zero
    exact WriteFlow.forLoop hwriting.close hl (Or.inr ⟨hzero, hk, hcounter⟩)
  | more l path n infos hpc hq =>
    subst hpc
    obtain ⟨hdone, rest, hwriting, hl, hzero, hcounter⟩ := hi
    exact ⟨hcounter, hl.rest_of_zero hzero ▸ hwriting⟩
  | popped path n infos c q hpc hq =>
    subst hpc
    obtain ⟨hcounter, hwriting⟩ := hi
    obtain ⟨hc, hlen⟩ := hpop hq
    obtain ⟨hl, hpos⟩ := Unread.ofChunk hr hc
    rw [← hlen] at hl
    exact WriteFlow.whileLoop hr hwriting hl (Or.inl ⟨hpos, by rw [hlen, ← hcounter]⟩)

/-- Before the end of its input the writer has not seen it, whatever arrives. -/
theorem WriteFlow.of_not_done {r : TransferRequest} {disk : Disk} {start fs : FileSystem}
    {done : Bool} {popped : List Chunk} {counter : UInt32} {t : Thread WritePc}
    (h : WriteFlow r disk start false popped fs counter t) :
    WriteFlow r disk start done popped fs counter t := by
  cases t with
  | running pc =>
    cases pc with
    | inputEmpty l path n infos => exact nomatch h.1
    | _ => exact h
  | _ => exact h

end FileManager

end Trit
