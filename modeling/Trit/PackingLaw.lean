import Trit.Solo
import Trit.QuietSender

/-!
# The packing law

`read_files_into_chunks` on its own, for a request of `from_file_paths` whose chunks can be counted:
it ends, and what it has pushed are the files, one after the other, cut into chunks.

* `contents`: the files that a request is made for, one after the other;
* `Packed`: a list of chunks is a payload cut to a chunk size; `packed_packing`: so is the packing;
* `Lawful`: what holds whenever nothing fails, and `Lawful.step`: every event keeps it and brings
  the end closer;
* `packing_law`: the chunker ends with the chunks of its files, whatever the capacity of its queue
  and whenever its chunks are taken.
-/

namespace Trit

open Transition Blocks

namespace FileManager

/-- The contents of the files behind a list of paths, one after the other. -/
def contents {Path : Type} (relative : Path → Bytes) (disk : Disk) (paths : List Path) : Bytes :=
  (paths.map fun path => (disk (relative path)).getD []).flatten

/-- The payload of a request of `from_file_paths` are its files in the order of the paths. -/
theorem payload_of_fromFilePaths {Path : Type} {relative : Path → Bytes} {disk : Disk}
    {paths : List Path} {r : TransferRequest}
    (h : TransferRequest.fromFilePaths relative (fun p => disk.fileSize (relative p)) paths =
      .ok r) : payload disk r.fileInfos = contents relative disk paths := by
  obtain ⟨hadd, -⟩ := TransferRequest.fromFilePaths_ok h
  obtain ⟨new, hinfos, hpaths, -⟩ := addFileInfos_ok hadd
  rw [List.nil_append] at hinfos
  have hmap := congrArg (List.map fun p => (disk p).getD []) hpaths
  rw [List.map_map, List.map_map] at hmap
  rw [hinfos]
  exact congrArg List.flatten hmap

/-- The chunks are numbered from 1 to `n` and hold the payload; all but the last one have the chunk
size, and the last one has what is left, which is not nothing. -/
structure Packed (chunkSize n : ℕ) (bytes : Bytes) (cs : List Chunk) : Prop where
  length_eq : cs.length = n
  numbers : cs.map Chunk.sequenceNum = (List.range n).map fun k => UInt64.ofNat (k + 1)
  payload : (cs.map Chunk.data).flatten = bytes
  full : ∀ k c, cs[k]? = some c → k + 1 < n → c.data.length = chunkSize
  last : ∀ c, cs[n - 1]? = some c → c.data.length = bytes.length - (n - 1) * chunkSize ∧
    1 ≤ c.data.length ∧ c.data.length ≤ chunkSize

theorem packed_packing {r : TransferRequest} {disk : Disk} (hr : Fits r disk) :
    Packed r.uncompressedChunkSize.toNat r.numChunks.toNat (payload disk r.fileInfos)
      (packing r disk) where
  length_eq := length_packing r disk
  numbers := by
    rw [packing, List.map_map]
    rfl
  payload := by
    have hdata : (packing r disk).map Chunk.data =
        blocks r.uncompressedChunkSize.toNat r.numChunks.toNat (payload disk r.fileInfos) := by
      rw [packing, List.map_map]
      rfl
    have hflat := flatten_drop_blocks hr.length_le (Nat.zero_le _)
    rw [List.drop_zero, Nat.zero_mul, List.drop_zero] at hflat
    rw [hdata, hflat]
  full := by
    intro k c hc hk
    rw [getElem?_packing disk (by omega)] at hc
    obtain rfl := Option.some.inj hc
    rw [Chunk.plain_data, hr.length_block_eq (by omega), if_neg (by omega)]
  last := by
    intro c hc
    have hpos := hr.numChunks_pos
    have hlast : r.numChunks.toNat - 1 < r.numChunks.toNat := by omega
    rw [getElem?_packing disk hlast] at hc
    obtain rfl := Option.some.inj hc
    obtain ⟨hone, hle⟩ := hr.length_block_bounds hlast
    refine ⟨?_, hone, hle⟩
    -- the last block is what is left, since all of the payload is in the blocks
    have hlen := hr.length_le
    have hmul : r.numChunks.toNat * r.uncompressedChunkSize.toNat =
        (r.numChunks.toNat - 1) * r.uncompressedChunkSize.toNat +
          r.uncompressedChunkSize.toNat := by
      rw [← Nat.succ_mul, Nat.succ_eq_add_one, Nat.sub_add_cancel hpos]
    rw [Chunk.plain_data, length_block, min_eq_right (by omega)]

/-! ### Runs of the chunker -/

variable {capacity : ℕ} {r : TransferRequest} {disk : Disk} {s t : Solo capacity Disk ReadPc}

/-- What holds whenever nothing fails. -/
structure Lawful (r : TransferRequest) (disk : Disk) (s : Solo capacity Disk ReadPc) : Prop where
  world : s.view.world = disk
  abort : s.ctx = .new
  flow : ReadFlow r disk s.view.output.queue.pushed s.view.output.done s.thread

/-- The work left: for the chunker, and for those that take its chunks. -/
def chunkerWork (s : Solo capacity Disk ReadPc) : ℕ :=
  readWork s.thread + 45 * s.view.output.queue.queue.length

theorem Lawful.start (hr : Fits r disk) :
    Lawful r disk (Solo.start capacity (.nextFile (.initial r) r.fileInfos) disk) where
  world := rfl
  abort := rfl
  flow := ReadFlow.initial hr

/-- A push needs room, and finds it or waits. -/
theorem room_of_run {pc : ReadPc} {th : Thread ReadPc} {v v' : View capacity Disk}
    (h : (readFilesIntoChunks r pc).run false none v = some (th, v')) :
    ∀ c l file n infos, pc = .push c l file n infos → v.output.queue.queue.length < capacity := by
  rintro c l file n infos rfl
  obtain ⟨q, hq, -⟩ := Option.map_eq_some_iff.mp h
  exact (BoundedThreadSafeQueue.push_eq_some.mp hq).1

theorem Lawful.step {a : Solo.Event} (hr : Fits r disk) (hi : Lawful r disk s)
    (ha : Solo.Undisturbed a) (h : s.step (readFilesIntoChunks r) a = some t) :
    Lawful r disk t ∧ chunkerWork t < chunkerWork s := by
  obtain ⟨hworld, hctx, hflow⟩ := hi
  cases a with
  | step f =>
    obtain rfl : f = none := ha
    obtain ⟨pc, th, v, hpc, hrun, rfl⟩ := Solo.step_running hflow.thrown h
    rw [hctx] at hrun
    rw [hpc] at hflow
    subst hworld
    obtain ⟨hflow', hworld'⟩ := ReadFlow.move (readMove_of_run hrun) hr hflow
    refine ⟨⟨hworld', hctx, hflow'⟩, ?_⟩
    obtain ⟨th', v', hrun', hlt⟩ := readFilesIntoChunks_progress hr hflow (room_of_run hrun)
    obtain ⟨rfl, rfl⟩ := Prod.mk.inj (Option.some.inj (hrun'.symm.trans hrun))
    unfold chunkerWork
    rw [hpc]
    exact hlt
  | take =>
    obtain ⟨c, q, -, hpushed, hlen, rfl⟩ := Solo.take_cases h
    refine ⟨⟨hworld, hctx, ?_⟩, ?_⟩
    · show ReadFlow r disk q.pushed s.view.output.done s.thread
      rw [hpushed]
      exact hflow
    · show readWork s.thread + 45 * q.queue.length < _
      unfold chunkerWork
      omega
  | arrive c => exact ha.elim
  | finish => exact ha.elim

/-- A chunker that has not returned goes on, once there is room for its chunk. -/
theorem Lawful.progress (hr : Fits r disk) (hcap : 0 < capacity) (hi : Lawful r disk s)
    (hs : s.thread ≠ .returned) :
    ∃ a t, Solo.Undisturbed a ∧ s.step (readFilesIntoChunks r) a = some t := by
  rcases Solo.room_or_take (readFilesIntoChunks r) hcap s with hroom | ⟨t, ht⟩
  · obtain ⟨hworld, hctx, hflow⟩ := hi
    rcases Thread.cases_of_not_thrown hflow.thrown with ⟨pc, hpc⟩ | hreturned
    · subst hworld
      rw [hpc] at hflow
      obtain ⟨th, v, hrun, -⟩ := readFilesIntoChunks_progress hr hflow
        (fun _ _ _ _ _ _ => hroom)
      have hstep : s.step (readFilesIntoChunks r) (.step none) = some ⟨th, s.ctx, v⟩ :=
        Solo.step_of_run hpc (by rw [hctx]; exact hrun)
      exact ⟨.step none, _, rfl, hstep⟩
    · exact absurd hreturned hs
  · exact ⟨.take, t, trivial, ht⟩

/-- At the end of the list of files the buffer is empty. -/
theorem Lawful.buffer_empty (hr : Fits r disk) (hi : Lawful r disk s) {l : ReadLocals}
    (hs : s.thread = .running (.nextFile l [])) :
    l.remainingBufferCapacity = l.buffer.length := by
  have hflow := hi.flow
  rw [hs] at hflow
  have hall := ReadFlow.finished hr hflow
  obtain ⟨-, -, -, hfilled⟩ := hflow
  have hbytes := congrArg List.length hfilled.bytes
  have hlen := hr.length_le
  have hle := hfilled.capacity_le
  rw [hall, length_packing, payload_nil, List.append_nil, List.length_take,
    List.length_drop] at hbytes
  omega

/-- A read has at least one byte to deliver, and room for all it delivers. -/
theorem Lawful.read_inside (hi : Lawful r disk s) {l : ReadLocals} {file : Bytes} {n : ℕ}
    {infos : List FileInfo} (hs : s.thread = .running (.read l file n infos)) :
    1 ≤ min n l.remainingBufferCapacity ∧ l.remainingBufferCapacity ≤ l.buffer.length ∧
      l.buffer.length - l.remainingBufferCapacity + min n l.remainingBufferCapacity ≤
        l.buffer.length := by
  have hflow := hi.flow
  rw [hs] at hflow
  obtain ⟨-, -, -, -, hpos, hfilled⟩ := hflow
  have hcap := hfilled.capacity_pos
  have hle := hfilled.capacity_le
  omega

/-- The packing law.  For files of no more than `8192 * (2^32 - 1)` bytes together, in any order and
with any number of empty ones, and the request of `from_file_paths`: every run of the chunker is
finite, it never throws, it comes to its end, and there it has pushed the files, one after the
other, cut into chunks.  Its buffer is empty when it sets the flag, and no read goes beyond it. -/
theorem packing_law {Path : Type} {relative : Path → Bytes} {disk : Disk} {paths : List Path}
    {r : TransferRequest} (hcap : 0 < capacity)
    (h : TransferRequest.fromFilePaths relative (fun p => disk.fileSize (relative p)) paths =
      .ok r)
    (hsize : (contents relative disk paths).length ≤ 8192 * (2 ^ 32 - 1)) :
    ∃ bound, ∀ as (s : Solo capacity Disk ReadPc), (∀ a ∈ as, Solo.Undisturbed a) →
      exec (Solo.step (readFilesIntoChunks r))
        (Solo.start capacity (.nextFile (.initial r) r.fileInfos) disk) as = some s →
      as.length ≤ bound ∧ s.thread.thrown = false ∧
      (s.thread ≠ .returned →
        ∃ a t, Solo.Undisturbed a ∧ s.step (readFilesIntoChunks r) a = some t) ∧
      (s.thread = .returned ∨ s.view.output.done = true →
        Packed r.uncompressedChunkSize.toNat r.numChunks.toNat (contents relative disk paths)
          s.view.output.queue.pushed ∧ s.thread = .returned ∧ s.view.output.done = true) ∧
      (∀ l, s.thread = .running (.nextFile l []) →
        l.remainingBufferCapacity = l.buffer.length) ∧
      ∀ l file n infos, s.thread = .running (.read l file n infos) →
        1 ≤ min n l.remainingBufferCapacity ∧ l.remainingBufferCapacity ≤ l.buffer.length ∧
          l.buffer.length - l.remainingBufferCapacity + min n l.remainingBufferCapacity ≤
            l.buffer.length := by
  have hpayload := payload_of_fromFilePaths h
  rw [← hpayload] at hsize ⊢
  have hr := fits_of_fromFilePaths h hsize
  refine ⟨chunkerWork (Solo.start capacity (.nextFile (.initial r) r.fileInfos) disk),
    fun as s has hrun => ?_⟩
  obtain ⟨hi, hle⟩ := length_add_le_of_exec chunkerWork
    (fun u a v hu ha hstep => hu.step hr ha hstep) (Lawful.start hr) has hrun
  refine ⟨(Nat.le_add_right _ _).trans hle, hi.flow.thrown, fun hs => hi.progress hr hcap hs,
    fun hend => ?_, fun l hs => hi.buffer_empty hr hs, fun l file n infos hs => hi.read_inside hs⟩
  have hreturned : s.thread = .returned := by
    rcases hend with hs | hdone
    · exact hs
    · exact hi.flow.returned_of_done hdone
  have hflow := hi.flow
  rw [hreturned] at hflow
  refine ⟨?_, hreturned, hflow.2⟩
  rw [hflow.1]
  exact packed_packing hr

/-- Two files are cut into two full chunks and one that is not, in every run with room for one
chunk. -/
theorem packing_law_threeChunks : ∃ bound, ∀ as (s : Solo 1 Disk ReadPc),
    (∀ a ∈ as, Solo.Undisturbed a) →
    exec (Solo.step (readFilesIntoChunks Sender.threeChunkRequest))
      (Solo.start 1 (.nextFile (.initial Sender.threeChunkRequest)
        Sender.threeChunkRequest.fileInfos) Sender.threeChunkDisk) as = some s →
    as.length ≤ bound ∧
    (s.thread ≠ .returned → ∃ a t, Solo.Undisturbed a ∧
      s.step (readFilesIntoChunks Sender.threeChunkRequest) a = some t) ∧
    (s.thread = .returned →
      s.view.output.queue.pushed.map (fun c => c.data.length) = [8192, 8192, 3617]) := by
  have hpayload := payload_of_fromFilePaths Sender.fromFilePaths_threeChunks
  have hlength := Sender.length_payload_threeChunks
  rw [hpayload] at hlength
  obtain ⟨bound, hlaw⟩ := packing_law Nat.one_pos Sender.fromFilePaths_threeChunks
    (by rw [hlength]; decide)
  refine ⟨bound, fun as s has hrun => ?_⟩
  obtain ⟨hbound, -, hgoes, hend, -⟩ := hlaw as s has hrun
  refine ⟨hbound, hgoes, fun hs => ?_⟩
  obtain ⟨⟨hthree, -, -, hfull, hlast⟩, -⟩ := hend (Or.inl hs)
  rw [hlength] at hlast
  obtain ⟨c₁, c₂, c₃, hchunks⟩ := List.length_eq_three.mp hthree
  rw [hchunks] at hfull hlast ⊢
  have hfirst := hfull 0 c₁ rfl (by decide)
  have hsecond := hfull 1 c₂ rfl (by decide)
  have hthird := (hlast c₃ rfl).1
  rw [List.map_cons, List.map_cons, List.map_singleton, hfirst, hsecond, hthird]
  rfl

end FileManager

end Trit
