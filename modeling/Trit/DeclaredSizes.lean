import Trit.PlacedFiles
import Trit.Lib.Slices

/-!
# Declared sizes and delivered chunks

`write_files_from_chunks` on its own, with a request and chunks that need not fit together.  The
whole input is there when it starts.

* `Reassembled`: every file has its declared size, and holds its part of the chunks; `Covered` and
  `Agreeing`: when that can be;
* `Slicing`, `Holding`, `Spent`: the files so far, and the chunk in hand, while the chunks cover
  the declared sizes; `Matching`: both at each program point, and `Matching.move`;
* `drainRank`, `WriteMove.drainRank_lt`: whatever the sizes, the writer comes to its end;
* `checksSizes_iff`: the files that it leaves are right, and the chunks are counted right, under
  exactly one condition on the sizes and the paths.
-/

namespace Trit

open Transition Slices

namespace FileManager

/-! ### Sizes -/

/-- The sum of the declared sizes. -/
def declared (infos : List FileInfo) : ℕ := (infos.map fun info => info.size.toNat).sum

/-- The payloads of chunks, one after the other. -/
def delivered (cs : List Chunk) : Bytes := (cs.map Chunk.data).flatten

/-- The part of the payloads that is for file `i`. -/
def part (r : TransferRequest) (cs : List Chunk) (i : ℕ) (info : FileInfo) : Bytes :=
  ((delivered cs).drop (declared (r.fileInfos.take i))).take info.size.toNat

/-- Every file has its declared size, and holds its part of the payloads. -/
def Reassembled {Place : Type} (r : TransferRequest) (cs : List Chunk) (places : List Place)
    (contents : Place → Bytes) : Prop :=
  ∀ (i : ℕ) (info : FileInfo) (place : Place), r.fileInfos[i]? = some info →
    places[i]? = some place →
    (contents place).length = info.size.toNat ∧ contents place = part r cs i info

/-- Paths that lead to the same file have the same part of the payloads. -/
def Agreeing {Place : Type} (r : TransferRequest) (cs : List Chunk) (places : List Place) : Prop :=
  ∀ (i j : ℕ) (info info' : FileInfo) (place : Place), r.fileInfos[i]? = some info →
    r.fileInfos[j]? = some info' → places[i]? = some place → places[j]? = some place →
    part r cs i info = part r cs j info'

/-- The number of chunks whose bytes are all among the first ones that the files take. -/
def chunksWritten (r : TransferRequest) (cs : List Chunk) : ℕ :=
  within (declared r.fileInfos) (cs.map Chunk.data)

/-- The chunks cover the declared sizes, no empty chunk stands at their end or behind it, and the
chunks can be counted. -/
structure Covered (r : TransferRequest) (cs : List Chunk) : Prop where
  enough : declared r.fileInfos ≤ (delivered cs).length
  noEmpty : ∀ pre post, cs.map Chunk.data = pre ++ [] :: post →
    pre.flatten.length < declared r.fileInfos
  countable : chunksWritten r cs < 2 ^ 32

theorem declared_take_succ {infos : List FileInfo} {i : ℕ} {info : FileInfo}
    (h : infos[i]? = some info) :
    declared (infos.take (i + 1)) = declared (infos.take i) + info.size.toNat := by
  rw [List.take_add_one, h, Option.toList_some, declared, List.map_append, List.sum_append]
  simp [declared]

theorem declared_take_le (infos : List FileInfo) (i : ℕ) :
    declared (infos.take i) ≤ declared infos := by
  conv_rhs => rw [← List.take_append_drop i infos, declared, List.map_append, List.sum_append]
  exact Nat.le_add_right _ _

/-- Parts of the declared sizes need as many bytes. -/
theorem declared_le_of_parts {r : TransferRequest} {cs : List Chunk}
    (h : ∀ i info, r.fileInfos[i]? = some info → (part r cs i info).length = info.size.toNat) :
    declared r.fileInfos ≤ (delivered cs).length := by
  have hle : ∀ i, declared (r.fileInfos.take i) ≤ (delivered cs).length := by
    intro i
    induction i with
    | zero => simp [declared]
    | succ i ih =>
      cases hi : r.fileInfos[i]? with
      | none => rwa [List.take_add_one, hi, Option.toList_none, List.append_nil]
      | some info =>
        have hlen := h i info hi
        rw [part, List.length_take, List.length_drop] at hlen
        rw [declared_take_succ hi]
        omega
  simpa using hle r.fileInfos.length

/-! ### Files and chunks in step -/

section Matching

variable {r : TransferRequest} {cs queue : List Chunk} {counter : UInt32} {fs : FileSystem}
  {path : Bytes} {infos : List FileInfo} {info : FileInfo} {l : WriteLocals} {k n m pos : ℕ}

/-- The first `k` files hold their parts. -/
def Sliced (r : TransferRequest) (cs : List Chunk) (k : ℕ) (fs : FileSystem) : Prop :=
  ∀ i info, i < k → r.fileInfos[i]? = some info →
    fs.files info.relativePath = some (part r cs i info)

/-- Between two files: `pos` bytes have been written, and `infos` are the files to come. -/
def Filed (r : TransferRequest) (cs : List Chunk) (fs : FileSystem) (infos : List FileInfo)
    (pos : ℕ) : Prop :=
  ∃ k, infos = r.fileInfos.drop k ∧ pos = declared (r.fileInfos.take k) ∧ Sliced r cs k fs

/-- Inside a file: it lacks its last `n` bytes. -/
def Slicing (r : TransferRequest) (cs : List Chunk) (fs : FileSystem) (path : Bytes) (n : ℕ)
    (infos : List FileInfo) (pos : ℕ) : Prop :=
  ∃ k info, r.fileInfos[k]? = some info ∧ infos = r.fileInfos.drop (k + 1) ∧
    info.relativePath = path ∧ n ≤ info.size.toNat ∧
    pos + n = declared (r.fileInfos.take (k + 1)) ∧ Sliced r cs k fs ∧
    fs.files path = some
      (((delivered cs).drop (declared (r.fileInfos.take k))).take (info.size.toNat - n))

/-- The chunk in hand, once all chunks before it have been counted: `pos` is in it, or there is
none left. -/
inductive InHand (r : TransferRequest) (cs queue : List Chunk) (counter : UInt32)
    (l : WriteLocals) (pos : ℕ) : Prop
  | holding (front : List Chunk) (hsplit : cs = front ++ l.chunk :: queue)
      (hbegun : Begun (declared r.fileInfos) (front.map Chunk.data))
      (hcounter : counter = .ofNat front.length)
      (hpos : (delivered front).length + l.chunkOffset = pos)
      (hsize : l.chunkOffset + l.remainingChunkData = l.chunk.data.length)
      (hunspent : 0 < l.remainingChunkData ∨ l.chunk.data = [])
  | exhausted (hbegun : Begun (declared r.fileInfos) (cs.map Chunk.data))
      (hcounter : counter = .ofNat cs.length)
      (hall : (delivered cs).length = declared r.fileInfos)
      (hpos : pos = declared r.fileInfos)

/-- All chunks that have been popped are exhausted, and counted. -/
def Spent (r : TransferRequest) (cs queue : List Chunk) (counter : UInt32) (pos : ℕ) : Prop :=
  ∃ front, cs = front ++ queue ∧ Begun (declared r.fileInfos) (front.map Chunk.data) ∧
    counter = .ofNat front.length ∧ (delivered front).length = pos

/-- Where the writer is, when the chunks cover the declared sizes. -/
def Matching (r : TransferRequest) (cs queue : List Chunk) (counter : UInt32)
    (fs : FileSystem) : Thread WritePc → Prop
  | .running .firstPop => Spent r cs queue counter 0
  | .running (.openFile l info infos) =>
      ∃ pos, Filed r cs fs (info :: infos) pos ∧ InHand r cs queue counter l pos
  | .running (.abortCheck l path n infos) | .running (.write l path n infos) =>
      0 < n ∧ ∃ pos, Slicing r cs fs path n infos pos ∧ InHand r cs queue counter l pos
  | .running (.increment _ path n infos) =>
      ∃ pos, Slicing r cs fs path n infos pos ∧ Spent r cs queue (counter + 1) pos
  | .running (.inputDone _ path n infos) | .running (.inputEmpty _ path n infos)
  | .running (.pop path n infos) =>
      ∃ pos, Slicing r cs fs path n infos pos ∧ Spent r cs queue counter pos
  | .returned => ∃ l, Filed r cs fs [] (declared r.fileInfos) ∧
      InHand r cs queue counter l (declared r.fileInfos)
  | .caught _ => True
  | .flagged _ => False

theorem Slicing.close (h : Slicing r cs fs path 0 infos pos) : Filed r cs fs infos pos := by
  obtain ⟨k, info, hk, hinfos, rfl, -, hpos, hsliced, hfile⟩ := h
  refine ⟨k + 1, hinfos, by simpa using hpos, fun i info' hi hinfo' => ?_⟩
  by_cases hlt : i < k
  · exact hsliced i info' hlt hinfo'
  · obtain rfl : i = k := by omega
    obtain rfl := Option.some.inj (hk.symm.trans hinfo')
    exact hfile

theorem Slicing.le (h : Slicing r cs fs path n infos pos) : pos + n ≤ declared r.fileInfos := by
  obtain ⟨k, info, -, -, -, -, hpos, -⟩ := h
  exact hpos ▸ declared_take_le _ _

theorem relativePath_ne (hpaths : (r.fileInfos.map FileInfo.relativePath).Nodup) {i : ℕ}
    {info' : FileInfo} (hi : r.fileInfos[i]? = some info') (hk : r.fileInfos[k]? = some info)
    (hne : i ≠ k) : info'.relativePath ≠ info.relativePath := by
  intro heq
  have hlt := (List.getElem?_eq_some_iff.mp hi).1
  have hget : (r.fileInfos.map FileInfo.relativePath)[i]? =
      (r.fileInfos.map FileInfo.relativePath)[k]? := by
    rw [List.getElem?_map, List.getElem?_map, hi, hk, Option.map_some, Option.map_some, heq]
  exact hne ((List.getElem?_inj (by rwa [List.length_map]) hpaths).mp hget)

theorem Filed.openFile (hpaths : (r.fileInfos.map FileInfo.relativePath).Nodup)
    (h : Filed r cs fs (info :: infos) pos) :
    Slicing r cs ((fs.createParent info.relativePath).truncate info.relativePath)
      info.relativePath info.size.toNat infos pos := by
  obtain ⟨k, hinfos, rfl, hsliced⟩ := h
  have hk : r.fileInfos[k]? = some info := by
    rw [← List.head?_drop, ← hinfos, List.head?_cons]
  have hrest : infos = r.fileInfos.drop (k + 1) := by
    rw [← List.tail_drop, ← hinfos, List.tail_cons]
  refine ⟨k, info, hk, hrest, rfl, le_refl _, (declared_take_succ hk).symm,
    fun i info' hi hinfo' => ?_, ?_⟩
  · have hne := relativePath_ne hpaths hinfo' hk (by omega)
    simp only [FileSystem.truncate, FileSystem.createParent_files, Function.update_of_ne hne]
    exact hsliced i info' hi hinfo'
  · simp [FileSystem.truncate]

theorem Slicing.append (hpaths : (r.fileInfos.map FileInfo.relativePath).Nodup) (hm : m ≤ n)
    (h : Slicing r cs fs path n infos pos) :
    Slicing r cs (fs.append path (((delivered cs).drop pos).take m)) path (n - m) infos
      (pos + m) := by
  obtain ⟨k, info, hk, hinfos, rfl, hn, hpos, hsliced, hfile⟩ := h
  have hstart : pos = declared (r.fileInfos.take k) + (info.size.toNat - n) := by
    rw [declared_take_succ hk] at hpos
    omega
  have hnext : info.size.toNat - (n - m) = info.size.toNat - n + m := by omega
  refine ⟨k, info, hk, hinfos, rfl, by omega, by omega, fun i info' hi hinfo' => ?_, ?_⟩
  · have hne := relativePath_ne hpaths hinfo' hk (by omega)
    simp only [FileSystem.append, Function.update_of_ne hne]
    exact hsliced i info' hi hinfo'
  · simp only [FileSystem.append, Function.update_self, hfile, Option.getD_some]
    rw [hnext, List.take_add, hstart, List.drop_drop]

theorem bytesToWrite_eq {front : List Chunk} (hsplit : cs = front ++ l.chunk :: queue)
    (hpos : (delivered front).length + l.chunkOffset = pos)
    (hsize : l.chunkOffset + l.remainingChunkData = l.chunk.data.length) (n : ℕ) :
    bytesToWrite l n = ((delivered cs).drop pos).take (min n l.remainingChunkData) := by
  have hbytes : delivered cs = delivered front ++ (l.chunk.data ++ delivered queue) := by
    simp [hsplit, delivered]
  have hlen : min n l.remainingChunkData ≤ (l.chunk.data.drop l.chunkOffset).length := by
    rw [List.length_drop]
    omega
  rw [hbytes, ← hpos, List.drop_append, List.drop_of_length_le (by omega),
    Nat.add_sub_cancel_left, List.nil_append, List.drop_append_of_le_length (by omega),
    List.take_append_of_le_length hlen, bytesToWrite]

theorem matching_forLoop (hfiled : Filed r cs fs infos pos)
    (hhand : InHand r cs queue counter l pos) :
    Matching r cs queue counter fs (forLoop l infos) := by
  cases infos with
  | nil =>
    obtain ⟨k, hinfos, rfl, hsliced⟩ := hfiled
    have hall : r.fileInfos.take k = r.fileInfos :=
      List.take_of_length_le (List.drop_eq_nil_iff.mp hinfos.symm)
    rw [hall] at hhand
    exact ⟨l, ⟨k, hinfos, by rw [hall], hsliced⟩, hhand⟩
  | cons info infos => exact ⟨pos, hfiled, hhand⟩

theorem matching_whileLoop (hslicing : Slicing r cs fs path n infos pos)
    (hhand : InHand r cs queue counter l pos) :
    Matching r cs queue counter fs (whileLoop l path n infos) := by
  unfold whileLoop
  split_ifs with hn
  · exact ⟨hn, pos, hslicing, hhand⟩
  · obtain rfl : n = 0 := by omega
    exact matching_forLoop hslicing.close hhand

theorem Spent.pop {c : Chunk} (hsize : c.data.length ≤ uint16Max)
    (h : Spent r cs (c :: queue) counter pos) : InHand r cs queue counter (.ofChunk c) pos := by
  obtain ⟨front, hsplit, hbegun, hcounter, hpos⟩ := h
  have hlen : c.size.toNat = c.data.length := Chunk.size_toNat_of_le hsize
  refine .holding front hsplit hbegun hcounter hpos ?_ ?_
  · show 0 + c.size.toNat = c.data.length
    omega
  · show 0 < c.size.toNat ∨ c.data = []
    rw [hlen]
    exact (Nat.eq_zero_or_pos _).symm.imp_right List.eq_nil_of_length_eq_zero

theorem Matching.wrote (hpaths : (r.fileInfos.map FileInfo.relativePath).Nodup)
    (hi : Matching r cs queue counter fs (.running (.write l path n infos))) :
    Matching r cs queue counter (fs.append path (bytesToWrite l n))
      (afterWrite l path n infos) := by
  obtain ⟨hn, pos, hslicing, hhand⟩ := hi
  have hle := hslicing.le
  cases hhand with
  | exhausted hbegun hcounter hall hpos => omega
  | holding front hsplit hbegun hcounter hpos hsize hunspent =>
    have hslicing' := hslicing.append hpaths (Nat.min_le_left n l.remainingChunkData)
    rw [← bytesToWrite_eq hsplit hpos hsize n] at hslicing'
    unfold afterWrite
    dsimp only
    split_ifs with hzero
    · -- the chunk is exhausted, and began before the end of the declared sizes
      have hdata : (delivered (front ++ [l.chunk])).length =
          (delivered front).length + l.chunk.data.length := by
        simp [delivered]
      refine ⟨_, hslicing', front ++ [l.chunk], by simp [hsplit], ?_, ?_, ?_⟩
      · rw [List.map_append]
        exact hbegun.concat (by show (delivered front).length < _; omega) _
      · rw [hcounter, List.length_append, List.length_singleton, UInt32.ofNat_add]
        rfl
      · omega
    · refine matching_whileLoop hslicing' (.holding front hsplit hbegun hcounter ?_ ?_ ?_)
      · show _ + (l.chunkOffset + min n l.remainingChunkData) = _
        omega
      · show l.chunkOffset + min n l.remainingChunkData +
          (l.remainingChunkData - min n l.remainingChunkData) = l.chunk.data.length
        omega
      · exact Or.inl (Nat.pos_of_ne_zero hzero)

theorem Matching.move {capacity : ℕ} {v v' : View capacity FileSystem} {pc : WritePc}
    {t : Thread WritePc} {f : Option Fault}
    (hpaths : (r.fileInfos.map FileInfo.relativePath).Nodup)
    (hsizes : ∀ c ∈ v.input.queue.queue, c.data.length ≤ uint16Max)
    (henough : declared r.fileInfos ≤ (delivered cs).length)
    (h : WriteMove r false f v pc t v')
    (hi : Matching r cs v.input.queue.queue v.counter v.world (.running pc)) :
    Matching r cs v'.input.queue.queue v'.counter v'.world t := by
  cases h with
  | firstPopped c q hpc hq =>
    subst hpc
    have hqueue := (BoundedThreadSafeQueue.pop_eq_some.mp hq).1
    change Spent r cs v.input.queue.queue v.counter 0 at hi
    rw [hqueue] at hi hsizes
    refine matching_forLoop ⟨0, rfl, rfl, fun i info hlt => by omega⟩
      (hi.pop (hsizes c List.mem_cons_self))
  | opened l info infos hpc =>
    subst hpc
    obtain ⟨pos, hfiled, hhand⟩ := hi
    exact matching_whileLoop (hfiled.openFile hpaths) hhand
  | abort l path n infos hpc ha => cases ha
  | goOn l path n infos hpc ha =>
    subst hpc
    exact hi
  | wrote l path n infos hpc =>
    subst hpc
    exact Matching.wrote hpaths hi
  | counted l path n infos hpc =>
    subst hpc
    exact hi
  | doneSeen l path n infos hpc hd =>
    subst hpc
    exact hi
  | notDone l path n infos hpc hd =>
    subst hpc
    exact hi
  | drained l path n infos hpc hq =>
    subst hpc
    obtain ⟨pos, hslicing, front, hsplit, hbegun, hcounter, hpos⟩ := hi
    rw [hq, List.append_nil] at hsplit
    subst hsplit
    -- all chunks have been written, and with them all that is declared
    have hle := hslicing.le
    obtain rfl : n = 0 := by omega
    exact matching_forLoop hslicing.close
      (.exhausted hbegun hcounter (by omega) (by omega))
  | more l path n infos hpc hq =>
    subst hpc
    exact hi
  | popped path n infos c q hpc hq =>
    subst hpc
    have hqueue := (BoundedThreadSafeQueue.pop_eq_some.mp hq).1
    obtain ⟨pos, hslicing, hspent⟩ := hi
    rw [hqueue] at hspent hsizes
    exact matching_whileLoop hslicing (hspent.pop (hsizes c List.mem_cons_self))
  | openFault | writeFault => trivial

theorem Filed.files_eq (h : Filed r cs fs [] pos) {i : ℕ} (hi : r.fileInfos[i]? = some info) :
    fs.files info.relativePath = some (part r cs i info) := by
  obtain ⟨k, hinfos, -, hsliced⟩ := h
  have hlt := (List.getElem?_eq_some_iff.mp hi).1
  have hk : r.fileInfos.length ≤ k := List.drop_eq_nil_iff.mp hinfos.symm
  exact hsliced i info (by omega) hi

theorem length_part (henough : declared r.fileInfos ≤ (delivered cs).length) {i : ℕ}
    (hi : r.fileInfos[i]? = some info) : (part r cs i info).length = info.size.toNat := by
  have hle := (declared_take_le r.fileInfos (i + 1)).trans henough
  rw [declared_take_succ hi] at hle
  rw [part, List.length_take, List.length_drop]
  omega

/-- At the end the counter is right under two conditions. -/
theorem InHand.counter_eq_iff (h : InHand r cs queue counter l (declared r.fileInfos)) :
    counter.toNat = chunksWritten r cs ↔
      (∀ pre post, cs.map Chunk.data = pre ++ [] :: post →
        pre.flatten.length < declared r.fileInfos) ∧ chunksWritten r cs < 2 ^ 32 := by
  cases h with
  | holding front hsplit hbegun hcounter hpos hsize hunspent =>
    have hblocks : cs.map Chunk.data =
        front.map Chunk.data ++ l.chunk.data :: queue.map Chunk.data := by
      simp [hsplit]
    have hwithin : chunksWritten r cs =
        front.length + within 0 (l.chunk.data :: queue.map Chunk.data) := by
      rw [chunksWritten, hblocks, within_of_position hpos (by omega)
        (hunspent.imp_left fun hlt => by omega), List.length_map]
    rw [hblocks, forall_lt_iff hpos (by omega) hbegun, ← within_zero_eq_zero_iff, hwithin,
      hcounter, UInt32.toNat_ofNat']
    omega
  | exhausted hbegun hcounter hall hpos =>
    have hwithin : chunksWritten r cs = cs.length := by
      rw [chunksWritten, within_of_le (le_of_eq hall), List.length_map]
    rw [hwithin, hcounter, UInt32.toNat_ofNat']
    constructor
    · intro h
      exact ⟨fun pre post hsplit => hbegun pre [] post hsplit, by omega⟩
    · rintro ⟨-, hlt⟩
      exact Nat.mod_eq_of_lt hlt

end Matching

/-! ### The end of the writer -/

section Drain

/-- The work left for the files to come. -/
def drainWork (infos : List FileInfo) : ℕ :=
  (infos.map fun info => 10 * info.size.toNat + 20).sum

/-- The work that an exhausted chunk adds. -/
def exhaustedWork (l : WriteLocals) : ℕ := if l.remainingChunkData = 0 then 6 else 0

/-- The work left for a writer whose whole input is queued, apart from the queue. -/
def drainRank (r : TransferRequest) : Thread WritePc → ℕ
  | .running .firstPop => drainWork r.fileInfos + 1
  | .running (.openFile _ info infos) => drainWork (info :: infos)
  | .running (.increment _ _ n infos) => 10 * n + 8 + drainWork infos
  | .running (.inputDone _ _ n infos) => 10 * n + 7 + drainWork infos
  | .running (.inputEmpty _ _ n infos) => 10 * n + 6 + drainWork infos
  | .running (.pop _ n infos) => 10 * n + 5 + drainWork infos
  | .running (.abortCheck l _ n infos) => 10 * n + 4 + exhaustedWork l + drainWork infos
  | .running (.write l _ n infos) => 10 * n + 3 + exhaustedWork l + drainWork infos
  | .caught _ | .flagged _ | .returned => 0

theorem exhaustedWork_le (l : WriteLocals) : exhaustedWork l ≤ 6 := by
  unfold exhaustedWork
  split_ifs <;> omega

theorem drainRank_forLoop_le (r : TransferRequest) (l : WriteLocals) (infos : List FileInfo) :
    drainRank r (forLoop l infos) ≤ drainWork infos := by
  cases infos with
  | nil => exact le_refl _
  | cons info infos => exact le_refl _

theorem drainRank_whileLoop_le (r : TransferRequest) (l : WriteLocals) (path : Bytes) (n : ℕ)
    (infos : List FileInfo) :
    drainRank r (whileLoop l path n infos) ≤ 10 * n + 4 + exhaustedWork l + drainWork infos := by
  unfold whileLoop
  split_ifs
  · exact le_refl _
  · have hle := drainRank_forLoop_le r l infos
    omega

/-- The writer pops only where there is a chunk. -/
def Supplied (queue : List Chunk) : Thread WritePc → Prop
  | .running .firstPop | .running (.pop _ _ _) => queue ≠ []
  | .running _ | .returned => True
  | .caught _ | .flagged _ => False

theorem supplied_forLoop (queue : List Chunk) (l : WriteLocals) (infos : List FileInfo) :
    Supplied queue (forLoop l infos) := by
  cases infos <;> trivial

theorem supplied_whileLoop (queue : List Chunk) (l : WriteLocals) (path : Bytes) (n : ℕ)
    (infos : List FileInfo) : Supplied queue (whileLoop l path n infos) := by
  unfold whileLoop
  split_ifs
  · trivial
  · exact supplied_forLoop queue l infos

variable {capacity : ℕ} {r : TransferRequest} {v v' : View capacity FileSystem} {pc : WritePc}
  {t : Thread WritePc}

theorem Supplied.of_blocking {queue : List Chunk} (h : Supplied queue (.running pc))
    (hpc : pc.blocking = true) : queue ≠ [] := by
  cases pc with
  | firstPop | pop _ _ _ => exact h
  | _ => cases hpc

/-- Where the input is marked as done, the writer looks for a chunk before it pops. -/
theorem WriteMove.supplied (h : WriteMove r false none v pc t v') (hdone : v.input.done = true) :
    v'.input.done = true ∧ Supplied v'.input.queue.queue t := by
  cases h with
  | firstPopped c q hpc hq => exact ⟨hdone, supplied_forLoop _ _ _⟩
  | opened l info infos hpc => exact ⟨hdone, supplied_whileLoop _ _ _ _ _⟩
  | abort l path n infos hpc ha => cases ha
  | wrote l path n infos hpc =>
    refine ⟨hdone, ?_⟩
    unfold afterWrite
    dsimp only
    split_ifs
    · trivial
    · exact supplied_whileLoop _ _ _ _ _
  | notDone l path n infos hpc hd => cases hd.symm.trans hdone
  | drained l path n infos hpc hq => exact ⟨hdone, supplied_forLoop _ _ _⟩
  | more l path n infos hpc hq => exact ⟨hdone, hq⟩
  | popped path n infos c q hpc hq => exact ⟨hdone, supplied_whileLoop _ _ _ _ _⟩
  | goOn | counted | doneSeen => exact ⟨hdone, trivial⟩
  | openFault _ _ _ _ _ hf | writeFault _ _ _ _ _ _ hf => cases hf

/-- A write ends the chunk in hand or the file, and an exhausted chunk has its own work. -/
theorem drainRank_afterWrite_lt (r : TransferRequest) (l : WriteLocals) (path : Bytes) (n : ℕ)
    (infos : List FileInfo) :
    drainRank r (afterWrite l path n infos) <
      10 * n + 3 + exhaustedWork l + drainWork infos := by
  unfold afterWrite
  dsimp only
  split_ifs with hzero
  · show 10 * (n - min n l.remainingChunkData) + 8 + drainWork infos < _
    unfold exhaustedWork
    split_ifs <;> omega
  · -- the chunk outlasts the file
    have hn : n - min n l.remainingChunkData = 0 := by omega
    have hle := drainRank_forLoop_le r ⟨l.chunk, l.remainingChunkData -
      min n l.remainingChunkData, l.chunkOffset + min n l.remainingChunkData⟩ infos
    rw [hn, whileLoop, if_neg (lt_irrefl 0)]
    omega

/-- With every operation there is less to do. -/
theorem WriteMove.drainRank_lt (h : WriteMove r false none v pc t v') :
    drainRank r t + 10 * v'.input.queue.queue.length <
      drainRank r (.running pc) + 10 * v.input.queue.queue.length := by
  cases h with
  | firstPopped c q hpc hq =>
    subst hpc
    have hle := drainRank_forLoop_le r (.ofChunk c) r.fileInfos
    have hqlen := BoundedThreadSafeQueue.length_of_pop hq
    show _ + 10 * q.queue.length < drainWork r.fileInfos + 1 + _
    omega
  | opened l info infos hpc =>
    subst hpc
    refine Nat.add_lt_add_right ?_ _
    have hle := drainRank_whileLoop_le r l info.relativePath info.size.toNat infos
    have hwork : drainWork (info :: infos) = 10 * info.size.toNat + 20 + drainWork infos := rfl
    have hexhausted := exhaustedWork_le l
    show drainRank r (whileLoop l info.relativePath info.size.toNat infos) < drainWork _
    omega
  | abort l path n infos hpc ha => cases ha
  | wrote l path n infos hpc =>
    subst hpc
    exact Nat.add_lt_add_right (drainRank_afterWrite_lt r l path n infos) _
  | goOn l path n infos hpc | counted l path n infos hpc | doneSeen l path n infos hpc
  | notDone l path n infos hpc | more l path n infos hpc =>
    subst hpc
    refine Nat.add_lt_add_right ?_ _
    simp [drainRank]
  | drained l path n infos hpc =>
    subst hpc
    refine Nat.add_lt_add_right ?_ _
    have hle := drainRank_forLoop_le r l infos
    show _ < 10 * n + 6 + drainWork infos
    omega
  | popped path n infos c q hpc hq =>
    subst hpc
    have hle := drainRank_whileLoop_le r (.ofChunk c) path n infos
    have hqlen := BoundedThreadSafeQueue.length_of_pop hq
    have hexhausted := exhaustedWork_le (.ofChunk c)
    show _ + 10 * q.queue.length < 10 * n + 5 + drainWork infos + _
    omega
  | openFault _ _ _ _ _ hf | writeFault _ _ _ _ _ _ hf => cases hf

end Drain

/-! ### Every run -/

section Following

variable {capacity : ℕ} {r : TransferRequest} {cs : List Chunk} {start : FileSystem}
  {s t : Solo capacity FileSystem WritePc}

/-- The writer takes a step, which may fail. -/
def WriterSteps (_ : Solo capacity FileSystem WritePc) (a : Solo.Event) : Prop := ∃ f, a = .step f

/-- What holds in every run of the writer, as long as nothing has failed. -/
structure Following (r : TransferRequest) (cs : List Chunk)
    (s : Solo capacity FileSystem WritePc) : Prop where
  sizes : ∀ c ∈ s.view.input.queue.queue, c.data.length ≤ uint16Max
  matching : s.ctx.shouldAbort = false →
    Matching r cs s.view.input.queue.queue s.view.counter s.view.world s.thread

theorem Following.step {a : Solo.Event} (hpaths : (r.fileInfos.map FileInfo.relativePath).Nodup)
    (henough : declared r.fileInfos ≤ (delivered cs).length) (hi : Following r cs s)
    (ha : WriterSteps s a) (h : s.step (writeFilesFromChunks r) a = some t) :
    Following r cs t := by
  obtain ⟨f, rfl⟩ := ha
  rcases Solo.step_cases h with ⟨pc, th, v, hpc, hrun, rfl⟩ | ⟨e, he, -, rfl⟩ | ⟨e, he, -, rfl⟩
  · have hmove := writeMove_of_run hrun
    constructor
    · have hsuffix : v.input.queue.queue <:+ s.view.input.queue.queue := by
        cases hmove with
        | firstPopped c q _ hq | popped _ _ _ c q _ hq =>
          exact ⟨[c], (BoundedThreadSafeQueue.pop_eq_some.mp hq).1.symm⟩
        | _ => exact List.suffix_rfl
      exact fun c hc => hi.sizes c (hsuffix.subset hc)
    · intro habort
      have habort' : s.ctx.shouldAbort = false := habort
      have hmatching := hi.matching habort'
      rw [hpc] at hmatching
      rw [habort'] at hmove
      exact Matching.move hpaths hi.sizes henough hmove hmatching
  · exact ⟨hi.sizes, fun habort => by cases habort⟩
  · refine ⟨hi.sizes, fun habort => ?_⟩
    have hmatching := hi.matching habort
    rw [he] at hmatching
    exact hmatching.elim

theorem Following.of_reach (hpaths : (r.fileInfos.map FileInfo.relativePath).Nodup)
    (henough : declared r.fileInfos ≤ (delivered cs).length)
    (hsizes : ∀ c ∈ cs, c.data.length ≤ uint16Max) {hcap : cs.length ≤ capacity}
    (h : Reach (Solo.step (writeFilesFromChunks r)) WriterSteps
      (Solo.fed .firstPop start cs hcap) s) : Following r cs s := by
  refine h.invariant (fun _ _ _ hi ha hs => hi.step hpaths henough ha hs) ⟨hsizes, fun _ => ?_⟩
  exact ⟨[], rfl, begun_nil _, rfl, rfl⟩

end Following

section Runs

variable {capacity : ℕ} {N Place : Type} [DecidableEq Place] {nm : Naming N Place}
  {r : TransferRequest} {cs : List Chunk} {names : N} {contents : Place → Bytes}
  {s t : PlacedWriter capacity N Place} {hcap : cs.length ≤ capacity}

/-- All files of a request can be opened, one after the other. -/
def AllOpen (nm : Naming N Place) (r : TransferRequest) (names : N) : Prop :=
  ∃ places names', nm.openAll names r.fileInfos = .ok (places, names')

theorem reach_writer
    (h : Reach (PlacedWriter.step nm r) any (PlacedWriter.start names contents cs hcap) s) :
    Reach (Solo.step (writeFilesFromChunks r)) WriterSteps
      (Solo.fed .firstPop ⟨fun _ => none, []⟩ cs hcap) s.writer := by
  obtain ⟨w, hw, rfl⟩ := h.simulate (f := Solo.step (writeFilesFromChunks r)) (Q := WriterSteps)
    (R := fun s w => s.writer = w) (fun s f t w hsw _ hs => by
      subst hsw
      obtain ⟨f', hf'⟩ := PlacedWriter.writer_of_step hs
      exact ⟨.step f', t.writer, ⟨f', rfl⟩, hf', rfl⟩) rfl
  exact hw

/-- Where the writer is when nothing fails but the opening of a file. -/
def Settling (nm : Naming N Place) (r : TransferRequest) (names : N)
    (w : Solo capacity FileSystem WritePc) : Prop :=
  match w.thread with
  | .running pc => w.ctx.shouldAbort = false ∧ Supplied w.view.input.queue.queue (.running pc)
  | .caught _ => ¬ AllOpen nm r names
  | .flagged _ => w.ctx.shouldAbort = true ∧ ¬ AllOpen nm r names
  | .returned => w.ctx.shouldAbort = false ↔ AllOpen nm r names

/-- The statements of the handler that are left. -/
def handlerRank : Thread WritePc → ℕ
  | .running _ => 3
  | .caught _ => 2
  | .flagged _ => 1
  | .returned => 0

theorem handlerRank_le (t : Thread WritePc) : handlerRank t ≤ 3 := by
  cases t <;> simp [handlerRank]

/-- The work left for the writer and its queue. -/
def settleRank (r : TransferRequest) (w : Solo capacity FileSystem WritePc) : ℕ :=
  drainRank r w.thread + 10 * w.view.input.queue.queue.length + handlerRank w.thread

/-- An operation of the writer goes on, or leads to the end. -/
theorem Settling.of_tracked (htracked : PlacedWriter.Tracked nm r names contents t)
    (habort : t.writer.ctx.shouldAbort = false)
    (hsupplied : Supplied t.writer.view.input.queue.queue t.writer.thread) :
    Settling nm r names t.writer := by
  unfold Settling
  split
  case h_1 pc hpc => exact ⟨habort, hpc ▸ hsupplied⟩
  case h_2 e he =>
    rw [he] at hsupplied
    exact hsupplied.elim
  case h_3 e he =>
    rw [he] at hsupplied
    exact hsupplied.elim
  case h_4 hreturned =>
    refine iff_of_true habort ?_
    rcases htracked habort with ⟨e, he⟩ | ⟨opened, htracks⟩
    · cases hreturned.symm.trans he
    · exact ⟨_, _, htracks.openAll_eq hreturned⟩

/-- A file that cannot be opened leaves the request incomplete. -/
theorem not_allOpen_of_error {l : WriteLocals} {info : FileInfo} {infos : List FileInfo}
    {e : Exception} (htracked : PlacedWriter.Tracked nm r names contents s)
    (habort : s.writer.ctx.shouldAbort = false)
    (hthread : s.writer.thread = .running (.openFile l info infos))
    (hfile : nm.openFile s.names info.relativePath = .error e) : ¬ AllOpen nm r names := by
  rintro ⟨places, names', hall⟩
  rcases htracked habort with ⟨e', he'⟩ | ⟨opened, htracks⟩
  · cases hthread.symm.trans he'
  · have hfiles := htracks.files
    rw [hthread] at hfiles
    change _ ++ info :: infos = _ at hfiles
    rw [← hfiles] at hall
    exact Naming.not_openAll_of_error htracks.places hfile infos _ hall

/-- One more step in which nothing fails but the opening of a file. -/
theorem Settling.exists_step (hpaths : (r.fileInfos.map FileInfo.relativePath).Nodup)
    (hdone : s.writer.view.input.done = true)
    (htracked : PlacedWriter.Tracked nm r names contents s) (h : Settling nm r names s.writer)
    (hrunning : s.writer.thread ≠ .returned) :
    ∃ t, s.step nm r none = some t ∧ t.writer.view.input.done = true ∧
      Settling nm r names t.writer ∧ settleRank r t.writer < settleRank r s.writer := by
  unfold Settling at h
  split at h
  case h_1 pc hpc =>
    obtain ⟨habort, hsupplied⟩ := h
    obtain ⟨th, v, hrun⟩ := exists_run r s.writer.ctx.shouldAbort hsupplied.of_blocking
    have hmove := writeMove_of_run hrun
    rw [habort] at hmove
    rcases PlacedWriter.exists_step_of_run nm hpc hrun with ⟨t, ht, htw⟩ |
      ⟨l, info, infos, e, t, rfl, hfile, ht, htw⟩
    · obtain ⟨hdone', hsupplied'⟩ := hmove.supplied hdone
      refine ⟨t, ht, by rw [htw]; exact hdone', ?_, ?_⟩
      · refine Settling.of_tracked (htracked.step hpaths ht) ?_ ?_
        · rw [htw]
          exact habort
        · rw [htw]
          exact hsupplied'
      · rw [settleRank, settleRank, htw, hpc]
        exact Nat.add_lt_add_of_lt_of_le hmove.drainRank_lt (handlerRank_le th)
    · refine ⟨t, ht, by rw [htw]; exact hdone, ?_, ?_⟩
      · rw [htw]
        exact not_allOpen_of_error htracked habort hpc hfile
      · rw [settleRank, settleRank, htw, hpc]
        exact Nat.add_lt_add_of_le_of_lt (Nat.add_le_add_right (Nat.zero_le _) _)
          (Nat.lt_succ_self 2)
  case h_2 e he =>
    refine ⟨{ s with writer := ⟨.flagged e, s.writer.ctx.raise, s.writer.view⟩ }, ?_, hdone,
      ⟨rfl, h⟩, ?_⟩
    · simp [PlacedWriter.step, Solo.step, Thread.step, he]
    · rw [settleRank, settleRank, he]
      exact Nat.lt_succ_self _
  case h_3 e he =>
    obtain ⟨habort, hnot⟩ := h
    refine ⟨{ s with writer := ⟨.returned, s.writer.ctx.store e, s.writer.view⟩ }, ?_, hdone,
      iff_of_false (fun hclear => ?_) hnot, ?_⟩
    · simp [PlacedWriter.step, Solo.step, Thread.step, he]
    · cases habort.symm.trans hclear
    · rw [settleRank, settleRank, he]
      exact Nat.lt_succ_self _
  case h_4 hreturned => exact absurd hreturned hrunning

/-- When nothing fails but the opening of a file, the writer returns, with the abort flag clear
exactly if all files can be opened. -/
theorem canReach_returned (nm : Naming N Place) (names : N) (contents : Place → Bytes)
    (hcap : cs.length ≤ capacity) (hpaths : (r.fileInfos.map FileInfo.relativePath).Nodup)
    (hne : cs ≠ []) :
    CanReach (PlacedWriter.step nm r) (fun _ f => f = none)
      (fun s => s.writer.thread = .returned ∧
        (s.writer.ctx.shouldAbort = false ↔ AllOpen nm r names))
      (PlacedWriter.start names contents cs hcap) := by
  refine CanReach.of_measure (I := fun s => s.writer.view.input.done = true ∧
    PlacedWriter.Tracked nm r names contents s ∧ Settling nm r names s.writer)
    (fun s => settleRank r s.writer) ?_
    ⟨rfl, PlacedWriter.tracked_of_reach hpaths .refl, rfl, hne⟩
  rintro s ⟨hdone, htracked, hsettling⟩ hG
  have hrunning : s.writer.thread ≠ .returned := by
    intro hreturned
    unfold Settling at hsettling
    rw [hreturned] at hsettling
    exact hG ⟨hreturned, hsettling⟩
  obtain ⟨t, ht, hdone', hsettling', hlt⟩ :=
    hsettling.exists_step hpaths hdone htracked hrunning
  exact ⟨none, t, rfl, ht, ⟨hdone', htracked.step hpaths ht, hsettling'⟩, hlt⟩

/-- Every writer that returns without an exception has made the files of their declared sizes, and
has counted the chunks that are in them. -/
def ChecksSizes (nm : Naming N Place) (r : TransferRequest) (cs : List Chunk) (names : N)
    (contents : Place → Bytes) (hcap : cs.length ≤ capacity) : Prop :=
  ∀ s, Reach (PlacedWriter.step nm r) any (PlacedWriter.start names contents cs hcap) s →
    s.writer.thread = .returned → s.writer.ctx.shouldAbort = false →
    ∃ places names', nm.openAll names r.fileInfos = .ok (places, names') ∧
      Reassembled r cs places s.contents ∧ s.writer.view.counter.toNat = chunksWritten r cs

omit [DecidableEq Place] in
theorem Reassembled.enough {places : List Place} (h : Reassembled r cs places contents)
    (hlength : places.length = r.fileInfos.length) :
    declared r.fileInfos ≤ (delivered cs).length := by
  refine declared_le_of_parts fun i info hinfo => ?_
  have hlt := (List.getElem?_eq_some_iff.mp hinfo).1
  obtain ⟨hlen, hpart⟩ :=
    h i info _ hinfo (List.getElem?_eq_getElem (by rwa [hlength] : i < places.length))
  rw [← hpart, hlen]

/-- If all files can be opened, some run comes to the end. -/
theorem ChecksSizes.exists_reassembled (h : ChecksSizes nm r cs names contents hcap)
    (hpaths : (r.fileInfos.map FileInfo.relativePath).Nodup) (hne : cs ≠ [])
    {places : List Place} {names' : N}
    (hopen : nm.openAll names r.fileInfos = .ok (places, names')) :
    ∃ s, Reach (PlacedWriter.step nm r) any (PlacedWriter.start names contents cs hcap) s ∧
      s.writer.thread = .returned ∧ s.writer.ctx.shouldAbort = false ∧
      Reassembled r cs places s.contents ∧ s.writer.view.counter.toNat = chunksWritten r cs := by
  obtain ⟨s, hs, hreturned, habort⟩ := canReach_returned nm names contents hcap hpaths hne
  have hs' := hs.mono fun _ _ _ => trivial
  have habort' := habort.mpr ⟨places, names', hopen⟩
  obtain ⟨places', names'', hopen', hfiles, hcounter⟩ := h s hs' hreturned habort'
  obtain ⟨rfl, rfl⟩ := Prod.mk.inj (Except.ok.inj (hopen'.symm.trans hopen))
  exact ⟨s, hs', hreturned, habort', hfiles, hcounter⟩

/-- A writer that has returned without an exception: its files, if the chunks suffice. -/
theorem exists_part_eq (hpaths : (r.fileInfos.map FileInfo.relativePath).Nodup)
    (henough : declared r.fileInfos ≤ (delivered cs).length)
    (hsizes : ∀ c ∈ cs, c.data.length ≤ uint16Max)
    (hs : Reach (PlacedWriter.step nm r) any (PlacedWriter.start names contents cs hcap) s)
    (hreturned : s.writer.thread = .returned) (habort : s.writer.ctx.shouldAbort = false) :
    ∃ places names' l, nm.openAll names r.fileInfos = .ok (places, names') ∧
      (∀ (i : ℕ) (place : Place), places[i]? = some place → ∃ (j : ℕ) (info : FileInfo),
        r.fileInfos[j]? = some info ∧ places[j]? = some place ∧
        s.contents place = part r cs j info) ∧
      InHand r cs s.writer.view.input.queue.queue s.writer.view.counter l
        (declared r.fileInfos) := by
  have hmatching := (Following.of_reach hpaths henough hsizes (reach_writer hs)).matching habort
  rw [hreturned] at hmatching
  obtain ⟨l, hfiled, hhand⟩ := hmatching
  rcases PlacedWriter.tracked_of_reach hpaths hs habort with ⟨e, he⟩ | ⟨opened, htracks⟩
  · cases hreturned.symm.trans he
  · refine ⟨_, _, l, htracks.openAll_eq hreturned, fun i place hplace => ?_, hhand⟩
    obtain ⟨j, info, hinfo, hj, hcontents⟩ := htracks.exists_contents_eq hreturned hplace
    refine ⟨j, info, hinfo, hj, ?_⟩
    rw [hcontents, hfiled.files_eq hinfo, Option.getD_some]

/-- Declared sizes and delivered chunks.  As long as nothing else fails, the writer comes to its
end, without an exception exactly if all files can be opened; and then what it has written is what
the request declares exactly if the chunks cover the declared sizes, and paths that lead to the same
file are for the same bytes. -/
theorem checksSizes_iff (nm : Naming N Place) (names : N) (contents : Place → Bytes)
    (hcap : cs.length ≤ capacity) (hpaths : (r.fileInfos.map FileInfo.relativePath).Nodup)
    (hne : cs ≠ []) (hsizes : ∀ c ∈ cs, c.data.length ≤ uint16Max) :
    CanReach (PlacedWriter.step nm r) (fun _ f => f = none)
      (fun s => s.writer.thread = .returned ∧
        (s.writer.ctx.shouldAbort = false ↔ AllOpen nm r names))
      (PlacedWriter.start names contents cs hcap) ∧
    (ChecksSizes nm r cs names contents hcap ↔
      ∀ places names', nm.openAll names r.fileInfos = .ok (places, names') →
        Covered r cs ∧ Agreeing r cs places) := by
  refine ⟨canReach_returned nm names contents hcap hpaths hne, fun h places names' hopen => ?_,
    fun h s hs hreturned habort => ?_⟩
  · obtain ⟨s, hs, hreturned, habort, hfiles, hcounter⟩ := h.exists_reassembled hpaths hne hopen
    have henough := hfiles.enough (Naming.length_openAll hopen)
    obtain ⟨-, -, l, -, -, hhand⟩ := exists_part_eq hpaths henough hsizes hs hreturned habort
    obtain ⟨hempty, hcount⟩ := hhand.counter_eq_iff.mp hcounter
    refine ⟨⟨henough, hempty, hcount⟩, fun i j info info' place hinfo hinfo' hi hj => ?_⟩
    rw [← (hfiles i info place hinfo hi).2, ← (hfiles j info' place hinfo' hj).2]
  · rcases PlacedWriter.tracked_of_reach hpaths hs habort with ⟨e, he⟩ | ⟨opened, htracks⟩
    · cases hreturned.symm.trans he
    · have hopen := htracks.openAll_eq hreturned
      obtain ⟨hcovered, hagreeing⟩ := h _ _ hopen
      obtain ⟨places, names', l, hopen', hparts, hhand⟩ :=
        exists_part_eq hpaths hcovered.enough hsizes hs hreturned habort
      refine ⟨places, names', hopen', fun i info place hinfo hi => ?_,
        hhand.counter_eq_iff.mpr ⟨hcovered.noEmpty, hcovered.countable⟩⟩
      obtain ⟨rfl, rfl⟩ := Prod.mk.inj (Except.ok.inj (hopen.symm.trans hopen'))
      obtain ⟨j, info', hinfo', hj, hcontents⟩ := hparts i place hi
      have hpart : s.contents place = part r cs i info :=
        hcontents.trans (hagreeing j i info' info place hinfo' hinfo hj hi)
      exact ⟨by rw [hpart, length_part hcovered.enough hinfo], hpart⟩

/-- A request for a file of two bytes in a directory of its own, and one of one byte. -/
def twoFileRequest : TransferRequest := ⟨1, 3, 3, 0, 2, [⟨[97, 47, 98], 2⟩, ⟨[99], 1⟩]⟩

theorem checksSizes_iff_twoFiles : ChecksSizes (Names.naming [[100]]) twoFileRequest
    [.plain 1 [7], .plain 2 [8, 9]] Names.emptyDirectory (fun _ => [])
    (show [Chunk.plain 1 [7], .plain 2 [8, 9]].length ≤ 2 by decide) := by
  refine (checksSizes_iff _ _ _ _ (by decide) (by simp) (by decide)).2.mpr ?_
  intro places names' hopen
  have hplaces : places = [[[100], [97], [98]], [[100], [99]]] := by
    have hall : (Names.naming [[100]]).openAll Names.emptyDirectory twoFileRequest.fileInfos =
        .ok ([[[100], [97], [98]], [[100], [99]]], ⟨[[[100], [97]], [], [[100]]],
          [[[100], [99]], [[100], [97], [98]]]⟩) := by
      decide +kernel
    exact (Prod.mk.inj (Except.ok.inj (hopen.symm.trans hall))).1
  refine ⟨⟨by decide, fun pre post hsplit => ?_, by decide⟩,
    fun i j info info' place hinfo hinfo' hi hj => ?_⟩
  · have hmem : ([] : Bytes) ∈ [Chunk.plain 1 [7], Chunk.plain 2 [8, 9]].map Chunk.data := by
      rw [hsplit]
      simp
    simp at hmem
  · -- the two places differ
    have hnodup : places.Nodup := by
      rw [hplaces]
      decide
    have hlt := (List.getElem?_eq_some_iff.mp hi).1
    obtain rfl := (List.getElem?_inj hlt hnodup).mp (hi.trans hj.symm)
    rw [Option.some.inj (hinfo.symm.trans hinfo')]

/-- A request for one file of two bytes. -/
def twoByteRequest : TransferRequest := ⟨1, 2, 2, 0, 1, [⟨[97], 2⟩]⟩

/-- One byte has been delivered for the file of two bytes. -/
theorem not_checksSizes_of_short :
    twoByteRequest.serialize >>= TransferRequest.deserialize = .ok twoByteRequest ∧
    ¬ ChecksSizes (Names.naming [[100]]) twoByteRequest [.plain 1 [7]] Names.emptyDirectory
      (fun _ => []) (show [Chunk.plain 1 [7]].length ≤ 1 by decide) := by
  refine ⟨by decide +kernel, fun h => ?_⟩
  have hopen : (Names.naming [[100]]).openAll Names.emptyDirectory twoByteRequest.fileInfos =
      .ok ([[[100], [97]]], ⟨[[], [[100]]], [[[100], [97]]]⟩) := by
    decide +kernel
  obtain ⟨s, -, -, -, hfiles, -⟩ := h.exists_reassembled (by decide) (by simp) hopen
  exact absurd (hfiles.enough rfl) (by decide)

end Runs

end FileManager

end Trit
