import Trit.Solo
import Trit.Zlib

/-!
# The compression stages

`CompressionManager.cpp`: the two workers that were to stand around the encryption.  They are not
part of the pipelines.

* `compressChunks`, `decompressChunks`: one loop, generic in what is done to a chunk;
* `Streamed`: what the loop has pushed is the result of what it has popped;
* `yields_iff`: in every run the loop ends with the sequential result, if there is one;
* `restored_iff`: when one chunk survives both stages;
* `restores_iff`: when the stages are inverse to each other.
-/

namespace Trit

open Transition

/-! ### The loop -/

/-- The program points of `compress_chunks` and `decompress_chunks`. -/
inductive CompressionPc
  | tryPop
  | transform (c : Chunk)
  | push (c : Chunk)
  | inputDone
  | inputEmpty
  | outputDone
  deriving DecidableEq

/-- The loop of both functions. -/
def transformChunks (transform : Chunk → Except Exception Chunk) :
    CompressionPc → Call Unit CompressionPc
  | .tryPop => .tryPop fun
      | some c => .running (.transform c)
      | none => .running .inputDone
  | .transform c => .io
      (fun _ => match transform c with
        | .ok result => some (.running (.push result), ())
        | .error e => some (.caught e, ()))
      (fun _ _ => ())
  | .push c => .push c (.running .tryPop)
  | .inputDone => .inputDone fun b => .running (if b then .inputEmpty else .tryPop)
  | .inputEmpty => .inputEmpty fun b => .running (if b then .outputDone else .tryPop)
  | .outputDone => .outputDone .returned

/-! ### The manager -/

/-- `CompressionManager`. -/
structure CompressionManager where
  chunkSize : UInt32
  lastChunkSize : UInt32

namespace CompressionManager

/-- `compress_data`. -/
def compressData (z : Zlib) (data : Bytes) (dataSize : UInt16) : Except Exception Bytes :=
  match z.compress (z.compressBound dataSize.toNat) (data.take dataSize.toNat) with
  | .ok compressedData => .ok compressedData
  | .error ret => .error (.runtimeError ("zlib error code: " ++ toString ret))

/-- `decompress_data`: the vector for the result has the original size, whatever is written. -/
def decompressData (z : Zlib) (compressedData : Bytes) (compressedDataSize originalSize : UInt16) :
    Except Exception Bytes :=
  if compressedDataSize = 0 then .ok []
  else
    match z.uncompress originalSize.toNat (compressedData.take compressedDataSize.toNat) with
    | .ok data =>
        if originalSize.toNat < data.length then
          .error (.runtimeError "decompression buffer overflow")
        else .ok (data ++ List.replicate (originalSize.toNat - data.length) 0)
    | .error ret => .error (.runtimeError ("zlib error code: " ++ toString ret))

/-- `compress_chunk`. -/
def compressChunk (z : Zlib) (m : CompressionManager) (chunk : Chunk) : Except Exception Chunk :=
  if m.chunkSize.toNat < chunk.size.toNat then
    .error (.runtimeError ("Chunk size exceeded expected size of " ++ toString m.chunkSize ++
      " bytes"))
  else
    match compressData z chunk.data chunk.size with
    | .ok compressedData => .ok (.packed chunk.sequenceNum compressedData chunk.size)
    | .error e => .error (.runtimeError ("Error when compressing chunk #" ++
        toString chunk.sequenceNum ++ ": " ++ e.what))

/-- `decompress_chunk`. -/
def decompressChunk (z : Zlib) (chunk : Chunk) : Except Exception Chunk :=
  match decompressData z chunk.data chunk.size chunk.originalSize with
  | .ok decompressedData => .ok (.plain chunk.sequenceNum decompressedData)
  | .error e => .error (.runtimeError ("Error when decompressing chunk #" ++
      toString chunk.sequenceNum ++ ": " ++ e.what))

/-- What `compress_chunks` pushes for a chunk: the smaller one, by their sizes in 16 bits. -/
def compressed (z : Zlib) (m : CompressionManager) (chunk : Chunk) : Except Exception Chunk :=
  (compressChunk z m chunk).map fun c => if c.size < chunk.size then c else chunk

/-- What `decompress_chunks` pushes for a chunk. -/
def decompressed (z : Zlib) (chunk : Chunk) : Except Exception Chunk :=
  if chunk.compressed then decompressChunk z chunk else .ok chunk

/-- `compress_chunks`. -/
def compressChunks (z : Zlib) (m : CompressionManager) : CompressionPc → Call Unit CompressionPc :=
  transformChunks (compressed z m)

/-- `decompress_chunks`. -/
def decompressChunks (z : Zlib) : CompressionPc → Call Unit CompressionPc :=
  transformChunks (decompressed z)

end CompressionManager

/-! ### What the loop does -/

/-- What one operation of the loop can be, if nothing outside fails. -/
inductive TransformMove {capacity : ℕ} (transform : Chunk → Except Exception Chunk)
    (v : View capacity Unit) (pc : CompressionPc) :
    Thread CompressionPc → View capacity Unit → Prop
  | popped (c : Chunk) (q : BoundedThreadSafeQueue capacity Chunk) (hpc : pc = .tryPop)
      (hq : v.input.queue.pop = some (c, q)) :
      TransformMove transform v pc (.running (.transform c))
        { v with input := { v.input with queue := q } }
  | missed (hpc : pc = .tryPop) (hq : v.input.queue.queue = []) :
      TransformMove transform v pc (.running .inputDone) v
  | transformed (c d : Chunk) (hpc : pc = .transform c) (ht : transform c = .ok d) :
      TransformMove transform v pc (.running (.push d)) v
  | threw (c : Chunk) (e : Exception) (hpc : pc = .transform c) (ht : transform c = .error e) :
      TransformMove transform v pc (.caught e) v
  | pushed (c : Chunk) (q : BoundedThreadSafeQueue capacity Chunk) (hpc : pc = .push c)
      (hq : v.output.queue.push c = some q) :
      TransformMove transform v pc (.running .tryPop)
        { v with output := { v.output with queue := q } }
  | doneSeen (hpc : pc = .inputDone) (hd : v.input.done = true) :
      TransformMove transform v pc (.running .inputEmpty) v
  | notDone (hpc : pc = .inputDone) (hd : v.input.done = false) :
      TransformMove transform v pc (.running .tryPop) v
  | drained (hpc : pc = .inputEmpty) (hq : v.input.queue.queue = []) :
      TransformMove transform v pc (.running .outputDone) v
  | more (hpc : pc = .inputEmpty) (hq : v.input.queue.queue ≠ []) :
      TransformMove transform v pc (.running .tryPop) v
  | finished (hpc : pc = .outputDone) :
      TransformMove transform v pc .returned
        { v with output := { v.output with done := true } }

theorem transformMove_of_run {capacity : ℕ} {transform : Chunk → Except Exception Chunk}
    {abort : Bool} {v v' : View capacity Unit} {pc : CompressionPc} {t : Thread CompressionPc}
    (h : (transformChunks transform pc).run abort none v = some (t, v')) :
    TransformMove transform v pc t v' := by
  cases pc with
  | tryPop =>
    cases hq : v.input.queue.pop with
    | none =>
      obtain ⟨rfl, rfl⟩ : .running .inputDone = t ∧ v = v' := by
        simpa [Call.run, transformChunks, Call.exec, hq] using h
      exact .missed rfl (BoundedThreadSafeQueue.pop_eq_none.mp hq)
    | some r =>
      obtain ⟨rfl, rfl⟩ : .running (.transform r.1) = t ∧
          { v with input := { v.input with queue := r.2 } } = v' := by
        simpa [Call.run, transformChunks, Call.exec, hq] using h
      exact .popped r.1 r.2 rfl hq
  | transform c =>
    cases ht : transform c with
    | error e =>
      obtain ⟨rfl, rfl⟩ : .caught e = t ∧ v = v' := by
        simpa [Call.run, transformChunks, Call.exec, ht] using h
      exact .threw c e rfl ht
    | ok d =>
      obtain ⟨rfl, rfl⟩ : .running (.push d) = t ∧ v = v' := by
        simpa [Call.run, transformChunks, Call.exec, ht] using h
      exact .transformed c d rfl ht
  | push c =>
    obtain ⟨q, hq, rfl, rfl⟩ : ∃ q, v.output.queue.push c = some q ∧
        .running .tryPop = t ∧ { v with output := { v.output with queue := q } } = v' := by
      simpa [Call.run, transformChunks, Call.exec] using h
    exact .pushed c q rfl hq
  | inputDone =>
    obtain ⟨rfl, rfl⟩ : .running (if v.input.done then .inputEmpty else .tryPop) = t ∧ v = v' := by
      simpa [Call.run, transformChunks, Call.exec] using h
    cases hd : v.input.done
    · exact .notDone rfl hd
    · exact .doneSeen rfl hd
  | inputEmpty =>
    obtain ⟨rfl, rfl⟩ : .running (if v.input.queue.empty then .outputDone else .tryPop) = t ∧
        v = v' := by
      simpa [Call.run, transformChunks, Call.exec] using h
    cases he : v.input.queue.empty
    · exact .more rfl (fun hq => by simp [hq, BoundedThreadSafeQueue.empty] at he)
    · exact .drained rfl (BoundedThreadSafeQueue.empty_iff.mp he)
  | outputDone =>
    obtain ⟨rfl, rfl⟩ : .returned = t ∧
        { v with output := { v.output with done := true } } = v' := by
      simpa [Call.run, transformChunks, Call.exec] using h
    exact .finished rfl

section Lists

variable {α β ε : Type} {f : α → Except ε β} {xs zs : List α} {ys ws : List β} {x : α} {y : β}
  {e : ε}

theorem mapM_concat_ok (hxs : xs.mapM f = .ok ys) (hx : f x = .ok y) :
    (xs ++ [x]).mapM f = .ok (ys ++ [y]) := by
  simp [hxs, hx, bind, Except.bind, pure, Except.pure]

theorem mapM_cons_ok :
    (x :: xs).mapM f = .ok ws ↔ ∃ y ys, f x = .ok y ∧ xs.mapM f = .ok ys ∧ y :: ys = ws := by
  rw [List.mapM_cons, Except.bind_eq_ok]
  simp only [Except.bind_eq_ok, pure, Except.pure, Except.ok.injEq, exists_and_left]

/-- Two functions after each other are inverse on a list where they are on its elements. -/
theorem mapM_mapM_iff {γ κ : Type} {g : β → Except ε γ} {k : α → κ} {k' : γ → κ} :
    (∃ ys zs, xs.mapM f = .ok ys ∧ ys.mapM g = .ok zs ∧ zs.map k' = xs.map k) ↔
      ∀ x ∈ xs, ∃ y z, f x = .ok y ∧ g y = .ok z ∧ k' z = k x := by
  induction xs with
  | nil => simp [pure, Except.pure]
  | cons x xs ih =>
    rw [List.forall_mem_cons, ← ih]
    constructor
    · rintro ⟨_, _, hf, hg, hmap⟩
      obtain ⟨y, ys, hy, hys, rfl⟩ := mapM_cons_ok.mp hf
      obtain ⟨z, zs, hz, hzs, rfl⟩ := mapM_cons_ok.mp hg
      rw [List.map_cons, List.map_cons, List.cons.injEq] at hmap
      exact ⟨⟨y, z, hy, hz, hmap.1⟩, ys, zs, hys, hzs, hmap.2⟩
    · rintro ⟨⟨y, z, hy, hz, hk⟩, ys, zs, hys, hzs, hmap⟩
      exact ⟨y :: ys, z :: zs, mapM_cons_ok.mpr ⟨y, ys, hy, hys, rfl⟩,
        mapM_cons_ok.mpr ⟨z, zs, hz, hzs, rfl⟩, by rw [List.map_cons, List.map_cons, hk, hmap]⟩

theorem mapM_error_of_prefix (hxs : xs.mapM f = .ok ys) (hx : f x = .error e)
    (hzs : xs ++ [x] <+: zs) : zs.mapM f = .error e := by
  obtain ⟨rest, rfl⟩ := hzs
  simp [hxs, hx, bind, Except.bind]

/-- The result of a beginning is a beginning of the result. -/
theorem mapM_mono (hxs : xs.mapM f = .ok ys) (hzs : zs.mapM f = .ok ws) (h : xs <+: zs) :
    ys <+: ws := by
  obtain ⟨rest, rfl⟩ := h
  rw [List.mapM_append, hxs] at hzs
  obtain ⟨_, hys, hrest⟩ := Except.bind_eq_ok.mp hzs
  obtain ⟨us, -, hws⟩ := Except.bind_eq_ok.mp hrest
  cases hys
  exact ⟨us, Except.ok.inj hws⟩

end Lists

/-- The chunks of a list arrive in their order, and after them the end; the output is taken at any
time, and nothing outside fails. -/
def Supplied {capacity : ℕ} (cs : List Chunk) (s : Solo capacity Unit CompressionPc) :
    Solo.Event → Prop
  | .step f => f = none
  | .arrive c => s.view.input.done = false ∧ s.view.input.queue.pushed ++ [c] <+: cs
  | .finish => s.view.input.queue.pushed = cs
  | .take => True

/-- Fed with the list `cs`, the loop throws nothing and pushes `ds`: whatever the capacity of its
queues and the order of events, it has pushed a part of `ds`, can still come to its end, and there
it has pushed all of `ds` and marked its output as done. -/
def Yields (transform : Chunk → Except Exception Chunk) (cs ds : List Chunk) : Prop :=
  ∀ capacity, 0 < capacity → ∀ s : Solo capacity Unit CompressionPc,
    Reach (Solo.step (transformChunks transform)) (Supplied cs) (.start capacity .tryPop ()) s →
      s.ctx = .new ∧ s.thread.thrown = false ∧ s.view.output.queue.pushed <+: ds ∧
      CanReach (Solo.step (transformChunks transform)) (Supplied cs)
        (fun t => t.thread = .returned) s ∧
      (s.thread = .returned → s.view.output.queue.pushed = ds ∧ s.view.output.done = true)

section Runs

variable {capacity : ℕ} {transform : Chunk → Except Exception Chunk} {cs ds : List Chunk}
  {s t : Solo capacity Unit CompressionPc}

/-- What the loop has pushed is the result of what it has popped, up to the chunk it is working
on; a loop that has thrown had no result to push. -/
def Keeps (transform : Chunk → Except Exception Chunk) (cs : List Chunk) (ctx : WorkerContext)
    (v : View capacity Unit) : Thread CompressionPc → Prop
  | .running .tryPop | .running .inputDone =>
      ctx = .new ∧ v.input.queue.popped.mapM transform = .ok v.output.queue.pushed
  | .running (.transform c) => ctx = .new ∧
      ∃ pre, v.input.queue.popped = pre ++ [c] ∧ pre.mapM transform = .ok v.output.queue.pushed
  | .running (.push c) =>
      ctx = .new ∧ v.input.queue.popped.mapM transform = .ok (v.output.queue.pushed ++ [c])
  | .running .inputEmpty => ctx = .new ∧ v.input.done = true ∧
      v.input.queue.popped.mapM transform = .ok v.output.queue.pushed
  | .running .outputDone => ctx = .new ∧ cs.mapM transform = .ok v.output.queue.pushed
  | .caught _ | .flagged _ => ∃ e, cs.mapM transform = .error e
  | .returned =>
      (ctx = .new ∧ cs.mapM transform = .ok v.output.queue.pushed ∧ v.output.done = true) ∨
        ctx ≠ .new ∧ ∃ e, cs.mapM transform = .error e

/-- What holds in every run. -/
structure Streamed (transform : Chunk → Except Exception Chunk) (cs : List Chunk)
    (s : Solo capacity Unit CompressionPc) : Prop where
  pushed : s.view.input.queue.pushed <+: cs
  all : s.view.input.done = true → s.view.input.queue.pushed = cs
  keeps : Keeps transform cs s.ctx s.view s.thread

theorem Streamed.start (transform : Chunk → Except Exception Chunk) (cs : List Chunk) :
    Streamed transform cs (.start capacity .tryPop ()) where
  pushed := List.nil_prefix
  all := fun h => by cases h
  keeps := ⟨rfl, rfl⟩

theorem Keeps.move {ctx : WorkerContext} {v v' : View capacity Unit} {pc : CompressionPc}
    {th : Thread CompressionPc} (h : TransformMove transform v pc th v')
    (hpushed : v.input.queue.pushed <+: cs)
    (hall : v.input.done = true → v.input.queue.pushed = cs)
    (hk : Keeps transform cs ctx v (.running pc)) : Keeps transform cs ctx v' th := by
  cases h with
  | popped c q hpc hq =>
    subst hpc
    exact ⟨hk.1, _, (BoundedThreadSafeQueue.pop_eq_some.mp hq).2, hk.2⟩
  | missed hpc =>
    subst hpc
    exact hk
  | transformed c d hpc ht =>
    subst hpc
    obtain ⟨hctx, pre, hpopped, hpre⟩ := hk
    refine ⟨hctx, ?_⟩
    rw [hpopped]
    exact mapM_concat_ok hpre ht
  | threw c e hpc ht =>
    subst hpc
    obtain ⟨-, pre, hpopped, hpre⟩ := hk
    have hpopped_part : v.input.queue.popped <+: cs := (List.prefix_append _ _).trans hpushed
    rw [hpopped] at hpopped_part
    exact ⟨e, mapM_error_of_prefix hpre ht hpopped_part⟩
  | pushed c q hpc hq =>
    subst hpc
    refine ⟨hk.1, ?_⟩
    show v.input.queue.popped.mapM transform = .ok q.pushed
    rw [BoundedThreadSafeQueue.pushed_push hq]
    exact hk.2
  | doneSeen hpc hd =>
    subst hpc
    exact ⟨hk.1, hd, hk.2⟩
  | notDone hpc =>
    subst hpc
    exact hk
  | drained hpc hq =>
    subst hpc
    obtain ⟨hctx, hdone, hmap⟩ := hk
    have hcs := hall hdone
    rw [BoundedThreadSafeQueue.pushed, hq, List.append_nil] at hcs
    rw [hcs] at hmap
    exact ⟨hctx, hmap⟩
  | more hpc =>
    subst hpc
    exact ⟨hk.1, hk.2.2⟩
  | finished hpc =>
    subst hpc
    exact Or.inl ⟨hk.1, hk.2, rfl⟩

/-- What has been popped and pushed decides, and the flag of the input. -/
theorem Keeps.of_eq {ctx : WorkerContext} {v v' : View capacity Unit} {th : Thread CompressionPc}
    (hpopped : v'.input.queue.popped = v.input.queue.popped)
    (hdone : v.input.done = true → v'.input.done = true)
    (hpushed : v'.output.queue.pushed = v.output.queue.pushed)
    (hout : v'.output.done = v.output.done) (hk : Keeps transform cs ctx v th) :
    Keeps transform cs ctx v' th := by
  cases th with
  | running pc =>
    cases pc <;> simp only [Keeps, hpopped, hpushed] at hk ⊢ <;> first
      | exact hk
      | exact ⟨hk.1, hdone hk.2.1, hk.2.2⟩
  | caught e => exact hk
  | flagged e => exact hk
  | returned =>
    simp only [Keeps, hpushed, hout] at hk ⊢
    exact hk

theorem Streamed.step {a : Solo.Event} (hi : Streamed transform cs s) (ha : Supplied cs s a)
    (h : s.step (transformChunks transform) a = some t) : Streamed transform cs t := by
  obtain ⟨hpart, hall, hkeeps⟩ := hi
  cases a with
  | step f =>
    obtain rfl : f = none := ha
    rcases Solo.step_cases h with ⟨pc, th, v, hpc, hrun, rfl⟩ | ⟨e, he, -, rfl⟩ | ⟨e, he, -, rfl⟩
    · obtain ⟨hpushed, hdone⟩ := Call.run_input hrun
      rw [hpc] at hkeeps
      refine ⟨?_, ?_, hkeeps.move (transformMove_of_run hrun) hpart hall⟩
      · show v.input.queue.pushed <+: cs
        rw [hpushed]
        exact hpart
      · show v.input.done = true → v.input.queue.pushed = cs
        rw [hpushed, hdone]
        exact hall
    · rw [he] at hkeeps
      exact ⟨hpart, hall, hkeeps⟩
    · rw [he] at hkeeps
      refine ⟨hpart, hall, Or.inr ⟨fun hnew => ?_, hkeeps⟩⟩
      have hhandled := congrArg WorkerContext.handled hnew
      simp [WorkerContext.new] at hhandled
  | arrive c =>
    obtain ⟨hdone, hmore⟩ := ha
    obtain ⟨q, hq, rfl⟩ := Option.map_eq_some_iff.mp h
    refine ⟨?_, fun hdone' => ?_, ?_⟩
    · show q.pushed <+: cs
      rw [BoundedThreadSafeQueue.pushed_push hq]
      exact hmore
    · cases hdone.symm.trans hdone'
    · exact hkeeps.of_eq (BoundedThreadSafeQueue.push_eq_some.mp hq).2.1 id rfl rfl
  | finish =>
    cases h
    exact ⟨hpart, fun _ => ha, hkeeps.of_eq (v := s.view) rfl (fun _ => rfl) rfl rfl⟩
  | take =>
    obtain ⟨c, q, -, hpushed, -, rfl⟩ := Solo.take_cases h
    exact ⟨hpart, hall, hkeeps.of_eq (v := s.view) rfl id hpushed rfl⟩

theorem Streamed.of_reach (h : Reach (Solo.step (transformChunks transform)) (Supplied cs)
    (Solo.start capacity .tryPop ()) s) : Streamed transform cs s :=
  h.invariant (fun _ _ _ hi ha hstep => hi.step ha hstep) (Streamed.start transform cs)

/-- What has been pushed belongs to the result of a part of the list; or a chunk of the list has no
result. -/
theorem Streamed.cases (hi : Streamed transform cs s) :
    (s.ctx = .new ∧ s.thread.thrown = false ∧ ∃ pre more, pre <+: cs ∧
      pre.mapM transform = .ok (s.view.output.queue.pushed ++ more)) ∨
    ∃ e, cs.mapM transform = .error e := by
  obtain ⟨hpart, -, hkeeps⟩ := hi
  have hpopped : s.view.input.queue.popped <+: cs := (List.prefix_append _ _).trans hpart
  cases hs : s.thread with
  | running pc =>
    rw [hs] at hkeeps
    refine Or.inl ?_
    cases pc with
    | tryPop | inputDone => exact ⟨hkeeps.1, rfl, _, [], hpopped, by simpa using hkeeps.2⟩
    | transform c =>
      obtain ⟨hctx, pre, hpre, hmap⟩ := hkeeps
      rw [hpre] at hpopped
      exact ⟨hctx, rfl, pre, [], (List.prefix_append _ _).trans hpopped, by simpa using hmap⟩
    | push c => exact ⟨hkeeps.1, rfl, _, [c], hpopped, hkeeps.2⟩
    | inputEmpty => exact ⟨hkeeps.1, rfl, _, [], hpopped, by simpa using hkeeps.2.2⟩
    | outputDone => exact ⟨hkeeps.1, rfl, cs, [], List.prefix_rfl, by simpa using hkeeps.2⟩
  | caught e | flagged e =>
    rw [hs] at hkeeps
    exact Or.inr hkeeps
  | returned =>
    rw [hs] at hkeeps
    rcases hkeeps with ⟨hctx, hmap, -⟩ | ⟨-, herror⟩
    · exact Or.inl ⟨hctx, rfl, cs, [], List.prefix_rfl, by simpa using hmap⟩
    · exact Or.inr herror

/-- Where every chunk has a result, nothing is thrown, and what has been pushed is a part of it. -/
theorem Streamed.calm (hi : Streamed transform cs s) (hds : cs.mapM transform = .ok ds) :
    s.ctx = .new ∧ s.thread.thrown = false ∧ s.view.output.queue.pushed <+: ds := by
  rcases hi.cases with ⟨hctx, hthrown, pre, more, hpre, hmap⟩ | ⟨e, herror⟩
  · exact ⟨hctx, hthrown, (List.prefix_append _ _).trans (mapM_mono hmap hds hpre)⟩
  · cases hds.symm.trans herror

/-- A loop that has returned without an exception has pushed the whole result. -/
theorem Streamed.of_returned (hi : Streamed transform cs s) (hs : s.thread = .returned)
    (hctx : s.ctx = .new) :
    cs.mapM transform = .ok s.view.output.queue.pushed ∧ s.view.output.done = true := by
  have hkeeps := hi.keeps
  rw [hs] at hkeeps
  rcases hkeeps with ⟨-, hmap, hdone⟩ | ⟨hne, -⟩
  · exact ⟨hmap, hdone⟩
  · exact absurd hctx hne

/-! ### The loop comes to its end -/

/-- The operations the loop takes at most before it has to look for a chunk again. -/
def transformRank (done empty : Bool) : Thread CompressionPc → ℕ
  | .running .tryPop => 4
  | .running (.transform _) => 24
  | .running (.push _) => 23
  | .running .inputDone => if done && empty then 3 else 6
  | .running .inputEmpty => if empty then 2 else 5
  | .running .outputDone => 1
  | .caught _ | .flagged _ | .returned => 0

/-- The work left for the loop: a chunk on its input costs 30, and one on its output 1. -/
def transformWork (v : View capacity Unit) (th : Thread CompressionPc) : ℕ :=
  30 * v.input.queue.queue.length + v.output.queue.queue.length +
    transformRank v.input.done v.input.queue.empty th

/-- The work left: a chunk that is still to arrive costs 40. -/
def suppliedWork (cs : List Chunk) (s : Solo capacity Unit CompressionPc) : ℕ :=
  40 * (cs.length - s.view.input.queue.pushed.length) +
    (if s.view.input.done = true then 0 else 10) + transformWork s.view s.thread

/-- New input may send the loop round once more. -/
theorem transformRank_le (done done' empty empty' : Bool) (th : Thread CompressionPc) :
    transformRank done' empty' th ≤ transformRank done empty th + 3 := by
  cases th with
  | running pc => cases pc <;> simp only [transformRank] <;> grind
  | _ => exact Nat.zero_le _

/-- A loop that neither waits for room nor for input goes on. -/
theorem transformChunks_progress {v : View capacity Unit} {pc : CompressionPc}
    (hroom : v.output.queue.queue.length < capacity)
    (hinput : pc = .tryPop → v.input.queue.queue = [] → v.input.done = true) :
    ∃ th v', (transformChunks transform pc).run false none v = some (th, v') ∧
      transformWork v' th < transformWork v (.running pc) := by
  cases pc with
  | tryPop =>
    cases hq : v.input.queue.pop with
    | none =>
      have hempty := BoundedThreadSafeQueue.pop_eq_none.mp hq
      refine ⟨.running .inputDone, v, by simp [Call.run, transformChunks, Call.exec, hq], ?_⟩
      simp [transformWork, transformRank, hinput rfl hempty, hempty]
    | some r =>
      refine ⟨.running (.transform r.1), { v with input := { v.input with queue := r.2 } },
        by simp [Call.run, transformChunks, Call.exec, hq], ?_⟩
      have hlen := BoundedThreadSafeQueue.length_of_pop hq
      simp only [transformWork, transformRank]
      omega
  | transform c =>
    cases ht : transform c with
    | error e =>
      refine ⟨.caught e, v, by simp [Call.run, transformChunks, Call.exec, ht], ?_⟩
      simp only [transformWork, transformRank]
      omega
    | ok d =>
      refine ⟨.running (.push d), v, by simp [Call.run, transformChunks, Call.exec, ht], ?_⟩
      simp only [transformWork, transformRank]
      omega
  | push c =>
    obtain ⟨q, hq⟩ := BoundedThreadSafeQueue.exists_push hroom c
    refine ⟨.running .tryPop, { v with output := { v.output with queue := q } },
      by simp [Call.run, transformChunks, Call.exec, hq], ?_⟩
    have hqueue := congrArg List.length (BoundedThreadSafeQueue.push_eq_some.mp hq).2.2
    rw [List.length_append, List.length_singleton] at hqueue
    simp only [transformWork, transformRank]
    omega
  | inputDone =>
    refine ⟨_, v, rfl, ?_⟩
    cases hd : v.input.done <;> cases he : v.input.queue.empty <;>
      simp [transformWork, transformRank, hd, he]
  | inputEmpty =>
    refine ⟨_, v, rfl, ?_⟩
    cases he : v.input.queue.empty <;> simp [transformWork, transformRank, he]
  | outputDone =>
    refine ⟨_, _, rfl, ?_⟩
    simp [transformWork, transformRank]

theorem Streamed.supply (hcap : 0 < capacity) (hi : Streamed transform cs s)
    (hempty : s.view.input.queue.queue = []) (hdone : s.view.input.done = false) :
    ∃ a t, Supplied cs s a ∧ s.step (transformChunks transform) a = some t ∧
      suppliedWork cs t < suppliedWork cs s := by
  rcases Solo.arrive_or_finish (transformChunks transform) hcap hempty hi.pushed with
    hall | ⟨c, q, hmore, hqueue, hlen, hstep⟩
  · refine ⟨.finish, _, hall, rfl, ?_⟩
    have hrank := transformRank_le false true s.view.input.queue.empty
      s.view.input.queue.empty s.thread
    simp only [suppliedWork, transformWork, hdone]
    simp only [reduceIte, Bool.false_eq_true]
    omega
  · refine ⟨.arrive c, _, ⟨hdone, hmore⟩, hstep, ?_⟩
    have hrank := transformRank_le false false s.view.input.queue.empty q.empty s.thread
    have hcs := hmore.length_le
    rw [List.length_append, List.length_singleton] at hcs
    simp only [suppliedWork, transformWork, hdone, hqueue, hempty, hlen, List.length_singleton,
      List.length_nil]
    omega

theorem Streamed.canReach (hcap : 0 < capacity) (hi : Streamed transform cs s)
    (hds : cs.mapM transform = .ok ds) :
    CanReach (Solo.step (transformChunks transform)) (Supplied cs)
      (fun t => t.thread = .returned) s := by
  refine CanReach.of_measure (suppliedWork cs) (I := Streamed transform cs)
    (fun u hu hnot => ?_) hi
  suffices hprog : ∃ a t, Supplied cs u a ∧ u.step (transformChunks transform) a = some t ∧
      suppliedWork cs t < suppliedWork cs u by
    obtain ⟨a, t, ha, hstep, hlt⟩ := hprog
    exact ⟨a, t, ha, hstep, hu.step ha hstep, hlt⟩
  obtain ⟨hctx, hthrown, -⟩ := hu.calm hds
  rcases Thread.cases_of_not_thrown hthrown with ⟨pc, hpc⟩ | hreturned
  swap
  · exact absurd hreturned hnot
  rcases Solo.room_or_take (transformChunks transform) hcap u with hroom | ⟨t, ht⟩
  · by_cases hidle : u.view.input.queue.queue = [] ∧ u.view.input.done = false
    · exact hu.supply hcap hidle.1 hidle.2
    · obtain ⟨th, v, hrun, hlt⟩ : ∃ th v,
          (transformChunks transform pc).run false none u.view = some (th, v) ∧
            transformWork v th < transformWork u.view (.running pc) :=
        transformChunks_progress hroom fun _ hempty => by simpa [hempty] using hidle
      obtain ⟨hpushed, hdone⟩ := Call.run_input hrun
      refine ⟨.step none, ⟨th, u.ctx, v⟩, rfl,
        Solo.step_of_run hpc (by rw [hctx]; exact hrun), ?_⟩
      simp only [suppliedWork, hpushed, hdone, hpc]
      omega
  · -- the output is full, and a chunk is taken from it
    refine ⟨.take, t, trivial, ht, ?_⟩
    obtain ⟨c, q, -, -, hlen, rfl⟩ := Solo.take_cases ht
    simp only [suppliedWork, transformWork]
    omega

end Runs

/-- In every run the loop ends with the result of every chunk, if every chunk has one. -/
theorem yields_iff {transform : Chunk → Except Exception Chunk} {cs ds : List Chunk} :
    Yields transform cs ds ↔ cs.mapM transform = .ok ds := by
  constructor
  · intro h
    obtain ⟨-, -, -, ⟨t, ht, hreturned⟩, -⟩ := h 1 Nat.one_pos _ .refl
    obtain ⟨hctx, -, -, -, hend⟩ := h 1 Nat.one_pos t ht
    rw [((Streamed.of_reach ht).of_returned hreturned hctx).1, (hend hreturned).1]
  · intro hds capacity hcap s hs
    have hi := Streamed.of_reach hs
    obtain ⟨hctx, hthrown, hpart⟩ := hi.calm hds
    refine ⟨hctx, hthrown, hpart, hi.canReach hcap hds, fun hreturned => ?_⟩
    obtain ⟨hmap, hdone⟩ := hi.of_returned hreturned hctx
    exact ⟨Except.ok.inj (hmap.symm.trans hds), hdone⟩

namespace CompressionManager

variable {z : Zlib} {m : CompressionManager} {c : Chunk} {out : Bytes}

/-! ### One chunk through both stages -/

/-- The chunks that the stages are meant for. -/
structure Fits (m : CompressionManager) (c : Chunk) : Prop where
  uncompressed : c.compressed = false
  pos : 0 < c.data.length
  le : c.data.length ≤ m.chunkSize.toNat
  max : c.data.length ≤ uint16Max

/-- What zlib makes of the data of a chunk. -/
def Compresses (z : Zlib) (c : Chunk) (out : Bytes) : Prop :=
  z.compress (z.compressBound c.data.length) c.data = .ok out

/-- A chunk comes back from both stages. -/
def Restored (z : Zlib) (m : CompressionManager) (c : Chunk) : Prop :=
  ∃ d e, compressed z m c = .ok d ∧ decompressed z d = .ok e ∧
    (e.sequenceNum, e.data) = (c.sequenceNum, c.data)

theorem Compresses.ne_nil (h : Compresses z c out) : out ≠ [] := z.compress_ne_nil _ _ _ h

/-- The compressed chunk is sent if its size, narrowed to 16 bits, is below that of the data. -/
theorem compressed_eq (hfits : Fits m c) (hout : Compresses z c out) :
    compressed z m c = .ok (if out.length % 65536 < c.data.length then
      .packed c.sequenceNum out c.size else c) := by
  have hsize := Chunk.size_toNat_of_le hfits.max
  have hdata : compressData z c.data c.size = .ok out := by
    rw [compressData, hsize, List.take_length, hout]
  have hlt : (Chunk.packed c.sequenceNum out c.size).size < c.size ↔
      out.length % 65536 < c.data.length := by
    rw [UInt16.lt_iff_toNat_lt, Chunk.size_toNat, hsize, Chunk.packed_data]
  rw [compressed, compressChunk, hsize, if_neg (Nat.not_lt.mpr hfits.le), hdata]
  simp only [Except.map, hlt]

/-- What has been compressed, and is short enough, is decompressed. -/
theorem decompressData_eq (hfits : Fits m c) (hout : Compresses z c out)
    (hlt : out.length < 65536) :
    decompressData z out (UInt16.ofNat out.length) c.size = .ok c.data := by
  have hsize := Chunk.size_toNat_of_le hfits.max
  have hlength : (UInt16.ofNat out.length).toNat = out.length := by
    rw [UInt16.toNat_ofNat']
    exact Nat.mod_eq_of_lt hlt
  have hzero : UInt16.ofNat out.length ≠ 0 := by
    intro h
    rw [h, UInt16.toNat_zero] at hlength
    exact hout.ne_nil (List.length_eq_zero_iff.mp hlength.symm)
  rw [decompressData, if_neg hzero, hlength, hsize, List.take_length,
    z.uncompress_compress _ _ _ hout]
  simp

/-- What has been cut short is lost. -/
theorem decompressData_cut (hfits : Fits m c) (hout : Compresses z c out)
    (hle : 65536 ≤ out.length) (data : Bytes)
    (h : decompressData z out (UInt16.ofNat out.length) c.size = .ok data) : data ≠ c.data := by
  unfold decompressData at h
  split_ifs at h with hzero
  · cases h
    intro hnil
    have hpos := hfits.pos
    rw [← hnil] at hpos
    exact Nat.lt_irrefl 0 hpos
  · have hne : out.take (UInt16.ofNat out.length).toNat ≠ out := by
      intro heq
      have hlength := congrArg List.length heq
      have hlt := (UInt16.ofNat out.length).toNat_lt
      rw [List.length_take] at hlength
      omega
    obtain ⟨ret, hret⟩ := z.uncompress_incomplete _ _ _ _ c.size.toNat hout
      (List.take_prefix _ _) hne
    rw [hret] at h
    cases h

/-- A chunk comes back if zlib makes less than 64 KiB of it, or so much that the size modulo
64 KiB does not look smaller. -/
theorem restored_iff (hfits : Fits m c) (hout : Compresses z c out) :
    Restored z m c ↔ out.length < 65536 ∨ c.data.length ≤ out.length % 65536 := by
  have hcompressed := compressed_eq hfits hout
  by_cases hlt : out.length % 65536 < c.data.length
  · rw [if_pos hlt] at hcompressed
    have hpacked : decompressed z (.packed c.sequenceNum out c.size) =
        decompressChunk z (.packed c.sequenceNum out c.size) := rfl
    constructor
    · rintro ⟨d, e, hd, he, heq⟩
      by_contra! hcontra
      cases hcompressed.symm.trans hd
      rw [hpacked, decompressChunk] at he
      split at he
      · next data hdata =>
        cases he
        exact decompressData_cut hfits hout hcontra.1 data hdata (congrArg Prod.snd heq)
      · cases he
    · rintro (hshort | hlong)
      · have hdata := decompressData_eq hfits hout hshort
        refine ⟨_, .plain c.sequenceNum c.data, hcompressed, ?_, rfl⟩
        rw [hpacked, decompressChunk]
        simp only [Chunk.size, Chunk.packed] at hdata ⊢
        rw [hdata]
      · exact absurd hlt (Nat.not_lt.mpr hlong)
  · rw [if_neg hlt] at hcompressed
    refine iff_of_true ⟨c, c, hcompressed, ?_, rfl⟩ (Or.inr (Nat.not_lt.mp hlt))
    rw [decompressed, hfits.uncompressed]
    rfl

/-! ### All chunks through both stages -/

/-- A list of chunks comes back from both stages: the numbers and the data, in their order. -/
def Restores (z : Zlib) (m : CompressionManager) (cs : List Chunk) : Prop :=
  ∃ ds es, Yields (compressed z m) cs ds ∧ Yields (decompressed z) ds es ∧
    es.map (fun c => (c.sequenceNum, c.data)) = cs.map fun c => (c.sequenceNum, c.data)

theorem restores_iff_restored {cs : List Chunk} :
    Restores z m cs ↔ ∀ c ∈ cs, Restored z m c := by
  unfold Restores
  simp only [yields_iff]
  exact mapM_mapM_iff

/-- Bytes in rows of 256, each row with another step. -/
def rows (n : ℕ) : Bytes := (List.range n).map fun i => UInt8.ofNat (i * (2 * (i / 256) + 1))

theorem length_rows (n : ℕ) : (rows n).length = n := by
  rw [rows, List.length_map, List.length_range]

theorem fits_rows {n : ℕ} (hpos : 0 < n) (hle : n ≤ m.chunkSize.toNat) (hmax : n ≤ uint16Max) :
    Fits m (.plain 1 (rows n)) := by
  refine ⟨rfl, ?_, ?_, ?_⟩ <;> rwa [Chunk.plain_data, length_rows]

theorem length_of_compresses (h : Compresses .stored c out) :
    out.length = c.data.length + 5 * ((c.data.length - 1) / 16383 + 1) + 6 := by
  rw [← length_storedStream]
  unfold Compresses Zlib.stored at h
  dsimp only at h
  split_ifs at h
  cases h
  rfl

theorem restored_rows_iff {n : ℕ} (hfits : Fits m (.plain 1 (rows n))) :
    Restored .stored m (.plain 1 (rows n)) ↔
      n + 5 * ((n - 1) / 16383 + 1) + 6 < 65536 ∨
        n ≤ (n + 5 * ((n - 1) / 16383 + 1) + 6) % 65536 := by
  obtain ⟨out, hout⟩ := Zlib.stored.compress_bound (rows n)
  have hcompresses : Compresses .stored (.plain 1 (rows n)) out := hout
  rw [restored_iff hfits hcompresses, length_of_compresses hcompresses, Chunk.plain_data,
    length_rows]

/-- The stages are inverse to each other on a list if and only if they are on the size of what
zlib makes of each chunk. -/
theorem restores_iff {cs : List Chunk} (hcs : ∀ c ∈ cs, Fits m c) :
    Restores z m cs ↔ ∀ c ∈ cs, ∀ out, Compresses z c out →
      out.length < 65536 ∨ c.data.length ≤ out.length % 65536 := by
  rw [restores_iff_restored]
  refine forall₂_congr fun c hc => ?_
  constructor
  · intro h out hout
    exact (restored_iff (hcs c hc) hout).mp h
  · intro h
    obtain ⟨out, hout⟩ := z.compress_bound c.data
    exact (restored_iff (hcs c hc) hout).mpr (h out hout)

/-- 256 bytes that zlib only stores come back. -/
theorem restores_rows : Restores .stored ⟨256, 256⟩ [.plain 1 (rows 256)] := by
  refine (restores_iff fun c hc => ?_).mpr fun c hc out hout => Or.inl ?_
  · rw [List.mem_singleton.mp hc]
    exact fits_rows (by decide) (by decide) (by decide)
  · rw [List.mem_singleton.mp hc] at hout
    rw [length_of_compresses hout, Chunk.plain_data, length_rows]
    decide

/-- As long as the bound of zlib fits into 16 bits, the stages are inverse to each other. -/
theorem restores_of_bound {cs : List Chunk} (hcs : ∀ c ∈ cs, Fits m c)
    (hbound : ∀ c ∈ cs, z.compressBound c.data.length < 65536) : Restores z m cs := by
  rw [restores_iff_restored]
  intro c hc
  obtain ⟨out, hout⟩ := z.compress_bound c.data
  exact (restored_iff (hcs c hc) hout).mpr
    (Or.inl ((z.compress_le _ _ _ hout).trans_lt (hbound c hc)))

/-- Of 65532 bytes that zlib only stores, 22 bytes of 65558 are left. -/
theorem not_restores_rows : Fits ⟨65535, 65532⟩ (.plain 1 (rows 65532)) ∧
    ¬ Restores .stored ⟨65535, 65532⟩ [.plain 1 (rows 65532)] := by
  have hfits : Fits ⟨65535, 65532⟩ (.plain 1 (rows 65532)) :=
    fits_rows (by decide) (by decide) (by decide)
  refine ⟨hfits, ?_⟩
  rw [restores_iff_restored, List.forall_mem_singleton, restored_rows_iff hfits]
  decide

end CompressionManager

end Trit
