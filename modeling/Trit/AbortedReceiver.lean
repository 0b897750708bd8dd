import Trit.QuietReceiver

/-!
# The receiver after an abort

Once the abort flag of `receive_files` is set, every worker leaves its loop at the next look at the
flag, but `push` waits for room, `pop` for a chunk, and a read for bytes.

* `ReceivePushes`: the chunk receiver does not leave its loop without another push;
* `WritePc.takes`, `WritePc.exhausts`: where the writer is on its way to `pop`;
* `Delivers`, `Finishes`: the decryptor can still get a chunk to the writer, or set its flag;
* `Served`: what each worker on its way to `push` or `pop` needs from the others;
* `abortWork_lt`: after an abort every step brings its thread closer to its end;
* `served_of_canReach`, `canReach_of_served`: as long as nothing else fails, the four workers can
  all return exactly from the served states;
* `not_canReach_of_waiting`, `exists_hung`: a writer that stays in its first `pop` for ever.
-/

namespace Trit

open Transition

namespace TransferManager

/-- How many steps the chunk receiver takes at most once the abort flag is set. -/
def receiveAbortRank : Thread ReceivePc → ℕ
  | .running (.read _) => 3
  | .running (.push _ _) | .caught _ => 2
  | .running (.loop _) | .flagged _ => 1
  | .returned => 0

theorem receiveAbortRank_lt {capacity : ℕ} {numChunks : UInt32} {f : Option Fault}
    {v v' : View capacity Incoming} {pc : ReceivePc} {t : Thread ReceivePc}
    (h : ReceiveMove numChunks true f v pc t v') :
    receiveAbortRank t < receiveAbortRank (.running pc) := by
  cases h with
  | goOn i hpc hi ha => cases ha
  | abort i hpc | finished i hpc | received i c s hpc | threw i e hpc | fault i x hpc
  | pushed c i q hpc =>
    subst hpc
    simp [receiveAbortRank]

/-- The chunk receiver does not leave its loop without another push: it stands at one, or a whole
frame is there for its next read. -/
def ReceivePushes (source : Incoming) : Thread ReceivePc → Prop
  | .running (.push _ _) => True
  | .running (.read _) => ∃ c socket, (receiveChunk source).run = some (.ok (c, socket))
  | _ => False

/-- After an abort the next operation of a chunk receiver that pushes is the push, or leads to
it. -/
theorem ReceivePushes.move {capacity : ℕ} {numChunks : UInt32} {v v' : View capacity Incoming}
    {pc : ReceivePc} {t : Thread ReceivePc} (hp : ReceivePushes v.world (.running pc))
    (h : ReceiveMove numChunks true none v pc t v') :
    v.output.queue.queue.length < capacity ∨ ReceivePushes v'.world t ∧ v'.output = v.output := by
  cases h with
  | pushed c i q hpc hq => exact Or.inl (BoundedThreadSafeQueue.push_eq_some.mp hq).1
  | received i c socket hpc hr => exact Or.inr ⟨trivial, rfl⟩
  | threw i e hpc hr =>
    subst hpc
    obtain ⟨c, socket, hr'⟩ := hp
    cases hr.symm.trans hr'
  | fault i x hpc hf => cases hf
  | abort _ hpc | goOn _ hpc | finished _ hpc =>
    subst hpc
    exact hp.elim

/-- After an abort a chunk receiver that pushes was to push before its operation. -/
theorem ReceiveMove.pushes_before {capacity : ℕ} {numChunks : UInt32} {f : Option Fault}
    {v v' : View capacity Incoming} {pc : ReceivePc} {t : Thread ReceivePc}
    (h : ReceiveMove numChunks true f v pc t v') (ht : ReceivePushes v'.world t) :
    ReceivePushes v.world (.running pc) ∧ v'.output = v.output := by
  cases h with
  | received i c socket hpc hr =>
    subst hpc
    exact ⟨⟨c, socket, hr⟩, rfl⟩
  | goOn i hpc hi ha => cases ha
  | abort | finished | threw | fault | pushed => exact ht.elim

/-- The chunk receiver waits for room on its output, and for bytes. -/
theorem receiveChunks_exists_run {capacity : ℕ} (numChunks : UInt32) (abort : Bool)
    (v : View capacity Incoming) (pc : ReceivePc)
    (hread : ∀ i, pc = .read i → (receiveChunk v.world).run ≠ none)
    (hpush : ∀ c i, pc = .push c i → v.output.queue.queue.length < capacity) :
    ∃ t v', (receiveChunks numChunks pc).run abort none v = some (t, v') := by
  cases pc with
  | loop i => by_cases hi : i < numChunks.toNat <;> simp [Call.run, receiveChunks, Call.exec, hi]
  | read i =>
    obtain ⟨x, hx⟩ := Option.ne_none_iff_exists'.mp (hread i rfl)
    simp [Call.run, receiveChunks, Call.exec, hx]
  | push c i =>
    obtain ⟨q, hq⟩ := BoundedThreadSafeQueue.exists_push (hpush c i rfl) c
    simp [Call.run, receiveChunks, Call.exec, hq]

end TransferManager

namespace FileManager

/-- How many steps the writer takes at most once the abort flag is set. -/
def writeAbortRank (r : TransferRequest) : Thread WritePc → ℕ
  | .running .firstPop => 10 * r.fileInfos.length + 1
  | .running (.openFile _ _ infos) => 10 * (infos.length + 1)
  | .running (.write _ _ _ infos) => 10 * infos.length + 6
  | .running (.increment _ _ _ infos) => 10 * infos.length + 5
  | .running (.inputDone _ _ _ infos) => 10 * infos.length + 4
  | .running (.inputEmpty _ _ _ infos) => 10 * infos.length + 3
  | .running (.pop _ _ infos) => 10 * infos.length + 2
  | .running (.abortCheck _ _ _ infos) => 10 * infos.length + 1
  | .caught _ => 2
  | .flagged _ => 1
  | .returned => 0

theorem writeAbortRank_forLoop_le (r : TransferRequest) (l : WriteLocals)
    (infos : List FileInfo) : writeAbortRank r (forLoop l infos) ≤ 10 * infos.length := by
  cases infos <;> simp [forLoop, writeAbortRank]

theorem writeAbortRank_whileLoop_le (r : TransferRequest) (l : WriteLocals) (path : Bytes)
    (n : ℕ) (infos : List FileInfo) :
    writeAbortRank r (whileLoop l path n infos) ≤ 10 * infos.length + 1 := by
  unfold whileLoop
  split_ifs
  · exact le_refl _
  · have := writeAbortRank_forLoop_le r l infos
    omega

theorem writeAbortRank_lt {capacity : ℕ} {r : TransferRequest} {f : Option Fault}
    {v v' : View capacity FileSystem} {pc : WritePc} {t : Thread WritePc}
    (h : WriteMove r true f v pc t v') :
    writeAbortRank r t < writeAbortRank r (.running pc) := by
  cases h with
  | goOn l path n infos hpc ha => cases ha
  | firstPopped c q hpc =>
    subst hpc
    exact Nat.lt_succ_of_le (writeAbortRank_forLoop_le r _ _)
  | opened l info infos hpc =>
    subst hpc
    have hle := writeAbortRank_whileLoop_le r l info.relativePath info.size.toNat infos
    show _ < 10 * (infos.length + 1)
    omega
  | wrote l path n infos hpc =>
    subst hpc
    have hle := writeAbortRank_whileLoop_le r
      ⟨l.chunk, l.remainingChunkData - min n l.remainingChunkData,
        l.chunkOffset + min n l.remainingChunkData⟩ path (n - min n l.remainingChunkData) infos
    show _ < 10 * infos.length + 6
    unfold afterWrite
    dsimp only
    split_ifs
    · simp [writeAbortRank]
    · omega
  | drained l path n infos hpc =>
    subst hpc
    have hle := writeAbortRank_forLoop_le r l infos
    show _ < 10 * infos.length + 3
    omega
  | popped path n infos c q hpc =>
    subst hpc
    exact Nat.lt_succ_of_le (writeAbortRank_whileLoop_le r _ _ _ _)
  | openFault l info infos x hpc | abort l path n infos hpc | writeFault l path n infos x hpc
  | counted l path n infos hpc | doneSeen l path n infos hpc | notDone l path n infos hpc
  | more l path n infos hpc =>
    subst hpc
    simp only [writeAbortRank]
    omega

/-- The points at which the writer has exhausted a chunk, or is about to, and has not yet looked at
`decryption_done`. -/
def WritePc.exhausts : WritePc → Bool
  | .write l _ n _ => l.remainingChunkData ≤ n
  | .increment _ _ _ _ | .inputDone _ _ _ _ => true
  | _ => false

/-- The points from which the writer goes on to `pop` while there is something to pop. -/
def WritePc.takes : WritePc → Bool
  | .firstPop | .increment _ _ _ _ | .inputDone _ _ _ _ | .inputEmpty _ _ _ _ | .pop _ _ _ => true
  | .write l _ n _ => l.remainingChunkData ≤ n
  | _ => false

theorem WritePc.exhausts_of_blocking {pc : WritePc} (h : pc.blocking = true) :
    pc.exhausts = false := by
  cases pc <;> first | rfl | cases h

theorem WritePc.takes_of_blocking {pc : WritePc} (h : pc.blocking = true) : pc.takes = true := by
  cases pc <;> first | rfl | cases h

theorem WritePc.takes_of_exhausts {pc : WritePc} (h : pc.exhausts = true) : pc.takes = true := by
  cases pc <;> first | exact h | rfl

theorem takes_forLoop {l : WriteLocals} {infos : List FileInfo} {pc : WritePc}
    (h : forLoop l infos = .running pc) : pc.takes = false := by
  cases infos with
  | nil => cases h
  | cons info infos =>
    cases h
    rfl

theorem takes_whileLoop {l : WriteLocals} {path : Bytes} {n : ℕ} {infos : List FileInfo}
    {pc : WritePc} (h : whileLoop l path n infos = .running pc) : pc.takes = false := by
  unfold whileLoop at h
  split_ifs at h
  · cases h
    rfl
  · exact takes_forLoop h

theorem afterWrite_of_le {l : WriteLocals} {n : ℕ} (path : Bytes) (infos : List FileInfo)
    (h : l.remainingChunkData ≤ n) :
    ∃ l' n', afterWrite l path n infos = .running (.increment l' path n' infos) := by
  unfold afterWrite
  dsimp only
  rw [if_pos (by omega)]
  exact ⟨_, _, rfl⟩

theorem takes_afterWrite {l : WriteLocals} {path : Bytes} {n : ℕ} {infos : List FileInfo}
    {pc : WritePc} (hlt : n < l.remainingChunkData)
    (h : afterWrite l path n infos = .running pc) : pc.takes = false := by
  unfold afterWrite at h
  dsimp only at h
  rw [if_neg (by omega)] at h
  exact takes_whileLoop h

/-- After an abort a writer that does not take a chunk now does not take one later. -/
theorem WriteMove.not_takes {capacity : ℕ} {r : TransferRequest} {f : Option Fault}
    {v v' : View capacity FileSystem} {pc : WritePc} {t : Thread WritePc}
    (h : WriteMove r true f v pc t v') (hpc : pc.takes = false) :
    v'.input = v.input ∧ ∀ pc', t = .running pc' → pc'.takes = false := by
  cases h with
  | goOn l path n infos hpc' ha => cases ha
  | opened l info infos hpc' => exact ⟨rfl, fun pc' ht => takes_whileLoop ht⟩
  | wrote l path n infos hpc' =>
    subst hpc'
    refine ⟨rfl, fun pc' ht => ?_⟩
    exact takes_afterWrite (by simpa [WritePc.takes] using hpc) ht
  | openFault | abort | writeFault => exact ⟨rfl, nofun⟩
  | firstPopped _ _ hpc' | counted _ _ _ _ hpc' | doneSeen _ _ _ _ hpc' | notDone _ _ _ _ hpc'
  | drained _ _ _ _ hpc' | more _ _ _ _ hpc' | popped _ _ _ _ _ hpc' =>
    subst hpc'
    cases hpc

/-- A writer that has taken a chunk does not take another one. -/
theorem WriteMove.popped_not_takes {capacity : ℕ} {r : TransferRequest} {abort : Bool}
    {f : Option Fault} {v v' : View capacity FileSystem} {pc : WritePc} {t : Thread WritePc}
    (h : WriteMove r abort f v pc t v') (hpc : pc.blocking = true) :
    v'.input.queue.queue.length < v.input.queue.queue.length ∧
      ∀ pc', t = .running pc' → pc'.takes = false := by
  cases h with
  | firstPopped c q hpc' hq =>
    refine ⟨?_, fun pc' ht => takes_forLoop ht⟩
    rw [BoundedThreadSafeQueue.length_of_pop hq]
    exact Nat.lt_succ_self _
  | popped path n infos c q hpc' hq =>
    refine ⟨?_, fun pc' ht => takes_whileLoop ht⟩
    rw [BoundedThreadSafeQueue.length_of_pop hq]
    exact Nat.lt_succ_self _
  | opened _ _ _ hpc' | openFault _ _ _ _ hpc' | abort _ _ _ _ hpc' | goOn _ _ _ _ hpc'
  | wrote _ _ _ _ hpc' | writeFault _ _ _ _ _ hpc' | counted _ _ _ _ hpc'
  | doneSeen _ _ _ _ hpc' | notDone _ _ _ _ hpc' | drained _ _ _ _ hpc' | more _ _ _ _ hpc' =>
    subst hpc'
    cases hpc

/-- After an abort a writer that does not wait goes on.  Either it leaves room on its input, or it
still takes a chunk later, or it took none before; and it does not begin to wait in vain. -/
theorem WriteMove.abort_progress {capacity : ℕ} (hcap : 1 ≤ capacity) {r : TransferRequest}
    {v v' : View capacity FileSystem} {pc : WritePc} {t : Thread WritePc}
    (h : WriteMove r true none v pc t v')
    (hdone : pc.exhausts = true → v.input.queue.queue = [] → v.input.done = true) :
    (v'.input.queue.queue.length < capacity ∨ (∃ pc', t = .running pc' ∧ pc'.takes = true) ∨
      pc.takes = false) ∧
    ∀ pc', t = .running pc' → (pc'.blocking = true → v'.input.queue.queue ≠ []) ∧
      (pc'.exhausts = true → v'.input.queue.queue = [] → v'.input.done = true) := by
  -- a writer that takes no chunk neither blocks nor exhausts one
  have hquiet : (∀ pc', t = .running pc' → pc'.takes = false) → ∀ pc', t = .running pc' →
      (pc'.blocking = true → v'.input.queue.queue ≠ []) ∧
        (pc'.exhausts = true → v'.input.queue.queue = [] → v'.input.done = true) := by
    intro ht pc' hpc'
    have hno := ht pc' hpc'
    refine ⟨fun hb => ?_, fun he => ?_⟩
    · cases hno.symm.trans (WritePc.takes_of_blocking hb)
    · cases hno.symm.trans (WritePc.takes_of_exhausts he)
  cases h with
  | firstPopped c q hpc hq =>
    exact ⟨Or.inl (BoundedThreadSafeQueue.length_lt_capacity_of_pop hq),
      hquiet fun pc' => takes_forLoop⟩
  | popped path n infos c q hpc hq =>
    exact ⟨Or.inl (BoundedThreadSafeQueue.length_lt_capacity_of_pop hq),
      hquiet fun pc' => takes_whileLoop⟩
  | opened l info infos hpc =>
    subst hpc
    exact ⟨Or.inr (Or.inr rfl), hquiet fun pc' => takes_whileLoop⟩
  | abort l path n infos hpc =>
    subst hpc
    exact ⟨Or.inr (Or.inr rfl), by simp⟩
  | wrote l path n infos hpc =>
    subst hpc
    by_cases hle : l.remainingChunkData ≤ n
    · obtain ⟨l', n', hafter⟩ := afterWrite_of_le path infos hle
      refine ⟨Or.inr (Or.inl ⟨_, hafter, rfl⟩), fun pc' hpc' => ?_⟩
      rw [hafter] at hpc'
      cases hpc'
      exact ⟨(fun hb => by cases hb), fun _ => hdone (by simpa [WritePc.exhausts] using hle)⟩
    · refine ⟨Or.inr (Or.inr ?_), hquiet fun pc' => takes_afterWrite (Nat.lt_of_not_le hle)⟩
      simpa [WritePc.takes] using hle
  | counted l path n infos hpc =>
    subst hpc
    refine ⟨Or.inr (Or.inl ⟨_, rfl, rfl⟩), fun pc' hpc' => ?_⟩
    cases hpc'
    exact ⟨(fun hb => by cases hb), fun _ => hdone rfl⟩
  | doneSeen l path n infos hpc hd =>
    refine ⟨Or.inr (Or.inl ⟨_, rfl, rfl⟩), fun pc' hpc' => ?_⟩
    cases hpc'
    exact ⟨(fun hb => by cases hb), (fun he => by cases he)⟩
  | notDone l path n infos hpc hd =>
    subst hpc
    refine ⟨Or.inr (Or.inl ⟨_, rfl, rfl⟩), fun pc' hpc' => ?_⟩
    cases hpc'
    refine ⟨fun _ hnil => ?_, (fun he => by cases he)⟩
    rw [hdone rfl hnil] at hd
    cases hd
  | drained l path n infos hpc hq =>
    refine ⟨Or.inl ?_, hquiet fun pc' => takes_forLoop⟩
    rw [hq]
    exact hcap
  | more l path n infos hpc hq =>
    refine ⟨Or.inr (Or.inl ⟨_, rfl, rfl⟩), fun pc' hpc' => ?_⟩
    cases hpc'
    exact ⟨fun _ => hq, (fun he => by cases he)⟩
  | goOn _ _ _ _ _ ha => cases ha
  | openFault _ _ _ _ _ hf | writeFault _ _ _ _ _ _ hf => cases hf

end FileManager

namespace Receiver

open FileManager TransferManager

variable {capacity : ℕ} {ss : SecretStream} {r : TransferRequest} {s t : State capacity ss}

/-! ### When the workers can all return -/

/-- The chunk `c` is the next one for the decryptor: it is at the head of the queue, or the queue
is empty and the chunk receiver is about to push it. -/
def Offered (s : State capacity ss) (c : Chunk) : Prop :=
  s.upstream.queue.queue.head? = some c ∨
    s.upstream.queue.queue = [] ∧ ((∃ i, s.producer = .running (.push c i)) ∨
      ∃ i socket, s.producer = .running (.read i) ∧
        (receiveChunk s.source).run = some (.ok (c, socket)))

/-- The decryptor can get one more chunk to the writer: after an abort it takes no new chunk,
unless it is already at `try_pop`. -/
def Delivers (s : State capacity ss) : Prop :=
  match s.stage with
  | .running (.push _ _) => True
  | .running (.transform m c) => ∃ x, m.decryptChunk c = .ok x
  | .running (.tryPop m) => ∃ c x, Offered s c ∧ m.decryptChunk c = .ok x
  | _ => False

/-- The decryptor can get to the end of its loop, where it sets `decryption_done`, without another
chunk. -/
def Finishes (s : State capacity ss) : Prop :=
  match s.stage with
  | .running (.abortCheck _) | .running (.inputDone _) | .running (.inputEmpty _)
  | .running .outputDone => True
  | .running (.tryPop _) => s.upstream.queue.queue = []
  | _ => False

/-- What the workers need from each other and from the peer: a read needs a frame, or the end of the
connection; a worker on its way to a `push` needs room, or a consumer that makes some; a writer that
waits for a chunk needs one; and a writer that has exhausted a chunk, or exhausts it next, needs
another one or the end of its input. -/
structure Served (r : TransferRequest) (s : State capacity ss) : Prop where
  reading : ∀ i, s.producer = .running (.read i) → (receiveChunk s.source).run ≠ none
  receiver : ReceivePushes s.source s.producer → s.UpstreamRoom
  decryptor : s.WillPush (program ss r) → s.downstream.queue.queue.length < capacity ∨
    ∃ pc, s.consumer = .running pc ∧ pc.takes = true
  waiting : ∀ pc, s.consumer = .running pc → pc.blocking = true →
    s.downstream.queue.queue = [] → Delivers s
  exhausted : ∀ pc, s.consumer = .running pc → pc.exhausts = true →
    s.downstream.queue.queue = [] → s.downstream.done = false → Delivers s ∨ Finishes s

/-- The work left after an abort. -/
def abortWork (r : TransferRequest) (s : State capacity ss) : ℕ :=
  Pipeline.abortWork receiveAbortRank (writeAbortRank r) s

/-- After an abort every step of a thread brings it closer to its end. -/
theorem abortWork_lt {a : Action} (ha : a ≠ .main) (habort : s.ctx.abortFlag = true)
    (h : step r s a = some t) : abortWork r t < abortWork r s :=
  Pipeline.abortWork_lt (fun hrun => receiveAbortRank_lt (receiveMove_of_run hrun))
    (fun hrun => writeAbortRank_lt (writeMove_of_run hrun))
    (fun _ => by simp [receiveAbortRank]) (fun _ => by simp [writeAbortRank]) ha habort h

/-! ### Served states are where the end can be reached from -/

/-- What the decryptor is offered after a step of the chunk receiver, it was offered before. -/
theorem Offered.of_producer {f : Option Fault} {c : Chunk} (habort : s.ctx.abortFlag = true)
    (h : step r s (.producer f) = some t) (ht : Offered t c) : Offered s c := by
  have hflag : s.ctx.shouldAbort = true := habort
  rcases Pipeline.step_producer_cases h with ⟨pc, th, v, hs, hrun, rfl⟩ | ⟨e, he, -, rfl⟩ |
    ⟨e, he, -, rfl⟩
  · rw [hflag] at hrun
    cases receiveMove_of_run hrun with
    | goOn i hpc hi ha => cases ha
    | received i d socket hpc hr =>
      rcases ht with hhead | ⟨hnil, ⟨j, hpush⟩ | ⟨j, socket', hread, -⟩⟩
      · exact Or.inl hhead
      · cases hpush
        exact Or.inr ⟨hnil, Or.inr ⟨i, socket, hpc ▸ hs, hr⟩⟩
      · exact nomatch hread
    | pushed d i q hpc hq =>
      obtain ⟨-, -, hqueue⟩ := BoundedThreadSafeQueue.push_eq_some.mp hq
      change q.queue = s.upstream.queue.queue ++ [d] at hqueue
      rcases ht with hhead | ⟨hnil, -⟩
      · change q.queue.head? = some c at hhead
        rw [hqueue] at hhead
        cases hup : s.upstream.queue.queue with
        | nil =>
          rw [hup] at hhead
          cases hhead
          exact Or.inr ⟨hup, Or.inl ⟨i, hpc ▸ hs⟩⟩
        | cons d' rest =>
          rw [hup] at hhead
          exact Or.inl (by rw [hup]; exact hhead)
      · change q.queue = [] at hnil
        rw [hnil] at hqueue
        exact absurd hqueue.symm (by simp)
    | abort | finished | threw | fault =>
      rcases ht with hhead | ⟨-, ⟨j, hth⟩ | ⟨j, socket, hth, -⟩⟩
      · exact Or.inl hhead
      · exact nomatch hth
      · exact nomatch hth
  · rcases ht with hhead | ⟨-, ⟨j, hth⟩ | ⟨j, socket, hth, -⟩⟩
    · exact Or.inl hhead
    · exact nomatch hth
    · exact nomatch hth
  · rcases ht with hhead | ⟨-, ⟨j, hth⟩ | ⟨j, socket, hth, -⟩⟩
    · exact Or.inl hhead
    · exact nomatch hth
    · exact nomatch hth

/-- A step of the chunk receiver leaves the decryptor alone, and can only add to its input. -/
theorem stage_of_producer {f : Option Fault} (h : step r s (.producer f) = some t) :
    t.stage = s.stage ∧ s.upstream.queue.queue <+: t.upstream.queue.queue := by
  rcases Pipeline.step_producer_cases h with ⟨pc, th, v, -, hrun, rfl⟩ | ⟨e, -, -, rfl⟩ |
    ⟨e, -, -, rfl⟩
  · exact ⟨rfl, Call.run_output_queue hrun⟩
  · exact ⟨rfl, List.prefix_rfl⟩
  · exact ⟨rfl, List.prefix_rfl⟩

/-- What the decryptor can deliver depends on what it is offered. -/
theorem Delivers.of_producer {f : Option Fault} (habort : s.ctx.abortFlag = true)
    (h : step r s (.producer f) = some t) (ht : Delivers t) : Delivers s := by
  unfold Delivers at ht ⊢
  rw [(stage_of_producer h).1] at ht
  split at ht
  · trivial
  · exact ht
  · obtain ⟨c, x, hoffered, hx⟩ := ht
    exact ⟨c, x, hoffered.of_producer habort h, hx⟩
  · exact ht

/-- A step of the chunk receiver can only give the decryptor more to do. -/
theorem Finishes.of_producer {f : Option Fault} (h : step r s (.producer f) = some t)
    (ht : Finishes t) : Finishes s := by
  obtain ⟨hstage, hqueue⟩ := stage_of_producer h
  unfold Finishes at ht ⊢
  rw [hstage] at ht
  split at ht
  · trivial
  · trivial
  · trivial
  · trivial
  · rw [ht] at hqueue
    exact List.prefix_nil.mp hqueue
  · exact ht

/-- After an abort a decryptor that delivers after its step delivers before it; a step that pushes
comes from such a state, too. -/
theorem Delivers.of_stage {f : Option Fault} (habort : s.ctx.abortFlag = true)
    (h : step r s (.stage f) = some t) (hempty : s.downstream.queue.queue = [])
    (ht : t.downstream.queue.queue = [] → Delivers t) : Delivers s := by
  have hflag : s.ctx.shouldAbort = true := habort
  unfold Delivers
  rcases Pipeline.step_stage_cases h with ⟨pc, th, v, hs, hmove, rfl⟩ | ⟨e, he, -, rfl⟩ |
    ⟨e, he, -, rfl⟩
  · rw [hflag] at hmove
    rw [hs]
    cases hmove with
    | goOn m hpc ha => cases ha
    | popped m c q hpc hq =>
      subst hpc
      obtain ⟨x, hx⟩ := ht hempty
      refine ⟨c, x, Or.inl ?_, hx⟩
      have hqueue := (BoundedThreadSafeQueue.pop_eq_some.mp hq).1
      change s.upstream.queue.queue = _ at hqueue
      rw [hqueue]
      rfl
    | transformed m m' c d hpc hx =>
      subst hpc
      exact ⟨_, hx⟩
    | pushed m c q hpc hq =>
      subst hpc
      trivial
    | abort | missed | threw | fault | doneSeen | notDone | drained | more | finished =>
      exact (ht hempty).elim
  · exact (ht hempty).elim
  · exact (ht hempty).elim

/-- After an abort a decryptor that delivers or finishes after its step does so before it; a
step that pushes or sets the flag comes from such a state, too. -/
theorem delivers_or_finishes_of_stage {f : Option Fault} (habort : s.ctx.abortFlag = true)
    (h : step r s (.stage f) = some t) (hempty : s.downstream.queue.queue = [])
    (hdone : s.downstream.done = false)
    (ht : t.downstream.queue.queue = [] → t.downstream.done = false → Delivers t ∨ Finishes t) :
    Delivers s ∨ Finishes s := by
  have hflag : s.ctx.shouldAbort = true := habort
  unfold Finishes
  rcases Pipeline.step_stage_cases h with ⟨pc, th, v, hs, hmove, rfl⟩ | ⟨e, he, -, rfl⟩ |
    ⟨e, he, -, rfl⟩
  · rw [hflag] at hmove
    rw [hs]
    cases hmove with
    | goOn m hpc ha => cases ha
    | abort m hpc | doneSeen m hpc | notDone m hpc | drained m hpc | more m hpc | finished hpc =>
      subst hpc
      exact Or.inr trivial
    | missed m hpc hq =>
      subst hpc
      exact Or.inr hq
    | popped m c q hpc hq =>
      rcases ht hempty hdone with hdelivers | hfinishes
      · exact Or.inl (Delivers.of_stage habort h hempty fun _ => hdelivers)
      · exact hfinishes.elim
    | transformed m m' c d hpc hx =>
      subst hpc
      exact Or.inl (by unfold Delivers; rw [hs]; exact ⟨_, hx⟩)
    | pushed m c q hpc hq =>
      subst hpc
      exact Or.inl (by unfold Delivers; rw [hs]; trivial)
    | threw m c e hpc | fault m c x hpc =>
      rcases ht hempty hdone with hdelivers | hfinishes
      · exact hdelivers.elim
      · exact hfinishes.elim
  · rcases ht hempty hdone with hdelivers | hfinishes
    · exact hdelivers.elim
    · exact hfinishes.elim
  · rcases ht hempty hdone with hdelivers | hfinishes
    · exact hdelivers.elim
    · exact hfinishes.elim

/-- A step of the chunk receiver finds what it needs, or leaves its push ahead; and it gives the
decryptor no less to do. -/
theorem Served.of_producer (habort : s.ctx.abortFlag = true)
    (h : step r s (.producer none) = some t) (ht : Served r t) : Served r s := by
  have hdelivers : Delivers t → Delivers s := Delivers.of_producer habort h
  have hfinishes : Finishes t → Finishes s := Finishes.of_producer h
  have hlater : (∀ i, s.producer = .running (.read i) → (receiveChunk s.source).run ≠ none) →
      (ReceivePushes s.source s.producer → s.UpstreamRoom) →
      (s.WillPush (program ss r) → t.WillPush (program ss r)) →
      t.downstream = s.downstream → t.consumer = s.consumer → Served r s := by
    intro hreading hreceiver hw hdown hconsumer
    refine ⟨hreading, hreceiver, fun hpush => ?_, fun pc hc hb hempty => ?_,
      fun pc hc he hempty hd => ?_⟩
    · rw [← hdown, ← hconsumer]
      exact ht.decryptor (hw hpush)
    · exact hdelivers (ht.waiting pc (hconsumer.trans hc) hb (hdown ▸ hempty))
    · exact (ht.exhausted pc (hconsumer.trans hc) he (hdown ▸ hempty) (hdown ▸ hd)).imp hdelivers
        hfinishes
  rcases Pipeline.step_producer_cases h with ⟨pc, th, v, hs, hrun, rfl⟩ | ⟨e, he, -, rfl⟩ |
    ⟨e, he, -, rfl⟩
  · rw [show s.ctx.shouldAbort = true from habort] at hrun
    have hmove := receiveMove_of_run hrun
    refine hlater (fun i hi hnone => ?_) (fun hp => ?_)
      (fun hw => hw.mono (Call.run_output_queue hrun)) rfl rfl
    · obtain rfl := Thread.running.inj (hs.symm.trans hi)
      change (receiveChunk s.producerView.world).run = none at hnone
      cases hmove with
      | received i' c socket hpc hr => cases hnone.symm.trans hr
      | threw i' e hpc hr => cases hnone.symm.trans hr
      | fault i' x hpc hf => cases hf
      | abort _ hpc | goOn _ hpc | finished _ hpc | pushed _ _ _ hpc => cases hpc
    · rw [hs] at hp
      rcases ReceivePushes.move hp hmove with hroom | ⟨hp', houtput⟩
      · exact Or.inl hroom
      · have hroom := ht.receiver hp'
        unfold Pipeline.UpstreamRoom at hroom ⊢
        dsimp only at hroom
        rw [houtput] at hroom
        exact hroom
  · refine hlater (fun i hi => nomatch he.symm.trans hi) (fun hp => ?_) id rfl rfl
    rw [he] at hp
    exact hp.elim
  · refine hlater (fun i hi => nomatch he.symm.trans hi) (fun hp => ?_) id rfl rfl
    rw [he] at hp
    exact hp.elim

/-- After an abort a step of the decryptor serves the others only if they were served. -/
theorem Served.of_stage (habort : s.ctx.abortFlag = true) (h : step r s (.stage none) = some t)
    (ht : Served r t) : Served r s := by
  obtain ⟨hproducer, hconsumer⟩ := Pipeline.threads_of_stage h
  have hsource := Pipeline.source_of_stage h
  refine ⟨fun i hi => ?_, fun hp => ?_, fun hw => ?_, fun pc hc hb hempty => ?_,
    fun pc hc he hempty hdone => ?_⟩
  · rw [← hsource]
    exact ht.reading i (hproducer.trans hi)
  · rw [← hsource, ← hproducer] at hp
    exact (ht.receiver hp).of_stage habort h
  · rcases hw.of_stage habort h with hroom | ⟨hw', hdown⟩
    · exact Or.inl hroom
    · rw [← hdown, ← hconsumer]
      exact ht.decryptor hw'
  · exact Delivers.of_stage habort h hempty (ht.waiting pc (hconsumer.trans hc) hb)
  · exact delivers_or_finishes_of_stage habort h hempty hdone
      (ht.exhausted pc (hconsumer.trans hc) he)

/-- After an abort a step of the writer comes from a state in which it had what it needs. -/
theorem Served.of_consumer (habort : s.ctx.abortFlag = true)
    (h : step r s (.consumer none) = some t) (ht : Served r t) : Served r s := by
  rcases Pipeline.step_consumer_cases h with ⟨pc, th, v, hs, hrun, rfl⟩ | ⟨e, he, -, rfl⟩ |
    ⟨e, he, -, rfl⟩
  · rw [show s.ctx.shouldAbort = true from habort] at hrun
    have hmove := writeMove_of_run hrun
    refine ⟨ht.reading, ht.receiver, fun hw => ?_, fun pc' hc hb hempty => ?_,
      fun pc' hc hb hempty hdone => ?_⟩
    · -- a writer that does not take a chunk leaves the queue as it is
      by_cases htakes : pc.takes = true
      · exact Or.inr ⟨pc, hs, htakes⟩
      · obtain ⟨hinput, hth⟩ := hmove.not_takes (Bool.eq_false_iff.mpr htakes)
        rcases ht.decryptor hw with hroom | ⟨pc', hpc', htakes'⟩
        · change v.input.queue.queue.length < capacity at hroom
          rw [hinput] at hroom
          exact Or.inl hroom
        · exact nomatch (hth pc' hpc').symm.trans htakes'
    · obtain rfl := Thread.running.inj (hs.symm.trans hc)
      have hlt := (hmove.popped_not_takes hb).1
      change _ < s.downstream.queue.queue.length at hlt
      rw [hempty] at hlt
      exact absurd hlt (Nat.not_lt_zero _)
    · obtain rfl := Thread.running.inj (hs.symm.trans hc)
      cases hmove with
      | wrote l path n infos hpc =>
        subst hpc
        obtain ⟨l', n', hafter⟩ := afterWrite_of_le path infos
          (show l.remainingChunkData ≤ n by simpa [WritePc.exhausts] using hb)
        exact ht.exhausted _ hafter rfl hempty hdone
      | counted l path n infos hpc => exact ht.exhausted _ rfl rfl hempty hdone
      | notDone l path n infos hpc hd => exact Or.inl (ht.waiting _ rfl rfl hempty)
      | doneSeen l path n infos hpc hd => exact nomatch hdone.symm.trans hd
      | writeFault _ _ _ _ _ hpc hf => cases hf
      | firstPopped _ _ hpc | opened _ _ _ hpc | openFault _ _ _ _ hpc | abort _ _ _ _ hpc
      | goOn _ _ _ _ hpc | drained _ _ _ _ hpc | more _ _ _ _ hpc | popped _ _ _ _ _ hpc =>
        subst hpc
        cases hb
  · refine ⟨ht.reading, ht.receiver, fun hw => ?_, fun pc' hc => (nomatch he.symm.trans hc),
      fun pc' hc => nomatch he.symm.trans hc⟩
    exact (ht.decryptor hw).imp id fun ⟨_, hth, _⟩ => nomatch hth
  · refine ⟨ht.reading, ht.receiver, fun hw => ?_, fun pc' hc => (nomatch he.symm.trans hc),
      fun pc' hc => nomatch he.symm.trans hc⟩
    exact (ht.decryptor hw).imp id fun ⟨_, hth, _⟩ => nomatch hth

/-- After an abort, as long as nothing else fails, a served state comes from served states only. -/
theorem Served.of_step {a : Action} (habort : s.ctx.abortFlag = true) (ha : quiet s a)
    (h : step r s a = some t) (ht : Served r t) : Served r s := by
  cases a with
  | producer f =>
    obtain rfl : f = none := by simpa [quiet, Action.quiet] using ha
    exact ht.of_producer habort h
  | stage f =>
    obtain rfl : f = none := by simpa [quiet, Action.quiet] using ha
    exact ht.of_stage habort h
  | consumer f =>
    obtain rfl : f = none := by simpa [quiet, Action.quiet] using ha
    exact ht.of_consumer habort h
  | tracker f =>
    rcases Pipeline.step_tracker_cases h with ⟨pc, th, hs, hmove, rfl⟩ | ⟨e, he, -, rfl⟩ |
      ⟨e, he, -, rfl⟩
    · exact ⟨ht.reading, ht.receiver, ht.decryptor, ht.waiting, ht.exhausted⟩
    · exact ⟨ht.reading, ht.receiver, ht.decryptor, ht.waiting, ht.exhausted⟩
    · exact ⟨ht.reading, ht.receiver, ht.decryptor, ht.waiting, ht.exhausted⟩
  | main =>
    obtain ⟨-, -, ⟨e, -, rfl⟩ | ⟨-, rfl⟩⟩ := Pipeline.step_main_cases h
    · exact ⟨ht.reading, ht.receiver, ht.decryptor, ht.waiting, ht.exhausted⟩
    · exact ⟨ht.reading, ht.receiver, ht.decryptor, ht.waiting, ht.exhausted⟩

/-- A chunk receiver or a decryptor that has returned needs nothing. -/
theorem not_receivePushes_returned {source : Incoming} {th : Thread ReceivePc}
    (h : ∀ pc, th ≠ .running pc) : ¬ ReceivePushes source th := by
  cases th with
  | running pc => exact absurd rfl (h pc)
  | caught e | flagged e | returned => exact id

theorem not_willPush_returned (hstage : s.stage = .returned) : ¬ s.WillPush (program ss r) := by
  unfold Pipeline.WillPush
  rw [hstage]
  exact id

/-- After an abort the workers can all return from served states only. -/
theorem served_of_canReach (habort : s.ctx.abortFlag = true)
    (h : CanReach (step r) quiet (fun t => t.joinable = true) s) : Served r s := by
  obtain ⟨t, ht, hjoin⟩ := h
  obtain ⟨hproducer, hstage, hconsumer, -⟩ := Pipeline.joinable_iff.mp hjoin
  have hserved : Served r t :=
    ⟨fun i hi => (nomatch hproducer.symm.trans hi),
      fun hp => absurd hp (not_receivePushes_returned (by rw [hproducer]; exact nofun)),
      fun hw => absurd hw (not_willPush_returned hstage),
      fun pc hc => (nomatch hconsumer.symm.trans hc),
      fun pc hc => nomatch hconsumer.symm.trans hc⟩
  exact Reach.backward (I := fun u => u.ctx.abortFlag = true)
    (fun _ _ _ hu _ hs => Pipeline.abortFlag_of_step hs hu)
    (fun _ _ _ hu ha hs hv => Served.of_step hu ha hs hv) ht habort hserved

/-- The writer has returned, or it waits for what the decryptor does. -/
def WriterRests (s : State capacity ss) : Prop :=
  s.consumer = .returned ∨ s.downstream.queue.queue = [] ∧ ∃ pc, s.consumer = .running pc ∧
    (pc.blocking = true ∨ pc.exhausts = true ∧ s.downstream.done = false)

/-- A writer that does not rest can go on and leave the state served. -/
theorem Served.writer_progress (hcap : 1 ≤ capacity) (habort : s.ctx.abortFlag = true)
    (hs : Served r s) (hrests : ¬ WriterRests s) :
    ∃ t, step r s (.consumer none) = some t ∧ Served r t := by
  have hflag : s.ctx.shouldAbort = true := habort
  rcases s.consumer.cases_thrown with ⟨pc, hc⟩ | hc | hc
  · have hblocking : pc.blocking = true → s.consumerView.input.queue.queue ≠ [] := by
      intro hb hnil
      exact hrests (Or.inr ⟨hnil, pc, hc, Or.inl hb⟩)
    have hdone : pc.exhausts = true → s.consumerView.input.queue.queue = [] →
        s.consumerView.input.done = true := by
      intro he hnil
      by_contra hd
      exact hrests (Or.inr ⟨hnil, pc, hc, Or.inr ⟨he, Bool.eq_false_iff.mpr hd⟩⟩)
    obtain ⟨th, v, hrun⟩ := exists_run r true hblocking
    have hmove := writeMove_of_run hrun
    obtain ⟨hroom, hth⟩ := hmove.abort_progress hcap hdone
    rw [← hflag] at hrun
    refine ⟨_, Pipeline.step_consumer_of_run (program ss r) hc hrun, hs.reading, hs.receiver,
      fun hw => ?_, fun pc' hc' hb hnil => ?_, fun pc' hc' he hnil hd => ?_⟩
    · rcases hroom with hroom | htakes | htakes
      · exact Or.inl hroom
      · exact Or.inr htakes
      · -- the queue is as it was, and had room before
        refine Or.inl ?_
        show v.input.queue.queue.length < capacity
        rw [(hmove.not_takes htakes).1]
        refine (hs.decryptor hw).resolve_right fun ⟨pc', hc', htakes'⟩ => ?_
        obtain rfl := Thread.running.inj (hc.symm.trans hc')
        exact nomatch htakes.symm.trans htakes'
    · exact absurd hnil ((hth pc' hc').1 hb)
    · exact nomatch ((hth pc' hc').2 he hnil).symm.trans hd
  · obtain ⟨th, ctx, hstep, hth⟩ := Pipeline.exists_step_consumer (program ss r) hc
    refine ⟨_, hstep, hs.reading, hs.receiver, fun hw => ?_,
      fun pc' hc' => absurd hc' (hth pc'), fun pc' hc' => absurd hc' (hth pc')⟩
    refine (hs.decryptor hw).imp id fun ⟨pc', hc', _⟩ => ?_
    rw [hc'] at hc
    exact nomatch hc
  · exact absurd (Or.inl hc) hrests

/-- A state is served while the writer waits, if the chunk receiver has what it needs and the
decryptor delivers, or finishes in case the writer only needs to know. -/
theorem served_of_waiting {pc : WritePc} (hcap : 1 ≤ capacity) (hc : s.consumer = .running pc)
    (hempty : s.downstream.queue.queue = [])
    (hreading : ∀ i, s.producer = .running (.read i) → (receiveChunk s.source).run ≠ none)
    (hreceiver : ReceivePushes s.source s.producer → s.upstream.queue.queue.length < capacity)
    (hneeds : Delivers s ∨ pc.exhausts = true ∧ Finishes s) : Served r s where
  reading := hreading
  receiver hp := Or.inl (hreceiver hp)
  decryptor := by
    intro _
    rw [hempty]
    exact Or.inl hcap
  waiting := by
    intro pc' hc' hb _
    obtain rfl := Thread.running.inj (hc.symm.trans hc')
    exact hneeds.resolve_right fun ⟨he, _⟩ =>
      nomatch (WritePc.exhausts_of_blocking hb).symm.trans he
  exhausted := by
    intro pc' _ _ _ _
    exact hneeds.imp id And.right

/-- While the writer waits and the decryptor would miss its chunk, the chunk receiver can go on: it
pushes that chunk, or reads its frame. -/
theorem waiting_receiver_progress {pc : WritePc} {m : EncryptionManager ss} (hcap : 1 ≤ capacity)
    (hc : s.consumer = .running pc) (hempty : s.downstream.queue.queue = [])
    (hst : s.stage = .running (.tryPop m)) (hnil : s.upstream.queue.queue = [])
    (hneeds : Delivers s) : ∃ t, step r s (.producer none) = some t ∧ Served r t := by
  unfold Delivers at hneeds
  rw [hst] at hneeds
  obtain ⟨c, x, hoffered, hx⟩ := hneeds
  rcases hoffered with hhead | ⟨-, ⟨i, hp⟩ | ⟨i, socket, hp, hread⟩⟩
  · rw [hnil] at hhead
    cases hhead
  · obtain ⟨q, hpush⟩ := BoundedThreadSafeQueue.exists_push
      (q := s.upstream.queue) (by rw [hnil]; exact hcap) c
    have hrun : (receiveChunks r.numChunks (.push c i)).run s.ctx.shouldAbort none
        s.producerView = some (.running (.loop (i + 1)),
          { s.producerView with output := { s.upstream with queue := q } }) := by
      simp [Call.run, receiveChunks, Call.exec, Pipeline.producerView, hpush]
    refine ⟨_, Pipeline.step_producer_of_run (program ss r) hp hrun,
      served_of_waiting hcap hc hempty (by simp) (fun hp' => hp'.elim) (Or.inl ?_)⟩
    unfold Delivers
    rw [hst]
    refine ⟨c, x, Or.inl ?_, hx⟩
    show q.queue.head? = some c
    rw [(BoundedThreadSafeQueue.push_eq_some.mp hpush).2.2, hnil]
    rfl
  · have hrun : (receiveChunks r.numChunks (.read i)).run s.ctx.shouldAbort none
        s.producerView =
          some (.running (.push c i), { s.producerView with world := socket }) := by
      simp [Call.run, receiveChunks, Call.exec, Pipeline.producerView, hread]
    refine ⟨_, Pipeline.step_producer_of_run (program ss r) hp hrun,
      served_of_waiting hcap hc hempty (by simp) (fun _ => ?_) (Or.inl ?_)⟩
    · show s.upstream.queue.queue.length < capacity
      rw [hnil]
      exact hcap
    · unfold Delivers
      rw [hst]
      exact ⟨c, x, Or.inr ⟨hnil, Or.inl ⟨i, rfl⟩⟩, hx⟩

/-- While the writer waits, a decryptor that delivers or finishes after its step may take it. -/
theorem Served.waiting_stage_progress {pc : WritePc} {spc : ProcessPc (EncryptionManager ss)}
    {th : Thread (ProcessPc (EncryptionManager ss))} {v : View capacity Unit}
    (hcap : 1 ≤ capacity) (hs : Served r s) (hc : s.consumer = .running pc)
    (hst : s.stage = .running spc)
    (hroom : ReceivePushes s.source s.producer → v.input.queue.queue.length < capacity)
    (hrun : (processChunks EncryptionManager.decryptChunk spc).run s.ctx.shouldAbort none
      s.stageView = some (th, v)) (hempty : v.output.queue.queue = [])
    (hneeds : Delivers ({ s with stage := th, upstream := v.input, downstream := v.output } :
        State capacity ss) ∨
      pc.exhausts = true ∧ Finishes ({ s with
        stage := th, upstream := v.input, downstream := v.output } : State capacity ss)) :
    ∃ t, step r s (.stage none) = some t ∧ Served r t :=
  ⟨_, Pipeline.step_stage_of_run (program ss r) hst hrun,
    served_of_waiting hcap hc hempty hs.reading hroom hneeds⟩

/-- While the writer waits, a decryptor at `try_pop` takes the next chunk if there is one.  If there
is none, it goes on when the writer only needs to know, and else the chunk receiver does. -/
theorem Served.waiting_tryPop_progress {pc : WritePc} {m : EncryptionManager ss}
    (hcap : 1 ≤ capacity) (hs : Served r s) (hc : s.consumer = .running pc)
    (hempty : s.downstream.queue.queue = []) (hst : s.stage = .running (.tryPop m))
    (hneeds : Delivers s ∨ pc.exhausts = true ∧ Finishes s) :
    ∃ a t, quiet s a ∧ a ≠ .main ∧ step r s a = some t ∧ Served r t := by
  cases hq : s.upstream.queue.pop with
  | some taken =>
    obtain ⟨c, q⟩ := taken
    obtain ⟨hqueue, -⟩ := BoundedThreadSafeQueue.pop_eq_some.mp hq
    have hrun : (processChunks EncryptionManager.decryptChunk (.tryPop m)).run
        s.ctx.shouldAbort none s.stageView = some (.running (.transform m c),
          { s.stageView with input := { s.upstream with queue := q } }) := by
      simp [Call.run, processChunks, Call.exec, Pipeline.stageView, hq]
    have hsize := BoundedThreadSafeQueue.length_lt_capacity_of_pop hq
    have hdecrypts : ∃ x, m.decryptChunk c = .ok x := by
      unfold Delivers Finishes at hneeds
      rw [hst] at hneeds
      rcases hneeds with ⟨d, x, hhead | ⟨hnil, -⟩, hx⟩ | ⟨-, hnil⟩
      · rw [hqueue] at hhead
        cases hhead
        exact ⟨x, hx⟩
      · cases hqueue.symm.trans hnil
      · cases hqueue.symm.trans hnil
    obtain ⟨t, hstep, ht⟩ := hs.waiting_stage_progress hcap hc hst (fun _ => hsize) hrun hempty
      (Or.inl hdecrypts)
    exact ⟨.stage none, t, rfl, by simp, hstep, ht⟩
  | none =>
    have hnil := BoundedThreadSafeQueue.pop_eq_none.mp hq
    by_cases he : pc.exhausts = true
    · -- the writer only needs to know, so the decryptor may miss
      have hrun : (processChunks EncryptionManager.decryptChunk (.tryPop m)).run
          s.ctx.shouldAbort none s.stageView =
            some (.running (.inputDone m), s.stageView) := by
        simp [Call.run, processChunks, Call.exec, Pipeline.stageView, hq]
      have hroom : s.upstream.queue.queue.length < capacity := by
        rw [hnil]
        exact hcap
      obtain ⟨t, hstep, ht⟩ := hs.waiting_stage_progress hcap hc hst (fun _ => hroom) hrun hempty
        (Or.inr ⟨he, trivial⟩)
      exact ⟨.stage none, t, rfl, by simp, hstep, ht⟩
    · obtain ⟨t, hstep, ht⟩ := waiting_receiver_progress (r := r) hcap hc hempty hst hnil
        (hneeds.resolve_right fun h => he h.1)
      exact ⟨.producer none, t, rfl, by simp, hstep, ht⟩

/-- While the writer waits, a decryptor at a push serves it. -/
theorem Served.waiting_push_progress {m : EncryptionManager ss} {c : Chunk} (hcap : 1 ≤ capacity)
    (hs : Served r s) (hempty : s.downstream.queue.queue = [])
    (hst : s.stage = .running (.push m c)) :
    ∃ t, step r s (.stage none) = some t ∧ Served r t := by
  obtain ⟨q, hq⟩ := BoundedThreadSafeQueue.exists_push
    (q := s.downstream.queue) (by rw [hempty]; exact hcap) c
  have hrun : (processChunks EncryptionManager.decryptChunk (.push m c)).run
      s.ctx.shouldAbort none s.stageView = some (.running (.abortCheck m),
        { s.stageView with output := { s.downstream with queue := q } }) := by
    simp [Call.run, processChunks, Call.exec, Pipeline.stageView, hq]
  have hne : q.queue ≠ [] := by
    rw [(BoundedThreadSafeQueue.push_eq_some.mp hq).2.2]
    simp
  have hstep := Pipeline.step_stage_of_run (program ss r) hst hrun
  exact ⟨_, hstep, hs.reading, fun hp => Or.inl ((hs.receiver hp).room_of_stage hstep),
    fun hw => hw.elim, fun _ _ _ hnil => absurd hnil hne, fun _ _ _ hnil => absurd hnil hne⟩

/-- While the writer only needs to know, a decryptor on the way to the end of its loop goes on. -/
theorem Served.exhausted_stage_progress {pc : WritePc} {spc : ProcessPc (EncryptionManager ss)}
    (hcap : 1 ≤ capacity) (habort : s.ctx.abortFlag = true) (hs : Served r s)
    (hc : s.consumer = .running pc) (he : pc.exhausts = true)
    (hempty : s.downstream.queue.queue = []) (hst : s.stage = .running spc)
    (hroom : ReceivePushes s.source s.producer → s.upstream.queue.queue.length < capacity)
    (hspc : ∀ m, spc ≠ .tryPop m) (hfinishes : Finishes s) :
    ∃ t, step r s (.stage none) = some t ∧ Served r t := by
  have hflag : s.ctx.shouldAbort = true := habort
  unfold Finishes at hfinishes
  rw [hst] at hfinishes
  cases spc with
  | tryPop m => exact absurd rfl (hspc m)
  | push m c | transform m c => exact hfinishes.elim
  | abortCheck m =>
    have hrun : (processChunks EncryptionManager.decryptChunk (.abortCheck m)).run
        s.ctx.shouldAbort none s.stageView = some (.running .outputDone, s.stageView) := by
      rw [hflag]
      rfl
    exact hs.waiting_stage_progress hcap hc hst hroom hrun hempty (Or.inr ⟨he, trivial⟩)
  | inputDone m =>
    have hrun : (processChunks EncryptionManager.decryptChunk (.inputDone m)).run
        s.ctx.shouldAbort none s.stageView = some (.running
          (if s.upstream.done then .inputEmpty m else .abortCheck m), s.stageView) := rfl
    refine hs.waiting_stage_progress hcap hc hst hroom hrun hempty (Or.inr ⟨he, ?_⟩)
    unfold Finishes
    cases s.upstream.done <;> trivial
  | inputEmpty m =>
    have hrun : (processChunks EncryptionManager.decryptChunk (.inputEmpty m)).run
        s.ctx.shouldAbort none s.stageView = some (.running
          (if s.upstream.queue.empty then .outputDone else .abortCheck m), s.stageView) := rfl
    refine hs.waiting_stage_progress hcap hc hst hroom hrun hempty (Or.inr ⟨he, ?_⟩)
    unfold Finishes
    cases s.upstream.queue.empty <;> trivial
  | outputDone =>
    have hrun : (processChunks EncryptionManager.decryptChunk
        (.outputDone : ProcessPc (EncryptionManager ss))).run s.ctx.shouldAbort none s.stageView =
          some (.returned,
            { s.stageView with output := { s.downstream with done := true } }) := rfl
    refine ⟨_, Pipeline.step_stage_of_run (program ss r) hst hrun, hs.reading,
      fun hp => Or.inl (hroom hp), fun hw => hw.elim, fun pc' hc' hb _ => ?_,
      fun _ _ _ _ hd => (by cases hd)⟩
    obtain rfl := Thread.running.inj (hc.symm.trans hc')
    cases (WritePc.exhausts_of_blocking hb).symm.trans he

/-- While the writer waits, the decryptor goes on, or the chunk receiver if the decryptor would
miss its chunk. -/
theorem Served.waiting_progress {pc : WritePc} (hcap : 1 ≤ capacity)
    (habort : s.ctx.abortFlag = true) (hs : Served r s) (hc : s.consumer = .running pc)
    (hempty : s.downstream.queue.queue = [])
    (hwaits : pc.blocking = true ∨ pc.exhausts = true ∧ s.downstream.done = false) :
    ∃ a t, quiet s a ∧ a ≠ .main ∧ step r s a = some t ∧ Served r t := by
  have hneeds : Delivers s ∨ pc.exhausts = true ∧ Finishes s := by
    rcases hwaits with hb | ⟨he, hd⟩
    · exact Or.inl (hs.waiting pc hc hb hempty)
    · exact (hs.exhausted pc hc he hempty hd).imp id fun h => ⟨he, h⟩
  have hat := hneeds
  unfold Delivers Finishes at hat
  cases hst : s.stage with
  | caught e | flagged e | returned =>
    rw [hst] at hat
    exact (hat.elim id And.right).elim
  | running spc =>
    rw [hst] at hat
    -- a decryptor that is not at `try_pop` makes no room, so there is some
    have hroom : (∀ m, spc ≠ .tryPop m) → ReceivePushes s.source s.producer →
        s.upstream.queue.queue.length < capacity := by
      intro hne hp
      refine (hs.receiver hp).resolve_right ?_
      rintro ⟨_, m, hm⟩
      exact hne m (Thread.running.inj (hst.symm.trans hm))
    have hstage : (∃ t, step r s (.stage none) = some t ∧ Served r t) →
        ∃ a t, quiet s a ∧ a ≠ .main ∧ step r s a = some t ∧ Served r t := by
      rintro ⟨t, hstep, ht⟩
      exact ⟨.stage none, t, rfl, nofun, hstep, ht⟩
    cases spc with
    | push m c => exact hstage (hs.waiting_push_progress hcap hempty hst)
    | tryPop m => exact hs.waiting_tryPop_progress hcap hc hempty hst hneeds
    | transform m c =>
      obtain ⟨x, hx⟩ := hat.resolve_right And.right
      have hrun : (processChunks EncryptionManager.decryptChunk (.transform m c)).run
          s.ctx.shouldAbort none s.stageView = some (.running (.push x.2 x.1), s.stageView) := by
        simp [Call.run, processChunks, Call.exec, hx]
      exact hstage (hs.waiting_stage_progress hcap hc hst (hroom (by simp)) hrun hempty
        (Or.inl trivial))
    | abortCheck m | inputDone m | inputEmpty m | outputDone =>
      obtain ⟨he, hfinishes⟩ := hneeds.resolve_left fun hd => by
        unfold Delivers at hd
        rw [hst] at hd
        exact hd
      exact hstage (hs.exhausted_stage_progress hcap habort hc he hempty hst (hroom (by simp))
        (by simp) hfinishes)

/-- Once the writer has returned, the decryptor finds room where it pushes. -/
theorem Served.decryptor_progress (habort : s.ctx.abortFlag = true) (hs : Served r s)
    (hc : s.consumer = .returned) (hrunning : s.stage ≠ .returned) :
    ∃ t, step r s (.stage none) = some t ∧ Served r t := by
  have hroom : s.WillPush (program ss r) → s.downstream.queue.queue.length < capacity := fun hw =>
    (hs.decryptor hw).resolve_right fun ⟨_, hpc, _⟩ => nomatch hc.symm.trans hpc
  obtain ⟨t, hstep⟩ := Pipeline.exists_stage_step (program ss r) hrunning hroom
  obtain ⟨hproducer, hconsumer⟩ := Pipeline.threads_of_stage hstep
  have hsource := Pipeline.source_of_stage hstep
  rw [hc] at hconsumer
  refine ⟨t, hstep, fun i hi => ?_, fun hp => Or.inl ?_, fun hw => Or.inl ?_,
    fun pc hpc => (nomatch hconsumer.symm.trans hpc),
    fun pc hpc => nomatch hconsumer.symm.trans hpc⟩
  · rw [hsource]
    exact hs.reading i (hproducer.symm.trans hi)
  · rw [hsource, hproducer] at hp
    exact (hs.receiver hp).room_of_stage hstep
  · obtain ⟨hw', hdown⟩ := Pipeline.willPush_before habort hstep hw
    rw [hdown]
    exact hroom hw'

/-- Once writer and decryptor have returned, the chunk receiver finds room where it pushes. -/
theorem Served.receiver_progress (habort : s.ctx.abortFlag = true) (hs : Served r s)
    (hc : s.consumer = .returned) (hst : s.stage = .returned) (hrunning : s.producer ≠ .returned) :
    ∃ t, step r s (.producer none) = some t ∧ Served r t := by
  have hroom : ReceivePushes s.source s.producer → s.upstream.queue.queue.length < capacity :=
    fun hp => (hs.receiver hp).resolve_right fun ⟨_, m, hm⟩ => nomatch hst.symm.trans hm
  rcases s.producer.cases_thrown with ⟨pc, hp⟩ | hp | hp
  · rw [hp] at hroom
    obtain ⟨th, v, hrun⟩ := receiveChunks_exists_run r.numChunks s.ctx.shouldAbort s.producerView pc
      (by rintro i rfl; exact hs.reading i hp) (by rintro c i rfl; exact hroom trivial)
    have hstep := Pipeline.step_producer_of_run (program ss r) hp hrun
    rw [show s.ctx.shouldAbort = true from habort] at hrun
    have hmove := receiveMove_of_run hrun
    refine ⟨_, hstep, fun i hi => ?_, fun hp' => Or.inl ?_,
      fun hw => absurd hw (not_willPush_returned hst), fun pc hpc => (nomatch hc.symm.trans hpc),
      fun pc hpc => nomatch hc.symm.trans hpc⟩
    · -- after an abort no step leads to a read
      change th = .running (.read i) at hi
      subst hi
      cases hmove with
      | goOn i' hpc' hi' ha => cases ha
    · obtain ⟨hbefore, houtput⟩ := hmove.pushes_before hp'
      show v.output.queue.queue.length < capacity
      rw [houtput]
      exact hroom hbefore
  · obtain ⟨th, ctx, hstep, hth⟩ := Pipeline.exists_step_producer (program ss r) hp
    exact ⟨_, hstep, fun i hi => absurd hi (hth _),
      fun hp' => absurd hp' (not_receivePushes_returned hth),
      fun hw => absurd hw (not_willPush_returned hst), fun pc hpc => (nomatch hc.symm.trans hpc),
      fun pc hpc => nomatch hc.symm.trans hpc⟩
  · exact absurd hp hrunning

/-- After an abort some thread of a served state can always go on and leave it served. -/
theorem Served.progress (hcap : 1 ≤ capacity) (habort : s.ctx.abortFlag = true) (hs : Served r s)
    (hrunning : ¬ s.joinable = true) :
    ∃ a t, quiet s a ∧ a ≠ .main ∧ step r s a = some t ∧ Served r t := by
  have hflag : s.ctx.shouldAbort = true := habort
  by_cases hrests : WriterRests s
  swap
  · obtain ⟨t, hstep, ht⟩ := hs.writer_progress hcap habort hrests
    exact ⟨.consumer none, t, rfl, nofun, hstep, ht⟩
  rcases hrests with hc | ⟨hempty, pc, hc, hwaits⟩
  swap
  · exact hs.waiting_progress hcap habort hc hempty hwaits
  by_cases hst : s.stage = .returned
  swap
  · obtain ⟨t, hstep, ht⟩ := hs.decryptor_progress habort hc hst
    exact ⟨.stage none, t, rfl, nofun, hstep, ht⟩
  by_cases hp : s.producer = .returned
  swap
  · obtain ⟨t, hstep, ht⟩ := hs.receiver_progress habort hc hst hp
    exact ⟨.producer none, t, rfl, nofun, hstep, ht⟩
  rcases s.tracker.cases_thrown with ⟨pc, ht⟩ | ht | ht
  · obtain ⟨th, v, hrun⟩ := ProgressTracker.start_abort_progress r.numChunks s.trackerView pc
    rw [← hflag] at hrun
    exact ⟨.tracker none, _, rfl, nofun, Pipeline.step_tracker_of_run (program ss r) ht hrun,
      hs.reading, hs.receiver, hs.decryptor, hs.waiting, hs.exhausted⟩
  · obtain ⟨th, ctx, hstep, hth⟩ := Pipeline.exists_step_tracker (program ss r) ht
    exact ⟨.tracker none, _, rfl, nofun, hstep, hs.reading, hs.receiver, hs.decryptor, hs.waiting,
      hs.exhausted⟩
  exact absurd (Pipeline.joinable_iff.mpr ⟨hp, hst, hc, ht⟩) hrunning

/-- After an abort the workers can all return from every served state. -/
theorem canReach_of_served (hcap : 1 ≤ capacity) (habort : s.ctx.abortFlag = true)
    (hs : Served r s) : CanReach (step r) quiet (fun t => t.joinable = true) s := by
  refine CanReach.of_measure (I := fun t => t.ctx.abortFlag = true ∧ Served r t) (abortWork r)
    (fun t ⟨ht, hserved⟩ hrunning => ?_) ⟨habort, hs⟩
  obtain ⟨a, u, hquiet, ha, hstep, hserved'⟩ := hserved.progress hcap ht hrunning
  exact ⟨a, u, hquiet, hstep, ⟨Pipeline.abortFlag_of_step hstep ht, hserved'⟩,
    abortWork_lt ha ht hstep⟩

theorem slot_of_reach {socket : Incoming} {start : FileSystem} {st : ss.State}
    (h : Reach (step r) any (initial capacity r socket start st) s) : s.Slot :=
  h.invariant (fun _ _ _ hi _ hstep => hi.step (program_sound r) hstep)
    (Pipeline.Slot.initial _ _ _ _ _)

/-- When an aborted receive winds down.  For every request, every finite stream of bytes, and every
run in which anything may fail: once the abort flag is set, some continuation in which nothing else
fails leads to the state where all four workers have returned, and on to the report of the failure
by `rethrow_if_exception`, if and only if the state is served. -/
theorem receive_winds_down_iff_served {socket : Incoming} {start : FileSystem} {st : ss.State}
    (hcap : 1 ≤ capacity) (hs : Reach (step r) any (initial capacity r socket start st) s)
    (habort : s.ctx.abortFlag = true) :
    (CanReach (step r) quiet (fun t => t.joinable = true) s ↔ Served r s) ∧
    (CanReach (step r) quiet (fun t => ∃ e, t.main = .failed e) s ↔ Served r s) := by
  have hiff : CanReach (step r) quiet (fun t => t.joinable = true) s ↔ Served r s :=
    ⟨served_of_canReach habort, canReach_of_served hcap habort⟩
  have hslot := slot_of_reach hs
  exact ⟨hiff, (Pipeline.canReach_failed_iff (program_sound r) hslot habort).trans hiff⟩

/-- The start of a receiver whose sender has written the given bytes and closed the connection. -/
def oneByteInitial (stream : Bytes) : State queueCapacity .counting :=
  initial queueCapacity Sender.oneByteRequest ⟨stream, true⟩ emptyDirectory Sender.newStream

/-- A transfer whose tracker fails to print when the first chunk is on its way to the writer winds
down. -/
theorem receive_winds_down_oneByte : ∃ s, Reach (step Sender.oneByteRequest) any
      (oneByteInitial (frames [Sender.oneByteFrame])) s ∧ s.ctx.abortFlag = true ∧
    CanReach (step Sender.oneByteRequest) quiet (fun t => t.joinable = true) s := by
  have hrun : (exec (step Sender.oneByteRequest) (oneByteInitial (frames [Sender.oneByteFrame]))
      (List.replicate 3 (.producer none) ++ List.replicate 4 (.stage none) ++
        [.tracker none, .tracker none, .tracker (some ⟨.systemError "write error", 0⟩),
          .tracker none])).map (fun s => decide (s.ctx.abortFlag = true ∧
      s.producer = .running (.loop 1) ∧ s.upstream.queue.queue.length < queueCapacity ∧
      s.downstream.queue.queue.length = 1)) = some true := by decide +kernel
  obtain ⟨s, hs, htest⟩ := reach_of_exec_test _ (fun _ _ _ => trivial) hrun
  obtain ⟨habort, hp, hup, hdown⟩ := of_decide_eq_true htest
  have hne : s.downstream.queue.queue ≠ [] := by
    intro hnil
    rw [hnil] at hdown
    exact nomatch hdown
  refine ⟨s, hs, habort, (receive_winds_down_iff_served (by decide) hs habort).1.mpr
    ⟨fun i hi => ?_, fun _ => Or.inl hup, fun _ => Or.inl ?_, fun _ _ _ hnil => absurd hnil hne,
      fun _ _ _ hnil => absurd hnil hne⟩⟩
  · cases hp.symm.trans hi
  · rw [hdown]
    decide

/-- A writer in its first `pop` stays there, once the decryptor has left its loop. -/
theorem not_canReach_of_waiting (hc : s.consumer = .running .firstPop)
    (hempty : s.downstream.queue.queue = []) (hstage : StageLeaves s.stage) :
    ¬ CanReach (step r) any (fun t => t.joinable = true) s := by
  refine CanReach.not_of_trap (I := fun u => u.consumer = .running .firstPop ∧
    u.downstream.queue.queue = [] ∧ StageLeaves u.stage) ?_ ?_ ⟨hc, hempty, hstage⟩
  · rintro u a w ⟨hu, hq, hleaves⟩ - h
    cases a with
    | consumer f =>
      rcases Pipeline.step_consumer_cases h with ⟨pc, th, v, hs, hrun, rfl⟩ | ⟨e, he, -, -⟩ |
        ⟨e, he, -, -⟩
      · obtain rfl := Thread.running.inj (hu.symm.trans hs)
        change (writeFilesFromChunks r .firstPop).run _ _ _ = _ at hrun
        have hlt := ((writeMove_of_run hrun).popped_not_takes rfl).1
        change _ < u.downstream.queue.queue.length at hlt
        rw [hq] at hlt
        exact absurd hlt (Nat.not_lt_zero _)
      · cases hu.symm.trans he
      · cases hu.symm.trans he
    | stage f =>
      obtain ⟨hleaves', -, hdownstream⟩ := Pipeline.stageLeaves_of_stage h hleaves
      exact ⟨(Pipeline.threads_of_stage h).2.trans hu, hdownstream ▸ hq, hleaves'⟩
    | producer f =>
      rcases Pipeline.step_producer_cases h with ⟨pc, th, v, -, -, rfl⟩ | ⟨e, -, -, rfl⟩ |
        ⟨e, -, -, rfl⟩ <;> exact ⟨hu, hq, hleaves⟩
    | tracker f =>
      rcases Pipeline.step_tracker_cases h with ⟨pc, th, -, -, rfl⟩ | ⟨e, -, -, rfl⟩ |
        ⟨e, -, -, rfl⟩ <;> exact ⟨hu, hq, hleaves⟩
    | main =>
      obtain ⟨-, -, ⟨e, -, rfl⟩ | ⟨-, rfl⟩⟩ := Pipeline.step_main_cases h <;>
        exact ⟨hu, hq, hleaves⟩
  · rintro u ⟨hu, -, -⟩ hjoin
    cases hu.symm.trans (Pipeline.joinable_iff.mp hjoin).2.2.1

/-- The sender closes the connection before the first frame: the chunk receiver throws, the
decryptor leaves, and the writer stays in its first `pop` for ever. -/
theorem exists_hung : ∃ s, Reach (step Sender.oneByteRequest) any (oneByteInitial []) s ∧
    s.ctx.abortFlag = true ∧
    ¬ CanReach (step Sender.oneByteRequest) any (fun t => t.joinable = true) s := by
  have hrun : (exec (step Sender.oneByteRequest) (oneByteInitial [])
      (List.replicate 4 (.producer none) ++ List.replicate 2 (.stage none))).map
      (fun s => decide (s.ctx.abortFlag = true ∧ s.consumer = .running .firstPop ∧
        s.downstream.queue.queue = []) && s.stage.isReturned) = some true := by decide +kernel
  obtain ⟨s, hs, htest⟩ := reach_of_exec_test _ (fun _ _ _ => trivial) hrun
  obtain ⟨htest, hreturned⟩ := (Bool.and_eq_true _ _).mp htest
  obtain ⟨habort, hc, hempty⟩ := of_decide_eq_true htest
  refine ⟨s, hs, habort, not_canReach_of_waiting hc hempty ?_⟩
  cases hst : s.stage with
  | returned => trivial
  | running pc | caught e | flagged e =>
    rw [hst] at hreturned
    exact nomatch hreturned

end Receiver

end Trit
