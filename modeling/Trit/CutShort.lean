import Trit.AttackedReceiver
import Trit.Transmission

/-!
# Transfers that are cut short

The receiver takes the number of frames from its request, and `decrypt_chunk` compares the tag of
a frame with the sequence number in its header.  The header is not authenticated, and nothing
compares it with the position of the frame in the stream.

* `tagged`: the messages of a sender, the last one under `TAG_FINAL`;
* `Frame`: a frame with any header;
* `Arriving`: `receive_chunks` on such frames, whatever fails;
* `complete_iff`: a transfer that the receiver accepts is complete exactly if the last frame
  claims to be the last one.
-/

namespace Trit

open Transition LittleEndian TransferManager

/-! ### The stream of the sender -/

/-- The messages of a stream: the payloads, the last of them under `TAG_FINAL`. -/
def tagged (payloads : List Bytes) : List (Bytes × UInt8) :=
  payloads.mapIdx fun k payload =>
    (payload, if k + 1 = payloads.length then tagFinal else tagMessage)

@[simp] theorem length_tagged (payloads : List Bytes) :
    (tagged payloads).length = payloads.length := by
  simp [tagged]

theorem getElem?_tagged (payloads : List Bytes) (k : ℕ) :
    (tagged payloads)[k]? = payloads[k]?.map fun payload =>
      (payload, if k + 1 = payloads.length then tagFinal else tagMessage) := by
  simp [tagged]

/-- The tag of the end is that of the last message, and of no other. -/
theorem tag_eq_final_iff {payloads : List Bytes} {k : ℕ} {message : Bytes × UInt8}
    (h : (tagged payloads)[k]? = some message) :
    message.2 = tagFinal ↔ k + 1 = payloads.length := by
  rw [getElem?_tagged, Option.map_eq_some_iff] at h
  obtain ⟨payload, -, rfl⟩ := h
  by_cases hk : k + 1 = payloads.length
  · simp [hk]
  · simp [hk, tagMessage, tagFinal]

/-- Chunks numbered from one on are encrypted under these tags. -/
theorem map_tagOf_eq_tagged {cs : List Chunk} {numChunks : UInt64}
    (hlen : cs.length = numChunks.toNat)
    (hseq : ∀ (k : ℕ) (c : Chunk), cs[k]? = some c → c.sequenceNum = .ofNat (k + 1)) :
    cs.map (fun c => (c.data, EncryptionManager.tagOf numChunks c)) =
      tagged (cs.map Chunk.data) := by
  refine List.ext_getElem? fun k => ?_
  rw [getElem?_tagged, List.getElem?_map, List.getElem?_map, List.length_map]
  cases hk : cs[k]? with
  | none => rfl
  | some c =>
    have hlt : k < cs.length := (List.getElem?_eq_some_iff.mp hk).1
    have hnum : (UInt64.ofNat (k + 1)).toNat = k + 1 := by
      have hbound := numChunks.toNat_lt
      rw [UInt64.toNat_ofNat', Nat.mod_eq_of_lt (by omega)]
    have htag : c.sequenceNum = numChunks ↔ k + 1 = cs.length := by
      rw [hseq k c hk, ← UInt64.toNat_inj, hnum, hlen]
    simp only [Option.map_some, EncryptionManager.tagOf, htag]

/-- The stream of a transfer: what `encrypt_chunks` makes of the packing of the files. -/
theorem exists_encrypted_tagged {ss : SecretStream} {r : TransferRequest}
    {disk : FileManager.Disk} (hr : FileManager.Fits r disk) (st : ss.State) :
    ∃ es m, transformAll EncryptionManager.encryptChunk (Sender.manager r st)
        (FileManager.packing r disk) = .ok (es, m) ∧
      es.map Chunk.data =
        ss.pushAll st (tagged ((FileManager.packing r disk).map Chunk.data)) := by
  obtain ⟨es, st', henc, -, -, hdata, -⟩ := EncryptionManager.encrypt_then_decrypt
    (fun c hc => FileManager.encryptable_of_mem_packing hr hc) st
  refine ⟨es, _, henc, ?_⟩
  rw [hdata, map_tagOf_eq_tagged (by simp) ?_]
  intro k c hk
  have hlt : k < r.numChunks.toNat := by
    simpa using (List.getElem?_eq_some_iff.mp hk).1
  rw [FileManager.getElem?_packing disk hlt] at hk
  cases hk
  rfl

/-! ### Frames with any header -/

/-- A frame on the wire: whatever header, and a payload whose size the header holds. -/
structure Frame where
  sequenceNum : UInt64
  compressedFlag : UInt8
  originalSize : UInt16
  payload : Bytes
  size_le : payload.length ≤ uint16Max

namespace Frame

/-- The bytes of a frame. -/
def bytes (f : Frame) : Bytes :=
  leBytes 8 f.sequenceNum.toNat ++ ([f.compressedFlag] ++ (leBytes 2 f.originalSize.toNat ++
    (leBytes 2 f.payload.length ++ f.payload)))

/-- The chunk that `receive_chunk` makes of a frame. -/
def chunk (f : Frame) : Chunk :=
  if f.compressedFlag = 0 then .plain f.sequenceNum f.payload
  else .packed f.sequenceNum f.payload f.originalSize

@[simp] theorem chunk_sequenceNum (f : Frame) : f.chunk.sequenceNum = f.sequenceNum := by
  unfold chunk
  split_ifs <;> rfl

@[simp] theorem chunk_data (f : Frame) : f.chunk.data = f.payload := by
  unfold chunk
  split_ifs <;> rfl

theorem receiveChunk_bytes (f : Frame) (rest : Bytes) (closed : Bool) :
    receiveChunk ⟨f.bytes ++ rest, closed⟩ = some (.ok (f.chunk, ⟨rest, closed⟩)) := by
  simp only [bytes, List.append_assoc]
  exact receiveChunk_header f.sequenceNum f.compressedFlag f.originalSize f.size_le rest closed

/-- The bytes of frames that follow each other. -/
def stream (fs : List Frame) : Bytes := (fs.map bytes).flatten

@[simp] theorem stream_cons (f : Frame) (fs : List Frame) :
    stream (f :: fs) = f.bytes ++ stream fs := by
  simp [stream]

end Frame

/-! ### Receiving them -/

namespace TransferManager

/-- How far `receive_chunks` is with frames of any header, whatever has failed: what it has pushed
are the first of them, and as long as it runs, the others stand in the stream. -/
def Arriving (fs : List Frame) (rest : Bytes) (pushed : List Chunk) (stream : Bytes) :
    Thread ReceivePc → Prop
  | .running (.loop i) => pushed = (fs.map Frame.chunk).take i ∧
      stream = Frame.stream (fs.drop i) ++ rest
  | .running (.read i) => i < fs.length ∧ pushed = (fs.map Frame.chunk).take i ∧
      stream = Frame.stream (fs.drop i) ++ rest
  | .running (.push c i) => (fs.map Frame.chunk)[i]? = some c ∧
      pushed = (fs.map Frame.chunk).take i ∧ stream = Frame.stream (fs.drop (i + 1)) ++ rest
  | .caught _ | .flagged _ | .returned => pushed <+: fs.map Frame.chunk

theorem Arriving.pushed_isPrefix {fs : List Frame} {rest stream : Bytes} {pushed : List Chunk}
    {t : Thread ReceivePc} (h : Arriving fs rest pushed stream t) :
    pushed <+: fs.map Frame.chunk := by
  cases t with
  | running pc =>
    cases pc with
    | loop i => exact h.1 ▸ List.take_prefix _ _
    | read i => exact h.2.1 ▸ List.take_prefix _ _
    | push c i => exact h.2.1 ▸ List.take_prefix _ _
  | caught e => exact h
  | flagged e => exact h
  | returned => exact h

theorem Arriving.move {capacity : ℕ} {numChunks : UInt32} {abort : Bool} {f : Option Fault}
    {v v' : View capacity Incoming} {pc : ReceivePc} {t : Thread ReceivePc} {fs : List Frame}
    {rest : Bytes} (h : ReceiveMove numChunks abort f v pc t v')
    (hlen : fs.length = numChunks.toNat)
    (hi : Arriving fs rest v.output.queue.pushed v.world.stream (.running pc)) :
    Arriving fs rest v'.output.queue.pushed v'.world.stream t := by
  cases h with
  | goOn i hpc hlt =>
    subst hpc
    exact ⟨by omega, hi⟩
  | received i c s hpc hr =>
    subst hpc
    obtain ⟨hlt, hpushed, hstream⟩ := hi
    rw [List.drop_eq_getElem_cons hlt, Frame.stream_cons, List.append_assoc] at hstream
    -- the frame is at the front of the stream
    have hread := (fs[i]).receiveChunk_bytes (Frame.stream (fs.drop (i + 1)) ++ rest)
      v.world.closed
    rw [← hstream] at hread
    have hres := Except.ok.inj (Option.some.inj (hr.symm.trans hread))
    obtain ⟨rfl, rfl⟩ := Prod.mk.inj hres
    refine ⟨?_, hpushed, rfl⟩
    rw [List.getElem?_map, List.getElem?_eq_getElem hlt, Option.map_some]
  | pushed c i q hpc hq =>
    subst hpc
    obtain ⟨hc, hpushed, hstream⟩ := hi
    refine ⟨?_, hstream⟩
    show q.pushed = _
    rw [BoundedThreadSafeQueue.pushed_push hq, hpushed, List.take_add_one, hc, Option.toList_some]
  | abort | finished | threw | fault => exact hi.pushed_isPrefix

end TransferManager

namespace EncryptionManager

variable {ss : SecretStream}

/-- The tags of the messages that are decrypted are those that the headers announce. -/
theorem tag_of_decrypted {chunkSize : UInt32} {numChunks : UInt64} {st : ss.State}
    {ms : List (Bytes × UInt8)} {es ds : List Chunk} {m : EncryptionManager ss}
    (hes : ∀ e ∈ es, e.data.length ≤ uint16Max)
    (hgenuine : ∀ (k : ℕ) (e : Chunk), es[k]? = some e → (ss.pushAll st ms)[k]? = some e.data)
    (h : transformAll decryptChunk ⟨chunkSize, numChunks, .decryptor st⟩ es = .ok (ds, m))
    {k : ℕ} {e : Chunk} (hk : es[k]? = some e) :
    ∃ message, ms[k]? = some message ∧
      (message.2 == tagFinal) = (e.sequenceNum == numChunks) := by
  induction es generalizing st ms ds k with
  | nil => cases hk
  | cons c es ih =>
    obtain ⟨d, m₁, ds', hd, hds, rfl⟩ := transformAll_cons_ok.mp h
    obtain ⟨tag, st', hpull, rfl, -, -, -, htag⟩ := decryptChunk_ok hd
    cases ms with
    | nil => cases hgenuine 0 c rfl
    | cons message ms =>
      have hdata : (ss.push st message.1 message.2).1 = c.data :=
        Option.some.inj (hgenuine 0 c rfl)
      rw [Chunk.size_toNat_of_le (hes c List.mem_cons_self), List.take_length, ← hdata,
        ss.pull_push] at hpull
      obtain ⟨-, rfl, rfl⟩ : message.1 = d.data ∧ message.2 = tag ∧
          (ss.push st message.1 message.2).2 = st' := by
        simpa using hpull
      cases k with
      | zero =>
        cases hk
        exact ⟨message, rfl, htag⟩
      | succ k =>
        exact ih (fun e he => hes e (List.mem_cons_of_mem _ he))
          (fun j e' hj => hgenuine (j + 1) e' hj) hds hk

end EncryptionManager

namespace Receiver

variable {capacity : ℕ} {ss : SecretStream} {r : TransferRequest} {st : ss.State}
  {fs : List Frame} {rest : Bytes} {s t : State capacity ss}

/-- Where the frames are in a state of `receive_files`. -/
def Delivered (fs : List Frame) (rest : Bytes) (s : State capacity ss) : Prop :=
  Arriving fs rest s.upstream.queue.pushed s.source.stream s.producer

theorem Delivered.step {a : Action} (hlen : fs.length = r.numChunks.toNat)
    (hi : Delivered fs rest s) (h : step r s a = some t) : Delivered fs rest t := by
  have hframe := Pipeline.producer_frame h
  cases a with
  | producer f =>
    rcases Pipeline.step_producer_cases h with ⟨pc, th, v, hs, hrun, rfl⟩ | ⟨e, he, -, rfl⟩ |
      ⟨e, he, -, rfl⟩
    · exact Arriving.move (receiveMove_of_run hrun) hlen (hs ▸ hi)
    · exact Arriving.pushed_isPrefix hi
    · exact Arriving.pushed_isPrefix hi
  | _ =>
    obtain ⟨hproducer, hsource, hpushed⟩ := hframe (by simp)
    unfold Delivered
    rw [hproducer, hsource, hpushed]
    exact hi

theorem Delivered.of_reach {closed : Bool} {start : FileManager.FileSystem}
    (hlen : fs.length = r.numChunks.toNat)
    (h : Reach (Receiver.step r) any
      (initial capacity r ⟨Frame.stream fs ++ rest, closed⟩ start st) s) :
    Delivered fs rest s :=
  h.invariant (fun _ _ _ hi _ hs => hi.step hlen hs) ⟨rfl, rfl⟩

/-- Once as many chunks have been pushed as there are frames, all frames have been decrypted, in
their order. -/
theorem Delivered.decrypted {stream : Bytes} (hi : Delivered fs rest s)
    (hg : Guarded r st stream s) (hall : s.downstream.queue.pushed.length = fs.length) :
    ∃ ds m, transformAll EncryptionManager.decryptChunk (manager r st) (fs.map Frame.chunk) =
      .ok (ds, m) := by
  obtain ⟨pre, m, more, hpre, hpushed⟩ := hg.stageFlow.exists_isPrefix
  have hprefix : pre <+: fs.map Frame.chunk :=
    (hpre.trans (List.prefix_append _ _)).trans (Arriving.pushed_isPrefix hi)
  have hlen := length_transformAll hpushed
  rw [List.length_append] at hlen
  obtain rfl : pre = fs.map Frame.chunk :=
    hprefix.eq_of_length_le (by rw [List.length_map]; omega)
  exact ⟨_, m, hpushed⟩

/-! ### What an accepted transfer says -/

/-- The first `n` messages are a complete stream: the last of them carries the tag of the end, no
earlier one does, and nothing follows. -/
structure Complete (ms : List (Bytes × UInt8)) (n : ℕ) : Prop where
  last : ms[n - 1]?.map Prod.snd = some tagFinal
  earlier : ∀ k, k + 1 < n → ms[k]?.map Prod.snd ≠ some tagFinal
  all : n = ms.length

theorem complete_iff_length {payloads : List Bytes} {n : ℕ} (hn : 0 < n) :
    Complete (tagged payloads) n ↔ n = payloads.length := by
  constructor
  · intro h
    exact h.all.trans (length_tagged payloads)
  · rintro rfl
    refine ⟨?_, fun k hk => ?_, (length_tagged payloads).symm⟩
    · have hlt : payloads.length - 1 < payloads.length := by omega
      have hlast : payloads.length - 1 + 1 = payloads.length := by omega
      rw [getElem?_tagged, List.getElem?_eq_getElem hlt, Option.map_some, Option.map_some,
        if_pos hlast]
    · rw [getElem?_tagged, Option.map_map, List.getElem?_eq_getElem (by omega), Option.map_some]
      simp [show k + 1 ≠ payloads.length by omega, tagMessage, tagFinal]

/-- Completion and the tag of the end.  The receiver has accepted as many frames as its request
announces, the payloads being the first ciphertexts of a stream that is at least as long; then the
stream has been received to its end exactly if the last frame is numbered as the last one. -/
theorem complete_iff {payloads : List Bytes} {closed : Bool} {start : FileManager.FileSystem}
    (hn : 0 < r.numChunks.toNat) (hlen : fs.length = r.numChunks.toNat)
    (hgenuine : fs.map Frame.payload = (ss.pushAll st (tagged payloads)).take fs.length)
    (h : Reach (Receiver.step r) any
      (initial capacity r ⟨Frame.stream fs ++ rest, closed⟩ start st) s)
    (hall : s.downstream.queue.pushed.length = r.numChunks.toNat) :
    Complete (tagged payloads) r.numChunks.toNat ↔
      fs.getLast?.map Frame.sequenceNum = some r.numChunks.toUInt64 := by
  obtain ⟨ds, m, hds⟩ := (Delivered.of_reach hlen h).decrypted (Guarded.of_reach h)
    (hall.trans hlen.symm)
  have hlt : fs.length - 1 < fs.length := by omega
  have hes : ∀ e ∈ fs.map Frame.chunk, e.data.length ≤ uint16Max := by
    intro e he
    obtain ⟨f, -, rfl⟩ := List.mem_map.mp he
    rw [Frame.chunk_data]
    exact f.size_le
  have hdata : ∀ (k : ℕ) (e : Chunk), (fs.map Frame.chunk)[k]? = some e →
      (ss.pushAll st (tagged payloads))[k]? = some e.data := by
    intro k e hk
    rw [List.getElem?_map, Option.map_eq_some_iff] at hk
    obtain ⟨f, hf, rfl⟩ := hk
    have hget := congrArg (fun l => l[k]?) hgenuine
    rw [List.getElem?_map, hf, Option.map_some,
      List.getElem?_take_of_lt (List.getElem?_eq_some_iff.mp hf).1] at hget
    rw [← hget, Frame.chunk_data]
  have hlast : (fs.map Frame.chunk)[fs.length - 1]? = some (fs[fs.length - 1]).chunk := by
    rw [List.getElem?_map, List.getElem?_eq_getElem hlt, Option.map_some]
  obtain ⟨message, hmessage, htag⟩ := EncryptionManager.tag_of_decrypted hes hdata hds hlast
  rw [Frame.chunk_sequenceNum] at htag
  rw [complete_iff_length hn, ← hlen, List.getLast?_eq_getElem?, List.getElem?_eq_getElem hlt,
    Option.map_some, Option.some.injEq]
  constructor
  · intro hall'
    have hfinal : message.2 = tagFinal := (tag_eq_final_iff hmessage).mpr (by omega)
    rw [hfinal, beq_self_eq_true] at htag
    exact eq_of_beq htag.symm
  · intro hseq
    rw [hseq] at htag
    have hfinal := (tag_eq_final_iff hmessage).mp (by simpa [manager] using htag)
    omega

/-- A request for two chunks of one byte. -/
def twoChunkRequest : TransferRequest := ⟨1, 2, 1, 0, 2, [⟨[97], 2⟩]⟩

/-- The first two messages of a stream, with these numbers in their headers. -/
def twoFrames (n₁ n₂ : UInt64) (tag : UInt8) : List Frame :=
  [⟨n₁, 1, 1, tagMessage :: 7 :: List.replicate 16 0, by simp [uint16Max]⟩,
    ⟨n₂, 1, 1, tag :: 8 :: List.replicate 16 1, by simp [uint16Max]⟩]

/-- `receive_files` when two frames have arrived. -/
def twoFramesInitial (fs : List Frame) : State queueCapacity .counting :=
  initial queueCapacity twoChunkRequest ⟨Frame.stream fs ++ [], true⟩ ⟨fun _ => none, []⟩
    Sender.newStream

/-- A run of the chunk receiver and of the decryptor to their ends. -/
def twoFramesRun : List Action :=
  List.replicate 7 (.producer none) ++ List.replicate 13 (.stage none)

theorem complete_iff_twoFrames : ∃ s, Reach (Receiver.step twoChunkRequest) any
      (twoFramesInitial (twoFrames 1 2 tagFinal)) s ∧
    (Complete (tagged [[7], [8]]) 2 ↔
      (twoFrames 1 2 tagFinal).getLast?.map Frame.sequenceNum = some 2) := by
  have hrun : (exec (Receiver.step twoChunkRequest) (twoFramesInitial (twoFrames 1 2 tagFinal))
      twoFramesRun).map (fun s => decide (s.downstream.queue.pushed.length = 2)) = some true := by
    decide +kernel
  obtain ⟨s, hs, hall⟩ := reach_of_exec_test _ (fun _ _ _ => trivial) hrun
  exact ⟨s, hs, complete_iff (by decide) rfl (by decide) hs (of_decide_eq_true hall)⟩

/-- Three messages have been sent.  The first two of them, both numbered one, are accepted as the
two frames of the request. -/
theorem not_complete_of_renumbered : ∃ s, Reach (Receiver.step twoChunkRequest) any
      (twoFramesInitial (twoFrames 1 1 tagMessage)) s ∧
    (twoFrames 1 1 tagMessage).map Frame.payload =
      (SecretStream.counting.pushAll Sender.newStream (tagged [[7], [8], [9]])).take 2 ∧
    s.producer = .returned ∧ s.stage.isReturned = true ∧ s.ctx.handled = [] ∧
    s.downstream.queue.pushed.length = 2 ∧ ¬ Complete (tagged [[7], [8], [9]]) 2 := by
  have hrun : (exec (Receiver.step twoChunkRequest) (twoFramesInitial (twoFrames 1 1 tagMessage))
      twoFramesRun).map (fun s => decide (s.producer = .returned ∧ s.stage.isReturned = true ∧
        s.ctx.handled = [] ∧ s.downstream.queue.pushed.length = 2)) = some true := by
    decide +kernel
  obtain ⟨s, hs, htest⟩ := reach_of_exec_test _ (fun _ _ _ => trivial) hrun
  obtain ⟨hproducer, hstage, hhandled, hall⟩ := of_decide_eq_true htest
  refine ⟨s, hs, by decide, hproducer, hstage, hhandled, hall, fun hcomplete => ?_⟩
  have hlength := (complete_iff_length (by decide)).mp hcomplete
  exact absurd hlength (by decide)

end Receiver

end Trit
