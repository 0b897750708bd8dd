import Trit.Disclosure
import Trit.Reading
import Trit.Lib.Framing

/-!
# The clear part of the traffic

What an observer of the connection sees of a sender, who cannot decrypt: every byte outside the
ciphertexts, and where the ciphertexts are.

* `frameHeader`, `framing`: the frames of `send_chunks` as an observer takes them apart;
* `sealedHeader`: the header of the encryption of a chunk, from its shape;
* `Sender.seen_of_reach`, `Sender.seen_of_completed`: what is seen of a transfer;
* `Sending`, `Wire`: a sender with its files, from the connection to the end of the transfer;
* `Sending.seen_eq`: two senders whose files have the same paths and sizes look the same.
-/

namespace Trit

open Transition LittleEndian FileManager

namespace TransferManager

/-! ### Frames -/

/-- The four numbers of a frame. -/
def frameHeader (c : Chunk) : Bytes :=
  leBytes 8 c.sequenceNum.toNat ++ [if c.compressed then 1 else 0] ++
    leBytes 2 c.originalSize.toNat ++ leBytes 2 c.size.toNat

/-- The frames as an observer takes them apart: the size of the data is the last number of the
header. -/
def framing : Framing UInt8 where
  headerSize := 13
  payloadSize header := leValue (header.drop 11)

theorem frame_eq (c : Chunk) : frame c = frameHeader c ++ c.data.take c.size.toNat := by
  simp [frame, frameFields, frameHeader]

theorem length_frameHeader (c : Chunk) : (frameHeader c).length = framing.headerSize := by
  simp [frameHeader, framing]

/-- An observer reads the size of the data off the header. -/
theorem payloadSize_frameHeader (c : Chunk) :
    (c.data.take c.size.toNat).length = framing.payloadSize (frameHeader c) := by
  have hdrop : (frameHeader c).drop 11 = leBytes 2 c.size.toNat := by
    unfold frameHeader
    rw [List.drop_left' (by simp)]
  have hlt := c.size.toNat_lt
  have hle : c.size.toNat ≤ c.data.length := by
    rw [Chunk.size_toNat]
    exact Nat.mod_le _ _
  show _ = leValue ((frameHeader c).drop 11)
  rw [hdrop, leValue_leBytes_of_lt (by omega), List.length_take]
  omega

/-- Of the frames of a list of chunks, only the headers are seen. -/
theorem mask_frames (cs : List Chunk) :
    framing.mask (frames cs) = framing.seen (cs.map frameHeader) := by
  have hframe : frame = fun c => frameHeader c ++ c.data.take c.size.toNat := funext frame_eq
  rw [frames, hframe]
  exact framing.mask_flatten (Nat.succ_pos 12) cs (fun c _ => length_frameHeader c)
    fun c _ => payloadSize_frameHeader c

end TransferManager

open TransferManager

/-- The header of the frame of an encrypted chunk. -/
def sealedHeader (shape : UInt64 × ℕ) : Bytes :=
  frameHeader (.packed shape.1
    (List.replicate ((UInt16.ofNat shape.2).toNat + encryptionAdditionalBytes) 0)
    (.ofNat shape.2))

namespace EncryptionManager

variable {ss : SecretStream}

/-- The encryption of a chunk adds 17 bytes and keeps the number. -/
theorem frameHeader_of_encryptChunk {m m' : EncryptionManager ss} {c d : Chunk}
    (h : m.encryptChunk c = .ok (d, m')) : frameHeader d = sealedHeader c.shape := by
  unfold encryptChunk at h
  dsimp only at h
  by_cases hseq : c.sequenceNum = 0 ∨ m.numChunks < c.sequenceNum
  · rw [if_pos hseq] at h
    cases h
  rw [if_neg hseq] at h
  by_cases hsize : m.chunkSize.toNat < c.size.toNat
  · rw [if_pos hsize] at h
    cases h
  rw [if_neg hsize] at h
  obtain ⟨st, -, h⟩ := Except.bind_eq_ok.mp h
  obtain ⟨⟨encryptedData, st'⟩, -, h⟩ := Except.bind_eq_ok.mp h
  dsimp only at h
  split_ifs at h with hlen
  · cases h
  cases h
  rw [not_not] at hlen
  simp only [frameHeader, sealedHeader, Chunk.shape, Chunk.packed, Chunk.size,
    List.length_replicate, hlen]

/-- The headers of encrypted chunks depend on the shapes of the chunks alone. -/
theorem frameHeaders_of_transformAll {m m' : EncryptionManager ss} {cs ds : List Chunk}
    (h : transformAll encryptChunk m cs = .ok (ds, m')) :
    ds.map frameHeader = (cs.map Chunk.shape).map sealedHeader := by
  induction cs generalizing m ds with
  | nil =>
    cases h
    rfl
  | cons c cs ih =>
    obtain ⟨d, m₁, ds', hc, hcs, rfl⟩ := transformAll_cons_ok.mp h
    rw [List.map_cons, List.map_cons, List.map_cons, frameHeader_of_encryptChunk hc, ih hcs]

end EncryptionManager

/-! ### A transfer -/

namespace Sender

variable {capacity : ℕ} {ss : SecretStream} {r : TransferRequest} {disk : Disk} {st : ss.State}
  {s t : State capacity ss}

/-- The headers of the frames of the chunks that the chunker has pushed after some steps. -/
def headersAfter (r : TransferRequest) (disk : Disk) (n : ℕ) : List Bytes :=
  ((Reading.after r disk n).pushed.map Chunk.shape).map sealedHeader

/-- The chunker is the reading machine. -/
def KeepsReading (r : TransferRequest) (disk : Disk) (s : State capacity ss) : Prop :=
  s.source = disk ∧ ∃ n, Reading.after r disk n = ⟨s.producer, s.upstream.queue.pushed⟩

theorem KeepsReading.step {a : Action} (hslot : s.Slot) (hi : KeepsReading r disk s)
    (h : step r s a = some t) (ht : ¬ t.Threw) : KeepsReading r disk t := by
  obtain ⟨hquiet, hs⟩ := Pipeline.quiet_of_not_threw h ht
  obtain ⟨hproducer, hstage, hconsumer, htracker⟩ : s.producer.thrown = false ∧
      s.stage.thrown = false ∧ s.consumer.thrown = false ∧ s.tracker.thrown = false := by
    simp only [Pipeline.Threw, not_or, Bool.not_eq_true] at hs
    exact hs.2
  have habort := hslot.shouldAbort hs
  obtain ⟨hsource, n, hn⟩ := hi
  cases a with
  | producer f =>
    obtain ⟨pc, th, v, hpc, hrun, rfl⟩ := Pipeline.step_producer_quiet hquiet hproducer h
    have hmove := readMove_of_run hrun
    rw [habort] at hmove
    have hworld : v.world = s.source := by
      cases hmove <;> rfl
    have hth : th.thrown = false := by
      by_contra hthrown
      rw [Bool.not_eq_false] at hthrown
      exact ht (Or.inr (Or.inl hthrown))
    refine ⟨hworld.trans hsource, n + 1, ?_⟩
    have hadvance := Reading.advance_of_move hmove hth
    rw [Reading.after_succ, hn, hpc, ← hsource]
    exact hadvance
  | stage f =>
    obtain ⟨pc, th, v, -, hmove, rfl⟩ := Pipeline.step_stage_quiet hquiet hstage h
    refine ⟨hsource, n, ?_⟩
    show _ = (⟨s.producer, v.input.queue.pushed⟩ : Reading)
    rw [hmove.input_pushed]
    exact hn
  | consumer f =>
    obtain ⟨pc, th, v, -, -, rfl⟩ := Pipeline.step_consumer_quiet hquiet hconsumer h
    exact ⟨hsource, n, hn⟩
  | tracker f =>
    obtain ⟨pc, th, -, -, rfl⟩ := Pipeline.step_tracker_quiet hquiet htracker h
    exact ⟨hsource, n, hn⟩
  | main =>
    obtain ⟨-, -, ⟨e, -, rfl⟩ | ⟨-, rfl⟩⟩ := Pipeline.step_main_cases h
    · exact ⟨hsource, n, hn⟩
    · exact ⟨hsource, n, hn⟩

/-- In every run without a failure, the chunker is the reading machine after some steps. -/
theorem exists_after (h : Reach (step r) any (initial capacity r disk st) s) (hs : ¬ s.Threw) :
    ∃ n, (Reading.after r disk n).thread.thrown = false ∧
      (Reading.after r disk n).pushed = s.upstream.queue.pushed := by
  have hkeeps : s.Threw ∨ KeepsReading r disk s := by
    refine (h.invariant (I := fun s => s.Slot ∧ (s.Threw ∨ KeepsReading r disk s)) ?_
      ⟨Pipeline.Slot.initial _ _ _ _ _, Or.inr ⟨rfl, 0, rfl⟩⟩).2
    rintro s a t ⟨hslot, hi⟩ - hstep
    refine ⟨hslot.step (program_sound r) hstep, ?_⟩
    by_cases ht : t.Threw
    · exact Or.inl ht
    · have hs : ¬ s.Threw := (Pipeline.quiet_of_not_threw hstep ht).2
      exact Or.inr ((hi.resolve_left hs).step hslot hstep ht)
  obtain ⟨-, n, hn⟩ := hkeeps.resolve_left hs
  refine ⟨n, ?_, by rw [hn]⟩
  rw [hn]
  by_contra hthrown
  rw [Bool.not_eq_false] at hthrown
  exact hs (Or.inr (Or.inl hthrown))

theorem seen_of_reach (h : Reach (step r) any (initial capacity r disk st) s) (hs : ¬ s.Threw) :
    ∃ n, (Reading.after r disk n).thread.thrown = false ∧
      framing.mask s.sink <+: framing.seen (headersAfter r disk n) := by
  obtain ⟨n, hn, hpushed⟩ := exists_after h hs
  refine ⟨n, hn, ?_⟩
  have hi := Flow.of_reach h
  -- the socket holds frames of what the encryptor has made of a prefix of the chunks read
  obtain ⟨pre, m, rest, hpre, hall⟩ := hi.stage.exists_isPrefix
  have hheaders := EncryptionManager.frameHeaders_of_transformAll hall
  have hsink : s.sink <+: frames (s.downstream.queue.pushed ++ rest) :=
    hi.send.socket_isPrefix.trans (frames_mono ((List.prefix_append _ _).trans
      (List.prefix_append _ rest)))
  have hpres : pre <+: (Reading.after r disk n).pushed := by
    rw [hpushed]
    exact hpre.trans (List.prefix_append _ _)
  refine (framing.mask_isPrefix hsink).trans ?_
  rw [mask_frames, hheaders]
  exact framing.seen_isPrefix ((hpres.map Chunk.shape).map sealedHeader)

/-- What is seen of a transfer that has been completed. -/
theorem seen_of_completed (h : Reach (step r) any (initial capacity r disk st) s)
    (hs : s.main = .completed) :
    ∃ n, (Reading.after r disk n).thread.thrown = false ∧
      r.numChunks.toNat ≤ (headersAfter r disk n).length ∧
      framing.mask s.sink = framing.seen ((headersAfter r disk n).take r.numChunks.toNat) := by
  obtain ⟨hthrew, cs, es, m, hcs, hlen, hall, -, hsink⟩ := (outcome_of_reach h).1 hs
  obtain ⟨n, hn, hpushed⟩ := exists_after h hthrew
  rw [← hpushed] at hcs
  refine ⟨n, hn, ?_, ?_⟩
  · rw [headersAfter, List.length_map, List.length_map, ← hlen]
    exact hcs.length_le
  · rw [hsink, mask_frames, EncryptionManager.frameHeaders_of_transformAll hall, headersAfter,
      ← List.map_take, ← List.map_take, ← hlen, ← List.prefix_iff_eq_take.mp hcs]

/-- The headers of two transfers with the same request, up to those of one of them in addition. -/
theorem headersAfter_comparable {disk' : Disk} {m n : ℕ}
    (h : (Reading.after r disk m).thread.thrown = false)
    (h' : (Reading.after r disk' n).thread.thrown = false) :
    headersAfter r disk m <+: headersAfter r disk' n ∨
      headersAfter r disk' n <+: headersAfter r disk m := by
  rcases Reading.shapes_comparable h h' with hle | hle
  · exact Or.inl (hle.map sealedHeader)
  · exact Or.inr (hle.map sealedHeader)

end Sender

/-! ### A whole run -/

/-- A sender and its working directory: `create_transfer_request` looks at the staged files in the
order of the set. -/
structure Sending (na : Sodium) (Path : Type) where
  setup : Sender.Setup na
  disk : Disk
  relative : Path → Bytes
  paths : List Path
  create_eq : setup.createTransferRequest =
    TransferRequest.fromFilePaths relative (fun p => disk.fileSize (relative p)) paths

/-- The relative paths of the staged files with their sizes. -/
def Sending.listing {na : Sodium} {Path : Type} (x : Sending na Path) :
    List (Bytes × Except Exception UInt64) :=
  x.paths.map fun p => (x.relative p, x.disk.fileSize (x.relative p))

/-- A sender from the connection on: the handshake and the request, and then `send_files`. -/
structure Wire (capacity : ℕ) (na : Sodium) where
  party : Dialogue.Party UInt8 Exception Message (Sender.Outcome na)
  transfer : Option (Sender.State capacity na.stream)

namespace Wire

variable {capacity : ℕ} {na : Sodium}

/-- What can happen: something in the handshake or the request, the start of `send_files`, a step of
one of its threads. -/
inductive Event
  | talk (e : Dialogue.Event Exception)
  | start
  | send (a : Action)

/-- The connection is there, and the peer will send `coming`. -/
def initial (capacity : ℕ) (c : Sender.Setup na) (coming : Bytes) : Wire capacity na :=
  ⟨.start (Sender.startSession c) coming, none⟩

/-- One event. -/
def step (disk : Disk) (s : Wire capacity na) : Event → Option (Wire capacity na)
  | .talk e => (s.party.step e).map fun p => { s with party := p }
  | .start =>
      match s.party.todo, s.transfer with
      | .done (.transfer r st), none =>
          some { s with transfer := some (Sender.initial capacity r disk st) }
      | _, _ => none
  | .send a =>
      match s.party.todo, s.transfer with
      | .done (.transfer r _), some p =>
          (Sender.step r p a).map fun q => { s with transfer := some q }
      | _, _ => none

/-- What is seen of a message: of the ciphertext, its length. -/
def seenMessage : Message × Bytes → List (Option UInt8)
  | (.ciphertext, bytes) => List.replicate bytes.length none
  | (_, bytes) => bytes.map some

/-- What is seen of messages. -/
def seenMessages (messages : List (Message × Bytes)) : List (Option UInt8) :=
  (messages.map seenMessage).flatten

/-- What is seen of a sender: every byte on the wire, those of ciphertexts hidden. -/
def seen (s : Wire capacity na) : List (Option UInt8) :=
  seenMessages s.party.written ++ (s.transfer.map fun p => framing.mask p.sink).getD []

/-- Something has failed. -/
def Failed (s : Wire capacity na) : Prop :=
  s.party.Failed ∨ ∃ p, s.transfer = some p ∧ p.Threw

/-- The ends of a run without a failure. -/
inductive End
  | handshakeFailed
  | declined
  | completed

/-- The run has come to this end; to the last one when `send_files` returns without an exception. -/
def Ended (s : Wire capacity na) : End → Prop
  | .handshakeFailed => s.party.todo = .done .handshakeFailed
  | .declined => s.party.todo = .done .declined
  | .completed => ∃ p, s.transfer = some p ∧ p.main = .completed

theorem seenMessages_append (ms ms' : List (Message × Bytes)) :
    seenMessages (ms ++ ms') = seenMessages ms ++ seenMessages ms' := by
  rw [seenMessages, List.map_append, List.flatten_append]
  rfl

end Wire

namespace Sender

variable {na : Sodium}

/-- The messages of `send_transfer_request`. -/
def requestMessages (c : Setup na) : List (Message × Bytes) :=
  match c.createTransferRequest.bind TransferRequest.serialize with
  | .ok buffer => [(.requestSize, leBytes 8 buffer.length), (.request, buffer)]
  | .error _ => []

/-- The messages of a session, if the peer lets the sender go on to its end. -/
def script (c : Setup na) : List (Message × Bytes) :=
  (.salt, c.salt) :: (.nonce, c.nonce) :: (.ciphertext, encryptHandshakeTag c.key c.nonce) ::
    (.header, c.header) :: requestMessages c

/-- Where a session returns: before the request, or once all messages are written, to `send_files`
with the request. -/
def Agrees (c : Setup na) : Outcome na → List (Message × Bytes) → Prop
  | .handshakeFailed, rest => rest = requestMessages c
  | .declined, rest => rest = []
  | .transfer r _, rest => rest = [] ∧ c.createTransferRequest = .ok r

/-- `send_transfer_request` writes the size of the request and the request. -/
theorem follows_sendTransferRequest {c : Setup na} {r : TransferRequest}
    (hr : c.createTransferRequest = .ok r) (st : na.stream.State) :
    ((sendTransferRequest r).bind fun accepted =>
      (.done (if accepted then .transfer r st else .declined) : Talk (Outcome na))).Follows
      (Agrees c) (requestMessages c) := by
  cases hser : r.serialize with
  | error e =>
    rw [sendTransferRequest, hser]
    trivial
  | ok buffer =>
    have hmessages : requestMessages c =
        [(.requestSize, leBytes 8 buffer.length), (.request, buffer)] := by
      simp [requestMessages, hr, Except.bind, hser]
    rw [sendTransferRequest, hser, hmessages]
    refine ⟨_, rfl, _, rfl, fun byte => ?_⟩
    show Agrees c (if byte != [0] then .transfer r st else .declined) []
    split_ifs
    · exact ⟨rfl, hr⟩
    · rfl

theorem follows_startSession (c : Setup na) : (startSession c).Follows (Agrees c) (script c) := by
  unfold startSession
  cases na.initPush c.key c.header with
  | none => trivial
  | some st =>
    refine ⟨_, rfl, _, rfl, _, rfl, _, rfl, fun byte => ?_⟩
    -- the peer's byte decides whether the session goes on
    show Dialogue.Follows _ (if !(byte != [0]) then _ else _) _
    split_ifs
    · rfl
    · cases hr : c.createTransferRequest with
      | error e => trivial
      | ok r => exact follows_sendTransferRequest hr st

end Sender

namespace Wire

variable {capacity : ℕ} {na : Sodium} {c : Sender.Setup na} {disk : Disk} {coming : Bytes}
  {s t : Wire capacity na}

/-- What holds in every run: the messages are those of the script, and a transfer is a run of
`send_files` with the request that the session has returned. -/
structure Linked (c : Sender.Setup na) (disk : Disk) (s : Wire capacity na) : Prop where
  party : s.party.Failed ∨ s.party.OnScript (Sender.Agrees c) (Sender.script c)
  transfer : ∀ p, s.transfer = some p → ∃ r st, s.party.todo = .done (.transfer r st) ∧
    Reach (Sender.step r) any (Sender.initial capacity r disk st) p

theorem Linked.step {a : Event} (hi : Linked c disk s) (h : Wire.step disk s a = some t) :
    Linked c disk t := by
  obtain ⟨hparty, htransfer⟩ := hi
  cases a with
  | talk e =>
    obtain ⟨p, hp, rfl⟩ := Option.map_eq_some_iff.mp h
    refine ⟨Dialogue.Party.OnScript.step hparty hp, fun q hq => ?_⟩
    obtain ⟨r, st, htodo, hreach⟩ := htransfer q hq
    exact ⟨r, st, Dialogue.Party.todo_of_done htodo hp, hreach⟩
  | start =>
    simp only [Wire.step] at h
    split at h
    next r st htodo hnone =>
      cases h
      refine ⟨hparty, fun q hq => ?_⟩
      cases hq
      exact ⟨r, st, htodo, .refl⟩
    next => cases h
  | send a =>
    simp only [Wire.step] at h
    split at h
    next r st p htodo hp =>
      obtain ⟨q, hq, rfl⟩ := Option.map_eq_some_iff.mp h
      refine ⟨hparty, fun q' hq' => ?_⟩
      cases hq'
      obtain ⟨r', st', htodo', hreach⟩ := htransfer p hp
      rw [htodo] at htodo'
      cases htodo'
      exact ⟨r, st, htodo, hreach.tail trivial hq⟩
    next => cases h

theorem Linked.of_reach (h : Reach (Wire.step disk) any (initial capacity c coming) s) :
    Linked c disk s := by
  refine h.invariant (fun _ _ _ hi _ hstep => hi.step hstep) ⟨Or.inr ?_, ?_⟩
  · exact ⟨Sender.script c, rfl, Sender.follows_startSession c⟩
  · intro p hp
    cases hp

theorem Linked.not_failed (hi : Linked c disk s) (hs : s.Ended .completed) : ¬ s.Failed := by
  obtain ⟨p, htransfer, hmain⟩ := hs
  obtain ⟨r, st, htodo, hreach⟩ := hi.transfer p htransfer
  rintro (hparty | ⟨q, hq, hthrew⟩)
  · exact Dialogue.Party.not_failed_of_done htodo hparty
  · rw [htransfer] at hq
    cases hq
    exact ((Sender.outcome_of_reach hreach).1 hmain).1 hthrew

theorem Linked.seen_of_none (hi : Linked c disk s) (hs : ¬ s.Failed) (hnone : s.transfer = none) :
    s.seen <+: seenMessages (Sender.script c) := by
  obtain ⟨hparty, -⟩ := not_or.mp hs
  obtain ⟨rest, hscript, -⟩ := hi.party.resolve_left hparty
  rw [seen, hnone]
  show seenMessages s.party.written ++ [] <+: _
  rw [List.append_nil, hscript, seenMessages_append]
  exact List.prefix_append _ _

/-- What is seen of a session that has returned before a transfer. -/
theorem Linked.seen_of_done (hi : Linked c disk s) {outcome : Sender.Outcome na}
    (hdone : s.party.todo = .done outcome) (hnot : ∀ r st, outcome ≠ .transfer r st) :
    ∃ rest, Sender.Agrees c outcome rest ∧
      seenMessages (Sender.script c) = s.seen ++ seenMessages rest := by
  have hnone : s.transfer = none := by
    cases htransfer : s.transfer with
    | none => rfl
    | some p =>
      obtain ⟨r, st, htodo, -⟩ := hi.transfer p htransfer
      rw [hdone] at htodo
      cases htodo
      exact absurd rfl (hnot r st)
  obtain ⟨rest, hscript, hfollows⟩ :=
    hi.party.resolve_left (Dialogue.Party.not_failed_of_done hdone)
  rw [hdone] at hfollows
  refine ⟨rest, hfollows, ?_⟩
  rw [hscript, seenMessages_append, seen, hnone]
  show _ = seenMessages s.party.written ++ [] ++ _
  rw [List.append_nil]

/-- What is seen once a transfer has started. -/
theorem Linked.seen_of_some (hi : Linked c disk s) (hs : ¬ s.party.Failed)
    {p : Sender.State capacity na.stream} (hsome : s.transfer = some p) :
    ∃ r st, c.createTransferRequest = .ok r ∧
      Reach (Sender.step r) any (Sender.initial capacity r disk st) p ∧
      s.seen = seenMessages (Sender.script c) ++ framing.mask p.sink := by
  obtain ⟨r, st, htodo, hreach⟩ := hi.transfer p hsome
  obtain ⟨rest, hscript, hfollows⟩ := hi.party.resolve_left hs
  rw [htodo] at hfollows
  obtain ⟨rfl, hr⟩ := hfollows
  refine ⟨r, st, hr, hreach, ?_⟩
  rw [seen, hsome, hscript, List.append_nil]
  rfl

end Wire

namespace Sending

variable {capacity : ℕ} {na : Sodium} {P Q : Type} {x : Sending na P} {y : Sending na Q}

/-- Two senders with the same listing have the same request. -/
theorem createTransferRequest_eq (h : x.listing = y.listing) :
    x.setup.createTransferRequest = y.setup.createTransferRequest := by
  rw [x.create_eq, y.create_eq]
  exact TransferRequest.fromFilePaths_congr h

theorem seenMessages_script_eq (hsalt : x.setup.salt = y.setup.salt)
    (hnonce : x.setup.nonce = y.setup.nonce) (hheader : x.setup.header = y.setup.header)
    (h : x.listing = y.listing) : Wire.seenMessages (Sender.script x.setup) =
      Wire.seenMessages (Sender.script y.setup) := by
  have hrequest : Sender.requestMessages x.setup = Sender.requestMessages y.setup := by
    rw [Sender.requestMessages, Sender.requestMessages, createTransferRequest_eq h]
  simp only [Wire.seenMessages, Sender.script, List.map_cons, Wire.seenMessage, hsalt, hnonce,
    hheader, hrequest, length_encryptHandshakeTag]

/-- What is seen of a run without a failure: the messages, and then the headers that the chunker's
steps lead to. -/
theorem exists_headers {coming : Bytes} {s : Wire capacity na}
    (h : Reach (Wire.step x.disk) any (.initial capacity x.setup coming) s) (hs : ¬ s.Failed) :
    s.seen <+: Wire.seenMessages (Sender.script x.setup) ∨
      ∃ r n, x.setup.createTransferRequest = .ok r ∧
        (Reading.after r x.disk n).thread.thrown = false ∧
        s.seen <+: Wire.seenMessages (Sender.script x.setup) ++
          framing.seen (Sender.headersAfter r x.disk n) := by
  have hi := Wire.Linked.of_reach h
  cases htransfer : s.transfer with
  | none => exact Or.inl (hi.seen_of_none hs htransfer)
  | some p =>
    obtain ⟨hparty, hthrew⟩ := not_or.mp hs
    obtain ⟨r, st, hr, hreach, hseen⟩ := hi.seen_of_some hparty htransfer
    obtain ⟨n, hn, hmask⟩ := Sender.seen_of_reach hreach fun hp => hthrew ⟨p, htransfer, hp⟩
    refine Or.inr ⟨r, n, hr, hn, ?_⟩
    rw [hseen]
    exact (List.prefix_append_right_inj _).mpr hmask

theorem exists_headers_of_completed {coming : Bytes} {s : Wire capacity na}
    (h : Reach (Wire.step x.disk) any (.initial capacity x.setup coming) s)
    (hcompleted : s.Ended .completed) :
    ∃ r n, x.setup.createTransferRequest = .ok r ∧
      (Reading.after r x.disk n).thread.thrown = false ∧
      r.numChunks.toNat ≤ (Sender.headersAfter r x.disk n).length ∧
      s.seen = Wire.seenMessages (Sender.script x.setup) ++
        framing.seen ((Sender.headersAfter r x.disk n).take r.numChunks.toNat) := by
  have hi := Wire.Linked.of_reach h
  have hparty := (not_or.mp (hi.not_failed hcompleted)).1
  obtain ⟨p, htransfer, hmain⟩ := hcompleted
  obtain ⟨r, st, hr, hreach, hseen⟩ := hi.seen_of_some hparty htransfer
  obtain ⟨n, hn, hlen, hmask⟩ := Sender.seen_of_completed hreach hmain
  exact ⟨r, n, hr, hn, hlen, by rw [hseen, hmask]⟩

theorem seen_comparable (hscript : Wire.seenMessages (Sender.script x.setup) =
      Wire.seenMessages (Sender.script y.setup))
    (hcreate : x.setup.createTransferRequest = y.setup.createTransferRequest)
    {coming coming' : Bytes} {s t : Wire capacity na}
    (hs : Reach (Wire.step x.disk) any (.initial capacity x.setup coming) s)
    (ht : Reach (Wire.step y.disk) any (.initial capacity y.setup coming') t)
    (hsf : ¬ s.Failed) (htf : ¬ t.Failed) : s.seen <+: t.seen ∨ t.seen <+: s.seen := by
  have hcommon : ∀ {u}, s.seen <+: u → t.seen <+: u →
      s.seen <+: t.seen ∨ t.seen <+: s.seen := fun h h' => List.prefix_or_prefix_of_prefix h h'
  rcases exists_headers hs hsf with hx | ⟨r, m, hr, hm, hx⟩
  · rcases exists_headers ht htf with hy | ⟨r', n, -, -, hy⟩
    · exact hcommon hx (hscript ▸ hy)
    · exact hcommon (hx.trans (hscript ▸ List.prefix_append _ _)) hy
  · rcases exists_headers ht htf with hy | ⟨r', n, hr', hn, hy⟩
    · exact hcommon hx (hy.trans (hscript ▸ List.prefix_append _ _))
    · rw [hcreate, hr'] at hr
      cases hr
      rw [← hscript] at hy
      -- both are prefixes of what the chunker that is ahead leads to
      rcases Sender.headersAfter_comparable hm hn with hle | hle
      · refine hcommon (hx.trans ?_) hy
        exact (List.prefix_append_right_inj _).mpr (framing.seen_isPrefix hle)
      · refine hcommon hx (hy.trans ?_)
        exact (List.prefix_append_right_inj _).mpr (framing.seen_isPrefix hle)

theorem seen_eq_of_completed (hscript : Wire.seenMessages (Sender.script x.setup) =
      Wire.seenMessages (Sender.script y.setup))
    (hcreate : x.setup.createTransferRequest = y.setup.createTransferRequest)
    {coming coming' : Bytes} {s t : Wire capacity na}
    (hs : Reach (Wire.step x.disk) any (.initial capacity x.setup coming) s)
    (ht : Reach (Wire.step y.disk) any (.initial capacity y.setup coming') t)
    (hse : s.Ended .completed) (hte : t.Ended .completed) : s.seen = t.seen := by
  obtain ⟨r, m, hr, hm, hlen, hx⟩ := exists_headers_of_completed hs hse
  obtain ⟨r', n, hr', hn, hlen', hy⟩ := exists_headers_of_completed ht hte
  rw [hcreate, hr'] at hr
  cases hr
  rw [hx, hy, hscript]
  congr 2
  -- one chunker may have read more than the other, but both have read `num_chunks` chunks
  rcases Sender.headersAfter_comparable hm hn with ⟨rest, hrest⟩ | ⟨rest, hrest⟩
  · rw [← hrest, List.take_append_of_le_length hlen]
  · rw [← hrest, List.take_append_of_le_length hlen']

/-- Two runs that have returned before a transfer look the same, if they have the same messages
left. -/
theorem seen_eq_of_done (hscript : Wire.seenMessages (Sender.script x.setup) =
      Wire.seenMessages (Sender.script y.setup))
    {coming coming' : Bytes} {s t : Wire capacity na}
    (hs : Reach (Wire.step x.disk) any (.initial capacity x.setup coming) s)
    (ht : Reach (Wire.step y.disk) any (.initial capacity y.setup coming') t)
    {outcome : Sender.Outcome na} (hsd : s.party.todo = .done outcome)
    (htd : t.party.todo = .done outcome) (hnot : ∀ r st, outcome ≠ .transfer r st)
    (hrest : ∀ rest rest', Sender.Agrees x.setup outcome rest →
      Sender.Agrees y.setup outcome rest' → rest = rest') : s.seen = t.seen := by
  obtain ⟨rest, hx, hsx⟩ := (Wire.Linked.of_reach hs).seen_of_done hsd hnot
  obtain ⟨rest', hy, hty⟩ := (Wire.Linked.of_reach ht).seen_of_done htd hnot
  rw [hscript, hty, hrest rest rest' hx hy] at hsx
  exact (List.append_cancel_right hsx).symm

/-- File contents do not influence the clear part of the traffic.  Two senders with the same salt,
nonce and header, whose staged files have the same relative paths and sizes in the same order: in
any two runs without a failure, whatever the files contain and whichever thread takes the next
step, an observer sees the same bytes outside the ciphertexts and ciphertexts of the same lengths,
as far as both have got; and exactly the same once both have come to the same end. -/
theorem seen_eq (hsalt : x.setup.salt = y.setup.salt) (hnonce : x.setup.nonce = y.setup.nonce)
    (hheader : x.setup.header = y.setup.header) (hlisting : x.listing = y.listing)
    {coming coming' : Bytes} {s t : Wire capacity na}
    (hs : Reach (Wire.step x.disk) any (.initial capacity x.setup coming) s)
    (ht : Reach (Wire.step y.disk) any (.initial capacity y.setup coming') t)
    (hsf : ¬ s.Failed) (htf : ¬ t.Failed) :
    (s.seen <+: t.seen ∨ t.seen <+: s.seen) ∧
      ∀ e, s.Ended e → t.Ended e → s.seen = t.seen := by
  have hscript := seenMessages_script_eq hsalt hnonce hheader hlisting
  have hcreate := createTransferRequest_eq hlisting
  refine ⟨seen_comparable hscript hcreate hs ht hsf htf, fun e hse hte => ?_⟩
  cases e with
  | handshakeFailed =>
    refine seen_eq_of_done hscript hs ht hse hte (by simp) ?_
    rintro rest rest' rfl rfl
    rw [Sender.requestMessages, Sender.requestMessages, hcreate]
  | declined =>
    refine seen_eq_of_done hscript hs ht hse hte (by simp) ?_
    rintro rest rest' rfl rfl
    rfl
  | completed => exact seen_eq_of_completed hscript hcreate hs ht hse hte

/-- A sender of the files `a` and `b/c` of three bytes together, with a key and contents of its
own. -/
def ofBytes (key x y z : UInt8) : Sending .plain Bytes where
  setup := { Sender.oneByteSetup with
    key := [key] ++ List.replicate saltSize 1
    createTransferRequest := .ok Sender.twoFileRequest }
  disk path := if path = [97] then some [x] else if path = [98, 47, 99] then some [y, z] else none
  relative := id
  paths := [[97], [98, 47, 99]]
  create_eq := by
    refine Sender.fromFilePaths_twoFiles.symm.trans (TransferRequest.fromFilePaths_congr ?_)
    rfl

/-- The peer accepts everything, and then the threads run. -/
def acceptedRun (threads : List Action) : List Wire.Event :=
  List.replicate 4 (.talk .next) ++ [.talk .arrive] ++ List.replicate 3 (.talk .next) ++
    [.talk .arrive, .talk .next, .start] ++ threads.map .send

/-- The threads one after the other. -/
def threadsInTurn : List Action :=
  List.replicate 10 (.producer none) ++ List.replicate 9 (.stage none) ++
    List.replicate 12 (.consumer none) ++ List.replicate 3 (.tracker none) ++ [.main]

/-- The stage and the tracker run before there is anything for them. -/
def threadsMixed : List Action :=
  List.replicate 3 (.tracker none) ++ List.replicate 3 (.stage none) ++
    List.replicate 10 (.producer none) ++ List.replicate 9 (.stage none) ++
    List.replicate 12 (.consumer none) ++ List.replicate 3 (.tracker none) ++ [.main]

/-- Two senders with different keys and contents, whose threads run in different orders. -/
theorem seen_eq_ofBytes : ∃ s t : Wire Sender.queueCapacity .plain,
    Reach (Wire.step (ofBytes 112 7 8 9).disk) any
      (.initial _ (ofBytes 112 7 8 9).setup [1, 1]) s ∧
    Reach (Wire.step (ofBytes 113 9 0 7).disk) any
      (.initial _ (ofBytes 113 9 0 7).setup [1, 1]) t ∧
    s.Ended .completed ∧ t.Ended .completed ∧ s.seen = t.seen := by
  have hrun : ∀ x ∈ [(ofBytes 112 7 8 9, threadsInTurn), (ofBytes 113 9 0 7, threadsMixed)],
      (exec (Wire.step x.1.disk) (.initial Sender.queueCapacity x.1.setup [1, 1])
        (acceptedRun x.2)).map
          (fun s => decide (s.transfer.map Pipeline.main = some .completed)) = some true := by
    decide +kernel
  have hended : ∀ x ∈ [(ofBytes 112 7 8 9, threadsInTurn), (ofBytes 113 9 0 7, threadsMixed)],
      ∃ s : Wire Sender.queueCapacity .plain,
        Reach (Wire.step x.1.disk) any (.initial _ x.1.setup [1, 1]) s ∧ s.Ended .completed := by
    intro x hx
    obtain ⟨s, hs, htest⟩ := reach_of_exec_test _ (fun _ _ _ => trivial) (hrun x hx)
    obtain ⟨p, hp, hmain⟩ := Option.map_eq_some_iff.mp (of_decide_eq_true htest)
    exact ⟨s, hs, p, hp, hmain⟩
  obtain ⟨s, hs, hse⟩ := hended (ofBytes 112 7 8 9, threadsInTurn) (by simp)
  obtain ⟨t, ht, hte⟩ := hended (ofBytes 113 9 0 7, threadsMixed) (by simp)
  have hsf := (Wire.Linked.of_reach hs).not_failed hse
  have htf := (Wire.Linked.of_reach ht).not_failed hte
  exact ⟨s, t, hs, ht, hse, hte, (seen_eq (x := ofBytes 112 7 8 9) (y := ofBytes 113 9 0 7)
    rfl rfl rfl rfl hs ht hsf htf).2 _ hse hte⟩

end Sending

end Trit
