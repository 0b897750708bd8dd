import Trit.QuietSender
import Trit.QuietReceiver

/-!
# A session of sender and receiver

`send_files` and `receive_files` joined by a connection.  What the sender writes is first in
flight, arrives in order, and may be lost together with the connection.  Nothing goes the other way
during a transfer.

* `Session`, `Event`, `step`: the two pipelines and the connection between them;
* `Agreed`: what holds while nothing has failed: the bytes that arrive are the frames of the
  encrypted packing;
* `delivers`: once the writer has returned, all bytes of the files have been written;
* `cleared_after_handover`: what the sender knows when it clears the staging area.
-/

namespace Trit

open Transition FileManager TransferManager

/-- A sender, a receiver, and the bytes between them. -/
structure Session (capacity : ℕ) (ss : SecretStream) where
  sender : Sender.State capacity ss
  flight : Bytes
  receiver : Receiver.State capacity ss
  lost : Bool

/-- What can happen in a session: a step of one side, the arrival of bytes, the end of the sender,
which closes the connection behind the last byte, and the loss of the connection, in which the
receiver keeps some of the bytes that have arrived. -/
inductive Event
  | sender (a : Action)
  | receiver (a : Action)
  | arrive (n : ℕ)
  | close
  | lose (n : ℕ)

/-- An event in which nothing fails. -/
def Event.quiet : Event → Bool
  | .sender a | .receiver a => a.quiet
  | .arrive _ | .close => true
  | .lose _ => false

namespace Session

variable {capacity : ℕ} {ss : SecretStream}

/-- The side condition of a session in which nothing fails. -/
def quiet {σ : Type} (_ : σ) (e : Event) : Prop := e.quiet = true

/-- Both sides with all threads started: the sender with its request, the receiver with the one it
has decoded and accepted. -/
def initial (capacity : ℕ) (r r' : TransferRequest) (disk : Disk) (start : FileSystem)
    (st : ss.State) : Session capacity ss where
  sender := Sender.initial capacity r disk st
  flight := []
  receiver := Receiver.initial capacity r' ⟨[], false⟩ start st
  lost := false

/-- The socket of the receiver is replaced. -/
def withSocket (s : Session capacity ss) (socket : Incoming) : Session capacity ss :=
  { s with receiver := { s.receiver with source := socket } }

/-- One event.  Once the connection is lost, what the sender still writes gets nowhere. -/
def step (r r' : TransferRequest) (s : Session capacity ss) : Event → Option (Session capacity ss)
  | .sender a => (Sender.step r s.sender a).map fun t =>
      { s with
        sender := t
        flight := if s.lost then [] else s.flight ++ t.sink.drop s.sender.sink.length }
  | .receiver a => (Receiver.step r' s.receiver a).map fun t => { s with receiver := t }
  | .arrive n =>
      some { s.withSocket ⟨s.receiver.source.stream ++ s.flight.take n,
        s.receiver.source.closed⟩ with flight := s.flight.drop n }
  | .close =>
      if s.sender.main ≠ .joining ∧ s.flight = [] then
        some (s.withSocket ⟨s.receiver.source.stream, true⟩)
      else none
  | .lose n =>
      some { s.withSocket ⟨s.receiver.source.stream.take n, true⟩ with flight := [], lost := true }

/-! ### Sessions in which nothing fails -/

/-- Both sides are as they should be, and what is in flight and what is still to be written is
what the receiver waits for. -/
structure Agreed (r : TransferRequest) (disk : Disk) (st : ss.State) (start : FileSystem)
    (es : List Chunk) (s : Session capacity ss) : Prop where
  connected : s.lost = false
  sender : Sender.Calm r disk st s.sender
  receiver : ∃ coming, s.sender.sink ++ coming = frames es ∧
    Receiver.Calm r disk st start es (s.flight ++ coming) s.receiver

variable {r : TransferRequest} {disk : Disk} {st : ss.State} {start : FileSystem}
  {es : List Chunk} {m : EncryptionManager ss} {s t : Session capacity ss}

theorem Agreed.initial (hr : Fits r disk) (es : List Chunk) (st : ss.State)
    (start : FileSystem) :
    Agreed r disk st start es (initial capacity r r disk start st) where
  connected := rfl
  sender := Sender.Calm.initial hr st
  receiver := ⟨frames es, rfl, Receiver.Calm.initial r disk st start es rfl (Or.inl rfl)⟩

theorem Agreed.arrive (n : ℕ) (hi : Agreed r disk st start es s)
    (h : step r r s (.arrive n) = some t) : Agreed r disk st start es t := by
  obtain ⟨hconnected, hsender, coming, hcoming, hreceiver⟩ := hi
  obtain rfl := Option.some.inj h
  rw [← List.take_append_drop n s.flight, List.append_assoc] at hreceiver
  exact ⟨hconnected, hsender, coming, hcoming, hreceiver.arrive⟩

/-- A sender that has come to its end has written everything. -/
theorem Agreed.sink_eq (hi : Agreed r disk st start es s)
    (hall : transformAll EncryptionManager.encryptChunk (Sender.manager r st) (packing r disk) =
      .ok (es, m)) (hmain : s.sender.main ≠ .joining) : s.sender.sink = frames es := by
  have hjoin := hi.sender.flow.slot.joined hmain
  obtain ⟨-, -, hconsumer, -⟩ := Pipeline.joinable_iff.mp hjoin
  exact (hi.sender.finished hall hconsumer).2.2.1

/-- Every event in which nothing fails keeps the agreement. -/
theorem Agreed.step {e : Event} (hon : Receiver.Honest r disk st es)
    (hall : transformAll EncryptionManager.encryptChunk (Sender.manager r st) (packing r disk) =
      .ok (es, m))
    (hi : Agreed r disk st start es s) (hq : e.quiet = true) (h : step r r s e = some t) :
    Agreed r disk st start es t := by
  cases e with
  | sender a =>
    obtain ⟨hconnected, hsender, coming, hcoming, hreceiver⟩ := hi
    obtain ⟨u, hu, rfl⟩ := Option.map_eq_some_iff.mp h
    have hcalm := hsender.step hon.fits hq hu
    obtain ⟨new, hnew⟩ := Sender.sink_isPrefix_of_step hu
    obtain ⟨rest, hrest⟩ := hcalm.sink_isPrefix hall
    -- what has just been written is taken from what was to come
    have hsplit : coming = new ++ rest := by
      rw [← hrest, ← hnew, List.append_assoc] at hcoming
      exact List.append_cancel_left hcoming
    refine ⟨hconnected, hcalm, rest, hrest, ?_⟩
    show Receiver.Calm r disk st start es
      ((if s.lost then [] else s.flight ++ u.sink.drop s.sender.sink.length) ++ rest) s.receiver
    rw [hconnected, ← hnew, List.drop_left, if_neg Bool.false_ne_true, List.append_assoc,
      ← hsplit]
    exact hreceiver
  | receiver a =>
    obtain ⟨hconnected, hsender, coming, hcoming, hreceiver⟩ := hi
    obtain ⟨u, hu, rfl⟩ := Option.map_eq_some_iff.mp h
    exact ⟨hconnected, hsender, coming, hcoming, hreceiver.step hon hq hu⟩
  | arrive n => exact hi.arrive n h
  | close =>
    have hsink := hi.sink_eq hall
    obtain ⟨hconnected, hsender, coming, hcoming, hreceiver⟩ := hi
    simp only [Session.step] at h
    split_ifs at h with hend
    obtain ⟨hmain, hflight⟩ := hend
    obtain rfl := Option.some.inj h
    -- the connection ends behind the last frame
    have hnil : coming = [] := by
      rw [hsink hmain] at hcoming
      exact List.append_right_eq_self.mp hcoming
    refine ⟨hconnected, hsender, coming, hcoming, { hreceiver with connected := Or.inr ?_ }⟩
    show s.flight ++ coming = []
    rw [hflight, hnil, List.append_nil]
  | lose n => exact nomatch hq

/-- Every session in which nothing fails keeps it. -/
theorem Agreed.of_reach (hon : Receiver.Honest r disk st es)
    (hall : transformAll EncryptionManager.encryptChunk (Sender.manager r st) (packing r disk) =
      .ok (es, m))
    (h : Reach (Session.step r r) quiet (Session.initial capacity r r disk start st) s) :
    Agreed r disk st start es s :=
  h.invariant (fun _ _ _ hi hq hs => hi.step hon hall hq hs) (Agreed.initial hon.fits es st start)

/-- In a session in which nothing fails, the files are complete once the writer has returned. -/
theorem Agreed.written (hi : Agreed r disk st start es s)
    (hconsumer : s.receiver.consumer = .returned) :
    Written disk start r.fileInfos s.receiver.sink ∧ s.receiver.counter = r.numChunks := by
  obtain ⟨-, -, coming, -, hreceiver⟩ := hi
  have hwrite := hreceiver.write
  rw [hconsumer] at hwrite
  exact ⟨hwrite.1, hwrite.2.2⟩

/-! ### Sessions in which anything may fail -/

/-- What holds in every session: as long as nothing has failed the sides agree; a sender in which
nothing has failed sends what it should, even if its peer or the connection has failed. -/
structure Sound (r : TransferRequest) (disk : Disk) (st : ss.State) (start : FileSystem)
    (es : List Chunk) (s : Session capacity ss) : Prop where
  slot : s.sender.Slot
  sender : ¬ s.sender.Threw → Sender.Calm r disk st s.sender
  agreed : ¬ s.sender.Threw → ¬ s.receiver.Threw → s.lost = false → Agreed r disk st start es s

theorem Sound.step {e : Event} (hon : Receiver.Honest r disk st es)
    (hall : transformAll EncryptionManager.encryptChunk (Sender.manager r st) (packing r disk) =
      .ok (es, m))
    (hi : Sound r disk st start es s) (h : Session.step r r s e = some t) :
    Sound r disk st start es t := by
  cases e with
  | sender a =>
    obtain ⟨u, hu, rfl⟩ := Option.map_eq_some_iff.mp h
    refine ⟨hi.slot.step (Sender.program_sound r) hu, fun hT => ?_, fun hT hR hL => ?_⟩
    · obtain ⟨hq, hs⟩ := Pipeline.quiet_of_not_threw hu hT
      exact (hi.sender hs).step hon.fits hq hu
    · obtain ⟨hq, hs⟩ := Pipeline.quiet_of_not_threw hu hT
      exact (hi.agreed hs hR hL).step (e := .sender a) hon hall hq h
  | receiver a =>
    obtain ⟨u, hu, rfl⟩ := Option.map_eq_some_iff.mp h
    refine ⟨hi.slot, hi.sender, fun hT hR hL => ?_⟩
    obtain ⟨hq, hs⟩ := Pipeline.quiet_of_not_threw hu hR
    exact (hi.agreed hT hs hL).step (e := .receiver a) hon hall hq h
  | arrive n =>
    have h' := h
    obtain rfl := Option.some.inj h'
    exact ⟨hi.slot, hi.sender, fun hT hR hL => (hi.agreed hT hR hL).arrive n h⟩
  | close =>
    have h' := h
    simp only [Session.step] at h'
    split_ifs at h' with hend
    obtain rfl := Option.some.inj h'
    exact ⟨hi.slot, hi.sender, fun hT hR hL =>
      (hi.agreed hT hR hL).step (e := .close) hon hall rfl h⟩
  | lose n =>
    obtain rfl := Option.some.inj h
    exact ⟨hi.slot, hi.sender, fun _ _ hL => nomatch hL⟩

theorem Sound.of_reach (hon : Receiver.Honest r disk st es)
    (hall : transformAll EncryptionManager.encryptChunk (Sender.manager r st) (packing r disk) =
      .ok (es, m))
    (h : Reach (Session.step r r) any (Session.initial capacity r r disk start st) s) :
    Sound r disk st start es s := by
  have hagreed : Agreed r disk st start es (Session.initial capacity r r disk start st) :=
    Agreed.initial hon.fits es st start
  exact h.invariant (fun _ _ _ hi _ hs => hi.step hon hall hs)
    ⟨hagreed.sender.flow.slot, fun _ => hagreed.sender, fun _ _ _ => hagreed⟩

/-- A sender that has got to `staging::clear` has not failed, and has written all frames. -/
theorem Sound.completed (hi : Sound r disk st start es s)
    (hall : transformAll EncryptionManager.encryptChunk (Sender.manager r st) (packing r disk) =
      .ok (es, m)) (hmain : s.sender.main = .completed) :
    ¬ s.sender.Threw ∧ s.sender.sink = frames es := by
  have hjoin := hi.slot.joined (by rw [hmain]; exact nofun)
  have hthrew := Pipeline.not_threw_of_joinable hjoin (hi.slot.completed hmain)
  obtain ⟨-, -, hconsumer, -⟩ := Pipeline.joinable_iff.mp hjoin
  exact ⟨hthrew, ((hi.sender hthrew).finished hall hconsumer).2.2.1⟩

/-! ### From the list of files to the files -/

/-- The files of a list are complete, and no other file has changed. -/
def Delivered {Path : Type} (relative : Path → Bytes) (disk : Disk) (paths : List Path)
    (start fs : FileSystem) : Prop :=
  (∀ path ∈ paths, ∃ b, disk (relative path) = some b ∧ fs.files (relative path) = some b) ∧
    ∀ q, q ∉ paths.map relative → fs.files q = start.files q

variable {Path : Type} {relative : Path → Bytes} {paths : List Path} {bytes : Bytes}

theorem delivered_of_written
    (hr : TransferRequest.fromFilePaths relative (fun p => disk.fileSize (relative p)) paths =
      .ok r) {fs : FileSystem} (hw : Written disk start r.fileInfos fs) :
    Delivered relative disk paths start fs := by
  obtain ⟨hadd, -⟩ := TransferRequest.fromFilePaths_ok hr
  obtain ⟨new, hnew, hpaths, hfiles, -⟩ := addFileInfos_ok hadd
  obtain rfl : r.fileInfos = new := hnew
  refine ⟨fun path hpath => ?_, fun q hq => ?_⟩
  · have hmem : relative path ∈ r.fileInfos.map FileInfo.relativePath := by
      rw [hpaths]
      exact List.mem_map_of_mem hpath
    obtain ⟨info, hinfo, hrelative⟩ := List.mem_map.mp hmem
    obtain ⟨b, hb, -⟩ := hfiles info hinfo
    rw [hrelative] at hb
    refine ⟨b, hb, ?_⟩
    rw [hw, if_pos hmem, hb]
  · rw [← hpaths] at hq
    rw [hw, if_neg hq]

/-- The receiver decodes the request that the sender has built. -/
theorem deserialize_fromFilePaths
    (hr : TransferRequest.fromFilePaths relative (fun p => disk.fileSize (relative p)) paths =
      .ok r) (hcount : paths.length < 2 ^ 32) (hser : r.serialize = .ok bytes) :
    TransferRequest.deserialize bytes = .ok r := by
  obtain ⟨hadd, -, hnum, -⟩ := TransferRequest.fromFilePaths_ok hr
  obtain ⟨new, hnew, hpaths, -, -⟩ := addFileInfos_ok hadd
  refine TransferRequest.deserialize_serialize ?_ hser
  have hlen := congrArg List.length hpaths
  rw [List.length_map, List.length_map] at hlen
  rw [hnum, UInt32.toNat_ofNat_of_lt' hcount, hnew, List.nil_append, hlen]

/-- End-to-end delivery.  In every session in which nothing fails, once `write_files_from_chunks`
has returned, each file of the list is complete at the receiver, no other file has changed, and all
chunks are counted. -/
theorem delivers
    (hr : TransferRequest.fromFilePaths relative (fun p => disk.fileSize (relative p)) paths =
      .ok r) (hcount : paths.length < 2 ^ 32) (hser : r.serialize = .ok bytes)
    (hsize : (payload disk r.fileInfos).length ≤ 8192 * (2 ^ 32 - 1)) (st : ss.State)
    (start : FileSystem) :
    ∃ r', TransferRequest.deserialize bytes = .ok r' ∧ ∀ s : Session capacity ss,
      Reach (step r r') quiet (initial capacity r r' disk start st) s →
      s.receiver.consumer = .returned →
        Delivered relative disk paths start s.receiver.sink ∧
          s.receiver.counter = r.numChunks := by
  refine ⟨r, deserialize_fromFilePaths hr hcount hser, fun s hs hconsumer => ?_⟩
  obtain ⟨es, m, hall, hon⟩ := Receiver.exists_honest (fits_of_fromFilePaths hr hsize) st
  obtain ⟨hw, hcounter⟩ := (Agreed.of_reach hon hall hs).written hconsumer
  exact ⟨delivered_of_written hr hw, hcounter⟩

/-- A session for the file of one byte. -/
def oneByteInitial : Session Sender.queueCapacity .counting :=
  initial _ Sender.oneByteRequest Sender.oneByteRequest Sender.oneByteDisk
    Receiver.emptyDirectory Sender.newStream

/-- The sender from the start to the end, then the arrival of all it has written. -/
def oneByteHandover : List Event :=
  Sender.oneByteRun.map .sender ++ [.arrive 64, .close]

/-- The receiver one thread after the other. -/
def oneByteReceive : List Event :=
  List.replicate 4 (.receiver (.producer none)) ++ List.replicate 9 (.receiver (.stage none)) ++
    List.replicate 7 (.receiver (.consumer none)) ++ List.replicate 3 (.receiver (.tracker none))

/-- A session for two files, one of them in a directory. -/
def twoFileInitial : Session Sender.queueCapacity .counting :=
  initial _ Sender.twoFileRequest Sender.twoFileRequest Sender.twoFileDisk
    Receiver.emptyDirectory Sender.newStream

/-- The sender from the start to the end, the arrival of all it has written in two pieces, and the
receiver one thread after the other. -/
def twoFileEvents : List Event :=
  List.replicate 10 (.sender (.producer none)) ++ List.replicate 9 (.sender (.stage none)) ++
    List.replicate 12 (.sender (.consumer none)) ++ List.replicate 3 (.sender (.tracker none)) ++
    [.sender .main, .arrive 20, .receiver (.producer none), .arrive 13, .close] ++
    List.replicate 3 (.receiver (.producer none)) ++ List.replicate 9 (.receiver (.stage none)) ++
    List.replicate 10 (.receiver (.consumer none))

theorem delivers_twoFiles : ∃ s : Session Sender.queueCapacity .counting,
    Reach (step Sender.twoFileRequest Sender.twoFileRequest) quiet twoFileInitial s ∧
    s.receiver.consumer = .returned ∧
    Delivered id Sender.twoFileDisk [[97], [98, 47, 99]] Receiver.emptyDirectory s.receiver.sink ∧
    s.receiver.counter = 1 := by
  have hrun : (exec (step Sender.twoFileRequest Sender.twoFileRequest)
      twoFileInitial twoFileEvents).map
      (fun s => decide (s.receiver.consumer = .returned)) = some true := by decide +kernel
  have hquiet : ∀ e ∈ twoFileEvents, e.quiet = true := List.all_eq_true.mp (by decide)
  obtain ⟨s, hs, hconsumer⟩ := reach_of_exec_test _ (fun e he _ => hquiet e he) hrun
  have hreturned := of_decide_eq_true hconsumer
  obtain ⟨r', hr', hdelivers⟩ := delivers Sender.fromFilePaths_twoFiles (by decide)
    (show Sender.twoFileRequest.serialize = .ok _ from rfl) (by decide) Sender.newStream
    Receiver.emptyDirectory
  obtain rfl : Sender.twoFileRequest = r' := Except.ok.inj hr'
  exact ⟨s, hs, hreturned, hdelivers s hs hreturned⟩

/-- What the sender knows when it clears the staging area.  Whatever fails, it gets there only if
none of its own workers has thrown and all frames are on their way, and then, as long as the
receiver and the connection have not failed either, the writer returns only when all bytes of the
files have been written to their streams.  Whether they do fail, the sender does not wait to
see. -/
theorem cleared_after_handover
    (hr : TransferRequest.fromFilePaths relative (fun p => disk.fileSize (relative p)) paths =
      .ok r) (hcount : paths.length < 2 ^ 32) (hser : r.serialize = .ok bytes)
    (hsize : (payload disk r.fileInfos).length ≤ 8192 * (2 ^ 32 - 1)) (st : ss.State)
    (start : FileSystem) :
    ∃ es m r', transformAll EncryptionManager.encryptChunk (Sender.manager r st)
        (packing r disk) = .ok (es, m) ∧ TransferRequest.deserialize bytes = .ok r' ∧
      ∀ s : Session capacity ss, Reach (step r r') any (initial capacity r r' disk start st) s →
        s.sender.main = .completed →
          ¬ s.sender.Threw ∧ s.sender.sink = frames es ∧
            (¬ s.receiver.Threw → s.lost = false → s.receiver.consumer = .returned →
              Delivered relative disk paths start s.receiver.sink) := by
  obtain ⟨es, m, hall, hon⟩ := Receiver.exists_honest (fits_of_fromFilePaths hr hsize) st
  refine ⟨es, m, r, hall, deserialize_fromFilePaths hr hcount hser, fun s hs hmain => ?_⟩
  have hsound := Sound.of_reach hon hall hs
  obtain ⟨hthrew, hsink⟩ := hsound.completed hall hmain
  refine ⟨hthrew, hsink, fun hR hL hconsumer => ?_⟩
  exact delivered_of_written hr ((hsound.agreed hthrew hR hL).written hconsumer).1

theorem cleared_after_handover_oneByte : ∃ es m,
    transformAll EncryptionManager.encryptChunk
      (Sender.manager Sender.oneByteRequest Sender.newStream)
      (packing Sender.oneByteRequest Sender.oneByteDisk) = .ok (es, m) ∧
    ∃ s, Reach (step Sender.oneByteRequest Sender.oneByteRequest) any oneByteInitial s ∧
      s.sender.main = .completed ∧ s.sender.sink = frames es ∧
      Delivered id Sender.oneByteDisk [[97]] Receiver.emptyDirectory s.receiver.sink := by
  have hrun : (exec (step Sender.oneByteRequest Sender.oneByteRequest) oneByteInitial
      (oneByteHandover ++ oneByteReceive)).map
      (fun s => decide (s.sender.main = .completed ∧ s.lost = false ∧
        s.receiver.joinable = true ∧ s.receiver.ctx.handled = [])) = some true := by
    decide +kernel
  obtain ⟨s, hs, htest⟩ := reach_of_exec_test _ (fun _ _ _ => trivial) hrun
  obtain ⟨hmain, hlost, hjoin, hhandled⟩ := of_decide_eq_true htest
  obtain ⟨es, m, r', hall, hr', hcleared⟩ := cleared_after_handover Sender.fromFilePaths_oneByte
    (by decide) (show Sender.oneByteRequest.serialize = .ok _ from rfl) (by decide)
    Sender.newStream Receiver.emptyDirectory
  obtain rfl : Sender.oneByteRequest = r' := Except.ok.inj hr'
  obtain ⟨-, hsink, hdelivered⟩ := hcleared s hs hmain
  have hthrew := Pipeline.not_threw_of_joinable hjoin hhandled
  exact ⟨es, m, hall, s, hs, hmain, hsink,
    hdelivered hthrew hlost (Pipeline.joinable_iff.mp hjoin).2.2.1⟩

/-- The sender has cleared its staging area while the one frame is in flight; the connection is
lost, the receiver fails to read the frame, and the file does not exist. -/
theorem cleared_then_failed : TransferRequest.fromFilePaths id
      (fun p => Sender.oneByteDisk.fileSize (id p)) [[97]] = .ok Sender.oneByteRequest ∧
    ∃ s, Reach (step Sender.oneByteRequest Sender.oneByteRequest) any oneByteInitial s ∧
      s.sender.main = .completed ∧ s.lost = true ∧ s.receiver.Threw ∧
      Sender.oneByteDisk [97] = some [7] ∧ s.receiver.sink.files [97] = none := by
  have hrun : (exec (step Sender.oneByteRequest Sender.oneByteRequest) oneByteInitial
      (Sender.oneByteRun.map .sender ++ [.lose 0, .receiver (.producer none),
        .receiver (.producer none)])).map
      (fun s => decide (s.sender.main = .completed ∧ s.lost = true ∧
        s.receiver.producer.thrown = true ∧ s.receiver.sink.files [97] = none)) = some true := by
    decide +kernel
  obtain ⟨s, hs, htest⟩ := reach_of_exec_test _ (fun _ _ _ => trivial) hrun
  obtain ⟨hmain, hlost, hthrown, hfile⟩ := of_decide_eq_true htest
  exact ⟨Sender.fromFilePaths_oneByte, s, hs, hmain, hlost, Or.inr (Or.inl hthrown), rfl, hfile⟩

end Session

end Trit
