import Trit.MachineReader
import Trit.MachineWriter
import Trit.Session

/-!
# A transfer in machine integers

The session of sender and receiver with the chunker and the writer whose counters have the types of
the code.

* `Pipeline.map`, `Pipeline.step_map`: a pipeline whose producer and consumer are replaced by
  workers that do the same;
* `MachineSender`, `MachineReceiver`: the two pipelines; `MachineSender.Safe`,
  `MachineReceiver.Safe`: what holds of their counters;
* `MachineSession`: the session of the two;
* `reach_toSession_iff`: it has the runs of the session whose counters are natural numbers.
-/

namespace Trit

open Transition FileManager TransferManager

/-! ### Pipelines that do the same -/

namespace Pipeline

variable {capacity : ℕ} {π π' γ γ' ω₁ ω₂ κ : Type}

/-- A pipeline with the program points of producer and consumer replaced. -/
def map (g : π → π') (k : γ → γ') (s : Pipeline capacity π γ ω₁ ω₂ κ) :
    Pipeline capacity π' γ' ω₁ ω₂ κ where
  ctx := s.ctx
  upstream := s.upstream
  downstream := s.downstream
  counter := s.counter
  source := s.source
  sink := s.sink
  producer := s.producer.map g
  stage := s.stage
  consumer := s.consumer.map k
  tracker := s.tracker
  main := s.main

variable {g : π → π'} {k : γ → γ'} {P : Program π γ ω₁ ω₂ κ} {Q : Program π' γ' ω₁ ω₂ κ}
  {s : Pipeline capacity π γ ω₁ ω₂ κ}

theorem joinable_map (g : π → π') (k : γ → γ') (s : Pipeline capacity π γ ω₁ ω₂ κ) :
    (s.map g k).joinable = s.joinable := by
  have hmap : ∀ {ρ ρ' : Type} (h : ρ → ρ') (t : Thread ρ), (t.map h).isReturned = t.isReturned := by
    intro ρ ρ' h t
    cases t <;> rfl
  simp only [joinable, map, hmap]

/-- Where the operations of producer and consumer do the same, so do the steps. -/
theorem step_map (htransform : Q.transform = P.transform) (hlimit : Q.limit = P.limit)
    (hproducer : ∀ pc f, s.producer = .running pc →
      (Q.producer (g pc)).run s.ctx.shouldAbort f s.producerView =
        ((P.producer pc).run s.ctx.shouldAbort f s.producerView).map fun r => (r.1.map g, r.2))
    (hconsumer : ∀ pc f, s.consumer = .running pc →
      (Q.consumer (k pc)).run s.ctx.shouldAbort f s.consumerView =
        ((P.consumer pc).run s.ctx.shouldAbort f s.consumerView).map fun r => (r.1.map k, r.2))
    (a : Action) : (s.map g k).step Q a = (s.step P a).map (map g k) := by
  cases a with
  | producer f =>
    have hstep := Thread.step_map_of_run fun pc hpc => hproducer pc f hpc
    simp only [step, Option.map_map]
    show ((s.producer.map g).step Q.producer f s.ctx s.producerView).map _ = _
    rw [hstep, Option.map_map]
    rfl
  | stage f =>
    simp only [step, htransform, Option.map_map]
    rfl
  | consumer f =>
    have hstep := Thread.step_map_of_run fun pc hpc => hconsumer pc f hpc
    simp only [step, Option.map_map]
    show ((s.consumer.map k).step Q.consumer f s.ctx s.consumerView).map _ = _
    rw [hstep, Option.map_map]
    rfl
  | tracker f =>
    simp only [step, hlimit, Option.map_map]
    rfl
  | main =>
    have hmain : (s.map g k).main = s.main := rfl
    have hctx : (s.map g k).ctx = s.ctx := rfl
    simp only [step, joinable_map, hmain, hctx]
    cases s.main with
    | joining =>
      dsimp only
      split_ifs <;> rfl
    | failed e | completed => rfl

theorem run_map_id {ω : Type} (x : Option (Thread π × View capacity ω)) :
    x.map (fun r => (r.1.map id, r.2)) = x := by
  have hid : ∀ r : Thread π × View capacity ω, (r.1.map id, r.2) = r := by
    rintro ⟨t, v⟩
    cases t <;> rfl
  simp only [hid, Option.map_id']

/-- A step of another thread leaves the consumer alone. -/
theorem consumer_frame {t : Pipeline capacity π γ ω₁ ω₂ κ} {a : Action}
    (h : s.step P a = some t) (ha : ∀ f, a ≠ .consumer f) : t.consumer = s.consumer := by
  cases a with
  | producer f =>
    obtain ⟨x, -, rfl⟩ := Option.map_eq_some_iff.mp h
    rfl
  | stage f =>
    obtain ⟨x, -, rfl⟩ := Option.map_eq_some_iff.mp h
    rfl
  | consumer f => exact absurd rfl (ha f)
  | tracker f =>
    obtain ⟨x, -, rfl⟩ := Option.map_eq_some_iff.mp h
    rfl
  | main =>
    obtain ⟨-, -, ⟨e, -, rfl⟩ | ⟨-, rfl⟩⟩ := step_main_cases h
    · rfl
    · rfl

end Pipeline

variable {capacity : ℕ} {ss : SecretStream} {r : TransferRequest}

/-! ### The sender -/

namespace MachineSender

/-- The state of `send_files`, with the counters of the code. -/
abbrev State (capacity : ℕ) (ss : SecretStream) :=
  Pipeline capacity MachineReader.Pc SendPc Disk Bytes (EncryptionManager ss)

/-- The threads of `send_files`. -/
def program (ss : SecretStream) (r : TransferRequest) :
    Program MachineReader.Pc SendPc Disk Bytes (EncryptionManager ss) where
  producer := MachineReader.readFilesIntoChunks r
  transform := EncryptionManager.encryptChunk
  consumer := sendChunks
  limit := r.numChunks

/-- `send_files` with all threads started. -/
def initial (capacity : ℕ) (r : TransferRequest) (disk : Disk) (st : ss.State) :
    State capacity ss :=
  Pipeline.initial capacity disk [] (.nextFile (.initial r) r.fileInfos) (Sender.manager r st)
    .abortCheck

/-- One step of one thread of `send_files`. -/
def step (r : TransferRequest) : State capacity ss → Action → Option (State capacity ss) :=
  Pipeline.step (program ss r)

/-- The state with natural numbers. -/
def toSender (s : State capacity ss) : Sender.State capacity ss :=
  s.map MachineReader.Pc.toReadPc id

/-- The counters are right, and no file is too long for them. -/
structure Safe (s : State capacity ss) : Prop where
  thread : MachineReader.Safe s.producer
  sized : MachineReader.Sized s.source

theorem Safe.initial {disk : Disk} (hdisk : MachineReader.Sized disk) (r : TransferRequest)
    (st : ss.State) : Safe (initial capacity r disk st) where
  thread := MachineReader.safe_start r
  sized := hdisk

theorem Safe.step {s t : State capacity ss} {a : Action} (hs : Safe s)
    (h : step r s a = some t) : Safe t := by
  by_cases ha : ∃ f, a = .producer f
  · obtain ⟨f, rfl⟩ := ha
    rcases Pipeline.step_producer_cases h with ⟨pc, th, v, hpc, hrun, rfl⟩ | ⟨e, -, -, rfl⟩ |
      ⟨e, -, -, rfl⟩
    · have hthread := hs.thread
      rw [hpc] at hthread
      refine ⟨(MachineReader.safe_ensures hthread).run
        (fun e => MachineReader.safe_of_not_running nofun) hrun, ?_⟩
      show MachineReader.Sized v.world
      rw [MachineReader.world_of_run hrun]
      exact hs.sized
    · exact ⟨MachineReader.safe_of_not_running nofun, hs.sized⟩
    · exact ⟨MachineReader.safe_of_not_running nofun, hs.sized⟩
  · obtain ⟨hproducer, hsource, -⟩ := Pipeline.producer_frame h fun f hf => ha ⟨f, hf⟩
    refine ⟨?_, ?_⟩
    · rw [hproducer]
      exact hs.thread
    · rw [hsource]
      exact hs.sized

theorem step_toSender {s : State capacity ss} (hs : Safe s) (a : Action) :
    Sender.step r (toSender s) a = (step r s a).map toSender := by
  refine Pipeline.step_map (P := program ss r) (Q := Sender.program ss r) rfl rfl
    (fun pc f hpc => ?_) (fun pc f _ => ?_) a
  · have hthread := hs.thread
    rw [hpc] at hthread
    exact MachineReader.run_toReadPc hthread hs.sized _ f
  · exact (Pipeline.run_map_id _).symm

end MachineSender

/-! ### The receiver -/

namespace MachineReceiver

/-- The state of `receive_files`, with the counters of the code. -/
abbrev State (capacity : ℕ) (ss : SecretStream) :=
  Pipeline capacity ReceivePc MachineWriter.Pc Incoming FileSystem (EncryptionManager ss)

/-- The threads of `receive_files`. -/
def program (ss : SecretStream) (r : TransferRequest) :
    Program ReceivePc MachineWriter.Pc Incoming FileSystem (EncryptionManager ss) where
  producer := receiveChunks r.numChunks
  transform := EncryptionManager.decryptChunk
  consumer := MachineWriter.writeFilesFromChunks r
  limit := r.numChunks

/-- `receive_files` with all threads started. -/
def initial (capacity : ℕ) (r : TransferRequest) (socket : Incoming) (start : FileSystem)
    (st : ss.State) : State capacity ss :=
  Pipeline.initial capacity socket start (.loop 0) (Receiver.manager r st) .firstPop

/-- One step of one thread of `receive_files`. -/
def step (r : TransferRequest) : State capacity ss → Action → Option (State capacity ss) :=
  Pipeline.step (program ss r)

/-- The state with natural numbers. -/
def toReceiver (s : State capacity ss) : Receiver.State capacity ss :=
  s.map id MachineWriter.Pc.toWritePc

/-- The counters are right. -/
def Safe (s : State capacity ss) : Prop := MachineWriter.Safe s.consumer

theorem Safe.step {s t : State capacity ss} {a : Action} (hs : Safe s)
    (h : step r s a = some t) : Safe t := by
  by_cases ha : ∃ f, a = .consumer f
  · obtain ⟨f, rfl⟩ := ha
    rcases Pipeline.step_consumer_cases h with ⟨pc, th, v, hpc, hrun, rfl⟩ | ⟨e, -, -, rfl⟩ |
      ⟨e, -, -, rfl⟩
    · have hthread : MachineWriter.Safe s.consumer := hs
      rw [hpc] at hthread
      exact (MachineWriter.safe_ensures hthread).run
        (fun e => MachineWriter.safe_of_not_running nofun) hrun
    · exact MachineWriter.safe_of_not_running nofun
    · exact MachineWriter.safe_of_not_running nofun
  · unfold Safe
    rw [Pipeline.consumer_frame h fun f hf => ha ⟨f, hf⟩]
    exact hs

theorem step_toReceiver {s : State capacity ss} (hs : Safe s) (a : Action) :
    Receiver.step r (toReceiver s) a = (step r s a).map toReceiver := by
  refine Pipeline.step_map (P := program ss r) (Q := Receiver.program ss r) rfl rfl
    (fun pc f _ => ?_) (fun pc f hpc => ?_) a
  · exact (Pipeline.run_map_id _).symm
  · have hthread : MachineWriter.Safe s.consumer := hs
    rw [hpc] at hthread
    have hsame := MachineWriter.map_writeFilesFromChunks (r := r) hthread
    rw [← Call.run_map]
    exact congrArg _ hsame.symm

end MachineReceiver

/-! ### The session -/

/-- A sender, a receiver, and the bytes between them. -/
structure MachineSession (capacity : ℕ) (ss : SecretStream) where
  sender : MachineSender.State capacity ss
  flight : Bytes
  receiver : MachineReceiver.State capacity ss
  lost : Bool

namespace MachineSession

/-- Both sides with all threads started. -/
def initial (capacity : ℕ) (r r' : TransferRequest) (disk : Disk) (start : FileSystem)
    (st : ss.State) : MachineSession capacity ss where
  sender := MachineSender.initial capacity r disk st
  flight := []
  receiver := MachineReceiver.initial capacity r' ⟨[], false⟩ start st
  lost := false

/-- The socket of the receiver is replaced. -/
def withSocket (s : MachineSession capacity ss) (socket : Incoming) : MachineSession capacity ss :=
  { s with receiver := { s.receiver with source := socket } }

/-- One event. -/
def step (r r' : TransferRequest) (s : MachineSession capacity ss) :
    Event → Option (MachineSession capacity ss)
  | .sender a => (MachineSender.step r s.sender a).map fun t =>
      { s with
        sender := t
        flight := if s.lost then [] else s.flight ++ t.sink.drop s.sender.sink.length }
  | .receiver a => (MachineReceiver.step r' s.receiver a).map fun t => { s with receiver := t }
  | .arrive n =>
      some { s.withSocket ⟨s.receiver.source.stream ++ s.flight.take n,
        s.receiver.source.closed⟩ with flight := s.flight.drop n }
  | .close =>
      if s.sender.main ≠ .joining ∧ s.flight = [] then
        some (s.withSocket ⟨s.receiver.source.stream, true⟩)
      else none
  | .lose n =>
      some { s.withSocket ⟨s.receiver.source.stream.take n, true⟩ with flight := [], lost := true }

/-- The session with natural numbers. -/
def toSession (s : MachineSession capacity ss) : Session capacity ss where
  sender := MachineSender.toSender s.sender
  flight := s.flight
  receiver := MachineReceiver.toReceiver s.receiver
  lost := s.lost

/-- The counters of both sides are right. -/
structure Safe (s : MachineSession capacity ss) : Prop where
  sender : MachineSender.Safe s.sender
  receiver : MachineReceiver.Safe s.receiver

variable {r' : TransferRequest}

theorem Safe.step {s t : MachineSession capacity ss} {e : Event} (hs : Safe s)
    (h : step r r' s e = some t) : Safe t := by
  cases e with
  | sender a =>
    obtain ⟨u, hu, rfl⟩ := Option.map_eq_some_iff.mp h
    exact ⟨hs.sender.step hu, hs.receiver⟩
  | receiver a =>
    obtain ⟨u, hu, rfl⟩ := Option.map_eq_some_iff.mp h
    exact ⟨hs.sender, MachineReceiver.Safe.step hs.receiver hu⟩
  | arrive n | lose n =>
    obtain rfl := Option.some.inj h
    exact ⟨hs.sender, hs.receiver⟩
  | close =>
    simp only [MachineSession.step] at h
    split_ifs at h
    obtain rfl := Option.some.inj h
    exact ⟨hs.sender, hs.receiver⟩

theorem step_toSession {s : MachineSession capacity ss} (hs : Safe s) (e : Event) :
    s.toSession.step r r' e = (s.step r r' e).map toSession := by
  cases e with
  | sender a =>
    simp only [Session.step, step, toSession, MachineSender.step_toSender hs.sender,
      Option.map_map]
    rfl
  | receiver a =>
    simp only [Session.step, step, toSession, MachineReceiver.step_toReceiver hs.receiver,
      Option.map_map]
    rfl
  | arrive n | lose n => rfl
  | close =>
    have hmain : s.toSession.sender.main = s.sender.main := rfl
    have hflight : s.toSession.flight = s.flight := rfl
    simp only [Session.step, step, hmain, hflight]
    split_ifs <;> rfl

/-- The widths of the counters do not matter.  Whatever the two requests, the files and the queue
capacity, and whichever events are possible, the session with the integers of the code has exactly
the runs of the session whose counters are natural numbers, provided that no file is longer than
64 bits can tell. -/
theorem reach_toSession_iff {disk : Disk} (hdisk : MachineReader.Sized disk)
    (r r' : TransferRequest) (start : FileSystem) (st : ss.State) (ok : Event → Prop)
    (u : Session capacity ss) :
    Reach (Session.step r r') (fun _ e => ok e) (Session.initial capacity r r' disk start st) u ↔
      ∃ s, Reach (step r r') (fun _ e => ok e) (initial capacity r r' disk start st) s ∧
        s.toSession = u := by
  have hsafe : Safe (initial capacity r r' disk start st) :=
    ⟨MachineSender.Safe.initial hdisk r st, nofun⟩
  exact reach_map_iff (f := toSession) (I := Safe) (fun _ _ _ hs _ h => hs.step h)
    (fun _ _ _ => Iff.rfl) (fun _ e hs => step_toSession hs e) hsafe u

theorem sized_oneByteDisk : MachineReader.Sized Sender.oneByteDisk := by
  intro path b hb
  unfold Sender.oneByteDisk at hb
  split_ifs at hb
  cases hb
  decide

/-- The session for the file of one byte, up to the end of the writer. -/
theorem reach_toSession_iff_oneByte : ∃ s, Reach (step Sender.oneByteRequest Sender.oneByteRequest)
    (fun _ e => e.quiet = true) (initial Sender.queueCapacity Sender.oneByteRequest
      Sender.oneByteRequest Sender.oneByteDisk Receiver.emptyDirectory Sender.newStream) s ∧
    s.receiver.consumer = .returned ∧ s.receiver.sink.files [97] = some [7] := by
  have hrun : (exec (Session.step Sender.oneByteRequest Sender.oneByteRequest)
      Session.oneByteInitial (Session.oneByteHandover ++ Session.oneByteReceive)).map
      (fun s => decide (s.receiver.consumer = .returned ∧
        s.receiver.sink.files [97] = some [7])) = some true := by decide +kernel
  have hquiet : ∀ e ∈ Session.oneByteHandover ++ Session.oneByteReceive, e.quiet = true :=
    List.all_eq_true.mp (by decide)
  obtain ⟨u, hu, htest⟩ := reach_of_exec_test _
    (fun e he _ => hquiet e he) hrun
  obtain ⟨hreturned, hfile⟩ := of_decide_eq_true htest
  obtain ⟨s, hs, rfl⟩ := (reach_toSession_iff sized_oneByteDisk _ _ _ _ _ u).mp hu
  refine ⟨s, hs, ?_, hfile⟩
  replace hreturned : s.receiver.consumer.map MachineWriter.Pc.toWritePc = .returned := hreturned
  cases hconsumer : s.receiver.consumer with
  | returned => rfl
  | running pc | caught e | flagged e =>
    rw [hconsumer] at hreturned
    cases hreturned

end MachineSession

end Trit
