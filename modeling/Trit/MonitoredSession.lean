import Trit.FairSession
import Trit.MonitoredPipeline

/-!
# Sessions with monitors

A session whose sender and receiver use the queues as they are: with a mutex, with `wait` and
`notify_one`, and with wakeups that nobody has sent.

* `MonitoredSession`, `MonitoredEvent`, `step`: both pipelines and the connection between them;
* `asleep_blocked`: whoever sleeps cannot go on;
* `runs_iff`: the session has the runs of the one in which operations on queues are atomic;
* `FairRun`, `fair_monitored`: fair sessions end.
-/

namespace Trit

open Transition FileManager TransferManager

/-- A sender and a receiver with monitors, and the bytes between them. -/
structure MonitoredSession (capacity : ℕ) (ss : SecretStream) where
  sender : MonitoredPipeline capacity ReadPc SendPc Disk Bytes (EncryptionManager ss)
  flight : Bytes
  receiver : MonitoredPipeline capacity ReceivePc WritePc Incoming FileSystem (EncryptionManager ss)
  lost : Bool

/-- What can happen: a section of a thread of one side, or a wakeup there, and what can happen to
the connection. -/
inductive MonitoredEvent
  | sender (a : MonitoredAction)
  | receiver (a : MonitoredAction)
  | arrive (n : ℕ)
  | close
  | lose (n : ℕ)

/-- The event of a session as which an event is seen. -/
def MonitoredEvent.label : MonitoredEvent → Option Event
  | .sender a => a.label.map .sender
  | .receiver a => a.label.map .receiver
  | .arrive n => some (.arrive n)
  | .close => some .close
  | .lose n => some (.lose n)

namespace MonitoredSession

variable {capacity : ℕ} {ss : SecretStream}

/-- Both sides with all threads started. -/
def initial (capacity : ℕ) (r r' : TransferRequest) (disk : Disk) (start : FileSystem)
    (st : ss.State) : MonitoredSession capacity ss where
  sender := .initial capacity disk [] (.nextFile (.initial r) r.fileInfos) (Sender.manager r st)
    .abortCheck
  flight := []
  receiver := .initial capacity ⟨[], false⟩ start (.loop 0) (Receiver.manager r' st) .firstPop
  lost := false

/-- The socket of the receiver is replaced. -/
def withSocket (s : MonitoredSession capacity ss) (socket : Incoming) :
    MonitoredSession capacity ss :=
  { s with receiver := { s.receiver with source := socket } }

/-- One event. -/
def step (r r' : TransferRequest) (s : MonitoredSession capacity ss) :
    MonitoredEvent → Option (MonitoredSession capacity ss)
  | .sender a => (s.sender.step (Sender.program ss r) a).map fun t =>
      { s with
        sender := t
        flight := if s.lost then [] else s.flight ++ t.sink.drop s.sender.sink.length }
  | .receiver a => (s.receiver.step (Receiver.program ss r') a).map fun t =>
      { s with receiver := t }
  | .arrive n =>
      some { s.withSocket ⟨s.receiver.source.stream ++ s.flight.take n,
        s.receiver.source.closed⟩ with flight := s.flight.drop n }
  | .close =>
      if s.sender.main ≠ .joining ∧ s.flight = [] then
        some (s.withSocket ⟨s.receiver.source.stream, true⟩)
      else none
  | .lose n =>
      some { s.withSocket ⟨s.receiver.source.stream.take n, true⟩ with flight := [], lost := true }

/-- The session with the queues as lists. -/
def toSession (s : MonitoredSession capacity ss) : Session capacity ss where
  sender := s.sender.toPipeline
  flight := s.flight
  receiver := s.receiver.toPipeline
  lost := s.lost

/-- The threads of both sides are inside no other operations than their next ones, and nothing is
in flight on a lost connection. -/
structure Linked (r r' : TransferRequest) (s : MonitoredSession capacity ss) : Prop where
  sender : s.sender.Linked (Sender.program ss r)
  receiver : s.receiver.Linked (Receiver.program ss r')
  lost : s.lost = true → s.flight = []

variable {r r' : TransferRequest} {s t : MonitoredSession capacity ss}

theorem Linked.start (r r' : TransferRequest) (disk : Disk) (start : FileSystem) (st : ss.State) :
    Linked r r' (initial capacity r r' disk start st) :=
  ⟨.start _ _ _ _ _, .start _ _ _ _ _, fun _ => rfl⟩

/-- The session in which the sender has come to a state `t`, and what it has written is in
flight. -/
def afterSender (s : Session capacity ss) (t : Sender.State capacity ss) : Session capacity ss :=
  { s with
    sender := t
    flight := if s.lost then [] else s.flight ++ t.sink.drop s.sender.sink.length }

theorem afterSender_self {s : Session capacity ss} (hs : s.lost = true → s.flight = []) :
    afterSender s s.sender = s := by
  have hflight : (if s.lost = true then []
      else s.flight ++ s.sender.sink.drop s.sender.sink.length) = s.flight := by
    split_ifs with hlost
    · exact (hs hlost).symm
    · rw [List.drop_length, List.append_nil]
  unfold afterSender
  rw [hflight]

/-- The session when the receiver has come to a state `t`. -/
def afterReceiver (s : Session capacity ss) (t : Receiver.State capacity ss) :
    Session capacity ss :=
  { s with receiver := t }

/-- The connection does not see how the queues work. -/
theorem step_close (r r' : TransferRequest) (s : MonitoredSession capacity ss) :
    s.toSession.step r r' .close = (s.step r r' .close).map toSession := by
  have hmain : s.toSession.sender.main = s.sender.main := rfl
  have hflight : s.toSession.flight = s.flight := rfl
  simp only [Session.step, step, hmain, hflight]
  split_ifs <;> rfl

/-- Every event is one of the session, or comes to nothing there. -/
theorem Linked.step {e : MonitoredEvent} (hs : Linked r r' s) (h : s.step r r' e = some t) :
    Follows (e.label.bind (s.toSession.step r r')) s.toSession t.toSession ∧ Linked r r' t := by
  have hreceiver : ∀ socket,
      (s.withSocket socket).receiver.Linked (Receiver.program ss r') := fun _ =>
    ⟨hs.receiver.producer, hs.receiver.stage, hs.receiver.consumer⟩
  cases e with
  | sender a =>
    obtain ⟨u, hu, rfl⟩ := Option.map_eq_some_iff.mp h
    obtain ⟨hfollows, hlinked⟩ := hs.sender.step hu
    refine ⟨?_, hlinked, hs.receiver, fun hlost => if_pos hlost⟩
    have hwhole : Follows ((a.label.map Event.sender).bind (s.toSession.step r r'))
        (afterSender s.toSession s.toSession.sender) (afterSender s.toSession u.toPipeline) :=
      hfollows.lift _ fun _ => rfl
    rw [afterSender_self hs.lost] at hwhole
    exact hwhole
  | receiver a =>
    obtain ⟨u, hu, rfl⟩ := Option.map_eq_some_iff.mp h
    obtain ⟨hfollows, hlinked⟩ := hs.receiver.step hu
    have hwhole : Follows ((a.label.map Event.receiver).bind (s.toSession.step r r'))
        (afterReceiver s.toSession s.toSession.receiver) (afterReceiver s.toSession u.toPipeline) :=
      hfollows.lift _ fun _ => rfl
    exact ⟨hwhole, hs.sender, hlinked, hs.lost⟩
  | arrive n =>
    obtain rfl := Option.some.inj h
    refine ⟨Or.inl rfl, hs.sender, hreceiver _, fun hlost => ?_⟩
    show s.flight.drop n = []
    rw [hs.lost hlost, List.drop_nil]
  | close =>
    refine ⟨Or.inl ((step_close r r' s).trans (by rw [h]; rfl)), ?_⟩
    simp only [MonitoredSession.step] at h
    split_ifs at h
    obtain rfl := Option.some.inj h
    exact ⟨hs.sender, hreceiver _, hs.lost⟩
  | lose n =>
    obtain rfl := Option.some.inj h
    exact ⟨Or.inl rfl, hs.sender, hreceiver _, fun _ => rfl⟩

theorem Linked.complete {e : Event} {u : Session capacity ss} (hs : Linked r r' s)
    (h : s.toSession.step r r' e = some u) :
    ∃ b t, MonitoredEvent.label b = some e ∧ s.step r r' b = some t ∧ t.toSession = u := by
  cases e with
  | sender a =>
    obtain ⟨v, hv, rfl⟩ := Option.map_eq_some_iff.mp h
    obtain ⟨wake, t, ht, rfl⟩ := hs.sender.complete hv
    exact ⟨.sender (.enter a wake), _, rfl, Option.map_eq_some_iff.mpr ⟨t, ht, rfl⟩, rfl⟩
  | receiver a =>
    obtain ⟨v, hv, rfl⟩ := Option.map_eq_some_iff.mp h
    obtain ⟨wake, t, ht, rfl⟩ := hs.receiver.complete hv
    exact ⟨.receiver (.enter a wake), _, rfl, Option.map_eq_some_iff.mpr ⟨t, ht, rfl⟩, rfl⟩
  | arrive n =>
    obtain rfl := Option.some.inj h
    exact ⟨.arrive n, _, rfl, rfl, rfl⟩
  | close =>
    obtain ⟨t, ht, rfl⟩ := Option.map_eq_some_iff.mp ((step_close r r' s).symm.trans h)
    exact ⟨.close, t, rfl, ht, rfl⟩
  | lose n =>
    obtain rfl := Option.some.inj h
    exact ⟨.lose n, _, rfl, rfl, rfl⟩

/-- The monitors refine the queues of the session. -/
theorem refines (r r' : TransferRequest) :
    Refines (MonitoredSession.step r r') (Session.step r r')
      (fun s : MonitoredSession capacity ss => Linked r r' s) toSession MonitoredEvent.label where
  keeps _ _ _ hs h := (hs.step h).2
  sound _ _ _ hs h := (hs.step h).1
  complete _ _ _ hs h := hs.complete h

/-! ### No wakeup is lost -/

variable {disk : Disk} {start : FileSystem} {st : ss.State}

theorem Linked.of_reach
    (h : Reach (MonitoredSession.step r r') any (initial capacity r r' disk start st) s) :
    Linked r r' s :=
  h.invariant (fun _ _ _ hs _ hstep => (hs.step hstep).2) (.start r r' disk start st)

/-- A session for the file of one byte. -/
def oneByteInitial : MonitoredSession Sender.queueCapacity .counting :=
  initial _ Sender.oneByteRequest Sender.oneByteRequest Sender.oneByteDisk Receiver.emptyDirectory
    Sender.newStream

/-- The writer of the receiver goes first, and falls asleep. -/
theorem exec_writer : ∃ s,
    exec (step Sender.oneByteRequest Sender.oneByteRequest) oneByteInitial
      [.receiver (.enter (.consumer none) none)] = some s ∧
      s.toSession = Session.oneByteInitial ∧
        s.receiver.downstream.monitor.phase .popper = .asleep .pop :=
  ⟨_, rfl, rfl, rfl⟩

/-- No wakeup is lost.  Whatever fails, whoever is notified, and whoever wakes without having been:
a thread that sleeps at one of the four queues of a session sleeps in `pop` in front of an empty
queue, or in `push` in front of a full one. -/
theorem asleep_blocked
    (h : Reach (step r r') any (initial capacity r r' disk start st) s) :
    ∀ q ∈ [s.sender.upstream, s.sender.downstream, s.receiver.upstream, s.receiver.downstream],
      ∀ p op, q.monitor.phase p = .asleep op →
        p = .popper ∧ op = .pop ∧ q.queue.queue = [] ∨
          ∃ c, p = .pusher ∧ op = .push c ∧ q.queue.queue.length = capacity := by
  have hs := Linked.of_reach h
  intro q hq p op hp
  have hsides : q.Sides := by
    simp only [List.mem_cons, List.not_mem_nil, or_false] at hq
    rcases hq with rfl | rfl | rfl | rfl
    · exact hs.sender.sides_upstream
    · exact hs.sender.sides_downstream
    · exact hs.receiver.sides_upstream
    · exact hs.receiver.sides_downstream
  exact hsides.blocked hp

/-- The writer sleeps before anything has arrived. -/
theorem asleep_blocked_writer : ∃ s,
    Reach (step Sender.oneByteRequest Sender.oneByteRequest) any oneByteInitial s ∧
      s.receiver.downstream.monitor.phase .popper = .asleep .pop ∧
      s.receiver.downstream.queue.queue = [] := by
  obtain ⟨s, hexec, -, hasleep⟩ := exec_writer
  have hs : Reach (step Sender.oneByteRequest Sender.oneByteRequest) any oneByteInitial s :=
    reach_of_exec (fun _ _ _ => trivial) hexec
  rcases asleep_blocked hs _ (by simp) .popper .pop hasleep with ⟨-, -, hempty⟩ | ⟨c, hp, -⟩
  · exact ⟨s, hs, hasleep, hempty⟩
  · cases hp

/-- Monitors or atomic queues, it is the same session.  From every state that a session with
monitors can come to, whatever has failed in it, and whichever events are possible from then on, it
has exactly the runs of the session whose operations on queues are atomic: whatever can be done
there, is done in sections of threads that are not asleep. -/
theorem runs_iff (h : Reach (step r r') any (initial capacity r r' disk start st) s)
    (ok : Session capacity ss → Event → Prop) (u : Session capacity ss) :
    Reach (Session.step r r') ok s.toSession u ↔
      ∃ t, Reach (step r r') (seen toSession MonitoredEvent.label ok) s t ∧ t.toSession = u :=
  (refines r r').reach_iff (Linked.of_reach h) u

/-- With the writer asleep, the session for the file of one byte can be brought to its end. -/
theorem runs_iff_oneByte : ∃ s t,
    Reach (step Sender.oneByteRequest Sender.oneByteRequest) any oneByteInitial s ∧
      s.receiver.downstream.monitor.phase .popper = .asleep .pop ∧
      Reach (step Sender.oneByteRequest Sender.oneByteRequest)
        (seen toSession MonitoredEvent.label Session.quiet) s t ∧
      t.sender.main = .completed ∧ t.receiver.main = .completed := by
  obtain ⟨s, hexec, hsame, hasleep⟩ := exec_writer
  have hs : Reach (step Sender.oneByteRequest Sender.oneByteRequest) any oneByteInitial s :=
    reach_of_exec (fun _ _ _ => trivial) hexec
  obtain ⟨u, es, hu, -, hsender, hreceiver, -⟩ := Session.exec_oneByteEvents
  rw [← hsame] at hu
  have hreach := reach_of_exec Session.quiet_oneByteEvents hu
  obtain ⟨t, ht, rfl⟩ := (runs_iff hs Session.quiet u).mp hreach
  exact ⟨s, t, hs, hasleep, ht, hsender, hreceiver⟩

/-! ### Fair sessions with monitors -/

variable {run : ℕ → MonitoredSession capacity ss} {event : ℕ → Option MonitoredEvent}

/-- An infinite session with monitors in which nothing fails, no thread that can run a section
waits for ever, and no byte stays in flight for ever.  Threads may wake without a notification, and
need not. -/
structure FairRun (r r' : TransferRequest) (run : ℕ → MonitoredSession capacity ss)
    (event : ℕ → Option MonitoredEvent) : Prop where
  isRun : Run (step r r') (seen toSession MonitoredEvent.label Session.quiet) run event
  sender : ∀ a, Fair (step r r') (seen toSession MonitoredEvent.label Session.quiet)
    (fun _ e => ∃ wake, e = .sender (.enter a wake)) run event
  receiver : ∀ a, Fair (step r r') (seen toSession MonitoredEvent.label Session.quiet)
    (fun _ e => ∃ wake, e = .receiver (.enter a wake)) run event
  network : Fair (step r r') (seen toSession MonitoredEvent.label Session.quiet)
    (fun s e => s.flight ≠ [] ∧ ∃ n, 0 < n ∧ e = .arrive n) run event

theorem label_eq_sender {e : MonitoredEvent} {a : Action} :
    e.label = some (.sender a) ↔ ∃ wake, e = .sender (.enter a wake) := by
  cases e with
  | sender b => cases b <;> simp [MonitoredEvent.label, MonitoredAction.label]
  | receiver b => cases b <;> simp [MonitoredEvent.label, MonitoredAction.label]
  | _ => simp [MonitoredEvent.label]

theorem label_eq_receiver {e : MonitoredEvent} {a : Action} :
    e.label = some (.receiver a) ↔ ∃ wake, e = .receiver (.enter a wake) := by
  cases e with
  | sender b => cases b <;> simp [MonitoredEvent.label, MonitoredAction.label]
  | receiver b => cases b <;> simp [MonitoredEvent.label, MonitoredAction.label]
  | _ => simp [MonitoredEvent.label]

theorem label_eq_arrive {e : MonitoredEvent} {n : ℕ} :
    e.label = some (.arrive n) ↔ e = .arrive n := by
  cases e <;> simp [MonitoredEvent.label]

/-- A fair session with monitors is seen as a fair session. -/
theorem FairRun.fairRun_toSession (hfair : FairRun r r' run event) (hzero : (run 0).Linked r r') :
    Session.FairRun r r' (fun n => (run n).toSession)
      (observed (Session.step r r') toSession MonitoredEvent.label run event) where
  isRun := (refines r r').isRun hfair.isRun hzero
  sender a := by
    refine (refines r r').fair hfair.isRun hzero ?_ ((hfair.sender a).congr fun s e => ?_)
    · rintro s b b' rfl rfl hnone
      exact hnone
    · simp [shown, label_eq_sender]
  receiver a := by
    refine (refines r r').fair hfair.isRun hzero ?_ ((hfair.receiver a).congr fun s e => ?_)
    · rintro s b b' rfl rfl hnone
      exact hnone
    · simp [shown, label_eq_receiver]
  network := by
    refine (refines r r').fair hfair.isRun hzero ?_ (hfair.network.congr fun s e => ?_)
    · rintro s b b' ⟨-, n, -, rfl⟩ - hnone
      cases hnone
    · constructor
      · rintro ⟨hflight, n, hn, rfl⟩
        exact ⟨.arrive n, rfl, hflight, n, hn, rfl⟩
      · rintro ⟨a, ha, hflight, n, hn, rfl⟩
        exact ⟨hflight, n, hn, label_eq_arrive.mp ha⟩

variable {Path : Type} {relative : Path → Bytes} {paths : List Path} {bytes : Bytes}

/-- A fair session ends, with the monitors as they are and no spurious wakeups to help.  Nothing
fails, and every thread that is awake and the network get their turn: then the sender comes to
`staging::clear` and stays there; both ends come to report success, with all files at the receiver,
or the writer gets stranded for ever; and if the writer looks at `decryption_done` only after the
decryptor has set it, the session is finished. -/
theorem fair_monitored
    (hr : TransferRequest.fromFilePaths relative (fun p => disk.fileSize (relative p)) paths =
      .ok r) (hcount : paths.length < 2 ^ 32) (hser : r.serialize = .ok bytes)
    (hsize : (payload disk r.fileInfos).length ≤ 8192 * (2 ^ 32 - 1)) (hcap : 1 ≤ capacity)
    (st : ss.State) (start : FileSystem) :
    ∃ r', TransferRequest.deserialize bytes = .ok r' ∧
      ∀ (run : ℕ → MonitoredSession capacity ss) (event : ℕ → Option MonitoredEvent),
        FairRun r r' run event → run 0 = initial capacity r r' disk start st →
          (∃ N, ∀ n, N ≤ n → (run n).sender.main = .completed) ∧
          (∃ N, (∀ n, N ≤ n → Session.Finished relative disk paths start (run n).toSession) ∨
            ∀ n, N ≤ n → Receiver.Stranded r (run n).receiver.toPipeline) ∧
          ((∀ n e, event n = some e →
              seen toSession MonitoredEvent.label (Session.prompt r) (run n) e) →
            ∃ N, ∀ n, N ≤ n → Session.Finished relative disk paths start (run n).toSession) := by
  refine ⟨r, Session.deserialize_fromFilePaths hr hcount hser, fun run event hfair hzero => ?_⟩
  have hlinked : (run 0).Linked r r := hzero ▸ .start r r disk start st
  have hstart : (run 0).toSession = Session.initial capacity r r disk start st := by
    rw [hzero]
    rfl
  obtain ⟨hsender, hends, hprompt⟩ :=
    (hfair.fairRun_toSession hlinked).outcome hr hsize hcap hstart
  refine ⟨hsender, hends, fun hall => hprompt fun n a ha => ?_⟩
  obtain ⟨ha, -⟩ := Option.filter_eq_some_iff.mp ha
  obtain ⟨e, he, hlabel⟩ := Option.bind_eq_some_iff.mp ha
  exact hall n e he a hlabel

/-- A session that ends with both ends at their ends, and nothing in flight, is fair. -/
theorem FairRun.of_final {es : List Chunk} {N : ℕ}
    (hrun : Run (MonitoredSession.step r r) (seen toSession MonitoredEvent.label Session.quiet) run
      event)
    (hsane : Session.Sane r disk st start es t.toSession) (hsender : t.sender.main = .completed)
    (hreceiver : t.receiver.main = .completed) (hflight : t.flight = [])
    (hend : ∀ n, N ≤ n → run n = t) : FairRun r r run event where
  isRun := hrun
  sender a := by
    have hmain : t.sender.main ≠ .joining := by
      rw [hsender]
      exact nofun
    refine Fair.of_final hend ?_
    rintro ⟨e, u, ⟨wake, rfl⟩, -, hstep⟩
    obtain ⟨w, hw, -⟩ := Option.map_eq_some_iff.mp hstep
    rw [MonitoredPipeline.step_enter_eq_none (hsane.agreed.sender.flow.slot.joined hmain)
      hmain] at hw
    cases hw
  receiver a := by
    have hmain : t.receiver.main ≠ .joining := by
      rw [hreceiver]
      exact nofun
    refine Fair.of_final hend ?_
    rintro ⟨e, u, ⟨wake, rfl⟩, -, hstep⟩
    obtain ⟨w, hw, -⟩ := Option.map_eq_some_iff.mp hstep
    rw [MonitoredPipeline.step_enter_eq_none (hsane.slot.joined hmain) hmain] at hw
    cases hw
  network := by
    refine Fair.of_final hend ?_
    rintro ⟨e, u, ⟨hne, -⟩, -⟩
    exact hne hflight

/-- The session for the file of one byte, in sections of one thread after the other, is fair, and
ends with the file at the receiver. -/
theorem fair_monitored_oneByte : ∃ (run : ℕ → MonitoredSession Sender.queueCapacity .counting)
    (event : ℕ → Option MonitoredEvent),
    FairRun Sender.oneByteRequest Sender.oneByteRequest run event ∧ run 0 = oneByteInitial ∧
      ∃ N, ∀ n, N ≤ n → Session.Finished id Sender.oneByteDisk [[97]] Receiver.emptyDirectory
        (run n).toSession := by
  obtain ⟨u, es, hu, hsane, hsender, hreceiver, hflight⟩ := Session.exec_oneByteEvents
  obtain ⟨bs, t, ht, rfl, hlabels⟩ := (refines _ _).exists_exec
    (Linked.start Sender.oneByteRequest Sender.oneByteRequest Sender.oneByteDisk
      Receiver.emptyDirectory Sender.newStream) hu
  have hquiet : ∀ b ∈ bs, ∀ s : MonitoredSession Sender.queueCapacity .counting,
      seen toSession MonitoredEvent.label Session.quiet s b := by
    intro b hb s a ha
    have hmem : some a ∈ Session.oneByteEvents.map some :=
      hlabels ▸ ha ▸ List.mem_map_of_mem hb
    obtain ⟨a', ha', heq⟩ := List.mem_map.mp hmem
    exact Option.some.inj heq ▸ Session.quiet_oneByteEvents a' ha' s.toSession
  obtain ⟨run, event, hrun, hzero, hend⟩ := exists_run hquiet ht
  have hfair := FairRun.of_final hrun hsane hsender hreceiver hflight hend
  refine ⟨run, event, hfair, hzero, ?_⟩
  obtain ⟨r', hr', hends⟩ := fair_monitored Sender.fromFilePaths_oneByte (by decide)
    (show Sender.oneByteRequest.serialize = .ok _ from rfl) (by decide)
    (show 1 ≤ Sender.queueCapacity by decide) Sender.newStream Receiver.emptyDirectory
  obtain rfl : Sender.oneByteRequest = r' := Except.ok.inj hr'
  obtain ⟨-, ⟨N, hfinished | hstr⟩, -⟩ := hends run event hfair hzero
  · exact ⟨N, hfinished⟩
  · refine absurd ?_ (hsane.not_stranded hreceiver)
    show Receiver.Stranded _ t.receiver.toPipeline
    rw [← hend _ (le_max_right N _)]
    exact hstr _ (le_max_left N _)

end MonitoredSession

end Trit
