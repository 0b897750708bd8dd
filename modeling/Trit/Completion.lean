import Trit.Session

/-!
# A session comes to its end

Sessions of sender and receiver in which nothing fails, and whether they can be completed.

* `Sender.Calm.canReach_completed`: the sender always gets to `staging::clear`;
* `Receiver.Calm.canReach_completed`: the receiver does, once everything has arrived, unless its
  writer is stranded;
* `Session.prompt`: the events in which the receiver's steps are prompt;
* `Session.Finished`: both ends have reported success, and the files are there;
* `completes_iff`: a session can be finished from every state but those with a stranded writer, and
  prompt sessions meet no such state.
-/

namespace Trit

open Transition FileManager TransferManager

/-! ### The main threads -/

namespace Pipeline

variable {capacity : ℕ} {π γ ω₁ ω₂ κ : Type} {P : Program π γ ω₁ ω₂ κ}
  {s : Pipeline capacity π γ ω₁ ω₂ κ}

theorem Slot.handled_eq_nil (hi : Slot s) (habort : s.ctx.abortFlag = false) :
    s.ctx.handled = [] := by
  by_contra hne
  rw [hi.abort.mpr (Or.inl hne)] at habort
  cases habort

/-- Behind the joins the main thread reports success if nothing has failed. -/
theorem Slot.step_main (hi : Slot s) (habort : s.ctx.abortFlag = false)
    (hjoin : s.joinable = true) (hmain : s.main ≠ .completed) :
    s.step P .main = some { s with main := .completed } := by
  have hhandled := hi.handled_eq_nil habort
  have hptr : s.ctx.exceptionPtr = none := by
    rw [hi.ptr, hhandled]
    rfl
  cases hm : s.main with
  | joining => simp [Pipeline.step, hm, hjoin, hptr]
  | failed e =>
    have he := hi.failed e hm
    rw [hhandled] at he
    cases he
  | completed => exact absurd hm hmain

end Pipeline

/-! ### The two ends -/

namespace Sender

variable {capacity : ℕ} {ss : SecretStream} {r : TransferRequest} {disk : Disk} {st : ss.State}
  {s : State capacity ss}

/-- A sender in which nothing fails can always come to its end. -/
theorem Calm.canReach_completed (hr : Fits r disk) (hcap : 1 ≤ capacity)
    (hi : Calm r disk st s) :
    CanReach (Sender.step r) quiet (fun t => t.main = .completed) s := by
  have hjoinable : CanReach (Sender.step r) quiet
      (fun t => Calm r disk st t ∧ t.joinable = true) s := by
    refine CanReach.of_measure (I := Calm r disk st) (work r) (fun t ht hgoal => ?_) hi
    obtain ⟨a, u, hq, hstep, hlt⟩ := ht.progress hr hcap fun hjoin => hgoal ⟨ht, hjoin⟩
    exact ⟨a, u, hq, hstep, ht.step hr hq hstep, hlt⟩
  obtain ⟨t, ht, hcalm, hjoin⟩ := hjoinable
  by_cases hmain : t.main = .completed
  · exact ⟨t, ht, hmain⟩
  · exact ⟨_, ht.tail (a := .main) rfl (hcalm.flow.slot.step_main hcalm.abort hjoin hmain), rfl⟩

end Sender

namespace Receiver

variable {capacity : ℕ} {ss : SecretStream} {r : TransferRequest} {disk : Disk} {st : ss.State}
  {start : FileSystem} {es : List Chunk} {coming : Bytes} {s t : State capacity ss}

/-- A receiver to which everything has arrived can come to its end by prompt steps, unless its
writer is stranded. -/
theorem Calm.canReach_completed (hcap : 1 ≤ capacity) (hon : Honest r disk st es)
    (hi : Calm r disk st start es [] s) (hslot : s.Slot) (hs : ¬ Stranded r s) :
    CanReach (Receiver.step r) (prompt r) (fun t => t.main = .completed) s := by
  obtain ⟨t, ht, hjoin⟩ := canReach_of_not_stranded hcap hon hi hs
  have hboth : Calm r disk st start es [] t ∧ t.Slot :=
    ht.invariant (I := fun u => Calm r disk st start es [] u ∧ u.Slot)
      (fun _ _ _ ⟨hu, hslot⟩ ha hstep =>
        ⟨hu.step hon ha.1 hstep, hslot.step (program_sound r) hstep⟩) ⟨hi, hslot⟩
  obtain ⟨hcalm, hslot'⟩ := hboth
  by_cases hmain : t.main = .completed
  · exact ⟨t, ht, hmain⟩
  · exact ⟨_, ht.tail (a := .main) ⟨rfl, nofun⟩
      (hslot'.step_main hcalm.abort hjoin hmain), rfl⟩

/-- What arrives on the socket does not strand the writer. -/
theorem stranded_withSource {socket : Incoming} :
    Stranded r ({ s with source := socket } : State capacity ss) ↔ Stranded r s := Iff.rfl

theorem slot_withSource {socket : Incoming} (h : s.Slot) :
    Pipeline.Slot ({ s with source := socket } : State capacity ss) :=
  ⟨h.ptr, h.abort, h.joined, h.failed, h.completed⟩

end Receiver

/-! ### The session -/

namespace Session

variable {capacity : ℕ} {ss : SecretStream} {r : TransferRequest} {disk : Disk} {st : ss.State}
  {start : FileSystem} {es : List Chunk} {m : EncryptionManager ss} {s t : Session capacity ss}

/-- Nothing fails, and the steps of the receiver are prompt. -/
def prompt (r : TransferRequest) (s : Session capacity ss) (e : Event) : Prop :=
  e.quiet = true ∧ ∀ a, e = .receiver a → Receiver.prompt r s.receiver a

/-- What holds as long as nothing fails. -/
structure Sane (r : TransferRequest) (disk : Disk) (st : ss.State) (start : FileSystem)
    (es : List Chunk) (s : Session capacity ss) : Prop where
  agreed : Agreed r disk st start es s
  slot : s.receiver.Slot

theorem Sane.step {e : Event} (hon : Receiver.Honest r disk st es)
    (hall : transformAll EncryptionManager.encryptChunk (Sender.manager r st) (packing r disk) =
      .ok (es, m))
    (hi : Sane r disk st start es s) (hq : e.quiet = true) (h : Session.step r r s e = some t) :
    Sane r disk st start es t := by
  refine ⟨hi.agreed.step hon hall hq h, ?_⟩
  cases e with
  | sender a =>
    obtain ⟨u, -, rfl⟩ := Option.map_eq_some_iff.mp h
    exact hi.slot
  | receiver a =>
    obtain ⟨u, hu, rfl⟩ := Option.map_eq_some_iff.mp h
    exact hi.slot.step (Receiver.program_sound r) hu
  | arrive n | lose n =>
    obtain rfl := Option.some.inj h
    exact Receiver.slot_withSource hi.slot
  | close =>
    simp only [Session.step] at h
    split_ifs at h
    obtain rfl := Option.some.inj h
    exact Receiver.slot_withSource hi.slot

theorem Sane.initial (hr : Fits r disk) (es : List Chunk) (st : ss.State) (start : FileSystem) :
    Sane r disk st start es (initial capacity r r disk start st) :=
  ⟨Agreed.initial hr es st start, Pipeline.Slot.initial _ _ _ _ _⟩

theorem Sane.of_reach (hon : Receiver.Honest r disk st es)
    (hall : transformAll EncryptionManager.encryptChunk (Sender.manager r st) (packing r disk) =
      .ok (es, m)) (hi : Sane r disk st start es s)
    (h : Reach (Session.step r r) quiet s t) : Sane r disk st start es t :=
  h.invariant (fun _ _ _ hi hq hs => hi.step hon hall hq hs) hi

/-- The sender comes to its end, while the receiver does nothing. -/
theorem Sane.sender_completes (hon : Receiver.Honest r disk st es)
    (hcap : 1 ≤ capacity) (hi : Sane r disk st start es s) :
    ∃ t, Reach (Session.step r r) (prompt r) s t ∧ t.sender.main = .completed ∧
      t.receiver = s.receiver := by
  obtain ⟨u, hu, hmain⟩ := hi.agreed.sender.canReach_completed hon.fits hcap
  obtain ⟨t, ht, rfl, hreceiver⟩ := hu.simulate (f := Session.step r r) (Q := prompt r)
    (R := fun v x => x.sender = v ∧ x.receiver = s.receiver) (x := s)
    (fun v a w x hx hq hstep => by
      obtain ⟨hv, hx⟩ := hx
      obtain ⟨y, hy, hw, hy'⟩ : ∃ y, x.step r r (.sender a) = some y ∧ y.sender = w ∧
          y.receiver = s.receiver := by
        rw [Session.step, hv, hstep]
        exact ⟨_, rfl, rfl, hx⟩
      have hprompt : prompt r x (.sender a) := by
        refine ⟨hq, fun b hb => ?_⟩
        cases hb
      exact ⟨.sender a, y, hprompt, hy, hw, hy'⟩) ⟨rfl, rfl⟩
  exact ⟨t, ht, hmain, hreceiver⟩

/-- Behind the end of the sender, all that is left can arrive. -/
theorem Sane.arrives (hall : transformAll EncryptionManager.encryptChunk (Sender.manager r st)
      (packing r disk) = .ok (es, m)) (hi : Sane r disk st start es s)
    (hmain : s.sender.main = .completed) :
    ∃ t socket, Session.step r r s (.arrive s.flight.length) = some t ∧
      t.sender = s.sender ∧ t.receiver = { s.receiver with source := socket } ∧
      Receiver.Calm r disk st start es [] t.receiver := by
  have hsink := hi.agreed.sink_eq hall (by rw [hmain]; exact nofun)
  obtain ⟨-, -, coming, hcoming, hreceiver⟩ := hi.agreed
  have hnil : coming = [] := by
    rw [hsink] at hcoming
    exact List.append_right_eq_self.mp hcoming
  rw [hnil] at hreceiver
  refine ⟨_, _, rfl, rfl, rfl, ?_⟩
  rw [List.take_length]
  exact hreceiver.arrive

/-- A receiver that has all frames comes to its end by prompt steps, while the sender does
nothing. -/
theorem Sane.receiver_completes (hon : Receiver.Honest r disk st es) (hcap : 1 ≤ capacity)
    (hslot : s.receiver.Slot) (hi : Receiver.Calm r disk st start es [] s.receiver)
    (hs : ¬ Receiver.Stranded r s.receiver) :
    ∃ t, Reach (Session.step r r) (prompt r) s t ∧ t.receiver.main = .completed ∧
      t.sender = s.sender := by
  obtain ⟨u, hu, hmain⟩ := hi.canReach_completed hcap hon hslot hs
  obtain ⟨t, ht, rfl, hsender⟩ := hu.simulate (f := Session.step r r) (Q := prompt r)
    (R := fun v x => x.receiver = v ∧ x.sender = s.sender) (x := s)
    (fun v a w x hx ha hstep => by
      obtain ⟨hv, hx⟩ := hx
      obtain ⟨y, hy, hw, hy'⟩ : ∃ y, x.step r r (.receiver a) = some y ∧ y.receiver = w ∧
          y.sender = s.sender := by
        rw [Session.step, hv, hstep]
        exact ⟨_, rfl, rfl, hx⟩
      refine ⟨.receiver a, y, ⟨ha.1, ?_⟩, hy, hw, hy'⟩
      rintro _ ⟨⟩
      rw [hv]
      exact ha) ⟨rfl, rfl⟩
  exact ⟨t, ht, hmain, hsender⟩

/-- Both ends have reported success, and the files of the list are complete at the receiver. -/
def Finished {Path : Type} (relative : Path → Bytes) (disk : Disk) (paths : List Path)
    (start : FileSystem) (s : Session capacity ss) : Prop :=
  s.sender.main = .completed ∧ s.receiver.main = .completed ∧
    Delivered relative disk paths start s.receiver.sink

/-- A session in which nothing has failed can be finished by prompt events, unless the writer is
stranded. -/
theorem Sane.canReach_completed (hon : Receiver.Honest r disk st es)
    (hall : transformAll EncryptionManager.encryptChunk (Sender.manager r st) (packing r disk) =
      .ok (es, m))
    (hcap : 1 ≤ capacity) (hi : Sane r disk st start es s)
    (hs : ¬ Receiver.Stranded r s.receiver) :
    CanReach (Session.step r r) (prompt r)
      (fun t => t.sender.main = .completed ∧ t.receiver.main = .completed) s := by
  have hquiet : ∀ (u : Session capacity ss) e, prompt r u e → quiet u e := fun _ _ h => h.1
  obtain ⟨t, ht, hmain, hreceiver⟩ := hi.sender_completes hon hcap
  obtain ⟨u, socket, hu, hsender, hsource, hcalm⟩ :=
    (hi.of_reach hon hall (ht.mono hquiet)).arrives hall hmain
  have hslot : u.receiver.Slot := by
    rw [hsource, hreceiver]
    exact Receiver.slot_withSource hi.slot
  have hstranded : ¬ Receiver.Stranded r u.receiver := by
    rw [hsource, Receiver.stranded_withSource, hreceiver]
    exact hs
  obtain ⟨v, hv, hdone, hsender'⟩ := Sane.receiver_completes hon hcap hslot hcalm hstranded
  refine ⟨v, (ht.tail (a := .arrive t.flight.length) ⟨rfl, nofun⟩ hu).trans hv, ?_, hdone⟩
  rw [hsender', hsender]
  exact hmain

/-- The files are complete once the receiver has reported success. -/
theorem Sane.written (hi : Sane r disk st start es s) (hmain : s.receiver.main = .completed) :
    Written disk start r.fileInfos s.receiver.sink := by
  have hjoin := hi.slot.joined (by rw [hmain]; exact nofun)
  exact (hi.agreed.written (Pipeline.joinable_iff.mp hjoin).2.2.1).1

theorem Sane.stranded_of_reach (hon : Receiver.Honest r disk st es)
    (hall : transformAll EncryptionManager.encryptChunk (Sender.manager r st) (packing r disk) =
      .ok (es, m)) (hi : Sane r disk st start es s) (hs : Receiver.Stranded r s.receiver)
    (h : Reach (Session.step r r) quiet s t) : Receiver.Stranded r t.receiver := by
  have hboth : Sane r disk st start es t ∧ Receiver.Stranded r t.receiver := by
    refine h.invariant
      (I := fun u => Sane r disk st start es u ∧ Receiver.Stranded r u.receiver)
      (fun u e v ⟨hu, hstr⟩ hq hstep => ⟨hu.step hon hall hq hstep, ?_⟩) ⟨hi, hs⟩
    cases e with
    | sender a =>
      obtain ⟨w, -, rfl⟩ := Option.map_eq_some_iff.mp hstep
      exact hstr
    | receiver a =>
      obtain ⟨w, hw, rfl⟩ := Option.map_eq_some_iff.mp hstep
      obtain ⟨coming, -, hcalm⟩ := hu.agreed.receiver
      exact hstr.step hon hcalm hw
    | arrive n | lose n =>
      obtain rfl := Option.some.inj hstep
      exact hstr
    | close =>
      simp only [Session.step] at hstep
      split_ifs at hstep
      obtain rfl := Option.some.inj hstep
      exact hstr
  exact hboth.2

/-- A prompt event does not strand the writer. -/
theorem Sane.not_stranded_of_step {e : Event} (hon : Receiver.Honest r disk st es)
    (hi : Sane r disk st start es s) (hs : ¬ Receiver.Stranded r s.receiver)
    (he : prompt r s e) (h : Session.step r r s e = some t) :
    ¬ Receiver.Stranded r t.receiver := by
  cases e with
  | sender a =>
    obtain ⟨u, -, rfl⟩ := Option.map_eq_some_iff.mp h
    exact hs
  | receiver a =>
    obtain ⟨u, hu, rfl⟩ := Option.map_eq_some_iff.mp h
    obtain ⟨coming, -, hcalm⟩ := hi.agreed.receiver
    exact hcalm.not_stranded_of_step hon hs (he.2 a rfl) hu
  | arrive n | lose n =>
    obtain rfl := Option.some.inj h
    exact hs
  | close =>
    simp only [Session.step] at h
    split_ifs at h
    obtain rfl := Option.some.inj h
    exact hs

/-- Sessions of prompt events do not strand the writer. -/
theorem Sane.of_reach_prompt (hon : Receiver.Honest r disk st es)
    (hall : transformAll EncryptionManager.encryptChunk (Sender.manager r st) (packing r disk) =
      .ok (es, m))
    (h : Reach (Session.step r r) (prompt r) (Session.initial capacity r r disk start st) s) :
    Sane r disk st start es s ∧ ¬ Receiver.Stranded r s.receiver :=
  h.invariant (I := fun u => Sane r disk st start es u ∧ ¬ Receiver.Stranded r u.receiver)
    (fun _ _ _ ⟨hu, hstr⟩ he hstep =>
      ⟨hu.step hon hall he.1 hstep, hu.not_stranded_of_step hon hstr he hstep⟩)
    ⟨Sane.initial hon.fits es st start, fun ⟨⟨_, _, _, hpc⟩, _⟩ => nomatch hpc⟩

variable {Path : Type} {relative : Path → Bytes} {paths : List Path} {bytes : Bytes}

/-- Unless the writer is stranded, prompt events finish the session, with all files at the
receiver. -/
theorem Sane.canReach_finished
    (hr : TransferRequest.fromFilePaths relative (fun p => disk.fileSize (relative p)) paths =
      .ok r) (hon : Receiver.Honest r disk st es)
    (hall : transformAll EncryptionManager.encryptChunk (Sender.manager r st) (packing r disk) =
      .ok (es, m)) (hcap : 1 ≤ capacity) (hi : Sane r disk st start es s)
    (hs : ¬ Receiver.Stranded r s.receiver) :
    CanReach (Session.step r r) (prompt r) (Finished relative disk paths start) s := by
  obtain ⟨t, ht, hsender, hreceiver⟩ := hi.canReach_completed hon hall hcap hs
  have hwritten := (hi.of_reach hon hall (ht.mono fun _ _ h => h.1)).written hreceiver
  exact ⟨t, ht, hsender, hreceiver, delivered_of_written hr hwritten⟩

/-- A session comes to its end.  As long as nothing fails, the sender can always get to
`staging::clear`, and the whole session can be finished, with all files at the receiver, from every
state but those in which the writer is stranded.  Sessions of prompt events meet no such state. -/
theorem completes_iff
    (hr : TransferRequest.fromFilePaths relative (fun p => disk.fileSize (relative p)) paths =
      .ok r) (hcount : paths.length < 2 ^ 32) (hser : r.serialize = .ok bytes)
    (hsize : (payload disk r.fileInfos).length ≤ 8192 * (2 ^ 32 - 1)) (hcap : 1 ≤ capacity)
    (st : ss.State) (start : FileSystem) :
    ∃ r', TransferRequest.deserialize bytes = .ok r' ∧ ∀ s : Session capacity ss,
      (Reach (step r r') quiet (initial capacity r r' disk start st) s →
        CanReach (step r r') quiet (fun t => t.sender.main = .completed) s ∧
        (CanReach (step r r') quiet (Finished relative disk paths start) s ↔
          ¬ Receiver.Stranded r s.receiver)) ∧
      (Reach (step r r') (prompt r) (initial capacity r r' disk start st) s →
        CanReach (step r r') (prompt r) (Finished relative disk paths start) s) := by
  obtain ⟨es, m, hall, hon⟩ := Receiver.exists_honest (fits_of_fromFilePaths hr hsize) st
  have hquiet : ∀ (u : Session capacity ss) e, prompt r u e → quiet u e := fun _ _ h => h.1
  have hinitial : Sane r disk st start es (initial capacity r r disk start st) :=
    Sane.initial hon.fits es st start
  refine ⟨r, deserialize_fromFilePaths hr hcount hser, fun s => ⟨fun hs => ⟨?_, ?_, ?_⟩, fun hs =>
    ?_⟩⟩
  · obtain ⟨t, ht, hmain, -⟩ := (hinitial.of_reach hon hall hs).sender_completes hon hcap
    exact ⟨t, ht.mono hquiet, hmain⟩
  · rintro ⟨t, ht, -, hmain, -⟩ hstr
    have hsane := hinitial.of_reach hon hall hs
    obtain ⟨⟨path, n, infos, hpc⟩, -⟩ := hsane.stranded_of_reach hon hall hstr ht
    have hjoin := (hsane.of_reach hon hall ht).slot.joined (by rw [hmain]; exact nofun)
    exact nomatch hpc.symm.trans (Pipeline.joinable_iff.mp hjoin).2.2.1
  · exact fun hstr =>
      ((hinitial.of_reach hon hall hs).canReach_finished hr hon hall hcap hstr).mono hquiet
  · obtain ⟨hsane, hstr⟩ := Sane.of_reach_prompt hon hall hs
    exact hsane.canReach_finished hr hon hall hcap hstr

/-- The session for the file of one byte can be finished. -/
theorem completes_oneByte : CanReach (step Sender.oneByteRequest Sender.oneByteRequest)
    (prompt Sender.oneByteRequest)
    (Finished id Sender.oneByteDisk [[97]] Receiver.emptyDirectory) oneByteInitial := by
  obtain ⟨r', hr', hs⟩ := completes_iff Sender.fromFilePaths_oneByte (by decide)
    (show Sender.oneByteRequest.serialize = .ok _ from rfl) (by decide)
    (show 1 ≤ Sender.queueCapacity by decide) Sender.newStream Receiver.emptyDirectory
  obtain rfl : Sender.oneByteRequest = r' := Except.ok.inj hr'
  exact (hs oneByteInitial).2 .refl

end Session

end Trit
