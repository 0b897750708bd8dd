import Trit.Completion
import Trit.FairPipeline

/-!
# Fair sessions

Sessions in which nothing fails, and in which every thread and the network get their turn again and
again.

* `TransferManager.sendLoad_move`: a step of the transmitter gets on with the work, or the
  transmitter polls;
* `Sender.works`, `Receiver.works`: the two pipelines come to their ends;
* `Session.FairRun`: what a session of fair threads and a fair network is;
* `Session.fair_ends`: the sender comes to `staging::clear`, and the receiver reports success with
  all files there, unless its writer gets stranded.
-/

namespace Trit

open Transition FileManager TransferManager

theorem Call.room_of_push {capacity : ℕ} {ω π : Type} {abort : Bool} {v v' : View capacity ω}
    {c : Chunk} {k t : Thread π} (h : (Call.push c k).run abort none v = some (t, v')) :
    v.output.queue.queue.length < capacity := by
  obtain ⟨q, hq, -⟩ := Option.map_eq_some_iff.mp h
  exact (BoundedThreadSafeQueue.push_eq_some.mp hq).1

/-! ### The sender -/

namespace TransferManager

variable {capacity : ℕ}

/-- The rank of the transmitter. -/
def sendCost (c : Channel capacity) (t : Thread SendPc) : ℕ := c.cost sendRank SendPc.idle t

theorem sendCost_le (c c' : Channel capacity) (t : Thread SendPc)
    (hqueue : c.queue.queue <+: c'.queue.queue) (hdone : c.done = true → c'.done = true) :
    sendCost c' t ≤ sendCost c t + 4 * (c'.queue.queue.length - c.queue.queue.length) := by
  refine Channel.cost_le (fun h => sendRank_le h t) (fun ht => ?_) hqueue hdone
  cases t with
  | running pc => cases pc <;> first | (simp [sendRank]; done) | cases ht
  | _ => cases ht

/-- The work left for the transmitter: a chunk on its input costs 16. -/
def sendLoad (v : View capacity Bytes) (t : Thread SendPc) : ℕ :=
  16 * v.input.queue.queue.length + sendCost v.input t

/-- An operation of the transmitter lowers its work, or is one of a transmitter that polls. -/
theorem sendLoad_move {v v' : View capacity Bytes} {pc : SendPc} {t : Thread SendPc}
    (h : SendMove false none v pc t v') :
    sendLoad v' t < sendLoad v (.running pc) ∨
      v' = v ∧ v.input.dry = true ∧ pc.idle = true ∧ t.idles SendPc.idle = true := by
  have hbusy : ∀ (c : Channel capacity) (t : Thread SendPc), t.idles SendPc.idle = false →
      sendCost c t = sendRank c.queue.empty t := fun c t => Channel.cost_of_busy
  have hturn : ∀ c : Channel capacity, sendCost c (.running .abortCheck) = 6 := by
    intro c
    unfold sendCost Channel.cost
    split_ifs <;> rfl
  have hpoll : ∀ t : Thread SendPc, sendCost v.input t < sendCost v.input (.running pc) →
      sendLoad v t < sendLoad v (.running pc) := fun t hlt => Nat.add_lt_add_left hlt _
  cases h with
  | abort hpc ha => cases ha
  | goOn hpc =>
    subst hpc
    refine (Channel.cost_lt_or_dry fun _ => ?_).imp (hpoll _) fun hdry => ⟨rfl, hdry, rfl, rfl⟩
    simp [sendRank]
  | popped c q hpc hq =>
    subst hpc
    left
    have hdry : v.input.dry = false := by
      rw [Channel.dry_eq_false_iff, (BoundedThreadSafeQueue.pop_eq_some.mp hq).1]
      intro hnil
      cases hnil
    have hcost : sendCost v.input (.running .tryPop) = 5 := Channel.cost_of_not_dry hdry
    have hlen := BoundedThreadSafeQueue.length_of_pop hq
    unfold sendLoad
    rw [hbusy _ _ rfl, hcost]
    simp only [sendRank, frameFields, List.length_cons, List.length_nil]
    omega
  | missed hpc hq =>
    subst hpc
    refine (Channel.cost_lt_or_dry fun _ => ?_).imp (hpoll _) fun hdry => ⟨rfl, hdry, rfl, rfl⟩
    simp [sendRank, BoundedThreadSafeQueue.empty_iff.mpr hq]
  | wrote field rest hpc =>
    subst hpc
    refine Or.inl (Nat.add_lt_add_left ?_ _)
    rw [hbusy _ _ rfl, hbusy _ _ rfl]
    simp [sendRank]
  | fault field rest x hpc hf => cases hf
  | counted hpc =>
    subst hpc
    refine Or.inl (Nat.add_lt_add_left ?_ _)
    rw [hturn, hbusy _ _ rfl]
    simp [sendRank]
  | doneSeen hpc hd =>
    subst hpc
    have hcost : sendCost v.input (.running .inputDone) =
        sendRank v.input.queue.empty (.running .inputDone) :=
      Channel.cost_of_not_dry (Channel.dry_eq_false_iff.mpr fun _ => hd)
    refine Or.inl (hpoll _ ?_)
    rw [hcost, hbusy _ _ rfl]
    simp only [sendRank]
    split_ifs <;> omega
  | notDone hpc hd =>
    subst hpc
    refine (Channel.cost_lt_or_dry fun hdry => ?_).imp (hpoll _) fun hdry => ⟨rfl, hdry, rfl, rfl⟩
    have hne : ¬ v.input.queue.empty = true := by
      intro hempty
      cases hd.symm.trans (Channel.dry_eq_false_iff.mp hdry
        (BoundedThreadSafeQueue.empty_iff.mp hempty))
    simp [sendRank, hne]
  | drained hpc hq =>
    subst hpc
    refine Or.inl (hpoll _ ?_)
    rw [hbusy _ _ rfl, hbusy _ _ rfl]
    simp [sendRank, BoundedThreadSafeQueue.empty_iff.mpr hq]
  | more hpc hq =>
    subst hpc
    have hne : ¬ v.input.queue.empty = true := mt BoundedThreadSafeQueue.empty_iff.mp hq
    refine Or.inl (hpoll _ ?_)
    rw [hturn, hbusy _ _ rfl]
    simp [sendRank, hne]

end TransferManager

namespace Pipeline

variable {capacity : ℕ} {π γ ω₁ ω₂ κ : Type} {P : Program π γ ω₁ ω₂ κ}
  {s t : Pipeline capacity π γ ω₁ ω₂ κ}

/-- If nothing is stored and no thread has thrown, no worker has. -/
theorem Slot.not_threw (hi : Slot s) (habort : s.ctx.abortFlag = false)
    (hproducer : s.producer.thrown = false) (hstage : s.stage.thrown = false)
    (hconsumer : s.consumer.thrown = false) (htracker : s.tracker.thrown = false) :
    ¬ s.Threw := by
  simp [Threw, hi.handled_eq_nil habort, hproducer, hstage, hconsumer, htracker]

/-- What the producer reads does not tell which thread helps. -/
theorem Helps.withSource {rests : Channel capacity → Thread γ → Prop} {source : ω₁} {a : Action}
    (h : Helps P rests s a) : Helps P rests { s with source := source } a := by
  cases h with
  | consumer hrests => exact .consumer hrests
  | stage pc hrests hs hbusy => exact .stage pc hrests hs hbusy
  | producer hdry hidle => exact .producer hdry hidle
  | tracker hstage hlimit hs => exact .tracker hstage hlimit hs
  | main hmain hjoin => exact .main hmain hjoin

theorem Slot.joining_of_step {a : Action} (hi : Slot s) (h : s.step P a = some t) :
    s.main = .joining := by
  cases a with
  | producer f =>
    refine hi.main_eq fun hret => ?_
    rcases step_producer_cases h with ⟨pc, th, v, hs, -⟩ | ⟨e, hs, -⟩ | ⟨e, hs, -⟩ <;>
      cases hs.symm.trans hret.1
  | stage f =>
    refine hi.main_eq fun hret => ?_
    rcases step_stage_cases h with ⟨pc, th, v, hs, -⟩ | ⟨e, hs, -⟩ | ⟨e, hs, -⟩ <;>
      cases hs.symm.trans hret.2.1
  | consumer f =>
    refine hi.main_eq fun hret => ?_
    rcases step_consumer_cases h with ⟨pc, th, v, hs, -⟩ | ⟨e, hs, -⟩ | ⟨e, hs, -⟩ <;>
      cases hs.symm.trans hret.2.2.1
  | tracker f =>
    refine hi.main_eq fun hret => ?_
    rcases step_tracker_cases h with ⟨pc, th, hs, -⟩ | ⟨e, hs, -⟩ | ⟨e, hs, -⟩ <;>
      cases hs.symm.trans hret.2.2.2
  | main => exact (step_main_cases h).1

/-- As long as nothing has failed, `main` reports success. -/
theorem Slot.completed_of_joined (hi : Slot s) (habort : s.ctx.abortFlag = false)
    (hmain : s.main ≠ .joining) : s.main = .completed := by
  cases hm : s.main with
  | joining => exact absurd hm hmain
  | failed e =>
    have he := hi.failed e hm
    rw [hi.handled_eq_nil habort] at he
    cases he
  | completed => rfl

end Pipeline

namespace Sender

variable {capacity : ℕ} {ss : SecretStream} {r : TransferRequest} {disk : Disk} {st : ss.State}

/-- The transmitter has nothing to do before the encryptor gets on. -/
def Rests (c : Channel capacity) (t : Thread SendPc) : Prop :=
  c.dry = true ∧ t.idles SendPc.idle = true ∨ t = .returned

/-- A sender in which nothing fails comes to its end. -/
theorem works (hr : Fits r disk) (hcap : 1 ≤ capacity) :
    Pipeline.Works (program ss r) readWork sendCost Rests (fun _ : State capacity ss => False)
      (Calm r disk st) where
  keeps _ _ _ hi hq h := hi.step hr hq h
  abort s hi := hi.abort
  not_threw s hi := hi.flow.slot.not_threw hi.abort hi.read.thrown hi.stage.thrown hi.send.thrown
    hi.tracker
  transform s hi m c hs := by
    obtain ⟨es, m', hall⟩ := exists_encrypted hr st
    have hstageFlow := hi.flow.stage
    rw [hs] at hstageFlow
    exact hstageFlow.transform_ok hall hi.popped_isPrefix
  producer s pc th v hi hs hrun := by
    have hread := hi.read
    rw [hs] at hread
    have hworld : s.producerView.world = disk := hi.source
    obtain ⟨th', v', hrun', hlt⟩ := readFilesIntoChunks_progress (v := s.producerView)
      (hworld.symm ▸ hr) (hworld.symm ▸ hread) (by
        rintro c l file n infos rfl
        exact Call.room_of_push hrun)
    obtain ⟨rfl, rfl⟩ := Prod.mk.inj (Option.some.inj (hrun'.symm.trans hrun))
    exact hlt
  exists_producer s hi hdry := by
    obtain ⟨hempty, hnotDone⟩ := Channel.dry_iff.mp hdry
    have hread := hi.read
    rcases Thread.cases_of_not_thrown hread.thrown with ⟨pc, hs⟩ | hs
    · rw [hs] at hread
      have hworld : s.producerView.world = disk := hi.source
      have hroom : s.producerView.output.queue.queue.length < capacity := by
        show s.upstream.queue.queue.length < capacity
        rw [hempty]
        exact hcap
      obtain ⟨th, v, hrun, -⟩ := readFilesIntoChunks_progress (v := s.producerView)
        (hworld.symm ▸ hr) (hworld.symm ▸ hread) (fun _ _ _ _ _ _ => hroom)
      exact ⟨pc, th, v, hs, hrun⟩
    · rw [hs] at hread
      cases hnotDone.symm.trans hread.2
  consumer s pc th v hi hs hrun := by
    refine (sendLoad_move (sendMove_of_run hrun)).imp id ?_
    rintro ⟨hv, hdry, hidle, hidles⟩
    have hidle' : (Thread.running pc).idles SendPc.idle = true := hidle
    refine ⟨hv, Or.inl ⟨hdry, hidle'⟩, Or.inl ⟨hdry, hidles⟩, ?_⟩
    exact (Channel.cost_of_dry hdry hidles).trans (Channel.cost_of_dry hdry hidle').symm
  exists_consumer s hi hrests := by
    rcases Thread.cases_of_not_thrown hi.send.thrown with ⟨pc, hs⟩ | hs
    · obtain ⟨th, v, hrun, -⟩ := sendChunks_progress s.consumerView pc fun he hd =>
        Bool.eq_false_iff.mpr fun hpc => hrests (Or.inl ⟨Channel.dry_iff.mpr ⟨he, hd⟩, hs ▸ hpc⟩)
      exact ⟨pc, th, v, hs, hrun⟩
    · exact absurd (Or.inr hs) hrests
  consumer_le := sendCost_le
  queue_eq_nil s hi hrests := by
    rcases hrests with ⟨hdry, -⟩ | hs
    · exact (Channel.dry_iff.mp hdry).1
    · have hsend := hi.send
      rw [hs] at hsend
      exact hsend.2
  finished s hi _ hrests hstage := by
    rcases hrests with ⟨hdry, -⟩ | hs
    · have hcalm := hi.stage
      rw [hstage] at hcalm
      cases (Channel.dry_iff.mp hdry).2.symm.trans hcalm.2.2
    · obtain ⟨es, m, hall⟩ := exists_encrypted hr st
      obtain ⟨hproducer, -, -, hcounter⟩ := hi.finished hall hs
      refine ⟨hproducer, hs, ?_⟩
      rw [hcounter]
      exact UInt32.le_refl _

end Sender

/-! ### The receiver -/

namespace Receiver

variable {capacity : ℕ} {ss : SecretStream} {r : TransferRequest} {disk : Disk} {st : ss.State}
  {start : FileSystem} {es : List Chunk}

/-- The writer has nothing to do before the decryptor gets on. -/
def Rests (c : Channel capacity) (t : Thread WritePc) : Prop :=
  c.queue.queue = [] ∧ t.idles WritePc.blocking = true ∨ t = .returned

/-- A receiver in which nothing fails, and to which everything has arrived, comes to its end, or its
writer gets stranded. -/
theorem works (hon : Honest r disk st es) (hcap : 1 ≤ capacity) :
    Pipeline.Works (program ss r) (receiveRank r.numChunks) (fun _ => writeRank r) Rests
      (Stranded r) (fun s : State capacity ss => Calm r disk st start es [] s ∧ s.Slot) where
  keeps _ _ _ hi hq h := ⟨hi.1.step hon hq h, hi.2.step (program_sound r) h⟩
  abort s hi := hi.1.abort
  not_threw s hi := hi.2.not_threw hi.1.abort hi.1.receive.thrown hi.1.stage.thrown
    hi.1.write.thrown hi.1.tracker
  transform s hi m c hs := by
    obtain ⟨m', hall⟩ := hon.decrypts
    have hstageFlow := hi.1.stageFlow
    rw [hs] at hstageFlow
    exact hstageFlow.transform_ok hall
      ((List.prefix_append _ _).trans hi.1.receive.pushed_isPrefix)
  producer s pc th v hi hs hrun := by
    have hreceive := hi.1.receive
    rw [hs] at hreceive
    obtain ⟨th', v', hrun', hlt⟩ := receiveChunks_progress (v := s.producerView) hon.length_eq
      hon.wf hreceive (by
        rintro c i rfl
        exact Call.room_of_push hrun)
    obtain ⟨rfl, rfl⟩ := Prod.mk.inj (Option.some.inj (hrun'.symm.trans hrun))
    exact hlt
  exists_producer s hi hdry := by
    obtain ⟨hempty, hnotDone⟩ := Channel.dry_iff.mp hdry
    have hreceive := hi.1.receive
    rcases Thread.cases_of_not_thrown hreceive.thrown with ⟨pc, hs⟩ | hs
    · rw [hs] at hreceive
      have hroom : s.producerView.output.queue.queue.length < capacity := by
        show s.upstream.queue.queue.length < capacity
        rw [hempty]
        exact hcap
      obtain ⟨th, v, hrun, -⟩ := receiveChunks_progress (v := s.producerView) hon.length_eq
        hon.wf hreceive (fun _ _ _ => hroom)
      exact ⟨pc, th, v, hs, hrun⟩
    · rw [hs] at hreceive
      cases hnotDone.symm.trans hreceive.2.2
  consumer s pc th v hi hs hrun := by
    have hwrite := hi.1.write
    rw [hs] at hwrite
    -- a `pop` that has come back has found a chunk
    have hinput : pc.blocking = true → s.consumerView.input.queue.queue ≠ [] := by
      intro hblocking hempty
      cases writeMove_of_run hrun with
      | firstPopped c q hpc hq | popped path n infos c q hpc hq =>
        cases hempty.symm.trans (BoundedThreadSafeQueue.pop_eq_some.mp hq).1
      | opened _ _ _ hpc | openFault _ _ _ _ hpc | abort _ _ _ _ hpc | goOn _ _ _ _ hpc
      | wrote _ _ _ _ hpc | writeFault _ _ _ _ _ hpc | counted _ _ _ _ hpc
      | doneSeen _ _ _ _ hpc | notDone _ _ _ _ hpc | drained _ _ _ _ hpc | more _ _ _ _ hpc =>
        rw [hpc] at hblocking
        cases hblocking
    obtain ⟨th', v', hrun', hlt, hle⟩ := writeFilesFromChunks_progress hwrite hinput
    obtain ⟨rfl, rfl⟩ := Prod.mk.inj (Option.some.inj (hrun'.symm.trans hrun))
    change _ ≤ s.downstream.queue.queue.length at hle
    left
    omega
  exists_consumer s hi hrests := by
    rcases Thread.cases_of_not_thrown hi.1.write.thrown with ⟨pc, hs⟩ | hs
    · have hinput : pc.blocking = true → s.consumerView.input.queue.queue ≠ [] :=
        fun hblocking hempty => hrests (Or.inl ⟨hempty, hs ▸ hblocking⟩)
      obtain ⟨th, v, hrun⟩ := exists_run r false hinput
      exact ⟨pc, th, v, hs, hrun⟩
    · exact absurd (Or.inr hs) hrests
  consumer_le _ _ _ _ _ := Nat.le_add_right _ _
  queue_eq_nil s hi hrests := by
    rcases hrests with ⟨hempty, -⟩ | hs
    · exact hempty
    · have hwrite := hi.1.write
      rw [hs] at hwrite
      exact hi.1.queue_eq_nil hon hwrite.2.1
  finished s hi hstr hrests hstage := by
    obtain ⟨hproducer, -, hpushed⟩ := hi.1.of_stage_returned hon hstage
    have hwrite := hi.1.write
    rcases hrests with ⟨hempty, hblocking⟩ | hs
    · -- all chunks are popped, and the writer waits for another one
      rw [BoundedThreadSafeQueue.pushed, hempty, List.append_nil] at hpushed
      have hpopped := congrArg List.length hpushed
      rw [length_packing] at hpopped
      obtain ⟨pc, hs⟩ : ∃ pc, s.consumer = .running pc := by
        cases hs : s.consumer with
        | running pc => exact ⟨pc, rfl⟩
        | _ =>
          rw [hs] at hblocking
          cases hblocking
      rw [hs] at hwrite hblocking
      cases pc with
      | firstPop =>
        rw [hwrite.1, List.length_nil] at hpopped
        exact absurd hpopped (Nat.ne_of_lt hon.fits.numChunks_pos)
      | pop path n infos =>
        exact absurd ⟨⟨path, n, infos, hs⟩, UInt32.toNat.inj (hwrite.1.trans hpopped)⟩ hstr
      | _ => cases hblocking
    · rw [hs] at hwrite
      refine ⟨hproducer, hs, ?_⟩
      rw [hwrite.2.2]
      exact UInt32.le_refl _

end Receiver

/-! ### The session -/

namespace Session

variable {capacity : ℕ} {ss : SecretStream} {r r' : TransferRequest} {disk : Disk} {st : ss.State}
  {start : FileSystem} {es : List Chunk} {m : EncryptionManager ss} {s t : Session capacity ss}
  {run : ℕ → Session capacity ss} {event : ℕ → Option Event}

/-- An infinite session in which nothing fails, no thread that can go on waits for ever, and no
byte stays in flight for ever. -/
structure FairRun (r r' : TransferRequest) (run : ℕ → Session capacity ss)
    (event : ℕ → Option Event) : Prop where
  isRun : Run (step r r') quiet run event
  sender : ∀ a, Fair (step r r') quiet (fun _ e => e = .sender a) run event
  receiver : ∀ a, Fair (step r r') quiet (fun _ e => e = .receiver a) run event
  network : Fair (step r r') quiet (fun s e => s.flight ≠ [] ∧ ∃ n, 0 < n ∧ e = .arrive n) run
    event

/-- A sender whose `main` has got behind the joins stays as it is. -/
theorem Sane.sender_eq {e : Event} (hi : Sane r disk st start es s)
    (hmain : s.sender.main = .completed) (h : Session.step r r s e = some t) :
    t.sender = s.sender := by
  cases e with
  | sender a =>
    obtain ⟨u, hu, rfl⟩ := Option.map_eq_some_iff.mp h
    cases hmain.symm.trans (hi.agreed.sender.flow.slot.joining_of_step hu)
  | receiver a =>
    obtain ⟨u, -, rfl⟩ := Option.map_eq_some_iff.mp h
    rfl
  | arrive n | lose n =>
    obtain rfl := Option.some.inj h
    rfl
  | close =>
    simp only [Session.step] at h
    split_ifs at h
    obtain rfl := Option.some.inj h
    rfl

/-- A receiver whose `main` has got behind the joins goes no further. -/
theorem Sane.receiver_main {e : Event} (hi : Sane r disk st start es s)
    (hmain : s.receiver.main = .completed) (h : Session.step r r s e = some t) :
    t.receiver.main = .completed := by
  cases e with
  | sender a =>
    obtain ⟨u, -, rfl⟩ := Option.map_eq_some_iff.mp h
    exact hmain
  | receiver a =>
    obtain ⟨u, hu, rfl⟩ := Option.map_eq_some_iff.mp h
    cases hmain.symm.trans (hi.slot.joining_of_step hu)
  | arrive n | lose n =>
    obtain rfl := Option.some.inj h
    exact hmain
  | close =>
    simp only [Session.step] at h
    split_ifs at h
    obtain rfl := Option.some.inj h
    exact hmain

/-- A sender or receiver that has come to its end has come to its end for good. -/
theorem Sane.completed_of_reach (hon : Receiver.Honest r disk st es)
    (hall : transformAll EncryptionManager.encryptChunk (Sender.manager r st) (packing r disk) =
      .ok (es, m)) (hi : Sane r disk st start es s) (h : Reach (Session.step r r) quiet s t) :
    (s.sender.main = .completed → t.sender.main = .completed) ∧
      (s.receiver.main = .completed → t.receiver.main = .completed) := by
  have hboth : Sane r disk st start es t ∧
      (s.sender.main = .completed → t.sender.main = .completed) ∧
        (s.receiver.main = .completed → t.receiver.main = .completed) := by
    refine h.invariant (I := fun u => Sane r disk st start es u ∧
      (s.sender.main = .completed → u.sender.main = .completed) ∧
        (s.receiver.main = .completed → u.receiver.main = .completed))
      (fun u e v ⟨hu, hsender, hreceiver⟩ hq hstep => ⟨hu.step hon hall hq hstep, fun hs => ?_,
        fun hs => hu.receiver_main (hreceiver hs) hstep⟩) ⟨hi, id, id⟩
    rw [hu.sender_eq (hsender hs) hstep]
    exact hsender hs
  exact hboth.2

/-- A receiver that has come to its end has not left its writer behind. -/
theorem Sane.not_stranded (hi : Sane r disk st start es s)
    (hmain : s.receiver.main = .completed) : ¬ Receiver.Stranded r s.receiver := by
  rintro ⟨⟨path, n, infos, hpc⟩, -⟩
  have hjoin := hi.slot.joined (by rw [hmain]; exact nofun)
  cases hpc.symm.trans (Pipeline.joinable_iff.mp hjoin).2.2.1

/-- The steps of the sender in a session. -/
def senderDirections (hon : Receiver.Honest r disk st es)
    (hall : transformAll EncryptionManager.encryptChunk (Sender.manager r st) (packing r disk) =
      .ok (es, m)) (hcap : 1 ≤ capacity) :
    Directions (Session.step r r) quiet (fun a _ e => e = .sender a) (Sane r disk st start es)
      (fun s : Session capacity ss => s.sender.main ≠ .joining ∨ False) :=
  ((Sender.works hon.fits hcap).directions hcap).lift Session.sender
    (fun _ _ h => Event.sender.inj h) (fun _ hx => hx.agreed.sender)
    (fun _ _ _ hx hq h => hx.step hon hall hq h)
    (fun x a t hx hq h => by
      refine ⟨hq, ?_⟩
      rw [Session.step, show Sender.step r x.sender a = some t from h]
      exact ⟨_, rfl⟩)
    (fun i x e => by simp)
    (fun x e y hx hq h => by
      cases e with
      | sender a =>
        obtain ⟨u, hu, rfl⟩ := Option.map_eq_some_iff.mp h
        exact Or.inl ⟨a, rfl, hq, hu⟩
      | receiver a =>
        obtain ⟨u, -, rfl⟩ := Option.map_eq_some_iff.mp h
        exact Or.inr ⟨by simp, rfl, fun _ hhelp => hhelp⟩
      | arrive n =>
        obtain rfl := Option.some.inj h
        exact Or.inr ⟨by simp, rfl, fun _ hhelp => hhelp⟩
      | close =>
        simp only [Session.step] at h
        split_ifs at h
        obtain rfl := Option.some.inj h
        exact Or.inr ⟨by simp, rfl, fun _ hhelp => hhelp⟩
      | lose n => cases hq)

/-- What the sender has left behind in flight arrives. -/
def networkDirections (hon : Receiver.Honest r disk st es)
    (hall : transformAll EncryptionManager.encryptChunk (Sender.manager r st) (packing r disk) =
      .ok (es, m)) :
    Directions (Session.step r r) quiet
      (fun (_ : Unit) s e => s.flight ≠ [] ∧ ∃ n, 0 < n ∧ e = .arrive n)
      (fun s : Session capacity ss => Sane r disk st start es s ∧ s.sender.main = .completed)
      (fun s => s.flight = []) where
  measure s := s.flight.length
  Helps _ s := s.flight ≠ []
  keeps s e t hs hq h := ⟨hs.1.step hon hall hq h, by
    rw [hs.1.sender_eq hs.2 h]
    exact hs.2⟩
  exists_helps s _ hG := ⟨(), hG⟩
  enabled _ s _ hhelp := ⟨.arrive 1, _, ⟨hhelp, 1, Nat.one_pos, rfl⟩, rfl, rfl⟩
  lowers s e t hs hG hq h := by
    cases e with
    | sender a =>
      obtain ⟨u, hu, rfl⟩ := Option.map_eq_some_iff.mp h
      cases hs.2.symm.trans (hs.1.agreed.sender.flow.slot.joining_of_step hu)
    | receiver a =>
      obtain ⟨u, -, rfl⟩ := Option.map_eq_some_iff.mp h
      exact Or.inr (Or.inr ⟨le_refl _, fun _ _ => ⟨by simp, hG⟩⟩)
    | arrive n =>
      obtain rfl := Option.some.inj h
      have hlen : (s.flight.drop n).length = s.flight.length - n := List.length_drop
      cases n with
      | zero => exact Or.inr (Or.inr ⟨le_refl _, fun _ _ => ⟨by simp, hG⟩⟩)
      | succ n =>
        have hpos := List.length_pos_iff.mpr hG
        refine Or.inr (Or.inl ?_)
        show (s.flight.drop (n + 1)).length < s.flight.length
        omega
    | close =>
      simp only [Session.step] at h
      split_ifs at h with hend
      exact absurd hend.2 hG
    | lose n => cases hq

/-- The sender has come to its end, and everything has arrived. -/
structure Handed (r : TransferRequest) (disk : Disk) (st : ss.State) (start : FileSystem)
    (es : List Chunk) (s : Session capacity ss) : Prop where
  sane : Sane r disk st start es s
  main : s.sender.main = .completed
  flight : s.flight = []

theorem Handed.calm (hall : transformAll EncryptionManager.encryptChunk (Sender.manager r st)
      (packing r disk) = .ok (es, m)) (hi : Handed r disk st start es s) :
    Receiver.Calm r disk st start es [] s.receiver := by
  have hsink := hi.sane.agreed.sink_eq hall (by rw [hi.main]; exact nofun)
  obtain ⟨coming, hcoming, hreceiver⟩ := hi.sane.agreed.receiver
  have hnil : coming = [] := by
    rw [hsink] at hcoming
    exact List.append_right_eq_self.mp hcoming
  rw [hnil, hi.flight] at hreceiver
  exact hreceiver

theorem Handed.step {e : Event} (hon : Receiver.Honest r disk st es)
    (hall : transformAll EncryptionManager.encryptChunk (Sender.manager r st) (packing r disk) =
      .ok (es, m))
    (hi : Handed r disk st start es s) (hq : e.quiet = true) (h : Session.step r r s e = some t) :
    Handed r disk st start es t := by
  have hsender := hi.sane.sender_eq hi.main h
  refine ⟨hi.sane.step hon hall hq h, hsender ▸ hi.main, ?_⟩
  cases e with
  | sender a =>
    obtain ⟨u, hu, rfl⟩ := Option.map_eq_some_iff.mp h
    cases hi.main.symm.trans (hi.sane.agreed.sender.flow.slot.joining_of_step hu)
  | receiver a =>
    obtain ⟨u, -, rfl⟩ := Option.map_eq_some_iff.mp h
    exact hi.flight
  | arrive n =>
    obtain rfl := Option.some.inj h
    show s.flight.drop n = []
    rw [hi.flight, List.drop_nil]
  | close =>
    simp only [Session.step] at h
    split_ifs at h with hend
    obtain rfl := Option.some.inj h
    exact hi.flight
  | lose n => cases hq

/-- The steps of the receiver behind the end of the sender. -/
def receiverDirections (hon : Receiver.Honest r disk st es)
    (hall : transformAll EncryptionManager.encryptChunk (Sender.manager r st) (packing r disk) =
      .ok (es, m)) (hcap : 1 ≤ capacity) :
    Directions (Session.step r r) quiet (fun a _ e => e = .receiver a) (Handed r disk st start es)
      (fun s : Session capacity ss =>
        s.receiver.main ≠ .joining ∨ Receiver.Stranded r s.receiver) :=
  ((Receiver.works hon hcap).directions hcap).lift Session.receiver
    (fun _ _ h => Event.receiver.inj h) (fun _ hx => ⟨hx.calm hall, hx.sane.slot⟩)
    (fun _ _ _ hx hq h => hx.step hon hall hq h)
    (fun x a t hx hq h => by
      refine ⟨hq, ?_⟩
      rw [Session.step, show Receiver.step r x.receiver a = some t from h]
      exact ⟨_, rfl⟩)
    (fun i x e => by simp)
    (fun x e y hx hq h => by
      cases e with
      | sender a =>
        obtain ⟨u, -, rfl⟩ := Option.map_eq_some_iff.mp h
        exact Or.inr ⟨by simp, rfl, fun _ hhelp => hhelp⟩
      | receiver a =>
        obtain ⟨u, hu, rfl⟩ := Option.map_eq_some_iff.mp h
        exact Or.inl ⟨a, rfl, hq, hu⟩
      | arrive n =>
        -- nothing of the receiver that counts is on its socket
        obtain rfl := Option.some.inj h
        exact Or.inr ⟨by simp, rfl, fun _ hhelp => hhelp.withSource⟩
      | close =>
        simp only [Session.step] at h
        split_ifs at h
        obtain rfl := Option.some.inj h
        exact Or.inr ⟨by simp, rfl, fun _ hhelp => hhelp.withSource⟩
      | lose n => cases hq)

variable {Path : Type} {relative : Path → Bytes} {paths : List Path} {bytes : Bytes}

/-- What a fair session comes to, from the start of all threads. -/
theorem FairRun.outcome (hfair : FairRun r r run event)
    (hr : TransferRequest.fromFilePaths relative (fun p => disk.fileSize (relative p)) paths =
      .ok r) (hsize : (payload disk r.fileInfos).length ≤ 8192 * (2 ^ 32 - 1)) (hcap : 1 ≤ capacity)
    (hzero : run 0 = initial capacity r r disk start st) :
    (∃ N, ∀ n, N ≤ n → (run n).sender.main = .completed) ∧
      (∃ N, (∀ n, N ≤ n → Finished relative disk paths start (run n)) ∨
        ∀ n, N ≤ n → Receiver.Stranded r (run n).receiver) ∧
      ((∀ n e, event n = some e → prompt r (run n) e) →
        ∃ N, ∀ n, N ≤ n → Finished relative disk paths start (run n)) := by
  obtain ⟨es, m, hall, hon⟩ := Receiver.exists_honest (fits_of_fromFilePaths hr hsize) st
  have hsane : ∀ n, Sane r disk st start es (run n) := by
    intro n
    refine Sane.of_reach hon hall ?_ (hfair.isRun.reach (Nat.zero_le n))
    rw [hzero]
    exact Sane.initial hon.fits es st start
  have hsender : ∃ N, ∀ n, N ≤ n → (run n).sender.main = .completed := by
    obtain ⟨N, -, hmain | hfalse⟩ :=
      (senderDirections hon hall hcap).eventually hfair.isRun hfair.sender (hsane 0)
    · have hcalm := (hsane N).agreed.sender
      exact ⟨N, fun n hn => ((hsane N).completed_of_reach hon hall (hfair.isRun.reach hn)).1
        (hcalm.flow.slot.completed_of_joined hcalm.abort hmain)⟩
    · exact hfalse.elim
  have hends : ∃ N, (∀ n, N ≤ n → Finished relative disk paths start (run n)) ∨
      ∀ n, N ≤ n → Receiver.Stranded r (run n).receiver := by
    obtain ⟨N, hN⟩ := hsender
    obtain ⟨M, hNM, hflight⟩ := (networkDirections hon hall).eventually hfair.isRun
      (fun _ => hfair.network) ⟨hsane N, hN N (le_refl N)⟩
    have hhanded : Handed r disk st start es (run M) := ⟨hsane M, hN M hNM, hflight⟩
    obtain ⟨L, hML, hmain | hstr⟩ :=
      (receiverDirections hon hall hcap).eventually hfair.isRun hfair.receiver hhanded
    · refine ⟨L, Or.inl fun n hn => ?_⟩
      obtain ⟨coming, -, hcalm⟩ := (hsane L).agreed.receiver
      have hreceiver := ((hsane L).completed_of_reach hon hall (hfair.isRun.reach hn)).2
        ((hsane L).slot.completed_of_joined hcalm.abort hmain)
      exact ⟨hN n (hNM.trans (hML.trans hn)), hreceiver,
        delivered_of_written hr ((hsane n).written hreceiver)⟩
    · exact ⟨L, Or.inr fun n hn => (hsane L).stranded_of_reach hon hall hstr (hfair.isRun.reach hn)⟩
  refine ⟨hsender, hends, fun hprompt => ?_⟩
  obtain ⟨N, hfinished | hstr⟩ := hends
  · exact ⟨N, hfinished⟩
  have hrun : Run (Session.step r r) (prompt r) run event := by
    intro n
    refine (hfair.isRun n).imp id ?_
    rintro ⟨e, he, -, hstep⟩
    exact ⟨e, he, hprompt n e he, hstep⟩
  have hreach := hrun.reach (Nat.zero_le N)
  rw [hzero] at hreach
  exact absurd (hstr N (le_refl N)) (Sane.of_reach_prompt hon hall hreach).2

/-- A fair session ends.  Nothing fails, and every thread of the two programs and the network get
their turn: then the sender comes to `staging::clear` and stays there; both ends come to report
success, with all files at the receiver, or the writer gets stranded for ever; and if the writer
looks at `decryption_done` only after the decryptor has set it, the session is finished. -/
theorem fair_ends
    (hr : TransferRequest.fromFilePaths relative (fun p => disk.fileSize (relative p)) paths =
      .ok r) (hcount : paths.length < 2 ^ 32) (hser : r.serialize = .ok bytes)
    (hsize : (payload disk r.fileInfos).length ≤ 8192 * (2 ^ 32 - 1)) (hcap : 1 ≤ capacity)
    (st : ss.State) (start : FileSystem) :
    ∃ r', TransferRequest.deserialize bytes = .ok r' ∧
      ∀ (run : ℕ → Session capacity ss) (event : ℕ → Option Event), FairRun r r' run event →
        run 0 = initial capacity r r' disk start st →
          (∃ N, ∀ n, N ≤ n → (run n).sender.main = .completed) ∧
          (∃ N, (∀ n, N ≤ n → Finished relative disk paths start (run n)) ∨
            ∀ n, N ≤ n → Receiver.Stranded r (run n).receiver) ∧
          ((∀ n e, event n = some e → prompt r (run n) e) →
            ∃ N, ∀ n, N ≤ n → Finished relative disk paths start (run n)) :=
  ⟨r, deserialize_fromFilePaths hr hcount hser, fun _ _ hfair hzero =>
    hfair.outcome hr hsize hcap hzero⟩

/-- A session that ends with both ends at their ends, and nothing in flight, is fair. -/
theorem FairRun.of_final {N : ℕ} (hrun : Run (Session.step r r) quiet run event)
    (hsane : Sane r disk st start es t) (hsender : t.sender.main = .completed)
    (hreceiver : t.receiver.main = .completed) (hflight : t.flight = [])
    (hend : ∀ n, N ≤ n → run n = t) : FairRun r r run event where
  isRun := hrun
  sender a := by
    refine Fair.of_final hend ?_
    rintro ⟨e, u, rfl, -, hstep⟩
    obtain ⟨w, hw, -⟩ := Option.map_eq_some_iff.mp hstep
    cases hsender.symm.trans (hsane.agreed.sender.flow.slot.joining_of_step hw)
  receiver a := by
    refine Fair.of_final hend ?_
    rintro ⟨e, u, rfl, -, hstep⟩
    obtain ⟨w, hw, -⟩ := Option.map_eq_some_iff.mp hstep
    cases hreceiver.symm.trans (hsane.slot.joining_of_step hw)
  network := by
    refine Fair.of_final hend ?_
    rintro ⟨e, u, ⟨hne, -⟩, -⟩
    exact hne hflight

/-- The session for the file of one byte, one thread after the other. -/
def oneByteEvents : List Event := oneByteHandover ++ oneByteReceive ++ [.receiver .main]

theorem quiet_oneByteEvents : ∀ e ∈ oneByteEvents,
    ∀ s : Session Sender.queueCapacity .counting, quiet s e := fun e he _ =>
  List.all_eq_true.mp (show oneByteEvents.all Event.quiet = true by decide) e he

theorem exec_oneByteEvents : ∃ t es,
    exec (step Sender.oneByteRequest Sender.oneByteRequest) oneByteInitial oneByteEvents = some t ∧
      Sane Sender.oneByteRequest Sender.oneByteDisk Sender.newStream Receiver.emptyDirectory es t ∧
      t.sender.main = .completed ∧ t.receiver.main = .completed ∧ t.flight = [] := by
  have hexec : (exec (step Sender.oneByteRequest Sender.oneByteRequest) oneByteInitial
      oneByteEvents).map (fun s => decide (s.sender.main = .completed ∧
        s.receiver.main = .completed ∧ s.flight = [])) = some true := by
    decide +kernel
  obtain ⟨t, ht, htest⟩ := Option.map_eq_some_iff.mp hexec
  obtain ⟨es, m, hall, hon⟩ := Receiver.exists_honest
    (fits_of_fromFilePaths Sender.fromFilePaths_oneByte (by decide)) Sender.newStream
  have hsane : Sane Sender.oneByteRequest Sender.oneByteDisk Sender.newStream
      Receiver.emptyDirectory es t :=
    (Sane.initial hon.fits es Sender.newStream Receiver.emptyDirectory).of_reach hon hall
      (reach_of_exec quiet_oneByteEvents ht)
  exact ⟨t, es, ht, hsane, of_decide_eq_true htest⟩

/-- The session for the file of one byte, one thread after the other, is fair, and ends with the
file at the receiver. -/
theorem fair_ends_oneByte : ∃ (run : ℕ → Session Sender.queueCapacity .counting)
    (event : ℕ → Option Event),
    FairRun Sender.oneByteRequest Sender.oneByteRequest run event ∧ run 0 = oneByteInitial ∧
      ∃ N, ∀ n, N ≤ n →
        Finished id Sender.oneByteDisk [[97]] Receiver.emptyDirectory (run n) := by
  obtain ⟨t, es, ht, hsane, hsender, hreceiver, hflight⟩ := exec_oneByteEvents
  obtain ⟨run, event, hrun, hzero, hend⟩ := exists_run quiet_oneByteEvents ht
  have hfair := FairRun.of_final hrun hsane hsender hreceiver hflight hend
  refine ⟨run, event, hfair, hzero, ?_⟩
  obtain ⟨r', hr', hends⟩ := fair_ends Sender.fromFilePaths_oneByte (by decide)
    (show Sender.oneByteRequest.serialize = .ok _ from rfl) (by decide)
    (show 1 ≤ Sender.queueCapacity by decide) Sender.newStream Receiver.emptyDirectory
  obtain rfl : Sender.oneByteRequest = r' := Except.ok.inj hr'
  obtain ⟨-, ⟨N, hfinished | hstr⟩, -⟩ := hends run event hfair hzero
  · exact ⟨N, hfinished⟩
  · refine absurd ?_ (hsane.not_stranded hreceiver)
    rw [← hend _ (le_max_right N _)]
    exact hstr _ (le_max_left N _)

end Session

end Trit
