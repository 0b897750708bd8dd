import Trit.Receiver

/-!
# What is on its way in a transfer

The bytes that a pipeline has taken in and not yet handed on: those of the chunks in its two queues
and of the chunks that its workers still work on.  The queues are bounded so that this does not grow
with the files, however slow the other end is and whatever it sends.

* `Pipeline.backlog`: these bytes;
* `Program.Handles`: the chunks that the workers pass on and keep have a property;
* `Pipeline.Carries`: so have those in the queues; `Carries.of_reach`: in every run;
* `Carries.backlog_le`: what that says about the bytes;
* `StageCount`, `pushed_le_popped`: the producer is at most two queues ahead of the consumer;
* `Sender.backlog_of_reach`, `Receiver.backlog_of_peer`: the bounds for the two pipelines, in every
  run, whatever fails.
-/

namespace Trit

open Transition LittleEndian

/-! ### The bytes on their way -/

/-- The data of some chunks. -/
def chunkBytes (cs : List Chunk) : ℕ := (cs.map fun c => c.data.length).sum

theorem chunkBytes_le {cs : List Chunk} {n : ℕ} (h : ∀ c ∈ cs, c.data.length ≤ n) :
    chunkBytes cs ≤ cs.length * n := by
  induction cs with
  | nil => exact Nat.zero_le _
  | cons c cs ih =>
    obtain ⟨hc, hcs⟩ := List.forall_mem_cons.mp h
    rw [List.length_cons, Nat.succ_mul, Nat.add_comm]
    exact Nat.add_le_add hc (ih hcs)

namespace Thread

variable {π : Type}

/-- What a worker keeps at its program point; a thread that has thrown has let go of it. -/
def keeps (k : π → ℕ) : Thread π → ℕ
  | .running pc => k pc
  | _ => 0

/-- What holds at the program point of a worker. -/
def Holds (I : π → Prop) : Thread π → Prop
  | .running pc => I pc
  | _ => True

theorem keeps_le {k : π → ℕ} {n : ℕ} {t : Thread π} (h : t.Holds fun pc => k pc ≤ n) :
    t.keeps k ≤ n := by
  cases t with
  | running pc => exact h
  | _ => exact Nat.zero_le n

theorem Holds.mono {I J : π → Prop} {t : Thread π} (h : t.Holds I) (hIJ : ∀ pc, I pc → J pc) :
    t.Holds J := by
  cases t with
  | running pc => exact hIJ pc h
  | _ => trivial

end Thread

/-- What the stage keeps. -/
def ProcessPc.keeps {κ : Type} : ProcessPc κ → ℕ
  | .transform _ c | .push _ c => c.data.length
  | _ => 0

namespace Pipeline

variable {capacity : ℕ} {π γ ω₁ ω₂ κ : Type}

/-- The bytes that have been taken in and not yet handed on. -/
def backlog (producer : π → ℕ) (consumer : γ → ℕ) (s : Pipeline capacity π γ ω₁ ω₂ κ) : ℕ :=
  chunkBytes s.upstream.queue.queue + chunkBytes s.downstream.queue.queue +
    s.producer.keeps producer + s.stage.keeps ProcessPc.keeps + s.consumer.keeps consumer

end Pipeline

/-! ### What the workers pass on -/

/-- The workers keep to their properties: `A` for what is pushed upstream, `B` for what is pushed
downstream, `I` and `J` for the program points of producer and consumer. -/
structure Program.Handles {π γ ω₁ ω₂ κ : Type} (P : Program π γ ω₁ ω₂ κ) (A B : Chunk → Prop)
    (I : π → Prop) (J : γ → Prop) : Prop where
  producer : ∀ {capacity : ℕ} {abort f} {v v' : View capacity ω₁} {pc t},
    (P.producer pc).run abort f v = some (t, v') → I pc → (∀ c ∈ v.output.queue.queue, A c) →
      t.Holds I ∧ ∀ c ∈ v'.output.queue.queue, A c
  transform : ∀ {m m' c d}, P.transform m c = .ok (d, m') → A c → B d
  consumer : ∀ {capacity : ℕ} {abort f} {v v' : View capacity ω₂} {pc t},
    (P.consumer pc).run abort f v = some (t, v') → J pc → (∀ c ∈ v.input.queue.queue, B c) →
      t.Holds J ∧ ∀ c ∈ v'.input.queue.queue, B c

theorem BoundedThreadSafeQueue.forall_mem_of_push {capacity : ℕ} {A : Chunk → Prop} {c : Chunk}
    {q q' : BoundedThreadSafeQueue capacity Chunk} (h : q.push c = some q') (hc : A c)
    (hq : ∀ d ∈ q.queue, A d) : ∀ d ∈ q'.queue, A d := by
  rw [(push_eq_some.mp h).2.2]
  intro d hd
  rcases List.mem_append.mp hd with hd | hd
  · exact hq d hd
  · rw [List.mem_singleton.mp hd]
    exact hc

theorem BoundedThreadSafeQueue.forall_mem_of_pop {capacity : ℕ} {A : Chunk → Prop} {c : Chunk}
    {q q' : BoundedThreadSafeQueue capacity Chunk} (h : q.pop = some (c, q'))
    (hq : ∀ d ∈ q.queue, A d) : A c ∧ ∀ d ∈ q'.queue, A d := by
  rw [(pop_eq_some.mp h).1] at hq
  exact List.forall_mem_cons.mp hq

/-- What the stage has in its hands. -/
def ProcessPc.Hand {κ : Type} (A B : Chunk → Prop) : ProcessPc κ → Prop
  | .transform _ c => A c
  | .push _ c => B c
  | _ => True

theorem ProcessMove.hand {capacity : ℕ} {κ : Type}
    {transform : κ → Chunk → Except Exception (Chunk × κ)} {abort : Bool} {f : Option Fault}
    {v v' : View capacity Unit} {pc : ProcessPc κ} {t : Thread (ProcessPc κ)}
    {A B : Chunk → Prop} (htransform : ∀ {m m' c d}, transform m c = .ok (d, m') → A c → B d)
    (h : ProcessMove transform abort f v pc t v') (hpc : pc.Hand A B)
    (hin : ∀ c ∈ v.input.queue.queue, A c) (hout : ∀ c ∈ v.output.queue.queue, B c) :
    t.Holds (ProcessPc.Hand A B) ∧ (∀ c ∈ v'.input.queue.queue, A c) ∧
      ∀ c ∈ v'.output.queue.queue, B c := by
  cases h with
  | popped m c q heq hq =>
    obtain ⟨hc, hin'⟩ := BoundedThreadSafeQueue.forall_mem_of_pop hq hin
    exact ⟨hc, hin', hout⟩
  | transformed m m' c d heq ht =>
    subst heq
    exact ⟨htransform ht hpc, hin, hout⟩
  | pushed m c q heq hq =>
    subst heq
    exact ⟨trivial, hin, BoundedThreadSafeQueue.forall_mem_of_push hq hpc hout⟩
  | _ => exact ⟨trivial, hin, hout⟩

namespace Pipeline

variable {capacity : ℕ} {π γ ω₁ ω₂ κ : Type} {P : Program π γ ω₁ ω₂ κ} {A B : Chunk → Prop}
  {I : π → Prop} {J : γ → Prop} {s t : Pipeline capacity π γ ω₁ ω₂ κ}

/-- The chunks in the queues and in the hands of the workers have their properties. -/
structure Carries (A B : Chunk → Prop) (I : π → Prop) (J : γ → Prop)
    (s : Pipeline capacity π γ ω₁ ω₂ κ) : Prop where
  upstream : ∀ c ∈ s.upstream.queue.queue, A c
  downstream : ∀ c ∈ s.downstream.queue.queue, B c
  producer : s.producer.Holds I
  stage : s.stage.Holds (ProcessPc.Hand A B)
  consumer : s.consumer.Holds J

theorem Carries.step {a : Action} (hP : P.Handles A B I J) (hi : Carries A B I J s)
    (h : s.step P a = some t) : Carries A B I J t := by
  cases a with
  | producer f =>
    rcases step_producer_cases h with ⟨pc, th, v, hpc, hrun, rfl⟩ | ⟨e, -, -, rfl⟩ |
      ⟨e, -, -, rfl⟩
    · have hproducer := hi.producer
      rw [hpc] at hproducer
      obtain ⟨hth, hout⟩ := hP.producer hrun hproducer hi.upstream
      exact ⟨hout, hi.downstream, hth, hi.stage, hi.consumer⟩
    · exact ⟨hi.upstream, hi.downstream, trivial, hi.stage, hi.consumer⟩
    · exact ⟨hi.upstream, hi.downstream, trivial, hi.stage, hi.consumer⟩
  | stage f =>
    rcases step_stage_cases h with ⟨pc, th, v, hpc, hmove, rfl⟩ | ⟨e, -, -, rfl⟩ | ⟨e, -, -, rfl⟩
    · have hstage := hi.stage
      rw [hpc] at hstage
      obtain ⟨hth, hin, hout⟩ :=
        hmove.hand (A := A) (B := B) hP.transform hstage hi.upstream hi.downstream
      exact ⟨hin, hout, hi.producer, hth, hi.consumer⟩
    · exact ⟨hi.upstream, hi.downstream, hi.producer, trivial, hi.consumer⟩
    · exact ⟨hi.upstream, hi.downstream, hi.producer, trivial, hi.consumer⟩
  | consumer f =>
    rcases step_consumer_cases h with ⟨pc, th, v, hpc, hrun, rfl⟩ | ⟨e, -, -, rfl⟩ |
      ⟨e, -, -, rfl⟩
    · have hconsumer := hi.consumer
      rw [hpc] at hconsumer
      obtain ⟨hth, hin⟩ := hP.consumer hrun hconsumer hi.downstream
      exact ⟨hi.upstream, hin, hi.producer, hi.stage, hth⟩
    · exact ⟨hi.upstream, hi.downstream, hi.producer, hi.stage, trivial⟩
    · exact ⟨hi.upstream, hi.downstream, hi.producer, hi.stage, trivial⟩
  | tracker f =>
    rcases step_tracker_cases h with ⟨pc, th, -, -, rfl⟩ | ⟨e, -, -, rfl⟩ | ⟨e, -, -, rfl⟩
    · exact ⟨hi.upstream, hi.downstream, hi.producer, hi.stage, hi.consumer⟩
    · exact ⟨hi.upstream, hi.downstream, hi.producer, hi.stage, hi.consumer⟩
    · exact ⟨hi.upstream, hi.downstream, hi.producer, hi.stage, hi.consumer⟩
  | main =>
    obtain ⟨-, -, ⟨e, -, rfl⟩ | ⟨-, rfl⟩⟩ := step_main_cases h
    · exact ⟨hi.upstream, hi.downstream, hi.producer, hi.stage, hi.consumer⟩
    · exact ⟨hi.upstream, hi.downstream, hi.producer, hi.stage, hi.consumer⟩

theorem Carries.of_reach {ok : Pipeline capacity π γ ω₁ ω₂ κ → Action → Prop}
    (hP : P.Handles A B I J) (hi : Carries A B I J s) (h : Reach (Pipeline.step P) ok s t) :
    Carries A B I J t :=
  h.invariant (fun _ _ _ hu _ hstep => hu.step hP hstep) hi

theorem Carries.backlog_le {producer : π → ℕ} {consumer : γ → ℕ} {a b c : ℕ} (hab : a ≤ b)
    (hi : Carries (fun x => x.data.length ≤ a) (fun x => x.data.length ≤ b)
      (fun pc => producer pc ≤ a) (fun pc => consumer pc ≤ c) s) :
    s.backlog producer consumer ≤ (capacity + 1) * (a + b) + c := by
  have hup := (chunkBytes_le hi.upstream).trans (Nat.mul_le_mul_right a s.upstream.queue.size_le)
  have hdown := (chunkBytes_le hi.downstream).trans
    (Nat.mul_le_mul_right b s.downstream.queue.size_le)
  have hproducer := Thread.keeps_le hi.producer
  have hconsumer := Thread.keeps_le hi.consumer
  have hstage : s.stage.keeps ProcessPc.keeps ≤ b := by
    refine Thread.keeps_le (hi.stage.mono fun pc hpc => ?_)
    cases pc with
    | transform m x => exact le_trans hpc hab
    | push m x => exact hpc
    | _ => exact Nat.zero_le b
  calc s.backlog producer consumer
      ≤ capacity * a + capacity * b + a + b + c := by
        unfold backlog
        omega
    _ = (capacity + 1) * (a + b) + c := by ring

/-! ### How far the producer is ahead -/

/-- The chunk that the stage has in its hands is the only one that it has popped and not pushed,
and it can lose only one. -/
def StageCount (popped pushed : ℕ) : Thread (ProcessPc κ) → Prop
  | .running (.transform _ _) | .running (.push _ _) => popped = pushed + 1
  | .running _ => popped = pushed
  | _ => popped ≤ pushed + 1

theorem StageCount.move {transform : κ → Chunk → Except Exception (Chunk × κ)} {abort : Bool}
    {f : Option Fault} {v v' : View capacity Unit} {pc : ProcessPc κ} {th : Thread (ProcessPc κ)}
    (h : ProcessMove transform abort f v pc th v')
    (hi : StageCount v.input.queue.popped.length v.output.queue.pushed.length (.running pc)) :
    StageCount v'.input.queue.popped.length v'.output.queue.pushed.length th := by
  cases h with
  | popped m c q hpc hq =>
    subst hpc
    show q.popped.length = _
    rw [(BoundedThreadSafeQueue.pop_eq_some.mp hq).2, List.length_append]
    exact congrArg (· + 1) hi
  | pushed m c q hpc hq =>
    subst hpc
    show _ = q.pushed.length
    rw [BoundedThreadSafeQueue.pushed_push hq, List.length_append]
    exact hi
  | threw m c e hpc | fault m c x hpc =>
    subst hpc
    exact Nat.le_of_eq hi
  | finished hpc =>
    subst hpc
    exact (Nat.le_of_eq hi).trans (Nat.le_succ _)
  | transformed m m' c d hpc | abort m hpc | goOn m hpc | missed m hpc | doneSeen m hpc
  | notDone m hpc | drained m hpc | more m hpc =>
    subst hpc
    exact hi

/-- What the stage has popped and pushed in a state. -/
def Counted (s : Pipeline capacity π γ ω₁ ω₂ κ) : Prop :=
  StageCount s.upstream.queue.popped.length s.downstream.queue.pushed.length s.stage

theorem StageCount.le {popped pushed : ℕ} {th : Thread (ProcessPc κ)}
    (h : StageCount popped pushed th) : popped ≤ pushed + 1 := by
  cases th with
  | running pc =>
    cases pc with
    | transform m c | push m c => exact Nat.le_of_eq h
    | _ => exact (Nat.le_of_eq h).trans (Nat.le_succ _)
  | _ => exact h

theorem Counted.step {a : Action} (hi : Counted s) (h : s.step P a = some t) : Counted t := by
  cases a with
  | producer f =>
    rcases step_producer_cases h with ⟨pc, th, v, -, hrun, rfl⟩ | ⟨e, -, -, rfl⟩ | ⟨e, -, -, rfl⟩
    · show StageCount v.output.queue.popped.length _ _
      rw [(Call.run_output hrun).1]
      exact hi
    · exact hi
    · exact hi
  | stage f =>
    rcases step_stage_cases h with ⟨pc, th, v, hpc, hmove, rfl⟩ | ⟨e, hpc, -, rfl⟩ |
      ⟨e, hpc, -, rfl⟩
    · rw [Counted, hpc] at hi
      exact StageCount.move hmove hi
    · exact hi.le
    · exact hi.le
  | consumer f =>
    rcases step_consumer_cases h with ⟨pc, th, v, -, hrun, rfl⟩ | ⟨e, -, -, rfl⟩ | ⟨e, -, -, rfl⟩
    · show StageCount _ v.input.queue.pushed.length _
      rw [(Call.run_input hrun).1]
      exact hi
    · exact hi
    · exact hi
  | tracker f =>
    rcases step_tracker_cases h with ⟨pc, th, -, -, rfl⟩ | ⟨e, -, -, rfl⟩ | ⟨e, -, -, rfl⟩
    · exact hi
    · exact hi
    · exact hi
  | main =>
    obtain ⟨-, -, ⟨e, -, rfl⟩ | ⟨-, rfl⟩⟩ := step_main_cases h
    · exact hi
    · exact hi

/-- The producer is never further ahead of the consumer than the two queues and the hands of the
stage allow. -/
theorem Counted.pushed_le_popped (hi : Counted s) :
    s.upstream.queue.pushed.length ≤ s.downstream.queue.popped.length + 2 * capacity + 1 := by
  have hstage := hi.le
  have hup := s.upstream.queue.size_le
  have hdown := s.downstream.queue.size_le
  rw [BoundedThreadSafeQueue.pushed, List.length_append] at hstage ⊢
  omega

end Pipeline

/-! ### The sender -/

namespace FileManager

/-- What the chunker keeps: its buffer, or the chunk that it has become. -/
def ReadPc.keeps : ReadPc → ℕ
  | .nextFile l _ | .openFile l _ _ | .abortCheck l _ _ _ | .read l _ _ _ => l.buffer.length
  | .push c _ _ _ _ => c.data.length
  | .outputDone => 0

/-- The free part of the buffer lies in the buffer. -/
def ReadLocals.Sized (n : ℕ) (l : ReadLocals) : Prop :=
  l.remainingBufferCapacity ≤ l.buffer.length ∧ l.buffer.length ≤ n

/-- The buffer of the chunker keeps to its size. -/
def ReadPc.Sized (n : ℕ) : ReadPc → Prop
  | .nextFile l _ | .openFile l _ _ | .abortCheck l _ _ _ | .read l _ _ _ => l.Sized n
  | .push c _ _ _ _ => c.data.length ≤ n
  | .outputDone => True

theorem sized_whileLoop {n : ℕ} {l : ReadLocals} (h : l.Sized n) (file : Bytes) (remaining : ℕ)
    (infos : List FileInfo) : (ReadPc.whileLoop l file remaining infos).Sized n := by
  unfold ReadPc.whileLoop
  split_ifs
  · exact h
  · exact h

theorem sized_newBuffer {r : TransferRequest} {n : ℕ}
    (hchunk : r.uncompressedChunkSize.toNat ≤ n)
    (hfinal : r.uncompressedFinalChunkSize.toNat ≤ n) (sequenceCounter : UInt32) :
    (ReadLocals.afterPush r sequenceCounter).Sized n := by
  have hsize : newBufferSize r sequenceCounter ≤ n := by
    unfold newBufferSize
    split_ifs
    · exact hfinal
    · exact hchunk
  have hlen : (ReadLocals.afterPush r sequenceCounter).buffer.length =
      newBufferSize r sequenceCounter := List.length_replicate
  exact ⟨hlen.ge, hlen.trans_le hsize⟩

theorem sized_openForReading {n : ℕ} {l : ReadLocals} (h : l.Sized n) (disk : Disk)
    (info : FileInfo) (infos : List FileInfo) :
    (openForReading disk l info infos).Holds (ReadPc.Sized n) := by
  unfold openForReading
  split
  · trivial
  · split_ifs
    · trivial
    · exact sized_whileLoop h _ _ infos

theorem sized_readIntoBuffer {n : ℕ} {l : ReadLocals} (h : l.Sized n) (file : Bytes)
    (remaining : ℕ) (infos : List FileInfo) :
    (readIntoBuffer l file remaining infos).Holds (ReadPc.Sized n) := by
  obtain ⟨hfree, hsize⟩ := h
  unfold readIntoBuffer
  dsimp only
  split_ifs with hread hfull
  · trivial
  · show (overwrite _ _ _).length ≤ n
    rw [length_overwrite (by omega)]
    exact hsize
  · refine sized_whileLoop ⟨?_, ?_⟩ _ _ infos
    · show _ - _ ≤ (overwrite _ _ _).length
      rw [length_overwrite (by omega)]
      omega
    · show (overwrite _ _ _).length ≤ n
      rw [length_overwrite (by omega)]
      exact hsize

theorem ReadMove.sized {capacity : ℕ} {r : TransferRequest} {abort : Bool} {f : Option Fault}
    {v v' : View capacity Disk} {pc : ReadPc} {t : Thread ReadPc} {n : ℕ}
    (hchunk : r.uncompressedChunkSize.toNat ≤ n)
    (hfinal : r.uncompressedFinalChunkSize.toNat ≤ n) (h : ReadMove r abort f v pc t v')
    (hpc : pc.Sized n) (hout : ∀ c ∈ v.output.queue.queue, c.data.length ≤ n) :
    t.Holds (ReadPc.Sized n) ∧ ∀ c ∈ v'.output.queue.queue, c.data.length ≤ n := by
  cases h with
  | opened l info infos heq =>
    subst heq
    exact ⟨sized_openForReading hpc _ _ _, hout⟩
  | read l file k infos heq =>
    subst heq
    exact ⟨sized_readIntoBuffer hpc _ _ _, hout⟩
  | pushed c l file k infos q heq hq =>
    subst heq
    exact ⟨sized_whileLoop (sized_newBuffer hchunk hfinal _) _ _ _,
      BoundedThreadSafeQueue.forall_mem_of_push hq hpc hout⟩
  | goOnFile l info infos heq | goOnRead l file k infos heq =>
    subst heq
    exact ⟨hpc, hout⟩
  | _ => exact ⟨trivial, hout⟩

end FileManager

namespace TransferManager

/-- What the transmitter keeps: the part of a frame that is still to be written. -/
def SendPc.keeps : SendPc → ℕ
  | .write fields => fields.flatten.length
  | _ => 0

theorem length_frameFields_le (c : Chunk) :
    (frameFields c).flatten.length ≤ c.data.length + 13 := by
  simp only [frameFields, List.flatten_cons, List.flatten_nil, List.length_append, length_leBytes,
    List.length_take, List.length_singleton, List.length_nil]
  omega

theorem SendMove.kept {capacity : ℕ} {abort : Bool} {f : Option Fault} {v v' : View capacity Bytes}
    {pc : SendPc} {t : Thread SendPc} {n : ℕ} (h : SendMove abort f v pc t v')
    (hpc : pc.keeps ≤ n + 13) (hin : ∀ c ∈ v.input.queue.queue, c.data.length ≤ n) :
    (t.Holds fun pc => pc.keeps ≤ n + 13) ∧ ∀ c ∈ v'.input.queue.queue, c.data.length ≤ n := by
  cases h with
  | popped c q heq hq =>
    obtain ⟨hc, hin'⟩ := BoundedThreadSafeQueue.forall_mem_of_pop hq hin
    exact ⟨(length_frameFields_le c).trans (Nat.add_le_add_right hc 13), hin'⟩
  | wrote field rest heq =>
    subst heq
    refine ⟨le_trans ?_ hpc, hin⟩
    show rest.flatten.length ≤ (field ++ rest.flatten).length
    rw [List.length_append]
    exact Nat.le_add_left _ _
  | abort | fault | drained => exact ⟨trivial, hin⟩
  | goOn | missed | counted | doneSeen | notDone | more => exact ⟨Nat.zero_le _, hin⟩

/-- What `receive_chunks` keeps: the chunk it has read. -/
def ReceivePc.keeps : ReceivePc → ℕ
  | .push c _ => c.data.length
  | _ => 0

/-- A chunk that was received is no longer than 16 bits can say. -/
theorem length_le_of_receiveChunk {s t : Incoming} {c : Chunk}
    (h : receiveChunk s = some (.ok (c, t))) : c.data.length ≤ uint16Max := by
  obtain ⟨b₁, s₁, -, h⟩ := bind_eq_ok h
  obtain ⟨b₂, s₂, -, h⟩ := bind_eq_ok h
  obtain ⟨b₃, s₃, -, h⟩ := bind_eq_ok h
  obtain ⟨b₄, s₄, h₄, h⟩ := bind_eq_ok h
  obtain ⟨b₅, s₅, h₅, h⟩ := bind_eq_ok h
  have hlt := leValue_lt b₄
  rw [(read_ok h₄).2.1] at hlt
  have hle : b₅.length ≤ uint16Max := by
    rw [(read_ok h₅).2.1]
    exact Nat.le_of_lt_succ hlt
  split_ifs at h
  · cases h
    exact hle
  · cases h
    exact hle

theorem ReceiveMove.kept {capacity : ℕ} {numChunks : UInt32} {abort : Bool} {f : Option Fault}
    {v v' : View capacity Incoming} {pc : ReceivePc} {t : Thread ReceivePc}
    (h : ReceiveMove numChunks abort f v pc t v') (hpc : pc.keeps ≤ uint16Max)
    (hout : ∀ c ∈ v.output.queue.queue, c.data.length ≤ uint16Max) :
    (t.Holds fun pc => pc.keeps ≤ uint16Max) ∧
      ∀ c ∈ v'.output.queue.queue, c.data.length ≤ uint16Max := by
  cases h with
  | received i c s heq hr => exact ⟨length_le_of_receiveChunk hr, hout⟩
  | pushed c i q heq hq =>
    subst heq
    exact ⟨Nat.zero_le _, BoundedThreadSafeQueue.forall_mem_of_push hq hpc hout⟩
  | goOn => exact ⟨Nat.zero_le _, hout⟩
  | abort | finished | threw | fault => exact ⟨trivial, hout⟩

end TransferManager

namespace FileManager

/-- What the writer keeps: the chunk it writes from. -/
def WritePc.keeps : WritePc → ℕ
  | .openFile l _ _ | .abortCheck l _ _ _ | .write l _ _ _ | .increment l _ _ _
  | .inputDone l _ _ _ | .inputEmpty l _ _ _ => l.chunk.data.length
  | .firstPop | .pop _ _ _ => 0

theorem keeps_forLoop {n : ℕ} {l : WriteLocals} (h : l.chunk.data.length ≤ n)
    (infos : List FileInfo) : (forLoop l infos).Holds fun pc => pc.keeps ≤ n := by
  cases infos with
  | nil => trivial
  | cons info infos => exact h

theorem keeps_whileLoop {n : ℕ} {l : WriteLocals} (h : l.chunk.data.length ≤ n) (path : Bytes)
    (remaining : ℕ) (infos : List FileInfo) :
    (whileLoop l path remaining infos).Holds fun pc => pc.keeps ≤ n := by
  unfold whileLoop
  split_ifs
  · exact h
  · exact keeps_forLoop h infos

theorem WriteMove.kept {capacity : ℕ} {r : TransferRequest} {abort : Bool} {f : Option Fault}
    {v v' : View capacity FileSystem} {pc : WritePc} {t : Thread WritePc} {n : ℕ}
    (h : WriteMove r abort f v pc t v') (hpc : pc.keeps ≤ n)
    (hin : ∀ c ∈ v.input.queue.queue, c.data.length ≤ n) :
    (t.Holds fun pc => pc.keeps ≤ n) ∧ ∀ c ∈ v'.input.queue.queue, c.data.length ≤ n := by
  cases h with
  | firstPopped c q heq hq =>
    obtain ⟨hc, hin'⟩ := BoundedThreadSafeQueue.forall_mem_of_pop hq hin
    exact ⟨keeps_forLoop (l := .ofChunk c) hc _, hin'⟩
  | popped path k infos c q heq hq =>
    obtain ⟨hc, hin'⟩ := BoundedThreadSafeQueue.forall_mem_of_pop hq hin
    exact ⟨keeps_whileLoop (l := .ofChunk c) hc _ _ _, hin'⟩
  | opened l info infos heq =>
    subst heq
    exact ⟨keeps_whileLoop hpc _ _ _, hin⟩
  | wrote l path k infos heq =>
    subst heq
    refine ⟨?_, hin⟩
    unfold afterWrite
    dsimp only
    split_ifs
    · exact hpc
    · exact keeps_whileLoop (by exact hpc) _ _ _
  | drained l path k infos heq =>
    subst heq
    exact ⟨keeps_forLoop hpc _, hin⟩
  | goOn l path k infos heq | counted l path k infos heq | doneSeen l path k infos heq =>
    subst heq
    exact ⟨hpc, hin⟩
  | notDone | more => exact ⟨Nat.zero_le _, hin⟩
  | openFault | writeFault | abort => exact ⟨trivial, hin⟩

end FileManager

namespace EncryptionManager

variable {ss : SecretStream} {m m' : EncryptionManager ss} {c d : Chunk}

theorem size_toNat_le_length (c : Chunk) : c.size.toNat ≤ c.data.length := by
  rw [c.size_toNat]
  exact Nat.mod_le _ _

/-- Encryption adds 17 bytes at most. -/
theorem length_le_of_encryptChunk (h : m.encryptChunk c = .ok (d, m')) :
    d.data.length ≤ c.data.length + encryptionAdditionalBytes := by
  unfold encryptChunk at h
  dsimp only at h
  by_cases hseq : c.sequenceNum = 0 ∨ m.numChunks < c.sequenceNum
  · rw [if_pos hseq] at h
    cases h
  rw [if_neg hseq] at h
  by_cases hsize : m.chunkSize.toNat < c.size.toNat
  · rw [if_pos hsize] at h
    cases h
  rw [if_neg hsize] at h
  obtain ⟨st, -, h⟩ := Except.bind_eq_ok.mp h
  obtain ⟨⟨encryptedData, st'⟩, -, h⟩ := Except.bind_eq_ok.mp h
  dsimp only at h
  split_ifs at h with hlen
  · cases h
  cases h
  rw [not_not] at hlen
  exact hlen.trans_le (Nat.add_le_add_right (size_toNat_le_length c) _)

theorem length_le_of_decryptChunk (h : m.decryptChunk c = .ok (d, m')) :
    d.data.length ≤ c.data.length := by
  unfold decryptChunk at h
  dsimp only at h
  by_cases hseq : c.sequenceNum = 0 ∨ m.numChunks < c.sequenceNum
  · rw [if_pos hseq] at h
    cases h
  rw [if_neg hseq] at h
  by_cases hsize : c.size.toNat < encryptionAdditionalBytes
  · rw [if_pos hsize] at h
    cases h
  rw [if_neg hsize] at h
  obtain ⟨st, -, h⟩ := Except.bind_eq_ok.mp h
  obtain ⟨⟨decryptedData, isFinal, st'⟩, -, h⟩ := Except.bind_eq_ok.mp h
  dsimp only at h
  by_cases hlen : decryptedData.length ≠ c.size.toNat - encryptionAdditionalBytes
  · rw [if_pos hlen] at h
    cases h
  rw [if_neg hlen] at h
  split_ifs at h
  · cases h
  cases h
  rw [not_not] at hlen
  exact (hlen.trans_le (Nat.sub_le _ _)).trans (size_toNat_le_length c)

end EncryptionManager

/-! ### The two pipelines -/

namespace Sender

open FileManager TransferManager

variable {capacity : ℕ} {ss : SecretStream} {r : TransferRequest} {s : State capacity ss}

theorem program_handles {n : ℕ} (hchunk : r.uncompressedChunkSize.toNat ≤ n)
    (hfinal : r.uncompressedFinalChunkSize.toNat ≤ n) :
    (program ss r).Handles (fun c => c.data.length ≤ n)
      (fun c => c.data.length ≤ n + encryptionAdditionalBytes) (ReadPc.Sized n)
      (fun pc => pc.keeps ≤ n + encryptionAdditionalBytes + 13) where
  producer := fun h => (readMove_of_run h).sized hchunk hfinal
  transform := fun h hc => (EncryptionManager.length_le_of_encryptChunk h).trans
    (Nat.add_le_add_right hc _)
  consumer := fun h => (sendMove_of_run h).kept

/-- What the sender has read and not yet written is bounded, whatever the size of the files, the
pace of the receiver and the failures: two queues full of chunks and one chunk more for each of the
workers.  The chunks that it has pushed are only so many more than the transmitter has popped. -/
theorem backlog_of_reach {Path : Type} {relative : Path → Bytes}
    {fileSize : Path → Except Exception UInt64} {paths : List Path}
    (hr : TransferRequest.fromFilePaths relative fileSize paths = .ok r)
    {disk : Disk} {st : ss.State}
    (h : Reach (step r) any (initial capacity r disk st) s) :
    s.backlog ReadPc.keeps SendPc.keeps ≤ (capacity + 1) * (8192 + 8209) + 8222 ∧
      s.upstream.queue.pushed.length ≤ s.downstream.queue.popped.length + 2 * capacity + 1 := by
  obtain ⟨hpos, hchunk, hfinal⟩ := TransferRequest.chunkSize_of_fromFilePaths hr
  have hchunk8192 : r.uncompressedChunkSize.toNat ≤ 8192 := hchunk.trans_le (Nat.min_le_right _ _)
  have hfinal8192 : r.uncompressedFinalChunkSize.toNat ≤ 8192 := by
    have hmod := Nat.mod_lt r.transferSize.toNat (y := r.uncompressedChunkSize.toNat) (by omega)
    omega
  have hsized : (ReadLocals.initial r).Sized 8192 := by
    have hlen : (ReadLocals.initial r).buffer.length = r.uncompressedChunkSize.toNat :=
      List.length_replicate
    exact ⟨hlen.ge, hlen.trans_le hchunk8192⟩
  have hinitial : (initial capacity r disk st).Carries (fun c => c.data.length ≤ 8192)
      (fun c => c.data.length ≤ 8209) (ReadPc.Sized 8192) (fun pc => pc.keeps ≤ 8222) :=
    ⟨nofun, nofun, hsized, trivial, Nat.zero_le _⟩
  have hcarries := hinitial.of_reach (program_handles hchunk8192 hfinal8192) h
  refine ⟨Pipeline.Carries.backlog_le (by omega) ⟨hcarries.upstream, hcarries.downstream,
    hcarries.producer.mono fun pc hpc => ?_, hcarries.stage, hcarries.consumer⟩, ?_⟩
  · cases pc with
    | push c l file k infos => exact hpc
    | outputDone => exact Nat.zero_le _
    | _ => exact hpc.2
  · exact Pipeline.Counted.pushed_le_popped
      (h.invariant (I := Pipeline.Counted) (fun _ _ _ hu _ hstep => hu.step hstep) rfl)

/-- The one byte waits in the first queue. -/
theorem backlog_of_oneByteRun : ∃ s, Reach (step oneByteRequest) any oneByteInitial s ∧
    s.upstream.queue.queue.length = 1 ∧
    s.backlog ReadPc.keeps SendPc.keeps ≤ 51 * (8192 + 8209) + 8222 := by
  have hrun : (exec (step oneByteRequest) oneByteInitial (oneByteRun.take 6)).map
      (fun s => decide (s.upstream.queue.queue.length = 1)) = some true := by decide +kernel
  obtain ⟨s, hs, hqueue⟩ := reach_of_exec_test _ (fun _ _ _ => trivial) hrun
  exact ⟨s, hs, of_decide_eq_true hqueue, (backlog_of_reach fromFilePaths_oneByte hs).1⟩

end Sender

namespace Receiver

open FileManager TransferManager

variable {capacity : ℕ} {ss : SecretStream} {r : TransferRequest} {s : State capacity ss}

theorem program_handles (r : TransferRequest) :
    (program ss r).Handles (fun c => c.data.length ≤ uint16Max)
      (fun c => c.data.length ≤ uint16Max) (fun pc => pc.keeps ≤ uint16Max)
      (fun pc => pc.keeps ≤ uint16Max) where
  producer := fun h => (receiveMove_of_run h).kept
  transform := fun h hc => (EncryptionManager.length_le_of_decryptChunk h).trans hc
  consumer := fun h => (writeMove_of_run h).kept

/-- What the receiver has read and not yet written is bounded whatever request it has accepted and
whatever the peer sends.  The chunks that it has pushed into the first queue are only so many more
than the writer has popped. -/
theorem backlog_of_peer {socket : Incoming} {start : FileSystem} {st : ss.State}
    (h : Reach (step r) any (initial capacity r socket start st) s) :
    s.backlog ReceivePc.keeps WritePc.keeps ≤ (2 * capacity + 3) * 65535 ∧
      s.upstream.queue.pushed.length ≤ s.downstream.queue.popped.length + 2 * capacity + 1 := by
  have hinitial : (initial capacity r socket start st).Carries
      (fun c => c.data.length ≤ uint16Max) (fun c => c.data.length ≤ uint16Max)
      (fun pc => pc.keeps ≤ uint16Max) (fun pc => pc.keeps ≤ uint16Max) :=
    ⟨nofun, nofun, Nat.zero_le _, trivial, Nat.zero_le _⟩
  have hbacklog := (hinitial.of_reach (program_handles r) h).backlog_le (le_refl _)
  refine ⟨hbacklog.trans (le_of_eq ?_), ?_⟩
  · unfold uint16Max
    ring
  · exact Pipeline.Counted.pushed_le_popped
      (h.invariant (I := Pipeline.Counted) (fun _ _ _ hu _ hstep => hu.step hstep) rfl)

/-- The one chunk of a peer waits in the first queue. -/
theorem backlog_of_oneFrame : ∃ s : State queueCapacity .counting,
    Reach (step Sender.oneByteRequest) any (initial queueCapacity Sender.oneByteRequest
      ⟨frames [Sender.oneByteFrame], true⟩ ⟨fun _ => none, []⟩ Sender.newStream) s ∧
    s.upstream.queue.queue.length = 1 ∧
    s.backlog ReceivePc.keeps WritePc.keeps ≤ 103 * 65535 := by
  have hrun : (exec (step Sender.oneByteRequest) (initial queueCapacity Sender.oneByteRequest
      ⟨frames [Sender.oneByteFrame], true⟩ ⟨fun _ => none, []⟩ Sender.newStream)
      (List.replicate 3 (.producer none))).map
      (fun s => decide (s.upstream.queue.queue.length = 1)) = some true := by decide +kernel
  obtain ⟨s, hs, hqueue⟩ := reach_of_exec_test _ (fun _ _ _ => trivial) hrun
  exact ⟨s, hs, of_decide_eq_true hqueue, (backlog_of_peer hs).1⟩

end Receiver

end Trit
