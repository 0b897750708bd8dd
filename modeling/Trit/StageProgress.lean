import Trit.Pipeline

/-!
# Progress of the encryption stage

The part of the progress arguments that sender and receiver share.

* `StageCalm`: what the stage has seen of the two completion flags, when nothing fails;
* `stageRank`, `processChunks_progress`: a stage that has input or an end of input, and room on
  its output, gets on with its work;
* `stageAbortRank`: once the abort flag is set, every step of the stage brings it closer to its
  end; `Pipeline.abortWork_lt`: so it is with the steps of all four threads;
* `StagePushes`, `Pipeline.WillPush`: a stage that does not leave its loop without another push;
* `Pipeline.UpstreamRoom`: the room that a step of the stage makes.
-/

namespace Trit

variable {capacity : ℕ} {κ : Type} {transform : κ → Chunk → Except Exception (Chunk × κ)}

/-! ### When nothing fails -/

/-- The stage leaves its loop only after it has seen the end of its input, and then sets the flag
of its output. -/
def StageCalm (inputDone : Bool) (inputQueue : List Chunk) (outputDone : Bool) :
    Thread (ProcessPc κ) → Prop
  | .running (.inputEmpty _) => inputDone = true ∧ outputDone = false
  | .running .outputDone => inputDone = true ∧ inputQueue = [] ∧ outputDone = false
  | .returned => inputDone = true ∧ inputQueue = [] ∧ outputDone = true
  | .running _ => outputDone = false
  | .caught _ | .flagged _ => False

theorem StageCalm.move {v v' : View capacity Unit} {pc : ProcessPc κ}
    {t : Thread (ProcessPc κ)} (h : ProcessMove transform false none v pc t v')
    (hok : ∀ m c, pc = .transform m c → ∃ r, transform m c = .ok r)
    (hi : StageCalm v.input.done v.input.queue.queue v.output.done (.running pc)) :
    StageCalm v'.input.done v'.input.queue.queue v'.output.done t := by
  cases h with
  | abort m hpc ha => cases ha
  | goOn m hpc => subst hpc; exact hi
  | popped m c q hpc hq => subst hpc; exact hi
  | missed m hpc => subst hpc; exact hi
  | transformed m m' c d hpc ht => subst hpc; exact hi
  | threw m c e hpc ht =>
    obtain ⟨r, hr⟩ := hok m c hpc
    exact nomatch hr.symm.trans ht
  | fault m c x hpc hf => cases hf
  | pushed m c q hpc hq => subst hpc; exact hi
  | doneSeen m hpc hd => subst hpc; exact ⟨hd, hi⟩
  | notDone m hpc => subst hpc; exact hi
  | drained m hpc hq => subst hpc; exact ⟨hi.1, hq, hi.2⟩
  | more m hpc => subst hpc; exact hi.2
  | finished hpc => subst hpc; exact ⟨hi.1, hi.2.1, rfl⟩

/-- A transform after which the stage has not thrown has succeeded. -/
theorem ProcessMove.transform_ok {abort : Bool} {f : Option Fault} {v v' : View capacity Unit}
    {pc : ProcessPc κ} {t : Thread (ProcessPc κ)} (h : ProcessMove transform abort f v pc t v')
    (ht : t.thrown = false) : ∀ m c, pc = .transform m c → ∃ r, transform m c = .ok r := by
  rintro m c rfl
  cases h with
  | transformed m₁ m' c₁ d hpc htransform =>
    cases hpc
    exact ⟨_, htransform⟩
  | threw | fault => cases ht
  | abort _ hpc | goOn _ hpc | popped _ _ _ hpc | missed _ hpc | pushed _ _ _ hpc
  | doneSeen _ hpc | notDone _ hpc | drained _ hpc | more _ hpc | finished hpc => cases hpc

/-- Before the end of its input the stage has not seen it, whatever arrives. -/
theorem StageCalm.of_not_done {done outputDone : Bool} {queue queue' : List Chunk}
    {t : Thread (ProcessPc κ)} (h : StageCalm false queue outputDone t) :
    StageCalm done queue' outputDone t := by
  cases t with
  | running pc =>
    cases pc with
    | inputEmpty m => exact nomatch h.1
    | outputDone => exact nomatch h.1
    | _ => exact h
  | caught e => exact h
  | flagged e => exact h
  | returned => exact nomatch h.1

theorem StageCalm.thrown {inputDone outputDone : Bool} {queue : List Chunk}
    {t : Thread (ProcessPc κ)} (h : StageCalm inputDone queue outputDone t) :
    t.thrown = false := by
  cases t with
  | running pc => rfl
  | returned => rfl
  | caught e => exact h.elim
  | flagged e => exact h.elim

theorem StageCalm.done_eq_false {inputDone outputDone : Bool} {queue : List Chunk}
    {pc : ProcessPc κ} (h : StageCalm inputDone queue outputDone (.running pc)) :
    outputDone = false := by
  cases pc with
  | inputEmpty m => exact h.2
  | outputDone => exact h.2.2
  | _ => exact h

/-- The flag of its output is the last thing the stage sets. -/
theorem StageCalm.returned_of_done {inputDone outputDone : Bool} {queue : List Chunk}
    {t : Thread (ProcessPc κ)} (h : StageCalm inputDone queue outputDone t)
    (hdone : outputDone = true) : t = .returned := by
  rcases Thread.cases_of_not_thrown h.thrown with ⟨pc, rfl⟩ | ht
  · cases h.done_eq_false.symm.trans hdone
  · exact ht

/-- A stage that returns without an exception has transformed all it popped. -/
theorem StageFlow.of_returned {f : Option Fault} {abort : Bool} {v v' : View capacity Unit}
    {pc : ProcessPc κ} {t : Thread (ProcessPc κ)} {m₀ : κ}
    (hi : StageFlow transform m₀ v.input.queue.popped v.output.queue.pushed (.running pc))
    (h : ProcessMove transform abort f v pc t v') (ht : t = .returned) :
    ∃ m, transformAll transform m₀ v'.input.queue.popped = .ok (v'.output.queue.pushed, m) := by
  cases h with
  | finished hpc => subst hpc; exact hi
  | _ => cases ht

/-- A chunk that the sequential stage transforms, the stage transforms too. -/
theorem StageFlow.transform_ok {m₀ m m' : κ} {popped pushed cs ds : List Chunk} {c : Chunk}
    (h : StageFlow transform m₀ popped pushed (.running (.transform m c)))
    (hall : transformAll transform m₀ cs = .ok (ds, m')) (hcs : popped <+: cs) :
    ∃ r, transform m c = .ok r := by
  obtain ⟨pre, rfl, hpre⟩ := h
  obtain ⟨rest, rfl⟩ := hcs
  obtain ⟨ds₁, m₁, ds₂, h₁, -, -⟩ := transformAll_append_ok.mp hall
  obtain ⟨ds₃, m₃, ds₄, h₃, h₄, -⟩ := transformAll_append_ok.mp h₁
  rw [hpre] at h₃
  cases h₃
  obtain ⟨d, m₅, -, hd, -, -⟩ := transformAll_cons_ok.mp h₄
  exact ⟨(d, m₅), hd⟩

/-- How far the stage is from its next visit to `try_pop`, or from its end; `waiting` says that
its input queue is empty. -/
def stageRank (waiting : Bool) : Thread (ProcessPc κ) → ℕ
  | .running (.abortCheck _) => 6
  | .running (.tryPop _) => 5
  | .running (.transform _ _) => 37
  | .running (.push _ _) => 36
  | .running (.inputDone _) => if waiting then 4 else 8
  | .running (.inputEmpty _) => if waiting then 3 else 7
  | .running .outputDone => 1
  | .caught _ | .flagged _ | .returned => 0

theorem stageRank_le {q q' : BoundedThreadSafeQueue capacity Chunk}
    (h : q.queue <+: q'.queue) (t : Thread (ProcessPc κ)) :
    stageRank q'.empty t ≤ stageRank q.empty t + 4 * (q'.queue.length - q.queue.length) := by
  obtain ⟨new, hnew⟩ := h
  rw [← hnew, List.length_append, Nat.add_sub_cancel_left]
  unfold BoundedThreadSafeQueue.empty
  rw [← hnew]
  cases new with
  | nil => simp
  | cons c new =>
    have hne : (q.queue ++ c :: new).isEmpty = false := by simp
    rw [hne, List.length_cons]
    cases t with
    | running pc => cases pc <;> simp only [stageRank] <;> grind
    | _ => exact Nat.zero_le _

/-- A stage between `abortCheck` and the test of the flag, which finds nothing to do while its
input is empty and not done. -/
def ProcessPc.idle : ProcessPc κ → Bool
  | .abortCheck _ | .tryPop _ | .inputDone _ => true
  | _ => false

/-- The work left for the stage: a chunk on its input costs 40, one on its output 20. -/
def stageWork (v : View capacity Unit) (t : Thread (ProcessPc κ)) : ℕ :=
  40 * v.input.queue.queue.length + stageRank v.input.queue.empty t +
    20 * v.output.queue.queue.length

/-- A stage that is not idle makes progress, as long as its output has room. -/
theorem processChunks_progress {v : View capacity Unit} {pc : ProcessPc κ}
    (hok : ∀ m c, pc = .transform m c → ∃ r, transform m c = .ok r)
    (hroom : v.output.queue.queue.length < capacity)
    (hinput : v.input.queue.queue = [] → v.input.done = false → pc.idle = false) :
    ∃ t v', (processChunks transform pc).run false none v = some (t, v') ∧
      stageWork v' t < stageWork v (.running pc) := by
  cases pc with
  | abortCheck m =>
    refine ⟨.running (.tryPop m), v, rfl, ?_⟩
    simp [stageWork, stageRank]
  | tryPop m =>
    cases hq : v.input.queue.pop with
    | none =>
      refine ⟨.running (.inputDone m), v, by simp [Call.run, processChunks, Call.exec, hq], ?_⟩
      have hempty : v.input.queue.empty = true :=
        BoundedThreadSafeQueue.empty_iff.mpr (BoundedThreadSafeQueue.pop_eq_none.mp hq)
      simp [stageWork, stageRank, hempty]
    | some r =>
      refine ⟨.running (.transform m r.1), { v with input := { v.input with queue := r.2 } },
        by simp [Call.run, processChunks, Call.exec, hq], ?_⟩
      have hlen := BoundedThreadSafeQueue.length_of_pop hq
      simp only [stageWork, stageRank, hlen]
      omega
  | transform m c =>
    obtain ⟨r, hr⟩ := hok m c rfl
    refine ⟨.running (.push r.2 r.1), v, by simp [Call.run, processChunks, Call.exec, hr], ?_⟩
    simp [stageWork, stageRank]
  | push m c =>
    obtain ⟨q, hq⟩ := BoundedThreadSafeQueue.exists_push hroom c
    refine ⟨.running (.abortCheck m), { v with output := { v.output with queue := q } },
      by simp [Call.run, processChunks, Call.exec, hq], ?_⟩
    have hlen := congrArg List.length (BoundedThreadSafeQueue.push_eq_some.mp hq).2.2
    rw [List.length_append, List.length_singleton] at hlen
    simp only [stageWork, stageRank, hlen]
    omega
  | inputDone m =>
    cases hd : v.input.done with
    | true =>
      refine ⟨.running (.inputEmpty m), v, by simp [Call.run, processChunks, Call.exec, hd], ?_⟩
      simp only [stageWork, stageRank]
      split_ifs <;> omega
    | false =>
      have hne : ¬ v.input.queue.empty = true := by
        intro he
        cases hinput (BoundedThreadSafeQueue.empty_iff.mp he) hd
      refine ⟨.running (.abortCheck m), v, by simp [Call.run, processChunks, Call.exec, hd], ?_⟩
      simp only [stageWork, stageRank, if_neg hne]
      omega
  | inputEmpty m =>
    cases he : v.input.queue.empty with
    | true =>
      refine ⟨.running .outputDone, v, by simp [Call.run, processChunks, Call.exec, he], ?_⟩
      simp [stageWork, stageRank, he]
    | false =>
      refine ⟨.running (.abortCheck m), v, by simp [Call.run, processChunks, Call.exec, he], ?_⟩
      simp [stageWork, stageRank, he]
  | outputDone =>
    refine ⟨.returned, { v with output := { v.output with done := true } }, rfl, ?_⟩
    simp [stageWork, stageRank]

/-! ### After an abort -/

/-- How many steps the stage takes at most once the abort flag is set. -/
def stageAbortRank : Thread (ProcessPc κ) → ℕ
  | .running (.tryPop _) => 5
  | .running (.transform _ _) | .running (.inputDone _) => 4
  | .running (.push _ _) | .running (.inputEmpty _) => 3
  | .running (.abortCheck _) | .caught _ => 2
  | .running .outputDone | .flagged _ => 1
  | .returned => 0

theorem stageAbortRank_lt {f : Option Fault} {v v' : View capacity Unit} {pc : ProcessPc κ}
    {t : Thread (ProcessPc κ)} (h : ProcessMove transform true f v pc t v') :
    stageAbortRank t < stageAbortRank (.running pc) := by
  cases h with
  | goOn m hpc ha => cases ha
  | abort m hpc | popped m c q hpc | missed m hpc | transformed m m' c d hpc | threw m c e hpc
  | fault m c x hpc | pushed m c q hpc | doneSeen m hpc | notDone m hpc | drained m hpc
  | more m hpc | finished hpc => subst hpc; simp [stageAbortRank]

/-- The stage does not leave its loop without another push: it stands at one, or the chunk that it
holds, or takes next from `queue`, is transformed. -/
def StagePushes (transform : κ → Chunk → Except Exception (Chunk × κ)) (queue : List Chunk) :
    Thread (ProcessPc κ) → Prop
  | .running (.push _ _) => True
  | .running (.transform m c) => ∃ x, transform m c = .ok x
  | .running (.tryPop m) => ∃ c x, queue.head? = some c ∧ transform m c = .ok x
  | _ => False

theorem StagePushes.mono {queue queue' : List Chunk} {t : Thread (ProcessPc κ)}
    (h : StagePushes transform queue t) (hqueue : queue <+: queue') :
    StagePushes transform queue' t := by
  cases t with
  | running pc =>
    cases pc with
    | tryPop m =>
      obtain ⟨c, x, hhead, hx⟩ := h
      obtain ⟨rest, rfl⟩ := hqueue
      refine ⟨c, x, ?_, hx⟩
      rw [List.head?_append, hhead, Option.some_or]
    | _ => exact h
  | _ => exact h

/-- After an abort the next operation of a stage that pushes is the push, or leads to it. -/
theorem StagePushes.move {v v' : View capacity Unit} {pc : ProcessPc κ} {t : Thread (ProcessPc κ)}
    (hp : StagePushes transform v.input.queue.queue (.running pc))
    (h : ProcessMove transform true none v pc t v') :
    v.output.queue.queue.length < capacity ∨
      StagePushes transform v'.input.queue.queue t ∧ v'.output = v.output := by
  cases h with
  | pushed m c q hpc hq => exact Or.inl (BoundedThreadSafeQueue.push_eq_some.mp hq).1
  | popped m c q hpc hq =>
    subst hpc
    obtain ⟨d, x, hhead, hx⟩ := hp
    rw [(BoundedThreadSafeQueue.pop_eq_some.mp hq).1] at hhead
    obtain rfl := Option.some.inj hhead
    exact Or.inr ⟨⟨x, hx⟩, rfl⟩
  | missed m hpc hq =>
    subst hpc
    obtain ⟨d, x, hhead, -⟩ := hp
    rw [hq] at hhead
    cases hhead
  | transformed m m' c d hpc hx => exact Or.inr ⟨trivial, rfl⟩
  | threw m c e hpc he =>
    subst hpc
    obtain ⟨x, hx⟩ := hp
    cases hx.symm.trans he
  | goOn m hpc ha => cases ha
  | fault m c x hpc hf => cases hf
  | abort _ hpc | doneSeen _ hpc | notDone _ hpc | drained _ hpc | more _ hpc | finished hpc =>
    subst hpc
    exact hp.elim

/-- After an abort a stage that pushes was to push before its operation. -/
theorem ProcessMove.pushes_before {f : Option Fault} {v v' : View capacity Unit} {pc : ProcessPc κ}
    {t : Thread (ProcessPc κ)} (h : ProcessMove transform true f v pc t v')
    (ht : StagePushes transform v'.input.queue.queue t) :
    StagePushes transform v.input.queue.queue (.running pc) ∧ v'.output = v.output := by
  cases h with
  | popped m c q hpc hq =>
    subst hpc
    obtain ⟨x, hx⟩ := ht
    refine ⟨⟨c, x, ?_, hx⟩, rfl⟩
    rw [(BoundedThreadSafeQueue.pop_eq_some.mp hq).1]
    rfl
  | transformed m m' c d hpc hx =>
    subst hpc
    exact ⟨⟨_, hx⟩, rfl⟩
  | goOn m hpc ha => cases ha
  | abort | missed | threw | fault | pushed | doneSeen | notDone | drained | more | finished =>
    exact ht.elim

theorem processChunks_exists_run (transform : κ → Chunk → Except Exception (Chunk × κ))
    (abort : Bool) (v : View capacity Unit) (pc : ProcessPc κ)
    (hpush : ∀ m c, pc = .push m c → v.output.queue.queue.length < capacity) :
    ∃ t v', (processChunks transform pc).run abort none v = some (t, v') := by
  cases pc with
  | tryPop m => cases hq : v.input.queue.pop <;> simp [Call.run, processChunks, Call.exec, hq]
  | transform m c => cases hx : transform m c <;> simp [Call.run, processChunks, Call.exec, hx]
  | push m c =>
    obtain ⟨q, hq⟩ := BoundedThreadSafeQueue.exists_push (hpush m c rfl) c
    simp [Call.run, processChunks, Call.exec, hq]
  | _ => exact ⟨_, _, rfl⟩

/-- The stage is past its loop: after an abort it takes no more chunks, and pushes none. -/
def StageLeaves : Thread (ProcessPc κ) → Prop
  | .running .outputDone | .caught _ | .flagged _ | .returned => True
  | .running _ => False

namespace Pipeline

variable {π γ ω₁ ω₂ : Type} {P : Program π γ ω₁ ω₂ κ} {s t : Pipeline capacity π γ ω₁ ω₂ κ}
  {ρ : Thread π → ℕ} {σ : Thread γ → ℕ}

/-- A rank of threads that goes down with the two statements of the handler. -/
def RanksHandler {η : Type} (ρ : Thread η → ℕ) : Prop :=
  ∀ e, ρ .returned < ρ (.flagged e) ∧ ρ (.flagged e) < ρ (.caught e)

/-- The work left for the four threads after an abort, by ranks of producer and consumer. -/
def abortWork (ρ : Thread π → ℕ) (σ : Thread γ → ℕ) (s : Pipeline capacity π γ ω₁ ω₂ κ) : ℕ :=
  ρ s.producer + stageAbortRank s.stage + σ s.consumer + ProgressTracker.trackAbortRank s.tracker

/-- After an abort every step of a thread lowers the work that is left. -/
theorem abortWork_lt {a : Action}
    (hproducer : ∀ {f pc th} {v v' : View capacity ω₁},
      (P.producer pc).run true f v = some (th, v') → ρ th < ρ (.running pc))
    (hconsumer : ∀ {f pc th} {v v' : View capacity ω₂},
      (P.consumer pc).run true f v = some (th, v') → σ th < σ (.running pc))
    (hρ : RanksHandler ρ) (hσ : RanksHandler σ) (ha : a ≠ .main)
    (habort : s.ctx.abortFlag = true) (h : s.step P a = some t) :
    abortWork ρ σ t < abortWork ρ σ s := by
  have hflag : s.ctx.shouldAbort = true := habort
  unfold abortWork
  cases a with
  | producer f =>
    rcases step_producer_cases h with ⟨pc, th, v, hs, hrun, rfl⟩ | ⟨e, he, -, rfl⟩ |
      ⟨e, he, -, rfl⟩
    · rw [hflag] at hrun
      have hlt := hproducer hrun
      rw [hs]
      dsimp only
      omega
    · have hlt := (hρ e).2
      rw [he]
      dsimp only
      omega
    · have hlt := (hρ e).1
      rw [he]
      dsimp only
      omega
  | stage f =>
    rcases step_stage_cases h with ⟨pc, th, v, hs, hmove, rfl⟩ | ⟨e, he, -, rfl⟩ |
      ⟨e, he, -, rfl⟩
    · rw [hflag] at hmove
      have hlt := stageAbortRank_lt hmove
      rw [hs]
      dsimp only
      omega
    · rw [he]
      simp [stageAbortRank]
    · rw [he]
      simp [stageAbortRank]
  | consumer f =>
    rcases step_consumer_cases h with ⟨pc, th, v, hs, hrun, rfl⟩ | ⟨e, he, -, rfl⟩ |
      ⟨e, he, -, rfl⟩
    · rw [hflag] at hrun
      have hlt := hconsumer hrun
      rw [hs]
      dsimp only
      omega
    · have hlt := (hσ e).2
      rw [he]
      dsimp only
      omega
    · have hlt := (hσ e).1
      rw [he]
      dsimp only
      omega
  | tracker f =>
    rcases step_tracker_cases h with ⟨pc, th, hs, hmove, rfl⟩ | ⟨e, he, -, rfl⟩ |
      ⟨e, he, -, rfl⟩
    · rw [hflag] at hmove
      have hlt := ProgressTracker.trackAbortRank_lt hmove
      rw [hs]
      dsimp only
      omega
    · rw [he]
      simp [ProgressTracker.trackAbortRank]
    · rw [he]
      simp [ProgressTracker.trackAbortRank]
  | main => exact absurd rfl ha

/-- A step of the stage moves no other worker. -/
theorem threads_of_stage {f : Option Fault} (h : s.step P (.stage f) = some t) :
    t.producer = s.producer ∧ t.consumer = s.consumer := by
  rcases step_stage_cases h with ⟨pc, th, v, -, -, rfl⟩ | ⟨e, -, -, rfl⟩ | ⟨e, -, -, rfl⟩
  · exact ⟨rfl, rfl⟩
  · exact ⟨rfl, rfl⟩
  · exact ⟨rfl, rfl⟩

theorem source_of_stage {f : Option Fault} (h : s.step P (.stage f) = some t) :
    t.source = s.source := by
  rcases step_stage_cases h with ⟨pc, th, v, -, -, rfl⟩ | ⟨e, -, -, rfl⟩ | ⟨e, -, -, rfl⟩
  · rfl
  · rfl
  · rfl

/-- The upstream queue has room, or the stage is about to make some. -/
def UpstreamRoom (s : Pipeline capacity π γ ω₁ ω₂ κ) : Prop :=
  s.upstream.queue.queue.length < capacity ∨
    s.upstream.queue.queue ≠ [] ∧ ∃ m, s.stage = .running (.tryPop m)

/-- After an abort a stage at `try_pop` is the only one that makes room. -/
theorem UpstreamRoom.of_stage {f : Option Fault} (habort : s.ctx.abortFlag = true)
    (h : s.step P (.stage f) = some t) (ht : t.UpstreamRoom) : s.UpstreamRoom := by
  unfold UpstreamRoom at ht ⊢
  rcases step_stage_cases h with ⟨pc, th, v, hpc, hmove, rfl⟩ | ⟨e, -, -, rfl⟩ | ⟨e, -, -, rfl⟩
  · rw [show s.ctx.shouldAbort = true from habort] at hmove
    cases hmove with
    | goOn m hother ha => cases ha
    | popped m d q htry hq =>
      refine Or.inr ⟨?_, m, htry ▸ hpc⟩
      intro hnil
      cases hnil.symm.trans (BoundedThreadSafeQueue.pop_eq_some.mp hq).1
    | abort | missed | transformed | threw | fault | pushed | doneSeen | notDone | drained
    | more | finished =>
      refine ht.imp id ?_
      rintro ⟨-, m, hth⟩
      cases hth
  · refine ht.imp id ?_
    rintro ⟨-, m, hth⟩
    cases hth
  · refine ht.imp id ?_
    rintro ⟨-, m, hth⟩
    cases hth

theorem UpstreamRoom.room_of_stage {f : Option Fault} (hs : s.UpstreamRoom)
    (h : s.step P (.stage f) = some t) : t.upstream.queue.queue.length < capacity := by
  have hroom : (∀ m, s.stage ≠ .running (.tryPop m)) →
      s.upstream.queue.queue.length < capacity := by
    intro hne
    refine hs.resolve_right ?_
    rintro ⟨-, m, hm⟩
    exact hne m hm
  rcases step_stage_cases h with ⟨pc, th, v, hpc, hmove, rfl⟩ | ⟨e, he, -, rfl⟩ | ⟨e, he, -, rfl⟩
  · cases hmove with
    | popped m c q htry hq => exact BoundedThreadSafeQueue.length_lt_capacity_of_pop hq
    | missed m htry hq => exact hs.resolve_right fun hne => hne.1 hq
    | abort _ hother | goOn _ hother | transformed _ _ _ _ hother | threw _ _ _ hother
    | fault _ _ _ hother | pushed _ _ _ hother | doneSeen _ hother | notDone _ hother
    | drained _ hother | more _ hother | finished hother =>
      refine hroom fun m hm => ?_
      rw [hpc, hother] at hm
      cases hm
  · exact hroom fun m hm => nomatch he.symm.trans hm
  · exact hroom fun m hm => nomatch he.symm.trans hm

/-- The stage does not leave its loop without another push. -/
def WillPush (P : Program π γ ω₁ ω₂ κ) (s : Pipeline capacity π γ ω₁ ω₂ κ) : Prop :=
  StagePushes P.transform s.upstream.queue.queue s.stage

/-- After an abort the next step of a stage that will push finds room, or leaves the push ahead. -/
theorem WillPush.of_stage (habort : s.ctx.abortFlag = true) (hs : s.WillPush P)
    (h : s.step P (.stage none) = some t) : s.downstream.queue.queue.length < capacity ∨
      t.WillPush P ∧ t.downstream = s.downstream := by
  unfold WillPush at hs ⊢
  rcases step_stage_cases h with ⟨pc, th, v, hpc, hmove, rfl⟩ | ⟨e, he, -, -⟩ | ⟨e, he, -, -⟩
  · rw [show s.ctx.shouldAbort = true from habort] at hmove
    rw [hpc] at hs
    exact StagePushes.move hs hmove
  · rw [he] at hs
    exact hs.elim
  · rw [he] at hs
    exact hs.elim

/-- After an abort a stage that will push was to push before. -/
theorem willPush_before {f : Option Fault} (habort : s.ctx.abortFlag = true)
    (h : s.step P (.stage f) = some t) (ht : t.WillPush P) :
    s.WillPush P ∧ t.downstream = s.downstream := by
  unfold WillPush at ht ⊢
  rcases step_stage_cases h with ⟨pc, th, v, hpc, hmove, rfl⟩ | ⟨e, -, -, rfl⟩ | ⟨e, -, -, rfl⟩
  · rw [show s.ctx.shouldAbort = true from habort] at hmove
    rw [hpc]
    exact hmove.pushes_before ht
  · exact ht.elim
  · exact ht.elim

theorem exists_stage_step (P : Program π γ ω₁ ω₂ κ) (hrunning : s.stage ≠ .returned)
    (hroom : s.WillPush P → s.downstream.queue.queue.length < capacity) :
    ∃ t, s.step P (.stage none) = some t := by
  rcases s.stage.cases_thrown with ⟨pc, hs⟩ | hs | hs
  · have hpush : ∀ m c, pc = .push m c → s.downstream.queue.queue.length < capacity := by
      rintro m c rfl
      refine hroom ?_
      unfold WillPush
      rw [hs]
      trivial
    obtain ⟨th, v, hrun⟩ :=
      processChunks_exists_run P.transform s.ctx.shouldAbort s.stageView pc hpush
    exact ⟨_, step_stage_of_run P hs hrun⟩
  · obtain ⟨th, ctx, hstep, -⟩ := exists_step_stage P hs
    exact ⟨_, hstep⟩
  · exact absurd hs hrunning

/-- After an abort a stage that is past its loop stays there, and leaves both queues alone. -/
theorem stageLeaves_of_stage {f : Option Fault} (h : s.step P (.stage f) = some t)
    (hs : StageLeaves s.stage) : StageLeaves t.stage ∧
      t.upstream.queue = s.upstream.queue ∧ t.downstream.queue = s.downstream.queue := by
  rcases step_stage_cases h with ⟨pc, th, v, hpc, hmove, rfl⟩ | ⟨e, -, -, rfl⟩ | ⟨e, -, -, rfl⟩
  · rw [hpc] at hs
    cases hmove with
    | finished hother => exact ⟨trivial, rfl, rfl⟩
    | abort _ hother | goOn _ hother | popped _ _ _ hother | missed _ hother
    | transformed _ _ _ _ hother | threw _ _ _ hother | fault _ _ _ hother | pushed _ _ _ hother
    | doneSeen _ hother | notDone _ hother | drained _ hother | more _ hother =>
      subst hother
      exact hs.elim
  · exact ⟨trivial, rfl, rfl⟩
  · exact ⟨trivial, rfl, rfl⟩

end Pipeline

end Trit
