import Trit.Worker
import Trit.Crypto

/-!
# The encryption stage

`EncryptionManager.cpp`: the middle worker of both pipelines.  `processChunks` is its loop,
generic in what is done to a chunk; `encryptChunk` and `decryptChunk` are the two things done.
`encrypt_then_decrypt_of_inRange` is their round trip: the other end gets the numbers and the data
back, and, by `preserves_iff`, the whole chunks if none of them is compressed.
-/

namespace Trit

/-! ### The loop -/

/-- The program points of `process_chunks`; `m` is the state of the transform. -/
inductive ProcessPc (κ : Type)
  | abortCheck (m : κ)
  | tryPop (m : κ)
  | transform (m : κ) (c : Chunk)
  | push (m : κ) (c : Chunk)
  | inputDone (m : κ)
  | inputEmpty (m : κ)
  | outputDone

/-- `process_chunks`. -/
def processChunks {κ : Type} (transform : κ → Chunk → Except Exception (Chunk × κ)) :
    ProcessPc κ → Call Unit (ProcessPc κ)
  | .abortCheck m => .shouldAbort fun b => .running (if b then .outputDone else .tryPop m)
  | .tryPop m => .tryPop fun
      | some c => .running (.transform m c)
      | none => .running (.inputDone m)
  | .transform m c => .io
      (fun _ => match transform m c with
        | .ok (result, m') => some (.running (.push m' result), ())
        | .error e => some (.caught e, ()))
      (fun _ _ => ())
  | .push m c => .push c (.running (.abortCheck m))
  | .inputDone m => .inputDone fun b => .running (if b then .inputEmpty m else .abortCheck m)
  | .inputEmpty m => .inputEmpty fun b => .running (if b then .outputDone else .abortCheck m)
  | .outputDone => .outputDone .returned

/-- What one operation of the stage can be. -/
inductive ProcessMove {capacity : ℕ} {κ : Type}
    (transform : κ → Chunk → Except Exception (Chunk × κ)) (abort : Bool) (f : Option Fault)
    (v : View capacity Unit) (pc : ProcessPc κ) :
    Thread (ProcessPc κ) → View capacity Unit → Prop
  | abort (m : κ) (hpc : pc = .abortCheck m) (ha : abort = true) :
      ProcessMove transform abort f v pc (.running .outputDone) v
  | goOn (m : κ) (hpc : pc = .abortCheck m) (ha : abort = false) :
      ProcessMove transform abort f v pc (.running (.tryPop m)) v
  | popped (m : κ) (c : Chunk) (q : BoundedThreadSafeQueue capacity Chunk)
      (hpc : pc = .tryPop m) (hq : v.input.queue.pop = some (c, q)) :
      ProcessMove transform abort f v pc (.running (.transform m c))
        { v with input := { v.input with queue := q } }
  | missed (m : κ) (hpc : pc = .tryPop m) (hq : v.input.queue.queue = []) :
      ProcessMove transform abort f v pc (.running (.inputDone m)) v
  | transformed (m m' : κ) (c d : Chunk) (hpc : pc = .transform m c)
      (ht : transform m c = .ok (d, m')) :
      ProcessMove transform abort f v pc (.running (.push m' d)) v
  | threw (m : κ) (c : Chunk) (e : Exception) (hpc : pc = .transform m c)
      (ht : transform m c = .error e) : ProcessMove transform abort f v pc (.caught e) v
  | fault (m : κ) (c : Chunk) (x : Fault) (hpc : pc = .transform m c) (hf : f = some x) :
      ProcessMove transform abort f v pc (.caught x.exception) v
  | pushed (m : κ) (c : Chunk) (q : BoundedThreadSafeQueue capacity Chunk)
      (hpc : pc = .push m c) (hq : v.output.queue.push c = some q) :
      ProcessMove transform abort f v pc (.running (.abortCheck m))
        { v with output := { v.output with queue := q } }
  | doneSeen (m : κ) (hpc : pc = .inputDone m) (hd : v.input.done = true) :
      ProcessMove transform abort f v pc (.running (.inputEmpty m)) v
  | notDone (m : κ) (hpc : pc = .inputDone m) (hd : v.input.done = false) :
      ProcessMove transform abort f v pc (.running (.abortCheck m)) v
  | drained (m : κ) (hpc : pc = .inputEmpty m) (hq : v.input.queue.queue = []) :
      ProcessMove transform abort f v pc (.running .outputDone) v
  | more (m : κ) (hpc : pc = .inputEmpty m) (hq : v.input.queue.queue ≠ []) :
      ProcessMove transform abort f v pc (.running (.abortCheck m)) v
  | finished (hpc : pc = .outputDone) :
      ProcessMove transform abort f v pc .returned
        { v with output := { v.output with done := true } }

theorem processMove_of_run {capacity : ℕ} {κ : Type}
    {transform : κ → Chunk → Except Exception (Chunk × κ)} {abort : Bool} {f : Option Fault}
    {v v' : View capacity Unit} {pc : ProcessPc κ} {t : Thread (ProcessPc κ)}
    (h : (processChunks transform pc).run abort f v = some (t, v')) :
    ProcessMove transform abort f v pc t v' := by
  cases f with
  | some x =>
    cases pc with
    | transform m c =>
      obtain ⟨rfl, rfl⟩ : .caught x.exception = t ∧ v = v' := by
        simpa [Call.run, processChunks, Call.fail] using h
      exact .fault m c x rfl rfl
    | _ => simp [Call.run, processChunks, Call.fail] at h
  | none =>
    cases pc with
    | abortCheck m =>
      obtain ⟨rfl, rfl⟩ : .running (if abort then .outputDone else .tryPop m) = t ∧ v = v' := by
        simpa [Call.run, processChunks, Call.exec] using h
      cases abort
      · exact .goOn m rfl rfl
      · exact .abort m rfl rfl
    | tryPop m =>
      cases hq : v.input.queue.pop with
      | none =>
        obtain ⟨rfl, rfl⟩ : .running (.inputDone m) = t ∧ v = v' := by
          simpa [Call.run, processChunks, Call.exec, hq] using h
        exact .missed m rfl (BoundedThreadSafeQueue.pop_eq_none.mp hq)
      | some r =>
        obtain ⟨rfl, rfl⟩ : .running (.transform m r.1) = t ∧
            { v with input := { v.input with queue := r.2 } } = v' := by
          simpa [Call.run, processChunks, Call.exec, hq] using h
        exact .popped m r.1 r.2 rfl hq
    | transform m c =>
      cases ht : transform m c with
      | error e =>
        obtain ⟨rfl, rfl⟩ : .caught e = t ∧ v = v' := by
          simpa [Call.run, processChunks, Call.exec, ht] using h
        exact .threw m c e rfl ht
      | ok r =>
        obtain ⟨rfl, rfl⟩ : .running (.push r.2 r.1) = t ∧ v = v' := by
          simpa [Call.run, processChunks, Call.exec, ht] using h
        exact .transformed m r.2 c r.1 rfl ht
    | push m c =>
      obtain ⟨q, hq, rfl, rfl⟩ : ∃ q, v.output.queue.push c = some q ∧
          .running (.abortCheck m) = t ∧
            { v with output := { v.output with queue := q } } = v' := by
        simpa [Call.run, processChunks, Call.exec] using h
      exact .pushed m c q rfl hq
    | inputDone m =>
      obtain ⟨rfl, rfl⟩ : .running (if v.input.done then .inputEmpty m else .abortCheck m) = t ∧
          v = v' := by
        simpa [Call.run, processChunks, Call.exec] using h
      cases hd : v.input.done
      · exact .notDone m rfl hd
      · exact .doneSeen m rfl hd
    | inputEmpty m =>
      obtain ⟨rfl, rfl⟩ : .running (if v.input.queue.empty then .outputDone else .abortCheck m) = t
          ∧ v = v' := by
        simpa [Call.run, processChunks, Call.exec] using h
      cases he : v.input.queue.empty
      · exact .more m rfl (fun hq => by simp [hq, BoundedThreadSafeQueue.empty] at he)
      · exact .drained m rfl (BoundedThreadSafeQueue.empty_iff.mp he)
    | outputDone =>
      obtain ⟨rfl, rfl⟩ : .returned = t ∧
          { v with output := { v.output with done := true } } = v' := by
        simpa [Call.run, processChunks, Call.exec] using h
      exact .finished rfl

namespace ProcessMove

variable {capacity : ℕ} {κ : Type} {transform : κ → Chunk → Except Exception (Chunk × κ)}
  {abort : Bool} {f : Option Fault} {v v' : View capacity Unit} {pc : ProcessPc κ}
  {t : Thread (ProcessPc κ)}

theorem input_pushed (h : ProcessMove transform abort f v pc t v') :
    v'.input.queue.pushed = v.input.queue.pushed := by
  cases h with
  | popped m c q hpc hq => exact BoundedThreadSafeQueue.pushed_pop hq
  | _ => rfl

theorem input_done (h : ProcessMove transform abort f v pc t v') :
    v'.input.done = v.input.done := by
  cases h <;> rfl

theorem output_popped (h : ProcessMove transform abort f v pc t v') :
    v'.output.queue.popped = v.output.queue.popped := by
  cases h with
  | pushed m c q hpc hq => exact (BoundedThreadSafeQueue.push_eq_some.mp hq).2.1
  | _ => rfl

theorem output_cases (h : ProcessMove transform abort f v pc t v') :
    v'.output = v.output ∨
      (∃ c q, v.output.queue.push c = some q ∧ v'.output = { v.output with queue := q }) ∨
      v'.output = { v.output with done := true } := by
  cases h with
  | pushed m c q hpc hq => exact Or.inr (Or.inl ⟨c, q, hq, rfl⟩)
  | finished hpc => exact Or.inr (Or.inr rfl)
  | _ => exact Or.inl rfl

end ProcessMove

/-! ### The sequential stage -/

section Sequential

variable {κ : Type} {transform : κ → Chunk → Except Exception (Chunk × κ)}

/-- The transform applied to a list of chunks in order: what the stage computes, without threads
and queues. -/
def transformAll (transform : κ → Chunk → Except Exception (Chunk × κ)) :
    κ → List Chunk → Except Exception (List Chunk × κ)
  | m, [] => .ok ([], m)
  | m, c :: cs => do
      let (d, m') ← transform m c
      let (ds, m'') ← transformAll transform m' cs
      return (d :: ds, m'')

@[simp] theorem transformAll_nil (m : κ) : transformAll transform m [] = .ok ([], m) := rfl

theorem transformAll_cons_ok {m m' : κ} {c : Chunk} {cs ds : List Chunk} :
    transformAll transform m (c :: cs) = .ok (ds, m') ↔
      ∃ d m₁ ds', transform m c = .ok (d, m₁) ∧
        transformAll transform m₁ cs = .ok (ds', m') ∧ ds = d :: ds' := by
  rw [transformAll, Except.bind_eq_ok]
  constructor
  · rintro ⟨⟨d, m₁⟩, hc, h⟩
    obtain ⟨⟨ds', m₂⟩, hcs, h⟩ := Except.bind_eq_ok.mp h
    cases h
    exact ⟨d, m₁, ds', hc, hcs, rfl⟩
  · rintro ⟨d, m₁, ds', hc, hcs, rfl⟩
    exact ⟨(d, m₁), hc, Except.bind_eq_ok.mpr ⟨(ds', m'), hcs, rfl⟩⟩

theorem transformAll_append_ok {m m' : κ} {cs cs' ds : List Chunk} :
    transformAll transform m (cs ++ cs') = .ok (ds, m') ↔
      ∃ ds₁ m₁ ds₂, transformAll transform m cs = .ok (ds₁, m₁) ∧
        transformAll transform m₁ cs' = .ok (ds₂, m') ∧ ds = ds₁ ++ ds₂ := by
  induction cs generalizing m ds with
  | nil => simp
  | cons c cs ih =>
    rw [List.cons_append, transformAll_cons_ok]
    constructor
    · rintro ⟨d, m₁, ds', hc, hcs, rfl⟩
      obtain ⟨ds₁, m₂, ds₂, h₁, h₂, rfl⟩ := ih.mp hcs
      exact ⟨d :: ds₁, m₂, ds₂, transformAll_cons_ok.mpr ⟨d, m₁, ds₁, hc, h₁, rfl⟩, h₂, rfl⟩
    · rintro ⟨ds₁, m₂, ds₂, h₁, h₂, rfl⟩
      obtain ⟨d, m₁, ds', hc, hcs, rfl⟩ := transformAll_cons_ok.mp h₁
      exact ⟨d, m₁, ds' ++ ds₂, hc, ih.mpr ⟨ds', m₂, ds₂, hcs, h₂, rfl⟩, rfl⟩

theorem transformAll_concat {m m₁ m₂ : κ} {cs ds : List Chunk} {c d : Chunk}
    (h : transformAll transform m cs = .ok (ds, m₁)) (hc : transform m₁ c = .ok (d, m₂)) :
    transformAll transform m (cs ++ [c]) = .ok (ds ++ [d], m₂) := by
  refine transformAll_append_ok.mpr ⟨ds, m₁, [d], h, ?_, rfl⟩
  exact transformAll_cons_ok.mpr ⟨d, m₂, [], hc, rfl, rfl⟩

theorem length_transformAll {m m' : κ} {cs ds : List Chunk}
    (h : transformAll transform m cs = .ok (ds, m')) : ds.length = cs.length := by
  induction cs generalizing m ds with
  | nil =>
    cases h
    rfl
  | cons c cs ih =>
    obtain ⟨d, m₁, ds', -, hcs, rfl⟩ := transformAll_cons_ok.mp h
    simp [ih hcs]

/-- What is transformed first does not depend on what comes later. -/
theorem transformAll_take {m m' : κ} {cs ds : List Chunk}
    (h : transformAll transform m cs = .ok (ds, m')) (k : ℕ) :
    ∃ m₁, transformAll transform m (cs.take k) = .ok (ds.take k, m₁) := by
  rw [← List.take_append_drop k cs] at h
  obtain ⟨ds₁, m₁, ds₂, h₁, h₂, rfl⟩ := transformAll_append_ok.mp h
  refine ⟨m₁, ?_⟩
  have hlen := length_transformAll h₁
  have hlen' := length_transformAll h₂
  rw [List.length_take] at hlen
  rw [List.length_drop] at hlen'
  by_cases hk : k ≤ cs.length
  · rw [h₁, List.take_left' (by omega)]
  · have hds₂ : ds₂ = [] := List.eq_nil_of_length_eq_zero (by omega)
    rw [h₁, hds₂, List.append_nil, List.take_of_length_le (by omega)]

/-- What the stage has pushed is the sequential result on what it has popped, up to the chunk it
is working on; a stage that has thrown gets no further than some earlier point. -/
def StageFlow (transform : κ → Chunk → Except Exception (Chunk × κ)) (m₀ : κ)
    (popped pushed : List Chunk) : Thread (ProcessPc κ) → Prop
  | .running (.abortCheck m) | .running (.tryPop m) | .running (.inputDone m)
  | .running (.inputEmpty m) => transformAll transform m₀ popped = .ok (pushed, m)
  | .running (.transform m c) =>
      ∃ pre, popped = pre ++ [c] ∧ transformAll transform m₀ pre = .ok (pushed, m)
  | .running (.push m c) => transformAll transform m₀ popped = .ok (pushed ++ [c], m)
  | .running .outputDone => ∃ m, transformAll transform m₀ popped = .ok (pushed, m)
  | .caught _ | .flagged _ | .returned =>
      ∃ pre m, pre <+: popped ∧ transformAll transform m₀ pre = .ok (pushed, m)

/-- One operation of the stage keeps step with the sequential stage. -/
theorem StageFlow.move {capacity : ℕ} {abort : Bool} {f : Option Fault}
    {v v' : View capacity Unit} {pc : ProcessPc κ} {t : Thread (ProcessPc κ)} {m₀ : κ}
    (h : ProcessMove transform abort f v pc t v')
    (hi : StageFlow transform m₀ v.input.queue.popped v.output.queue.pushed (.running pc)) :
    StageFlow transform m₀ v'.input.queue.popped v'.output.queue.pushed t := by
  cases h with
  | abort m hpc => subst hpc; exact ⟨m, hi⟩
  | goOn m hpc => subst hpc; exact hi
  | popped m c q hpc hq =>
    subst hpc
    exact ⟨_, (BoundedThreadSafeQueue.pop_eq_some.mp hq).2, hi⟩
  | missed m hpc => subst hpc; exact hi
  | transformed m m' c d hpc ht =>
    subst hpc
    obtain ⟨pre, hpre, hi⟩ := hi
    show transformAll transform m₀ v.input.queue.popped = _
    rw [hpre]
    exact transformAll_concat hi ht
  | threw m c e hpc =>
    subst hpc
    obtain ⟨pre, hpre, hi⟩ := hi
    exact ⟨pre, m, hpre ▸ List.prefix_append pre [c], hi⟩
  | fault m c x hpc =>
    subst hpc
    obtain ⟨pre, hpre, hi⟩ := hi
    exact ⟨pre, m, hpre ▸ List.prefix_append pre [c], hi⟩
  | pushed m c q hpc hq =>
    subst hpc
    show transformAll transform m₀ v.input.queue.popped = .ok (q.pushed, m)
    rw [BoundedThreadSafeQueue.pushed_push hq]
    exact hi
  | doneSeen m hpc => subst hpc; exact hi
  | notDone m hpc => subst hpc; exact hi
  | drained m hpc => subst hpc; exact ⟨m, hi⟩
  | more m hpc => subst hpc; exact hi
  | finished hpc =>
    subst hpc
    obtain ⟨m, hi⟩ := hi
    exact ⟨_, m, List.prefix_rfl, hi⟩

/-- At every point the stage has pushed the sequential result of a prefix of what it popped. -/
theorem StageFlow.exists_isPrefix {m₀ : κ} {popped pushed : List Chunk}
    {t : Thread (ProcessPc κ)} (h : StageFlow transform m₀ popped pushed t) :
    ∃ pre m rest, pre <+: popped ∧ transformAll transform m₀ pre = .ok (pushed ++ rest, m) := by
  cases t with
  | running pc =>
    cases pc with
    | transform m c =>
      obtain ⟨pre, rfl, h⟩ := h
      exact ⟨pre, m, [], List.prefix_append pre [c], by simpa using h⟩
    | push m c => exact ⟨popped, m, [c], List.prefix_rfl, h⟩
    | outputDone =>
      obtain ⟨m, h⟩ := h
      exact ⟨popped, m, [], List.prefix_rfl, by simpa using h⟩
    | _ => exact ⟨popped, _, [], List.prefix_rfl, by rw [List.append_nil]; exact h⟩
  | _ =>
    obtain ⟨pre, m, hpre, h⟩ := h
    exact ⟨pre, m, [], hpre, by simpa using h⟩

/-- If the sequential stage turns `cs` into `ds` and the stage pops from `cs`, then it pushes
from `ds`. -/
theorem StageFlow.pushed_isPrefix {m₀ m' : κ} {popped pushed cs ds : List Chunk}
    {t : Thread (ProcessPc κ)} (h : StageFlow transform m₀ popped pushed t)
    (hall : transformAll transform m₀ cs = .ok (ds, m')) (hcs : popped <+: cs) :
    pushed <+: ds := by
  obtain ⟨pre, m, rest, hpre, h⟩ := h.exists_isPrefix
  have htake : pre = cs.take pre.length := List.prefix_iff_eq_take.mp (hpre.trans hcs)
  obtain ⟨m₁, hm₁⟩ := transformAll_take hall pre.length
  rw [← htake, h] at hm₁
  have heq : pushed ++ rest = ds.take pre.length := by
    injection hm₁ with hm₁
    exact congrArg Prod.fst hm₁
  exact (List.prefix_append pushed rest).trans (heq ▸ List.take_prefix pre.length ds)

end Sequential

/-! ### The two transforms -/

/-- The encryptor or the decryptor a manager holds. -/
inductive CryptoVariant (ss : SecretStream)
  | encryptor (st : ss.State)
  | decryptor (st : ss.State)

/-- `EncryptionManager`. -/
structure EncryptionManager (ss : SecretStream) where
  chunkSize : UInt32
  numChunks : UInt64
  cryptoVnt : CryptoVariant ss

namespace EncryptionManager

variable {ss : SecretStream}

/-- `get_encryptor()`. -/
def getEncryptor (m : EncryptionManager ss) : Except Exception ss.State :=
  match m.cryptoVnt with
  | .encryptor st => .ok st
  | .decryptor _ => .error (.logicError "EncryptionManager was not configured for encryption")

/-- `get_decryptor()`. -/
def getDecryptor (m : EncryptionManager ss) : Except Exception ss.State :=
  match m.cryptoVnt with
  | .decryptor st => .ok st
  | .encryptor _ => .error (.logicError "EncryptionManager was not configured for decryption")

/-- The exception for a sequence number outside `1, …, num_chunks`. -/
def invalidSequenceNumber (n : UInt64) : Exception :=
  .runtimeError ("EncryptionManager: invalid chunk sequence number: " ++ toString n)

/-- `encrypt_chunk`: the result and the manager with the advanced cipher state. -/
def encryptChunk (m : EncryptionManager ss) (chunk : Chunk) :
    Except Exception (Chunk × EncryptionManager ss) := do
  if chunk.sequenceNum = 0 ∨ m.numChunks < chunk.sequenceNum then
    throw (invalidSequenceNumber chunk.sequenceNum)
  if m.chunkSize.toNat < chunk.size.toNat then
    throw (.runtimeError ("Chunk size exceeded expected size of " ++ toString m.chunkSize ++
      " bytes"))
  let isFinal := chunk.sequenceNum == m.numChunks
  let st ← m.getEncryptor
  let (encryptedData, st') ← Encryptor.encrypt st (chunk.data.take chunk.size.toNat) isFinal
  if encryptedData.length ≠ chunk.size.toNat + encryptionAdditionalBytes then
    throw (.runtimeError "EncryptionManager: unexpected encrypted output size")
  return (.packed chunk.sequenceNum encryptedData chunk.size,
    { m with cryptoVnt := .encryptor st' })

/-- `decrypt_chunk`.  A chunk shorter than the 17 added bytes already makes the allocation of
the output vector fail, since the size wraps around. -/
def decryptChunk (m : EncryptionManager ss) (chunk : Chunk) :
    Except Exception (Chunk × EncryptionManager ss) := do
  if chunk.sequenceNum = 0 ∨ m.numChunks < chunk.sequenceNum then
    throw (invalidSequenceNumber chunk.sequenceNum)
  if chunk.size.toNat < encryptionAdditionalBytes then
    throw (.lengthError "cannot create std::vector larger than max_size()")
  let st ← m.getDecryptor
  let (decryptedData, isFinal, st') ← Decryptor.decrypt st (chunk.data.take chunk.size.toNat)
  if decryptedData.length ≠ chunk.size.toNat - encryptionAdditionalBytes then
    throw (.runtimeError "EncryptionManager: unexpected decrypted output size")
  if isFinal ≠ (chunk.sequenceNum == m.numChunks) then
    throw (.runtimeError "EncryptionManager: final chunk decryption mismatch")
  return (.plain chunk.sequenceNum decryptedData, { m with cryptoVnt := .decryptor st' })

/-- `encrypt_chunks`. -/
def encryptChunks : ProcessPc (EncryptionManager ss) →
    Call Unit (ProcessPc (EncryptionManager ss)) :=
  processChunks encryptChunk

/-- `decrypt_chunks`. -/
def decryptChunks : ProcessPc (EncryptionManager ss) →
    Call Unit (ProcessPc (EncryptionManager ss)) :=
  processChunks decryptChunk

/-! ### What the transforms compute -/

/-- The tag of a chunk: `TAG_FINAL` exactly for the chunk numbered `num_chunks`. -/
def tagOf (numChunks : UInt64) (c : Chunk) : UInt8 :=
  if c.sequenceNum = numChunks then tagFinal else tagMessage

theorem encryptChunk_ok {m m' : EncryptionManager ss} {c d : Chunk}
    (h : m.encryptChunk c = .ok (d, m')) :
    c.sequenceNum ≠ 0 ∧ c.sequenceNum ≤ m.numChunks ∧ d.sequenceNum = c.sequenceNum ∧
      m'.numChunks = m.numChunks := by
  unfold encryptChunk at h
  dsimp only at h
  by_cases hseq : c.sequenceNum = 0 ∨ m.numChunks < c.sequenceNum
  · rw [if_pos hseq] at h
    cases h
  rw [if_neg hseq] at h
  by_cases hsize : m.chunkSize.toNat < c.size.toNat
  · rw [if_pos hsize] at h
    cases h
  rw [if_neg hsize] at h
  obtain ⟨st, hst, h⟩ := Except.bind_eq_ok.mp h
  obtain ⟨⟨encryptedData, st'⟩, henc, h⟩ := Except.bind_eq_ok.mp h
  dsimp only at h
  split_ifs at h with hlen
  · cases h
  cases h
  rw [not_or] at hseq
  refine ⟨hseq.1, ?_, rfl, rfl⟩
  exact UInt64.not_lt.mp hseq.2

/-- Every chunk of a list that was encrypted has a number in range, and keeps it. -/
theorem transformAll_encryptChunk_ok {m m' : EncryptionManager ss} {cs ds : List Chunk}
    (h : transformAll encryptChunk m cs = .ok (ds, m')) :
    ds.map Chunk.sequenceNum = cs.map Chunk.sequenceNum ∧
      ∀ c ∈ cs, c.sequenceNum ≠ 0 ∧ c.sequenceNum ≤ m.numChunks := by
  induction cs generalizing m ds with
  | nil =>
    cases h
    exact ⟨rfl, by simp⟩
  | cons c cs ih =>
    obtain ⟨d, m₁, ds', hc, hcs, rfl⟩ := transformAll_cons_ok.mp h
    obtain ⟨hne, hle, hseq, hnum⟩ := encryptChunk_ok hc
    obtain ⟨hmap, hall⟩ := ih hcs
    refine ⟨by rw [List.map_cons, List.map_cons, hmap, hseq], fun e he => ?_⟩
    rcases List.mem_cons.mp he with rfl | he
    · exact ⟨hne, hle⟩
    · exact hnum ▸ hall e he

/-- A plain chunk of a transfer: its number is in range, and it fits into the chunk size. -/
structure Encryptable (chunkSize : UInt32) (numChunks : UInt64) (c : Chunk) : Prop where
  ne_zero : c.sequenceNum ≠ 0
  le : c.sequenceNum ≤ numChunks
  chunkSize_le : chunkSize.toNat ≤ 8192
  length_le : c.data.length ≤ chunkSize.toNat
  plain : c = .plain c.sequenceNum c.data

/-- The encryption of a chunk of the transfer. -/
def encrypted (numChunks : UInt64) (st : ss.State) (c : Chunk) : Chunk :=
  .packed c.sequenceNum (ss.push st c.data (tagOf numChunks c)).1 c.size

/-- What `encrypt_chunk` does with a number in range: it looks at the size in 16 bits, and encrypts
as many bytes. -/
theorem encryptChunk_of_range (chunkSize : UInt32) {numChunks : UInt64} {c : Chunk}
    (hne : c.sequenceNum ≠ 0) (hle : c.sequenceNum ≤ numChunks) (st : ss.State) :
    encryptChunk ⟨chunkSize, numChunks, .encryptor st⟩ c =
      if chunkSize.toNat < c.size.toNat then
        .error (.runtimeError ("Chunk size exceeded expected size of " ++ toString chunkSize ++
          " bytes"))
      else .ok (.packed c.sequenceNum
          (ss.push st (c.data.take c.size.toNat) (tagOf numChunks c)).1 c.size,
        ⟨chunkSize, numChunks,
          .encryptor (ss.push st (c.data.take c.size.toNat) (tagOf numChunks c)).2⟩) := by
  have hseq : ¬ (c.sequenceNum = 0 ∨ numChunks < c.sequenceNum) :=
    not_or.mpr ⟨hne, UInt64.not_lt.mpr hle⟩
  have htag : (if (c.sequenceNum == numChunks) = true then tagFinal else tagMessage) =
      tagOf numChunks c := by
    simp [tagOf]
  have htake : (c.data.take c.size.toNat).length = c.size.toNat := by
    rw [List.length_take, c.size_toNat]
    exact Nat.min_eq_left (Nat.mod_le _ _)
  unfold encryptChunk
  dsimp only
  rw [if_neg hseq]
  split_ifs with hsize
  · rfl
  · show (Encryptor.encrypt st (c.data.take c.size.toNat) _ >>= _) = _
    rw [Encryptor.encrypt_eq, htag]
    show (if (ss.push st (c.data.take c.size.toNat) _).1.length ≠ _ then _ else _) = _
    rw [ss.push_length, htake, if_neg (not_not.mpr rfl)]
    rfl

/-- A chunk whose number is in range, and whose ciphertext fits into a chunk. -/
structure InRange (chunkSize : UInt32) (numChunks : UInt64) (c : Chunk) : Prop where
  ne_zero : c.sequenceNum ≠ 0
  le : c.sequenceNum ≤ numChunks
  length_le : c.data.length ≤ chunkSize.toNat
  fits : c.data.length + encryptionAdditionalBytes ≤ uint16Max

theorem Encryptable.inRange {chunkSize : UInt32} {numChunks : UInt64} {c : Chunk}
    (hc : Encryptable chunkSize numChunks c) : InRange chunkSize numChunks c := by
  have hlength := hc.length_le
  have hchunkSize := hc.chunkSize_le
  refine ⟨hc.ne_zero, hc.le, hlength, ?_⟩
  unfold uint16Max encryptionAdditionalBytes
  omega

/-- What `decrypt_chunk` makes of a chunk that was encrypted. -/
def rebuilt (c : Chunk) : Chunk := .plain c.sequenceNum c.data

theorem encryptChunk_of_inRange {chunkSize : UInt32} {numChunks : UInt64} {c : Chunk}
    (hc : InRange chunkSize numChunks c) (st : ss.State) :
    encryptChunk ⟨chunkSize, numChunks, .encryptor st⟩ c =
      .ok (encrypted numChunks st c,
        ⟨chunkSize, numChunks, .encryptor (ss.push st c.data (tagOf numChunks c)).2⟩) := by
  have hlength := hc.length_le
  have hsize : c.size.toNat = c.data.length :=
    Chunk.size_toNat_of_le (Nat.le_trans (Nat.le_add_right _ _) hc.fits)
  rw [encryptChunk_of_range chunkSize hc.ne_zero hc.le, hsize, if_neg (by omega), List.take_length]
  rfl

/-- The other end gets the number and the data back. -/
theorem decryptChunk_of_inRange {chunkSize : UInt32} {numChunks : UInt64} {c : Chunk}
    (hc : InRange chunkSize numChunks c) (st : ss.State) :
    decryptChunk ⟨chunkSize, numChunks, .decryptor st⟩ (encrypted numChunks st c) =
      .ok (rebuilt c,
        ⟨chunkSize, numChunks, .decryptor (ss.push st c.data (tagOf numChunks c)).2⟩) := by
  have hlen := ss.push_length st c.data (tagOf numChunks c)
  have hsize : (encrypted numChunks st c).size.toNat =
      (ss.push st c.data (tagOf numChunks c)).1.length :=
    Chunk.size_toNat_of_le (Nat.le_trans (Nat.le_of_eq hlen) hc.fits)
  have hseq : ¬ ((encrypted numChunks st c).sequenceNum = 0 ∨
      numChunks < (encrypted numChunks st c).sequenceNum) :=
    not_or.mpr ⟨hc.ne_zero, UInt64.not_lt.mpr hc.le⟩
  have htag : (tagOf numChunks c == tagFinal) = (c.sequenceNum == numChunks) := by
    unfold tagOf
    by_cases h : c.sequenceNum = numChunks
    · simp [h]
    · simp [h, tagMessage, tagFinal]
  unfold decryptChunk
  dsimp only
  rw [if_neg hseq, hsize, if_neg (by omega)]
  show (Decryptor.decrypt st (List.take _ (ss.push st c.data _).1) >>= _) = _
  rw [List.take_length, Decryptor.decrypt_push]
  show (if c.data.length ≠ _ then _ else _) = _
  rw [if_neg (by omega)]
  show (if (tagOf numChunks c == tagFinal) ≠ (c.sequenceNum == numChunks) then _ else _) = _
  rw [htag, if_neg (not_not.mpr rfl)]
  rfl

/-- What `decrypt_chunk` returns is what the pull of the ciphertext returned. -/
theorem decryptChunk_ok {chunkSize : UInt32} {numChunks : UInt64} {st : ss.State} {c d : Chunk}
    {m : EncryptionManager ss}
    (h : decryptChunk ⟨chunkSize, numChunks, .decryptor st⟩ c = .ok (d, m)) :
    ∃ tag st', ss.pull st (c.data.take c.size.toNat) = some (d.data, tag, st') ∧
      m = ⟨chunkSize, numChunks, .decryptor st'⟩ ∧ d = .plain c.sequenceNum d.data ∧
      c.sequenceNum ≠ 0 ∧ c.sequenceNum ≤ numChunks ∧
      (tag == tagFinal) = (c.sequenceNum == numChunks) := by
  unfold decryptChunk at h
  dsimp only at h
  by_cases hseq : c.sequenceNum = 0 ∨ numChunks < c.sequenceNum
  · rw [if_pos hseq] at h
    cases h
  rw [if_neg hseq] at h
  by_cases hsize : c.size.toNat < encryptionAdditionalBytes
  · rw [if_pos hsize] at h
    cases h
  rw [if_neg hsize] at h
  obtain ⟨st₀, hst₀, h⟩ := Except.bind_eq_ok.mp h
  cases hst₀
  obtain ⟨⟨decryptedData, isFinal, st'⟩, hdec, h⟩ := Except.bind_eq_ok.mp h
  dsimp only at h
  by_cases hlen : decryptedData.length ≠ c.size.toNat - encryptionAdditionalBytes
  · rw [if_pos hlen] at h
    cases h
  rw [if_neg hlen] at h
  by_cases hfinal : isFinal ≠ (c.sequenceNum == numChunks)
  · rw [if_pos hfinal] at h
    cases h
  rw [if_neg hfinal] at h
  cases h
  rw [not_or] at hseq
  obtain ⟨tag, hpull, rfl⟩ := Decryptor.decrypt_ok hdec
  exact ⟨tag, st', hpull, rfl, rfl, hseq.1, UInt64.not_lt.mp hseq.2, not_not.mp hfinal⟩

/-- The chunks that are decrypted from an unforged stream hold the next messages. -/
theorem transformAll_decryptChunk_unforged {chunkSize : UInt32} {numChunks : UInt64}
    {st : ss.State} {ms : List (Bytes × UInt8)} {stream : Bytes} {es ds : List Chunk}
    {m : EncryptionManager ss} (hforged : ss.Unforged st ms stream)
    (hes : ∀ e ∈ es, e.data <:+: stream) {k : ℕ} (hk : k ≤ ms.length)
    (h : transformAll decryptChunk
      ⟨chunkSize, numChunks, .decryptor (ss.stateAfter st (ms.take k))⟩ es = .ok (ds, m)) :
    k + ds.length ≤ ms.length ∧
      ds.map Chunk.data = ((ms.drop k).take ds.length).map Prod.fst := by
  induction es generalizing k ds with
  | nil =>
    cases h
    exact ⟨hk, rfl⟩
  | cons e es ih =>
    obtain ⟨d, m₁, ds', hd, hds, rfl⟩ := transformAll_cons_ok.mp h
    obtain ⟨tag, st', hpull, rfl, -⟩ := decryptChunk_ok hd
    have hinfix : e.data.take e.size.toNat <:+: stream :=
      (List.take_prefix _ _).isInfix.trans (hes e List.mem_cons_self)
    -- `k` messages have been pulled: the pull that succeeds is the one of message `k`
    obtain ⟨hget, hst'⟩ := hforged.pull_eq hinfix hpull
    obtain ⟨hlt, hk'⟩ := List.getElem?_eq_some_iff.mp hget
    dsimp only at hst'
    rw [hst'] at hds
    obtain ⟨hle, hmap⟩ := ih (fun e' he' => hes e' (List.mem_cons_of_mem _ he')) hlt hds
    refine ⟨by rw [List.length_cons]; omega, ?_⟩
    rw [List.map_cons, hmap, List.drop_eq_getElem_cons hlt, hk', List.length_cons,
      List.take_succ_cons, List.map_cons]

/-- Encrypting and decrypting chunks in range: the ciphertexts are those of one stream, each chunk
under its own tag, and the other end gets the numbers and the data back. -/
theorem encrypt_then_decrypt_of_inRange {chunkSize : UInt32} {numChunks : UInt64}
    {cs : List Chunk} (hcs : ∀ c ∈ cs, InRange chunkSize numChunks c) (st : ss.State) :
    ∃ es st', transformAll encryptChunk ⟨chunkSize, numChunks, .encryptor st⟩ cs =
        .ok (es, ⟨chunkSize, numChunks, .encryptor st'⟩) ∧
      transformAll decryptChunk ⟨chunkSize, numChunks, .decryptor st⟩ es =
        .ok (cs.map rebuilt, ⟨chunkSize, numChunks, .decryptor st'⟩) ∧
      es.map Chunk.sequenceNum = cs.map Chunk.sequenceNum ∧
      es.map Chunk.data = ss.pushAll st (cs.map fun c => (c.data, tagOf numChunks c)) ∧
      ∀ e ∈ es, e.compressed = true ∧ encryptionAdditionalBytes ≤ e.data.length ∧
        e.data.length ≤ uint16Max := by
  induction cs generalizing st with
  | nil => exact ⟨[], st, rfl, rfl, rfl, rfl, by simp⟩
  | cons c cs ih =>
    have hc := hcs c List.mem_cons_self
    obtain ⟨es, st', henc, hdec, hseq, hdata, hes⟩ :=
      ih (fun d hd => hcs d (List.mem_cons_of_mem _ hd)) (ss.push st c.data (tagOf numChunks c)).2
    refine ⟨encrypted numChunks st c :: es, st', ?_, ?_, ?_, ?_, ?_⟩
    · exact transformAll_cons_ok.mpr ⟨_, _, es, encryptChunk_of_inRange hc st, henc, rfl⟩
    · exact transformAll_cons_ok.mpr ⟨_, _, _, decryptChunk_of_inRange hc st, hdec, rfl⟩
    · rw [List.map_cons, List.map_cons, hseq]
      rfl
    · rw [List.map_cons, List.map_cons, hdata]
      rfl
    · intro e he
      rcases List.mem_cons.mp he with rfl | he
      · have hlen := ss.push_length st c.data (tagOf numChunks c)
        refine ⟨rfl, ?_, Nat.le_trans (Nat.le_of_eq hlen) hc.fits⟩
        show _ ≤ (ss.push st c.data _).1.length
        omega
      · exact hes e he

/-- The chunks of a transfer come back as they were. -/
theorem encrypt_then_decrypt {chunkSize : UInt32} {numChunks : UInt64}
    {cs : List Chunk} (hcs : ∀ c ∈ cs, Encryptable chunkSize numChunks c) (st : ss.State) :
    ∃ es st', transformAll encryptChunk ⟨chunkSize, numChunks, .encryptor st⟩ cs =
        .ok (es, ⟨chunkSize, numChunks, .encryptor st'⟩) ∧
      transformAll decryptChunk ⟨chunkSize, numChunks, .decryptor st⟩ es =
        .ok (cs, ⟨chunkSize, numChunks, .decryptor st'⟩) ∧
      es.map Chunk.sequenceNum = cs.map Chunk.sequenceNum ∧
      es.map Chunk.data = ss.pushAll st (cs.map fun c => (c.data, tagOf numChunks c)) ∧
      ∀ e ∈ es, e.compressed = true ∧ encryptionAdditionalBytes ≤ e.data.length ∧
        e.data.length ≤ uint16Max := by
  have hplain : ∀ c ∈ cs, rebuilt c = id c := fun c hc => (hcs c hc).plain.symm
  have h := encrypt_then_decrypt_of_inRange (fun c hc => (hcs c hc).inRange) st
  rwa [List.map_congr_left hplain, List.map_id] at h

/-! ### Chunks of both constructors -/

/-- Encrypting the chunks in order, and decrypting the results in order with the same key and
header, throws nothing and returns the chunks. -/
def Preserves (ss : SecretStream) (chunkSize : UInt32) (numChunks : UInt64) (st : ss.State)
    (cs : List Chunk) : Prop :=
  ∃ es m m', transformAll encryptChunk ⟨chunkSize, numChunks, .encryptor st⟩ cs = .ok (es, m) ∧
    transformAll decryptChunk ⟨chunkSize, numChunks, .decryptor st⟩ es = .ok (cs, m')

/-- One of the two constructors builds the chunk. -/
def Constructed (c : Chunk) : Prop :=
  (∃ n data, c = .plain n data) ∨ ∃ n data originalSize, c = .packed n data originalSize

/-- The list is numbered from one to the number of chunks. -/
def NumberedTo (numChunks : UInt64) (cs : List Chunk) : Prop :=
  cs.map Chunk.sequenceNum = (List.range numChunks.toNat).map fun k => UInt64.ofNat (k + 1)

instance (numChunks : UInt64) : DecidablePred (NumberedTo numChunks) := fun _ =>
  inferInstanceAs (Decidable (_ = _))

/-- The numbers of the list are in range. -/
theorem NumberedTo.mem_range {numChunks : UInt64} {cs : List Chunk} (h : NumberedTo numChunks cs)
    {c : Chunk} (hc : c ∈ cs) : c.sequenceNum ≠ 0 ∧ c.sequenceNum ≤ numChunks := by
  have hmem : c.sequenceNum ∈ cs.map Chunk.sequenceNum := List.mem_map_of_mem hc
  rw [h] at hmem
  obtain ⟨k, hk, hseq⟩ := List.mem_map.mp hmem
  rw [List.mem_range] at hk
  have hlt := numChunks.toNat_lt
  have htoNat : (UInt64.ofNat (k + 1)).toNat = k + 1 := by
    rw [UInt64.toNat_ofNat', Nat.mod_eq_of_lt (by omega)]
  rw [← hseq]
  constructor
  · intro hzero
    rw [hzero] at htoNat
    cases htoNat
  · rw [UInt64.le_iff_toNat_le, htoNat]
    exact hk

/-- A chunk of one of the constructors is rebuilt as it was, unless it is flagged as compressed. -/
theorem rebuilt_eq_iff {c : Chunk} (hc : Constructed c) :
    rebuilt c = c ↔ c.compressed = false := by
  rcases hc with ⟨n, data, rfl⟩ | ⟨n, data, originalSize, rfl⟩
  · exact iff_of_true rfl rfl
  · refine iff_of_false ?_ (by simp [Chunk.packed])
    intro heq
    cases congrArg Chunk.compressed heq

theorem preserves_iff_map {chunkSize : UInt32} {numChunks : UInt64} {cs : List Chunk}
    (hcs : ∀ c ∈ cs, InRange chunkSize numChunks c) (st : ss.State) :
    Preserves ss chunkSize numChunks st cs ↔ cs.map rebuilt = cs := by
  obtain ⟨es, st', henc, hdec, -⟩ := encrypt_then_decrypt_of_inRange hcs st
  constructor
  · rintro ⟨es', m, m', henc', hdec'⟩
    rw [henc] at henc'
    cases henc'
    rw [hdec] at hdec'
    injection hdec' with hdec'
    exact congrArg Prod.fst hdec'
  · intro hmap
    rw [hmap] at hdec
    exact ⟨es, _, _, henc, hdec⟩

/-- The encryption stage preserves the chunks if and only if none of them is compressed. -/
theorem preserves_iff {chunkSize : UInt32} {numChunks : UInt64} {cs : List Chunk}
    (hsize : chunkSize.toNat ≤ 65518) (hnumbered : NumberedTo numChunks cs)
    (hconstructed : ∀ c ∈ cs, Constructed c)
    (hlength : ∀ c ∈ cs, c.data.length ≤ chunkSize.toNat) (st : ss.State) :
    Preserves ss chunkSize numChunks st cs ↔ ∀ c ∈ cs, c.compressed = false := by
  have hrange : ∀ c ∈ cs, InRange chunkSize numChunks c := by
    intro c hc
    obtain ⟨hne, hle⟩ := hnumbered.mem_range hc
    refine ⟨hne, hle, hlength c hc, ?_⟩
    have hc := hlength c hc
    unfold uint16Max encryptionAdditionalBytes
    omega
  have hid : cs.map rebuilt = cs ↔ ∀ c ∈ cs, rebuilt c = id c := by
    rw [← List.map_inj_left, List.map_id]
  rw [preserves_iff_map hrange, hid]
  exact forall₂_congr fun c hc => rebuilt_eq_iff (hconstructed c hc)

/-- A plain chunk and a compressed one. -/
theorem preserves_iff_two :
    Preserves .measured 8192 2 (0 : UInt8) [.plain 1 [7, 8], .packed 2 [9] 300] ↔
      ∀ c ∈ [Chunk.plain 1 [7, 8], .packed 2 [9] 300], c.compressed = false := by
  refine preserves_iff (by decide) (by decide) ?_ (by decide) _
  intro c hc
  rcases List.mem_pair.mp hc with rfl | rfl
  · exact Or.inl ⟨1, [7, 8], rfl⟩
  · exact Or.inr ⟨2, [9], 300, rfl⟩

/-- A compressed chunk comes back without its flag and its original size. -/
theorem not_preserves_packed : ¬ Preserves .measured 8192 1 (0 : UInt8) [.packed 1 [9] 300] := by
  intro h
  have hmap := (preserves_iff_map (fun c hc => ?_) _).mp h
  · revert hmap
    decide
  · rw [List.mem_singleton.mp hc]
    exact ⟨by decide, by decide, by decide, by decide⟩

end EncryptionManager

end Trit
