import Trit.Worker
import Trit.Lib.LittleEndian

/-!
# Chunk framing

`TransferManager.cpp`: the workers next to the socket.  A frame is

    sequence number [8 bytes], compressed flag [1 byte], original size [2 bytes],
    chunk size [2 bytes], chunk data

with every number little-endian.

* `frameFields`, `frame`: the five writes of a chunk and their concatenation;
* `sendChunks`: pops chunks and writes their frames;
* `Incoming`, `read`, `receiveChunk`: the reading end of a socket and the five reads of a frame;
* `receiveChunks`: reads a given number of frames and pushes their chunks.
-/

namespace Trit

open LittleEndian

namespace TransferManager

/-! ### Sending -/

/-- The buffers that `send_chunks` hands to `socket.write` for one chunk. -/
def frameFields (c : Chunk) : List Bytes :=
  [leBytes 8 c.sequenceNum.toNat, [if c.compressed then 1 else 0],
    leBytes 2 c.originalSize.toNat, leBytes 2 c.size.toNat, c.data.take c.size.toNat]

/-- The bytes of one chunk on the wire. -/
def frame (c : Chunk) : Bytes := (frameFields c).flatten

/-- The bytes of a list of chunks on the wire. -/
def frames (cs : List Chunk) : Bytes := (cs.map frame).flatten

/-- The program points of `send_chunks`; at `write` some buffers of the frame are still to be
written, and once none is left the counter is incremented. -/
inductive SendPc
  | abortCheck
  | tryPop
  | write (fields : List Bytes)
  | inputDone
  | inputEmpty
  deriving DecidableEq

/-- `send_chunks`; the world is the bytes written to the socket so far.  A write that fails may
have written part of its buffer. -/
def sendChunks : SendPc → Call Bytes SendPc
  | .abortCheck => .shouldAbort fun b => if b then .returned else .running .tryPop
  | .tryPop => .tryPop fun
      | some c =>
          if uint16Max < c.size.toNat then
            .caught (.runtimeError ("Chunk exceeded maximum size of " ++ toString uint16Max ++
              " bytes"))
          else .running (.write (frameFields c))
      | none => .running .inputDone
  | .write (field :: rest) => .io
      (fun socket => some (.running (.write rest), socket ++ field))
      (fun n socket => socket ++ field.take n)
  | .write [] => .increment (.running .abortCheck)
  | .inputDone => .inputDone fun b => .running (if b then .inputEmpty else .abortCheck)
  | .inputEmpty => .inputEmpty fun b => if b then .returned else .running .abortCheck

/-- What one operation of `send_chunks` can be. -/
inductive SendMove {capacity : ℕ} (abort : Bool) (f : Option Fault) (v : View capacity Bytes)
    (pc : SendPc) : Thread SendPc → View capacity Bytes → Prop
  | abort (hpc : pc = .abortCheck) (ha : abort = true) : SendMove abort f v pc .returned v
  | goOn (hpc : pc = .abortCheck) (ha : abort = false) :
      SendMove abort f v pc (.running .tryPop) v
  | popped (c : Chunk) (q : BoundedThreadSafeQueue capacity Chunk) (hpc : pc = .tryPop)
      (hq : v.input.queue.pop = some (c, q)) :
      SendMove abort f v pc (.running (.write (frameFields c)))
        { v with input := { v.input with queue := q } }
  | missed (hpc : pc = .tryPop) (hq : v.input.queue.queue = []) :
      SendMove abort f v pc (.running .inputDone) v
  | wrote (field : Bytes) (rest : List Bytes) (hpc : pc = .write (field :: rest)) :
      SendMove abort f v pc (.running (.write rest)) { v with world := v.world ++ field }
  | fault (field : Bytes) (rest : List Bytes) (x : Fault) (hpc : pc = .write (field :: rest))
      (hf : f = some x) :
      SendMove abort f v pc (.caught x.exception)
        { v with world := v.world ++ field.take x.progress }
  | counted (hpc : pc = .write []) :
      SendMove abort f v pc (.running .abortCheck) { v with counter := v.counter + 1 }
  | doneSeen (hpc : pc = .inputDone) (hd : v.input.done = true) :
      SendMove abort f v pc (.running .inputEmpty) v
  | notDone (hpc : pc = .inputDone) (hd : v.input.done = false) :
      SendMove abort f v pc (.running .abortCheck) v
  | drained (hpc : pc = .inputEmpty) (hq : v.input.queue.queue = []) :
      SendMove abort f v pc .returned v
  | more (hpc : pc = .inputEmpty) (hq : v.input.queue.queue ≠ []) :
      SendMove abort f v pc (.running .abortCheck) v

/-- The size check of `send_chunks` never fires: the size has 16 bits. -/
theorem not_uint16Max_lt_size (c : Chunk) : ¬ uint16Max < c.size.toNat := by
  have h := c.size.toNat_lt
  unfold uint16Max
  omega

theorem sendMove_of_run {capacity : ℕ} {abort : Bool} {f : Option Fault}
    {v v' : View capacity Bytes} {pc : SendPc} {t : Thread SendPc}
    (h : (sendChunks pc).run abort f v = some (t, v')) : SendMove abort f v pc t v' := by
  cases f with
  | some x =>
    rcases pc with _ | _ | ⟨_ | ⟨field, rest⟩⟩ | _ | _ <;>
      simp only [Call.run, sendChunks, Call.fail, Option.some.injEq, Prod.mk.injEq,
        reduceCtorEq] at h
    obtain ⟨rfl, rfl⟩ := h
    exact .fault field rest x rfl rfl
  | none =>
    rcases pc with _ | _ | ⟨_ | ⟨field, rest⟩⟩ | _ | _
    · obtain ⟨rfl, rfl⟩ : (if abort then .returned else .running .tryPop) = t ∧ v = v' := by
        simpa [Call.run, sendChunks, Call.exec] using h
      cases abort
      · exact .goOn rfl rfl
      · exact .abort rfl rfl
    · cases hq : v.input.queue.pop with
      | none =>
        obtain ⟨rfl, rfl⟩ : .running .inputDone = t ∧ v = v' := by
          simpa [Call.run, sendChunks, Call.exec, hq] using h
        exact .missed rfl (BoundedThreadSafeQueue.pop_eq_none.mp hq)
      | some r =>
        obtain ⟨rfl, rfl⟩ : .running (.write (frameFields r.1)) = t ∧
            { v with input := { v.input with queue := r.2 } } = v' := by
          simpa [Call.run, sendChunks, Call.exec, hq, not_uint16Max_lt_size] using h
        exact .popped r.1 r.2 rfl hq
    · obtain ⟨rfl, rfl⟩ : .running .abortCheck = t ∧ { v with counter := v.counter + 1 } = v' := by
        simpa [Call.run, sendChunks, Call.exec] using h
      exact .counted rfl
    · obtain ⟨rfl, rfl⟩ : .running (.write rest) = t ∧
          { v with world := v.world ++ field } = v' := by
        simpa [Call.run, sendChunks, Call.exec] using h
      exact .wrote field rest rfl
    · obtain ⟨rfl, rfl⟩ : .running (if v.input.done then .inputEmpty else .abortCheck) = t ∧
          v = v' := by
        simpa [Call.run, sendChunks, Call.exec] using h
      cases hd : v.input.done
      · exact .notDone rfl hd
      · exact .doneSeen rfl hd
    · obtain ⟨rfl, rfl⟩ : (if v.input.queue.empty then .returned else .running .abortCheck) = t ∧
          v = v' := by
        simpa [Call.run, sendChunks, Call.exec] using h
      cases he : v.input.queue.empty
      · exact .more rfl (fun hq => by simp [hq, BoundedThreadSafeQueue.empty] at he)
      · exact .drained rfl (BoundedThreadSafeQueue.empty_iff.mp he)

/-! ### What has been sent -/

@[simp] theorem frames_nil : frames [] = [] := rfl

theorem frames_append (cs ds : List Chunk) : frames (cs ++ ds) = frames cs ++ frames ds := by
  simp [frames]

@[simp] theorem frames_cons (c : Chunk) (cs : List Chunk) :
    frames (c :: cs) = frame c ++ frames cs := by
  simp [frames]

theorem frames_concat (cs : List Chunk) (c : Chunk) :
    frames (cs ++ [c]) = frames cs ++ frame c := by
  rw [frames_append, frames_cons, frames_nil, List.append_nil]

theorem frames_mono {cs ds : List Chunk} (h : cs <+: ds) : frames cs <+: frames ds := by
  obtain ⟨rest, rfl⟩ := h
  rw [frames_append]
  exact List.prefix_append _ _

/-- The socket ends inside the frame of the chunk popped last, which is not counted yet. -/
def Torn (popped : List Chunk) (socket : Bytes) (counter : UInt32) : Prop :=
  ∃ pre c part, popped = pre ++ [c] ∧ part <+: frame c ∧ socket = frames pre ++ part ∧
    counter = .ofNat pre.length

/-- The socket holds the frames of all chunks popped, and they are counted. -/
def Flushed (popped : List Chunk) (socket : Bytes) (counter : UInt32) : Prop :=
  socket = frames popped ∧ counter = .ofNat popped.length

/-- The bytes on the socket are the frames of the chunks popped, in order, up to the buffers of
the last one that are still to be written. -/
def SendFlow (popped : List Chunk) (socket : Bytes) (counter : UInt32) : Thread SendPc → Prop
  | .running (.write fields) => ∃ pre c written, popped = pre ++ [c] ∧
      frameFields c = written ++ fields ∧ socket = frames pre ++ written.flatten ∧
      counter = .ofNat pre.length
  | .running _ => Flushed popped socket counter
  | .caught _ | .flagged _ => Torn popped socket counter
  | .returned => Flushed popped socket counter ∨ Torn popped socket counter

theorem SendFlow.move {capacity : ℕ} {abort : Bool} {f : Option Fault}
    {v v' : View capacity Bytes} {pc : SendPc} {t : Thread SendPc}
    (h : SendMove abort f v pc t v')
    (hi : SendFlow v.input.queue.popped v.world v.counter (.running pc)) :
    SendFlow v'.input.queue.popped v'.world v'.counter t := by
  cases h with
  | abort hpc => subst hpc; exact Or.inl hi
  | goOn hpc => subst hpc; exact hi
  | popped c q hpc hq =>
    subst hpc
    obtain ⟨hsocket, hcounter⟩ := hi
    refine ⟨v.input.queue.popped, c, [], (BoundedThreadSafeQueue.pop_eq_some.mp hq).2, rfl, ?_,
      hcounter⟩
    rw [List.flatten_nil, List.append_nil]
    exact hsocket
  | missed hpc => subst hpc; exact hi
  | wrote field rest hpc =>
    subst hpc
    obtain ⟨pre, c, written, hpop, hfields, hsocket, hcounter⟩ := hi
    refine ⟨pre, c, written ++ [field], hpop, by simpa using hfields, ?_, hcounter⟩
    show v.world ++ field = _
    rw [hsocket, List.flatten_append, List.flatten_singleton, List.append_assoc]
  | fault field rest x hpc =>
    -- the write that failed has left part of its buffer on the socket
    subst hpc
    obtain ⟨pre, c, written, hpop, hfields, hsocket, hcounter⟩ := hi
    refine ⟨pre, c, written.flatten ++ field.take x.progress, hpop, ?_, ?_, hcounter⟩
    · refine ⟨field.drop x.progress ++ rest.flatten, ?_⟩
      have hfield : field.take x.progress ++ (field.drop x.progress ++ rest.flatten) =
          field ++ rest.flatten := by
        rw [← List.append_assoc, List.take_append_drop]
      rw [frame, hfields, List.flatten_append, List.flatten_cons, List.append_assoc, hfield]
    · show v.world ++ _ = _
      rw [hsocket, List.append_assoc]
  | counted hpc =>
    subst hpc
    obtain ⟨pre, c, written, hpop, hfields, hsocket, hcounter⟩ := hi
    rw [List.append_nil] at hfields
    refine ⟨?_, ?_⟩
    · show v.world = frames v.input.queue.popped
      rw [hsocket, hpop, frames_concat, frame, hfields]
    · show v.counter + 1 = .ofNat v.input.queue.popped.length
      rw [hcounter, hpop, List.length_append, List.length_singleton]
      simp
  | doneSeen hpc => subst hpc; exact hi
  | notDone hpc => subst hpc; exact hi
  | drained hpc => subst hpc; exact Or.inl hi
  | more hpc => subst hpc; exact hi

/-- Wherever the worker stands, at most the frame of the last chunk is incomplete. -/
theorem SendFlow.flushed_or_torn {popped : List Chunk} {socket : Bytes} {counter : UInt32}
    {t : Thread SendPc} (h : SendFlow popped socket counter t) :
    Flushed popped socket counter ∨ Torn popped socket counter := by
  cases t with
  | running pc =>
    cases pc with
    | write fields =>
      obtain ⟨pre, c, written, hpop, hfields, hsocket, hcounter⟩ := h
      refine Or.inr ⟨pre, c, written.flatten, hpop, ?_, hsocket, hcounter⟩
      rw [frame, hfields, List.flatten_append]
      exact List.prefix_append _ _
    | _ => exact Or.inl h
  | caught e => exact Or.inr h
  | flagged e => exact Or.inr h
  | returned => exact h

/-- The bytes on the socket are a prefix of the frames of the chunks popped. -/
theorem SendFlow.socket_isPrefix {popped : List Chunk} {socket : Bytes} {counter : UInt32}
    {t : Thread SendPc} (h : SendFlow popped socket counter t) : socket <+: frames popped := by
  rcases h.flushed_or_torn with ⟨hsocket, -⟩ | ⟨pre, c, part, hpop, hpart, hsocket, -⟩
  · exact hsocket ▸ List.prefix_rfl
  · rw [hsocket, hpop, frames_concat]
    exact (List.prefix_append_right_inj _).mpr hpart

/-! ### Receiving -/

/-- The reading end of a socket: the bytes that have arrived and are not read yet, and whether
the peer has closed the connection behind them. -/
structure Incoming where
  stream : Bytes
  closed : Bool
  deriving DecidableEq

/-- Reads on a socket: they block, fail, or yield a value. -/
abbrev SocketM := StateT Incoming (ExceptT Exception Option)

/-- `TcpSocket::read`: exactly `len` bytes; while fewer have arrived it blocks, and after the
end of the stream it throws. -/
def read (len : ℕ) : SocketM Bytes := fun s =>
  if len ≤ s.stream.length then
    some (.ok (s.stream.take len, { s with stream := s.stream.drop len }))
  else if s.closed then some (.error (.systemError "End of file"))
  else none

/-- The body of the loop of `receive_chunks`, up to the push. -/
def receiveChunk : SocketM Chunk := do
  let sequenceNum ← read 8
  let compressedFlag ← read 1
  let originalSize ← read 2
  let chunkSize ← read 2
  let buffer ← read (leValue chunkSize)
  if leValue compressedFlag ≠ 0 then
    return .packed (.ofNat (leValue sequenceNum)) buffer (.ofNat (leValue originalSize))
  else
    return .plain (.ofNat (leValue sequenceNum)) buffer

/-- The program points of `receive_chunks`; `i` is the loop counter. -/
inductive ReceivePc
  | loop (i : ℕ)
  | read (i : ℕ)
  | push (c : Chunk) (i : ℕ)
  deriving DecidableEq

/-- `receive_chunks`. -/
def receiveChunks (numChunks : UInt32) : ReceivePc → Call Incoming ReceivePc
  | .loop i =>
      if i < numChunks.toNat then
        .shouldAbort fun b => if b then .returned else .running (.read i)
      else .outputDone .returned
  | .read i => .io
      (fun s => (receiveChunk s).run.map fun
        | .ok (c, s') => (.running (.push c i), s')
        | .error e => (.caught e, s))
      (fun n s => { s with stream := s.stream.drop n })
  | .push c i => .push c (.running (.loop (i + 1)))

/-- What one operation of `receive_chunks` can be. -/
inductive ReceiveMove {capacity : ℕ} (numChunks : UInt32) (abort : Bool) (f : Option Fault)
    (v : View capacity Incoming) (pc : ReceivePc) :
    Thread ReceivePc → View capacity Incoming → Prop
  | abort (i : ℕ) (hpc : pc = .loop i) (hi : i < numChunks.toNat) (ha : abort = true) :
      ReceiveMove numChunks abort f v pc .returned v
  | goOn (i : ℕ) (hpc : pc = .loop i) (hi : i < numChunks.toNat) (ha : abort = false) :
      ReceiveMove numChunks abort f v pc (.running (.read i)) v
  | finished (i : ℕ) (hpc : pc = .loop i) (hi : numChunks.toNat ≤ i) :
      ReceiveMove numChunks abort f v pc .returned
        { v with output := { v.output with done := true } }
  | received (i : ℕ) (c : Chunk) (s : Incoming) (hpc : pc = .read i)
      (hr : (receiveChunk v.world).run = some (.ok (c, s))) :
      ReceiveMove numChunks abort f v pc (.running (.push c i)) { v with world := s }
  | threw (i : ℕ) (e : Exception) (hpc : pc = .read i)
      (hr : (receiveChunk v.world).run = some (.error e)) :
      ReceiveMove numChunks abort f v pc (.caught e) v
  | fault (i : ℕ) (x : Fault) (hpc : pc = .read i) (hf : f = some x) :
      ReceiveMove numChunks abort f v pc (.caught x.exception)
        { v with world := { v.world with stream := v.world.stream.drop x.progress } }
  | pushed (c : Chunk) (i : ℕ) (q : BoundedThreadSafeQueue capacity Chunk)
      (hpc : pc = .push c i) (hq : v.output.queue.push c = some q) :
      ReceiveMove numChunks abort f v pc (.running (.loop (i + 1)))
        { v with output := { v.output with queue := q } }

theorem receiveMove_of_run {capacity : ℕ} {numChunks : UInt32} {abort : Bool}
    {f : Option Fault} {v v' : View capacity Incoming} {pc : ReceivePc} {t : Thread ReceivePc}
    (h : (receiveChunks numChunks pc).run abort f v = some (t, v')) :
    ReceiveMove numChunks abort f v pc t v' := by
  cases f with
  | some x =>
    cases pc with
    | loop i =>
      by_cases hi : i < numChunks.toNat <;>
        simp [Call.run, receiveChunks, Call.fail, hi] at h
    | read i =>
      obtain ⟨rfl, rfl⟩ : .caught x.exception = t ∧
          { v with world := { v.world with stream := v.world.stream.drop x.progress } } = v' := by
        simpa [Call.run, receiveChunks, Call.fail] using h
      exact .fault i x rfl rfl
    | push c i => simp [Call.run, receiveChunks, Call.fail] at h
  | none =>
    cases pc with
    | loop i =>
      by_cases hi : i < numChunks.toNat
      · obtain ⟨rfl, rfl⟩ : (if abort then .returned else .running (.read i)) = t ∧ v = v' := by
          simpa [Call.run, receiveChunks, Call.exec, hi] using h
        cases abort
        · exact .goOn i rfl hi rfl
        · exact .abort i rfl hi rfl
      · obtain ⟨rfl, rfl⟩ : .returned = t ∧
            { v with output := { v.output with done := true } } = v' := by
          simpa [Call.run, receiveChunks, Call.exec, hi] using h
        exact .finished i rfl (not_lt.mp hi)
    | read i =>
      cases hr : (receiveChunk v.world).run with
      | none => simp [Call.run, receiveChunks, Call.exec, hr] at h
      | some r =>
        cases r with
        | error e =>
          obtain ⟨rfl, rfl⟩ : .caught e = t ∧ v = v' := by
            simpa [Call.run, receiveChunks, Call.exec, hr] using h
          exact .threw i e rfl hr
        | ok r =>
          obtain ⟨rfl, rfl⟩ : .running (.push r.1 i) = t ∧ { v with world := r.2 } = v' := by
            simpa [Call.run, receiveChunks, Call.exec, hr] using h
          exact .received i r.1 r.2 rfl hr
    | push c i =>
      obtain ⟨q, hq, rfl, rfl⟩ : ∃ q, v.output.queue.push c = some q ∧
          .running (.loop (i + 1)) = t ∧
          { v with output := { v.output with queue := q } } = v' := by
        simpa [Call.run, receiveChunks, Call.exec] using h
      exact .pushed c i q rfl hq

/-! ### What has been received -/

section Bind

variable {α β : Type} {m : SocketM α} {f : α → SocketM β} {s t : Incoming} {a : α} {b : β}
  {e : Exception}

/-- The second of two reads goes on where the first stopped. -/
theorem bind_of_ok (h : m s = some (.ok (a, t))) : (m >>= f) s = f a t := by
  show ExceptT.bind (m s) _ = _
  rw [h]
  rfl

theorem bind_of_error (h : m s = some (.error e)) : (m >>= f) s = some (.error e) := by
  show ExceptT.bind (m s) _ = _
  rw [h]
  rfl

theorem bind_of_none (h : m s = none) : (m >>= f) s = none := by
  show ExceptT.bind (m s) _ = _
  rw [h]
  rfl

theorem bind_eq_ok (h : (m >>= f) s = some (.ok (b, t))) :
    ∃ a s', m s = some (.ok (a, s')) ∧ f a s' = some (.ok (b, t)) := by
  cases hm : (m s : Option (Except Exception (α × Incoming))) with
  | none => exact nomatch (bind_of_none hm).symm.trans h
  | some r =>
    cases r with
    | error e => exact nomatch (bind_of_error hm).symm.trans h
    | ok r => exact ⟨r.1, r.2, rfl, (bind_of_ok hm).symm.trans h⟩

theorem bind_eq_error (h : (m >>= f) s = some (.error e)) :
    m s = some (.error e) ∨ ∃ a s', m s = some (.ok (a, s')) ∧ f a s' = some (.error e) := by
  cases hm : (m s : Option (Except Exception (α × Incoming))) with
  | none => exact nomatch (bind_of_none hm).symm.trans h
  | some r =>
    cases r with
    | error e' =>
      have he := (bind_of_error hm).symm.trans h
      cases he
      exact Or.inl rfl
    | ok r => exact Or.inr ⟨r.1, r.2, rfl, (bind_of_ok hm).symm.trans h⟩

end Bind

/-- A program that reads from the front of the stream only: what it returns stays the same when
more bytes follow, and it throws only because the connection is closed. -/
structure Framed {α : Type} (m : SocketM α) : Prop where
  ok : ∀ {s s' a}, m s = some (.ok (a, s')) → s'.closed = s.closed ∧
    ∀ rest, m ⟨s.stream ++ rest, s.closed⟩ = some (.ok (a, ⟨s'.stream ++ rest, s.closed⟩))
  error : ∀ {s e}, m s = some (.error e) → s.closed = true

namespace Framed

variable {α β : Type}

theorem pure (a : α) : Framed (pure a : SocketM α) where
  ok := by
    intro s s' b h
    cases h
    exact ⟨rfl, fun rest => rfl⟩
  error := by
    intro s e h
    cases h

theorem read (n : ℕ) : Framed (TransferManager.read n) where
  ok := by
    intro s s' b h
    unfold TransferManager.read at h
    split_ifs at h with hn hc
    · cases h
      refine ⟨rfl, fun rest => ?_⟩
      have hn' : n ≤ (s.stream ++ rest).length := by
        rw [List.length_append]
        omega
      simp only [TransferManager.read, if_pos hn', List.take_append_of_le_length hn,
        List.drop_append_of_le_length hn]
    · cases h
  error := by
    intro s e h
    unfold TransferManager.read at h
    split_ifs at h with hn hc
    · cases h
    · exact hc

theorem bind {m : SocketM α} {f : α → SocketM β} (hm : Framed m) (hf : ∀ a, Framed (f a)) :
    Framed (m >>= f) where
  ok := by
    intro s s' b h
    obtain ⟨a, s₁, ha, hb⟩ := bind_eq_ok h
    obtain ⟨hcl, hrest⟩ := hm.ok ha
    obtain ⟨hcl', hrest'⟩ := (hf a).ok hb
    refine ⟨hcl'.trans hcl, fun rest => ?_⟩
    rw [bind_of_ok (hrest rest), ← hcl]
    exact hrest' rest
  error := by
    intro s e h
    rcases bind_eq_error h with h | ⟨a, s₁, ha, hb⟩
    · exact hm.error h
    · rw [← (hm.ok ha).1]
      exact (hf a).error hb

theorem receiveChunk : Framed TransferManager.receiveChunk := by
  refine (read 8).bind fun _ => (read 1).bind fun _ => (read 2).bind fun _ =>
    (read 2).bind fun _ => (read _).bind fun _ => ?_
  split_ifs
  · exact pure _
  · exact pure _

end Framed

/-- What a read returns stands at the front of the stream. -/
theorem read_ok {n : ℕ} {s t : Incoming} {b : Bytes} (h : read n s = some (.ok (b, t))) :
    s.stream = b ++ t.stream ∧ b.length = n ∧ t.closed = s.closed := by
  unfold read at h
  split_ifs at h with hn hc
  · cases h
    exact ⟨(List.take_append_drop n s.stream).symm, by simp [hn], rfl⟩
  · cases h

/-- A chunk is taken from the front of the stream, with its data. -/
theorem receiveChunk_ok {s t : Incoming} {c : Chunk}
    (h : receiveChunk s = some (.ok (c, t))) :
    ∃ head, s.stream = head ++ c.data ++ t.stream := by
  obtain ⟨b₁, s₁, h₁, h⟩ := bind_eq_ok h
  obtain ⟨b₂, s₂, h₂, h⟩ := bind_eq_ok h
  obtain ⟨b₃, s₃, h₃, h⟩ := bind_eq_ok h
  obtain ⟨b₄, s₄, h₄, h⟩ := bind_eq_ok h
  obtain ⟨b₅, s₅, h₅, h⟩ := bind_eq_ok h
  have hend : c.data = b₅ ∧ t = s₅ := by
    split_ifs at h
    · cases h
      exact ⟨rfl, rfl⟩
    · cases h
      exact ⟨rfl, rfl⟩
  obtain ⟨hdata, rfl⟩ := hend
  refine ⟨b₁ ++ b₂ ++ b₃ ++ b₄, ?_⟩
  rw [(read_ok h₁).1, (read_ok h₂).1, (read_ok h₃).1, (read_ok h₄).1, (read_ok h₅).1, hdata]
  simp only [List.append_assoc]

theorem read_append (b rest : Bytes) (closed : Bool) :
    read b.length ⟨b ++ rest, closed⟩ = some (.ok (b, ⟨rest, closed⟩)) := by
  simp [read]

theorem read_append_of_length {b : Bytes} {n : ℕ} (h : b.length = n) (rest : Bytes)
    (closed : Bool) :
    read n ⟨b ++ rest, closed⟩ = some (.ok (b, ⟨rest, closed⟩)) := by
  rw [← h, read_append]

/-- A chunk whose header describes it: the size fits into 16 bits, and without compression the
original size is the size. -/
structure Wf (c : Chunk) : Prop where
  size_le : c.data.length ≤ uint16Max
  originalSize : c.compressed = false → c.originalSize = UInt16.ofNat c.data.length

/-- A frame with whatever header is read as the chunk that the header announces. -/
theorem receiveChunk_header (n : UInt64) (flag : UInt8) (o : UInt16) {data : Bytes}
    (hdata : data.length ≤ uint16Max) (rest : Bytes) (closed : Bool) :
    receiveChunk ⟨leBytes 8 n.toNat ++ ([flag] ++ (leBytes 2 o.toNat ++
      (leBytes 2 data.length ++ (data ++ rest)))), closed⟩ =
      some (.ok (if flag = 0 then .plain n data else .packed n data o, ⟨rest, closed⟩)) := by
  have hlt : data.length < 256 ^ 2 := by
    unfold uint16Max at hdata
    omega
  have hseq : leValue (leBytes 8 n.toNat) = n.toNat := leValue_leBytes_of_lt n.toNat_lt
  have horig : leValue (leBytes 2 o.toNat) = o.toNat := leValue_leBytes_of_lt o.toNat_lt
  have hlen : leValue (leBytes 2 data.length) = data.length := leValue_leBytes_of_lt hlt
  have hflag : leValue [flag] = flag.toNat := by
    simp [leValue]
  have hread : ∀ rest', read 1 ⟨[flag] ++ rest', closed⟩ =
      some (.ok ([flag], ⟨rest', closed⟩)) :=
    fun rest' => read_append [flag] rest' closed
  unfold receiveChunk
  rw [bind_of_ok (read_append_of_length (length_leBytes _ _) _ _),
    bind_of_ok (hread _),
    bind_of_ok (read_append_of_length (length_leBytes _ _) _ _),
    bind_of_ok (read_append_of_length (length_leBytes _ _) _ _), hlen,
    bind_of_ok (read_append _ _ _), hseq, horig, hflag]
  by_cases hzero : flag = 0
  · rw [if_neg (by simp [hzero]), if_pos hzero]
    show some (Except.ok (Chunk.plain _ _, _)) = _
    simp
  · have hne : flag.toNat ≠ 0 := fun h => hzero (UInt8.toNat_inj.mp h)
    rw [if_pos hne, if_neg hzero]
    show some (Except.ok (Chunk.packed _ _ _, _)) = _
    simp

theorem receiveChunk_frame {c : Chunk} (hc : Wf c) (rest : Bytes) (closed : Bool) :
    receiveChunk ⟨frame c ++ rest, closed⟩ = some (.ok (c, ⟨rest, closed⟩)) := by
  have hframe : frame c ++ rest = leBytes 8 c.sequenceNum.toNat ++
      ([if c.compressed then 1 else 0] ++ (leBytes 2 c.originalSize.toNat ++
        (leBytes 2 c.data.length ++ (c.data ++ rest)))) := by
    simp [frame, frameFields, Chunk.size_toNat_of_le hc.size_le]
  rw [hframe, receiveChunk_header _ _ _ hc.size_le]
  obtain ⟨n, compressed, o, d⟩ := c
  cases compressed with
  | true => rfl
  | false =>
    have horig : o = UInt16.ofNat d.length := hc.originalSize rfl
    rw [horig]
    rfl

/-- The receiving end of frames that arrive intact: `es` are all the chunks that are sent, `coming`
are the bytes behind those that have arrived. -/
def ReceiveFlow (es : List Chunk) (coming : Bytes) (pushed : List Chunk) (stream : Bytes)
    (done : Bool) : Thread ReceivePc → Prop
  | .running (.loop i) => i ≤ es.length ∧ pushed = es.take i ∧
      stream ++ coming = frames (es.drop i) ∧ done = false
  | .running (.read i) => i < es.length ∧ pushed = es.take i ∧
      stream ++ coming = frames (es.drop i) ∧ done = false
  | .running (.push c i) => es[i]? = some c ∧ pushed = es.take i ∧
      stream ++ coming = frames (es.drop (i + 1)) ∧ done = false
  | .returned => pushed = es ∧ stream ++ coming = [] ∧ done = true
  | .caught _ | .flagged _ => False

/-- One operation of `receive_chunks`, when nothing fails: it reads the next frame. -/
theorem ReceiveFlow.move {capacity : ℕ} {numChunks : UInt32} {v v' : View capacity Incoming}
    {pc : ReceivePc} {t : Thread ReceivePc} {es : List Chunk} {coming : Bytes}
    (h : ReceiveMove numChunks false none v pc t v') (hlen : es.length = numChunks.toNat)
    (hwf : ∀ c ∈ es, Wf c) (hopen : v.world.closed = false ∨ coming = [])
    (hi : ReceiveFlow es coming v.output.queue.pushed v.world.stream v.output.done
      (.running pc)) :
    ReceiveFlow es coming v'.output.queue.pushed v'.world.stream v'.output.done t ∧
      v'.world.closed = v.world.closed := by
  cases h with
  | abort i hpc hlt ha => cases ha
  | goOn i hpc hlt =>
    subst hpc
    obtain ⟨-, hpush, hstream, hdone⟩ := hi
    exact ⟨⟨hlen ▸ hlt, hpush, hstream, hdone⟩, rfl⟩
  | finished i hpc hle =>
    subst hpc
    obtain ⟨hle', hpush, hstream, -⟩ := hi
    obtain rfl : i = es.length := by omega
    rw [List.take_length] at hpush
    rw [List.drop_length] at hstream
    exact ⟨⟨hpush, hstream, rfl⟩, rfl⟩
  | received i c s hpc hr =>
    subst hpc
    obtain ⟨hlt, hpush, hstream, hdone⟩ := hi
    obtain ⟨hclosed, hrest⟩ := Framed.receiveChunk.ok hr
    rw [List.drop_eq_getElem_cons hlt, frames_cons] at hstream
    have hread := receiveChunk_frame (hwf _ (List.getElem_mem hlt)) (frames (es.drop (i + 1)))
      v.world.closed
    rw [← hstream, hrest coming] at hread
    have hres := Except.ok.inj (Option.some.inj hread)
    obtain ⟨rfl, hs⟩ : c = es[i] ∧ s.stream ++ coming = frames (es.drop (i + 1)) :=
      ⟨congrArg Prod.fst hres, congrArg (fun r => r.2.stream) hres⟩
    exact ⟨⟨List.getElem?_eq_getElem hlt, hpush, hs, hdone⟩, hclosed⟩
  | threw i e hpc hr =>
    -- only a closed connection makes a read fail, and then all the frames have arrived
    subst hpc
    obtain ⟨hlt, -, hstream, -⟩ := hi
    have hclosed := Framed.receiveChunk.error hr
    rcases hopen with hopen | rfl
    · exact nomatch hopen.symm.trans hclosed
    · rw [List.append_nil, List.drop_eq_getElem_cons hlt, frames_cons] at hstream
      have hread := receiveChunk_frame (hwf _ (List.getElem_mem hlt))
        (frames (es.drop (i + 1))) v.world.closed
      rw [← hstream] at hread
      exact nomatch hread.symm.trans hr
  | fault i x hpc hf => cases hf
  | pushed c i q hpc hq =>
    subst hpc
    obtain ⟨hc, hpush, hstream, hdone⟩ := hi
    obtain ⟨hlt, -⟩ := List.getElem?_eq_some_iff.mp hc
    refine ⟨⟨hlt, ?_, hstream, hdone⟩, rfl⟩
    show q.pushed = _
    rw [BoundedThreadSafeQueue.pushed_push hq, hpush, List.take_add_one, hc, Option.toList_some]

theorem ReceiveFlow.thrown {es pushed : List Chunk} {coming stream : Bytes} {done : Bool}
    {t : Thread ReceivePc} (h : ReceiveFlow es coming pushed stream done t) :
    t.thrown = false := by
  cases t with
  | running pc => rfl
  | returned => rfl
  | caught e => exact h.elim
  | flagged e => exact h.elim

theorem ReceiveFlow.done_eq_false {es pushed : List Chunk} {coming stream : Bytes} {done : Bool}
    {pc : ReceivePc} (h : ReceiveFlow es coming pushed stream done (.running pc)) :
    done = false := by
  cases pc with
  | loop i => exact h.2.2.2
  | read i => exact h.2.2.2
  | push c i => exact h.2.2.2

/-- The flag of its output is the last thing `receive_chunks` sets. -/
theorem ReceiveFlow.returned_of_done {es pushed : List Chunk} {coming stream : Bytes}
    {done : Bool} {t : Thread ReceivePc} (h : ReceiveFlow es coming pushed stream done t)
    (hdone : done = true) : t = .returned := by
  rcases Thread.cases_of_not_thrown h.thrown with ⟨pc, rfl⟩ | ht
  · cases h.done_eq_false.symm.trans hdone
  · exact ht

/-- What `receive_chunks` has pushed is a prefix of what is sent. -/
theorem ReceiveFlow.pushed_isPrefix {es pushed : List Chunk} {coming stream : Bytes} {done : Bool}
    {t : Thread ReceivePc} (h : ReceiveFlow es coming pushed stream done t) : pushed <+: es := by
  cases t with
  | running pc =>
    cases pc <;> exact h.2.1 ▸ List.take_prefix _ _
  | returned => exact h.1 ▸ List.prefix_rfl
  | caught e => exact h.elim
  | flagged e => exact h.elim

theorem ReceiveFlow.arrive {es pushed : List Chunk} {bytes coming stream : Bytes} {done : Bool}
    {t : Thread ReceivePc} (h : ReceiveFlow es (bytes ++ coming) pushed stream done t) :
    ReceiveFlow es coming pushed (stream ++ bytes) done t := by
  cases t with
  | running pc =>
    cases pc <;> simpa only [ReceiveFlow, List.append_assoc] using h
  | returned => simpa only [ReceiveFlow, List.append_assoc] using h
  | caught e => exact h
  | flagged e => exact h

end TransferManager

end Trit
