import Trit.AbortedReceiver
import Trit.PeerInput

/-!
# A receiver and its peers

`Receiver::start_session` with peers that connect one after the other, send any bytes, and close
the connection.  An exception that leaves a round ends the receiver; so does one that
`receive_files` throws while its threads are joinable, by `std::terminate`.

* `Peer`, `serve`, `startSession`: the peers, a round, and the loop;
* `Peer.Dismissed`, `Peer.Transfers`, `Handled`: the peers that a round can handle;
* `exists_hanging`: every transfer can hang;
* `survives_iff`: when the receiver survives.
-/

namespace Trit

open Transition Dialogue FileManager TransferManager

namespace Receiver

/-! ### The loop -/

/-- A peer: what it sends before it closes the connection, the user's answer to its request,
whether `remote_endpoint` still finds it, and how many writes to it succeed. -/
structure Peer where
  bytes : Bytes
  accepts : Bool
  connected : Bool
  writes : ℕ

/-- Where a round of `start_session` ends, or the loop: it waits for the next connection, an
exception leaves it, an exception is thrown while threads are joinable, or the threads of
`receive_files` run. -/
inductive RoundEnd (na : Sodium)
  | waiting
  | escaped (e : Exception)
  | terminated (e : Exception)
  | receiving (transferRequest : TransferRequest) (decryptor : na.stream.State) (coming : Bytes)

variable {na : Sodium} {platform : Platform} {password : Bytes}

/-- `receive_files` up to the joins: three threads run when the progress tracker is constructed. -/
def receiveFiles (transferRequest : TransferRequest) (decryptor : na.stream.State)
    (coming : Bytes) : RoundEnd na :=
  match ProgressTracker.new transferRequest.numChunks with
  | .error e => .terminated e
  | .ok _ => .receiving transferRequest decryptor coming

/-- The rest of a round, once the handshake and the request are over. -/
def goOn : Outcome na → Bytes → RoundEnd na
  | .handshakeFailed, _ | .declined, _ => .waiting
  | .transfer transferRequest decryptor, coming => receiveFiles transferRequest decryptor coming

/-- One round of the loop of `start_session`. -/
def serve (na : Sodium) (platform : Platform) (password : Bytes) (p : Peer) : RoundEnd na :=
  if p.connected then
    match (serveSender na platform password p.accepts).feed p.writes p.bytes with
    | .returned outcome coming _ => goOn outcome coming
    | .threw e => .escaped e
    | .starved => .escaped (.systemError "read: End of file")
    | .broken => .escaped (.systemError "write: Broken pipe")
  else .escaped (.systemError "remote_endpoint: Transport endpoint is not connected")

/-- `start_session`, when these peers connect. -/
def startSession (na : Sodium) (platform : Platform) (password : Bytes) :
    List Peer → RoundEnd na
  | [] => .waiting
  | p :: ps =>
      match serve na platform password p with
      | .waiting => startSession na platform password ps
      | x => x

/-! ### The peers that are handled -/

namespace Peer

/-- A peer whose round ends without a transfer: its handshake is refused, or its request is
declined. -/
def Dismissed (na : Sodium) (platform : Platform) (password : Bytes) (p : Peer) : Prop :=
  p.connected = true ∧
    (Refused na password p.bytes ∧ 1 ≤ p.writes ∨
      p.accepts = false ∧ 2 ≤ p.writes ∧ ∃ st r, Verified na password p.bytes st ∧
        Requested platform (p.bytes.drop handshakeSize) r)

/-- A peer whose request is accepted and has chunks. -/
def Transfers (na : Sodium) (platform : Platform) (password : Bytes) (p : Peer) : Prop :=
  p.connected = true ∧ p.accepts = true ∧ 2 ≤ p.writes ∧ ∃ st r,
    Verified na password p.bytes st ∧ Requested platform (p.bytes.drop handshakeSize) r ∧
      r.numChunks ≠ 0

end Peer

/-- Every peer is dismissed, up to one whose request is accepted and has chunks. -/
def Handled (na : Sodium) (platform : Platform) (password : Bytes) : List Peer → Prop
  | [] => True
  | p :: ps => p.Dismissed na platform password ∧ Handled na platform password ps ∨
      p.Transfers na platform password

/-- No exception has left the loop, and none has been thrown while threads are joinable. -/
def RoundEnd.Caught : RoundEnd na → Prop
  | .waiting | .receiving _ _ _ => True
  | .escaped _ | .terminated _ => False

/-- In addition, whatever happens in a transfer, `receive_files` can still return. -/
def RoundEnd.Survives (start : FileSystem) : RoundEnd na → Prop
  | .waiting => True
  | .escaped _ | .terminated _ => False
  | .receiving r st coming =>
      ∀ s, Reach (step r) any (initial queueCapacity r ⟨coming, true⟩ start st) s →
        CanReach (step r) any (fun t => t.main ≠ .joining) s

/-- A round that no exception leaves has returned from the handshake and the request. -/
theorem serve_eq_iff {p : Peer} {x : RoundEnd na} (hx : ∀ e, x ≠ .escaped e) :
    serve na platform password p = x ↔ p.connected = true ∧ ∃ outcome coming writes,
      (serveSender na platform password p.accepts).feed p.writes p.bytes =
        .returned outcome coming writes ∧ goOn outcome coming = x := by
  constructor
  · intro h
    unfold serve at h
    split_ifs at h with hconnected
    · refine ⟨hconnected, ?_⟩
      cases hfeed : (serveSender na platform password p.accepts).feed p.writes p.bytes with
      | returned outcome coming writes =>
        rw [hfeed] at h
        exact ⟨outcome, coming, writes, rfl, h⟩
      | _ =>
        rw [hfeed] at h
        exact absurd h.symm (hx _)
    · exact absurd h.symm (hx _)
  · rintro ⟨hconnected, outcome, coming, writes, hfeed, rfl⟩
    rw [serve, if_pos hconnected, hfeed]

theorem receiveFiles_of_ne_zero {r : TransferRequest} (h : r.numChunks ≠ 0) (st : na.stream.State)
    (coming : Bytes) : receiveFiles r st coming = .receiving r st coming := by
  have hnew : ProgressTracker.new r.numChunks = .ok () := by
    rw [ProgressTracker.new, if_neg]
    rw [UInt32.lt_iff_toNat_lt]
    intro hlt
    have hzero : r.numChunks.toNat = 0 := Nat.lt_one_iff.mp hlt
    exact h (UInt32.toNat_inj.mp hzero)
  rw [receiveFiles, hnew]

theorem receiveFiles_of_eq_zero {r : TransferRequest} (h : r.numChunks = 0) (st : na.stream.State)
    (coming : Bytes) :
    receiveFiles r st coming = .terminated (.logicError "Invalid progress tracker limit") := by
  rw [receiveFiles, h]
  rfl

/-- A round goes back to waiting if and only if it dismisses its peer. -/
theorem serve_eq_waiting {p : Peer} :
    serve na platform password p = .waiting ↔ p.Dismissed na platform password := by
  rw [serve_eq_iff (by simp)]
  constructor
  · rintro ⟨hconnected, outcome, coming, writes, hfeed, hgoOn⟩
    refine ⟨hconnected, ?_⟩
    rcases feed_serveSender.mp hfeed with ⟨hrefused, hwrites, -, -⟩ |
      ⟨st, r, hst, hr, hwrites, -, rfl⟩
    · exact Or.inl ⟨hrefused, by omega⟩
    · refine Or.inr ⟨?_, by omega, st, r, hst, hr⟩
      by_cases haccepts : p.accepts = true
      · rw [if_pos haccepts] at hgoOn
        by_cases hnum : r.numChunks = 0
        · rw [goOn, receiveFiles_of_eq_zero hnum] at hgoOn
          cases hgoOn
        · rw [goOn, receiveFiles_of_ne_zero hnum] at hgoOn
          cases hgoOn
      · exact Bool.eq_false_iff.mpr haccepts
  · rintro ⟨hconnected, ⟨hrefused, hwrites⟩ | ⟨haccepts, hwrites, st, r, hst, hr⟩⟩
    · obtain ⟨n, hn⟩ := Nat.exists_eq_add_of_le' hwrites
      exact ⟨hconnected, _, _, n, feed_serveSender.mpr (Or.inl ⟨hrefused, hn, rfl, rfl⟩), rfl⟩
    · obtain ⟨n, hn⟩ := Nat.exists_eq_add_of_le' hwrites
      refine ⟨hconnected, _, _, n,
        feed_serveSender.mpr (Or.inr ⟨st, r, hst, hr, hn, rfl, rfl⟩), ?_⟩
      rw [haccepts]
      rfl

/-- What has happened before the threads of a transfer run. -/
theorem of_serve_eq_receiving {p : Peer} {r : TransferRequest} {st : na.stream.State}
    {coming : Bytes} (h : serve na platform password p = .receiving r st coming) :
    p.connected = true ∧ p.accepts = true ∧ 2 ≤ p.writes ∧ Verified na password p.bytes st ∧
      Requested platform (p.bytes.drop handshakeSize) r ∧ r.numChunks ≠ 0 := by
  obtain ⟨hconnected, outcome, coming, writes, hfeed, hgoOn⟩ := (serve_eq_iff (by simp)).mp h
  rcases feed_serveSender.mp hfeed with ⟨-, -, -, rfl⟩ | ⟨st', r', hst, hr, hwrites, -, rfl⟩
  · cases hgoOn
  by_cases haccepts : p.accepts = true
  · rw [if_pos haccepts, goOn] at hgoOn
    by_cases hnum : r'.numChunks = 0
    · rw [receiveFiles_of_eq_zero hnum] at hgoOn
      cases hgoOn
    · rw [receiveFiles_of_ne_zero hnum] at hgoOn
      cases hgoOn
      exact ⟨hconnected, haccepts, by omega, hst, hr, hnum⟩
  · rw [if_neg haccepts] at hgoOn
    cases hgoOn

/-- A round gets to the threads of a transfer if and only if its peer transfers. -/
theorem serve_eq_receiving {p : Peer} :
    (∃ r st coming, serve na platform password p = .receiving r st coming) ↔
      p.Transfers na platform password := by
  constructor
  · rintro ⟨r, st, coming, h⟩
    obtain ⟨hconnected, haccepts, hwrites, hst, hr, hnum⟩ := of_serve_eq_receiving h
    exact ⟨hconnected, haccepts, hwrites, st, r, hst, hr, hnum⟩
  · rintro ⟨hconnected, haccepts, hwrites, st, r, hst, hr, hnum⟩
    obtain ⟨n, hn⟩ := Nat.exists_eq_add_of_le' hwrites
    obtain ⟨coming, hfeed⟩ : ∃ coming, (serveSender na platform password p.accepts).feed
        p.writes p.bytes = .returned (.transfer r st) coming n := by
      rw [haccepts]
      exact ⟨_, feed_serveSender.mpr (Or.inr ⟨st, r, hst, hr, hn, rfl, rfl⟩)⟩
    exact ⟨r, st, _, (serve_eq_iff (by simp)).mpr ⟨hconnected, _, _, n, hfeed,
      receiveFiles_of_ne_zero hnum st _⟩⟩

/-! ### A transfer can hang -/

/-- The main thread has returned only if the four threads have. -/
theorem canReach_joinable {ss : SecretStream} {r : TransferRequest} {s : State queueCapacity ss}
    (hs : s.Slot) (h : CanReach (step r) any (fun t => t.main ≠ .joining) s) :
    CanReach (step r) any (fun t => t.joinable = true) s := by
  obtain ⟨t, ht, hmain⟩ := h
  have hslot : t.Slot := ht.invariant
    (fun _ _ _ hi _ hstep => hi.step (program_sound r) hstep) hs
  exact ⟨t, ht, hslot.joined hmain⟩

/-- A transfer that hangs: the tracker fails to print for the first time and raises the abort flag,
the decryptor sees it and leaves its loop, and the writer waits for its first chunk for ever. -/
theorem exists_hanging {ss : SecretStream} (r : TransferRequest) (socket : Incoming)
    (start : FileSystem) (st : ss.State) :
    ∃ s, Reach (step r) any (initial queueCapacity r socket start st) s ∧
      ¬ CanReach (step r) any (fun t => t.main ≠ .joining) s := by
  have hrun : exec (step r) (initial queueCapacity r socket start st)
      [.tracker none, .tracker none, .tracker (some ⟨.badAlloc, 0⟩), .tracker none, .stage none] =
        some { initial queueCapacity r socket start st with
          ctx := WorkerContext.new.raise
          tracker := .flagged .badAlloc
          stage := .running .outputDone } := by
    rfl
  have hreach : Reach (step r) any _ _ := reach_of_exec (fun _ _ _ => trivial) hrun
  refine ⟨_, hreach, fun h => ?_⟩
  have hjoin := canReach_joinable (slot_of_reach hreach) h
  refine not_canReach_of_waiting rfl rfl ?_ hjoin
  trivial

/-! ### Survival -/

/-- When the receiver survives.  For every sequence of peers, whatever they send: no exception
leaves `start_session` or is thrown while threads are joinable if and only if every peer is
dismissed, up to one whose request is accepted and has chunks; and the receiver can always go on,
whatever happens in the threads of a transfer, if and only if every peer is dismissed. -/
theorem survives_iff (na : Sodium) (platform : Platform) (password : Bytes) (start : FileSystem)
    (peers : List Peer) :
    ((startSession na platform password peers).Caught ↔ Handled na platform password peers) ∧
    ((startSession na platform password peers).Survives start ↔
      ∀ p ∈ peers, p.Dismissed na platform password) := by
  induction peers with
  | nil => simp [startSession, RoundEnd.Caught, RoundEnd.Survives, Handled]
  | cons p ps ih =>
    obtain ⟨ihcaught, ihsurvives⟩ := ih
    have hdismissed : serve na platform password p = .waiting ↔
        p.Dismissed na platform password := serve_eq_waiting
    have htransfers : (∃ r st coming, serve na platform password p = .receiving r st coming) ↔
        p.Transfers na platform password := serve_eq_receiving
    rw [startSession, Handled, ← hdismissed, ← htransfers, List.forall_mem_cons, ← hdismissed]
    cases hserve : serve na platform password p with
    | waiting => simp [ihcaught, ihsurvives]
    | escaped e => simp [RoundEnd.Caught, RoundEnd.Survives]
    | terminated e => simp [RoundEnd.Caught, RoundEnd.Survives]
    | receiving r st coming =>
      obtain ⟨s, hs, hhangs⟩ := exists_hanging r ⟨coming, true⟩ start st
      refine ⟨by simp [RoundEnd.Caught], ?_⟩
      constructor
      · intro h
        exact absurd (h s hs) hhangs
      · rintro ⟨h, -⟩
        cases h

/-- A peer that connects and closes. -/
def silentPeer : Peer := ⟨[], true, true, 2⟩

/-- A peer that knows the password, and sends a request without files and without chunks. -/
def emptyPeer : Peer where
  bytes := List.replicate saltSize 1 ++ List.replicate nonceSize 2 ++
    (Sodium.mac ([112] ++ List.replicate saltSize 1) ++ handshakeTag) ++
    List.replicate headerSize 5 ++ [24, 0, 0, 0, 0, 0, 0, 0] ++ List.replicate 24 0
  accepts := true
  connected := true
  writes := 2

/-- A peer that closes at once makes an exception leave `start_session`; one that asks for a
transfer without chunks makes `receive_files` throw while its threads are joinable. -/
theorem exists_not_caught :
    ¬ (startSession .plain .large [112] [silentPeer]).Caught ∧
    startSession .plain .large [112] [emptyPeer] =
      .terminated (.logicError "Invalid progress tracker limit") := by
  constructor
  · intro h
    exact h
  · set_option maxRecDepth 4000 in rfl

end Receiver

end Trit
