import Trit.Handshake

/-!
# What the receiver makes of the bytes of a peer

A round of the receiver's `start_session` on a stream that ends, read off as a condition on the
bytes of the stream.

* `handshakeSize`, `saltOf`, `nonceOf`, `ciphertextOf`, `headerOf`: the parts of a handshake;
* `feed_receiveHandshake`, `feed_receiveTransferRequest`, `feed_acceptTransferRequest`: when the
  parts of a round return, and what;
* `Refused`, `Verified`, `Requested`: a handshake that is refused, one that is accepted, and a
  request that is shown to the user;
* `feed_serveSender`: when a round returns.
-/

namespace Trit

open LittleEndian Dialogue

/-! ### The handshake -/

/-- The bytes of a handshake. -/
def handshakeSize : ℕ := saltSize + nonceSize + handshakeCiphertextSize + headerSize

/-- The salt of a handshake. -/
def saltOf (input : Bytes) : Bytes := input.take saltSize

/-- The nonce of a handshake. -/
def nonceOf (input : Bytes) : Bytes := (input.drop saltSize).take nonceSize

/-- The ciphertext of a handshake. -/
def ciphertextOf (input : Bytes) : Bytes :=
  (input.drop (saltSize + nonceSize)).take handshakeCiphertextSize

/-- The stream header of a handshake. -/
def headerOf (input : Bytes) : Bytes :=
  (input.drop (saltSize + nonceSize + handshakeCiphertextSize)).take headerSize

namespace Receiver

variable {na : Sodium} {platform : Platform} {password : Bytes} {accepts : Bool}
  {input rest : Bytes} {writes writes' : ℕ}

theorem feed_replyToHandshake {key : na.Key} {nonce ciphertext header : Bytes}
    {decryptor? : Option na.stream.State} :
    (replyToHandshake key nonce ciphertext header).feed writes input =
        .returned decryptor? rest writes' ↔
      rest = input ∧ writes = writes' + 1 ∧
        ((verifyHandshakeTag key nonce ciphertext = false ∧ decryptor? = none) ∨
          (verifyHandshakeTag key nonce ciphertext = true ∧
            ∃ st, na.initPull key header = some st ∧ decryptor? = some st)) := by
  unfold replyToHandshake
  cases hverify : verifyHandshakeTag key nonce ciphertext with
  | false =>
    simp only [Bool.false_eq_true, if_false, feed_write_eq_returned, feed]
    constructor
    · rintro ⟨n, rfl, ⟨⟩⟩
      exact ⟨rfl, rfl, Or.inl ⟨trivial, rfl⟩⟩
    · rintro ⟨rfl, rfl, ⟨-, rfl⟩ | ⟨hv, -⟩⟩
      · exact ⟨writes', rfl, rfl⟩
      · cases hv
  | true =>
    cases hpull : na.initPull key header with
    | none => simp [feed]
    | some st =>
      simp only [if_true, feed_write_eq_returned, feed]
      constructor
      · rintro ⟨n, rfl, ⟨⟩⟩
        exact ⟨rfl, rfl, Or.inr ⟨trivial, st, rfl, rfl⟩⟩
      · rintro ⟨rfl, rfl, ⟨hv, -⟩ | ⟨-, st', hst, rfl⟩⟩
        · cases hv
        · cases hst
          exact ⟨writes', rfl, rfl⟩

/-- A handshake is answered if and only if it is whole, the key can be derived, the decryptor can be
set up if the tag verifies, and the reply can be written. -/
theorem feed_receiveHandshake {decryptor? : Option na.stream.State} :
    (receiveHandshake na password).feed writes input = .returned decryptor? rest writes' ↔
      handshakeSize ≤ input.length ∧ rest = input.drop handshakeSize ∧ writes = writes' + 1 ∧
        ∃ key, na.pwhash password (saltOf input) = some key ∧
          ((verifyHandshakeTag key (nonceOf input) (ciphertextOf input) = false ∧
              decryptor? = none) ∨
            (verifyHandshakeTag key (nonceOf input) (ciphertextOf input) = true ∧
              ∃ st, na.initPull key (headerOf input) = some st ∧ decryptor? = some st)) := by
  rw [receiveHandshake, feed_read_eq_returned]
  cases hkey : na.pwhash password (input.take saltSize) with
  | none => simp [saltOf, hkey, feed]
  | some key =>
    have hsize : handshakeSize ≤ input.length ↔ saltSize ≤ input.length ∧
        nonceSize ≤ input.length - saltSize ∧
        handshakeCiphertextSize ≤ input.length - (saltSize + nonceSize) ∧
        headerSize ≤ input.length - (saltSize + nonceSize + handshakeCiphertextSize) := by
      unfold handshakeSize headerSize
      omega
    simp only [feed_read_eq_returned, feed_replyToHandshake, List.drop_drop, List.length_drop,
      saltOf, hkey, Option.some.injEq, exists_eq_left', hsize, and_assoc]
    rfl

/-! ### The request -/

/-- The size that precedes a request. -/
def requestSizeOf (input : Bytes) : ℕ := leValue (input.take 8)

/-- The bytes of a request. -/
def requestOf (input : Bytes) : Bytes := (input.drop 8).take (requestSizeOf input)

/-- A request is received if and only if its size can be allocated, it is whole, and it can be
decoded. -/
theorem feed_receiveTransferRequest {r : TransferRequest} :
    (receiveTransferRequest platform).feed writes input = .returned r rest writes' ↔
      8 + requestSizeOf input ≤ input.length ∧
        platform.allocate (requestSizeOf input) = .ok () ∧
        TransferRequest.deserialize (requestOf input) = .ok r ∧
        rest = input.drop (8 + requestSizeOf input) ∧ writes = writes' := by
  rw [receiveTransferRequest, feed_read_eq_returned, feed_ofExcept_bind_eq_returned]
  constructor
  · rintro ⟨h8, u, hallocate, h⟩
    obtain ⟨hsize, h⟩ := feed_read_eq_returned.mp h
    obtain ⟨hdecode, hrest, hwrites⟩ := feed_ofExcept_eq_returned.mp h
    rw [List.length_drop] at hsize
    rw [List.drop_drop] at hrest
    refine ⟨?_, hallocate, hdecode, hrest, hwrites⟩
    have hle : requestSizeOf input ≤ input.length - 8 := hsize
    omega
  · rintro ⟨hlen, hallocate, hdecode, rfl, rfl⟩
    have h8 : 8 ≤ input.length := by omega
    have hsize : requestSizeOf input ≤ (input.drop 8).length := by
      rw [List.length_drop]
      omega
    refine ⟨h8, (), hallocate, feed_read_eq_returned.mpr ⟨hsize, ?_⟩⟩
    exact feed_ofExcept_eq_returned.mpr ⟨hdecode, List.drop_drop.symm, rfl⟩

/-- A request is answered if and only if it can be printed and the reply can be written. -/
theorem feed_acceptTransferRequest {r : TransferRequest} {accepted : Bool} :
    (acceptTransferRequest platform accepts r).feed writes input =
        .returned accepted rest writes' ↔
      r.print platform = .ok () ∧ rest = input ∧ writes = writes' + 1 ∧ accepted = accepts := by
  rw [acceptTransferRequest, feed_ofExcept_bind_eq_returned]
  constructor
  · rintro ⟨u, hprint, h⟩
    obtain ⟨n, rfl, h⟩ := feed_write_eq_returned.mp h
    cases h
    exact ⟨hprint, rfl, rfl, rfl⟩
  · rintro ⟨hprint, rfl, rfl, rfl⟩
    exact ⟨(), hprint, rfl⟩

/-! ### The round -/

/-- The handshake at the start of the stream is whole, but its tag does not verify. -/
def Refused (na : Sodium) (password input : Bytes) : Prop :=
  handshakeSize ≤ input.length ∧ ∃ key, na.pwhash password (saltOf input) = some key ∧
    verifyHandshakeTag key (nonceOf input) (ciphertextOf input) = false

/-- The handshake at the start of the stream is whole, its tag verifies, and the decryptor of its
header starts in the state `st`. -/
def Verified (na : Sodium) (password input : Bytes) (st : na.stream.State) : Prop :=
  handshakeSize ≤ input.length ∧ ∃ key, na.pwhash password (saltOf input) = some key ∧
    verifyHandshakeTag key (nonceOf input) (ciphertextOf input) = true ∧
    na.initPull key (headerOf input) = some st

/-- The stream starts with a request `r`: its size can be allocated, it is whole, it can be decoded
and printed. -/
def Requested (platform : Platform) (input : Bytes) (r : TransferRequest) : Prop :=
  8 + requestSizeOf input ≤ input.length ∧ platform.allocate (requestSizeOf input) = .ok () ∧
    TransferRequest.deserialize (requestOf input) = .ok r ∧ r.print platform = .ok ()

/-- A round returns if and only if the handshake is refused, or accepted and followed by a request,
and the replies can be written. -/
theorem feed_serveSender {x : Outcome na} :
    (serveSender na platform password accepts).feed writes input = .returned x rest writes' ↔
      (Refused na password input ∧ writes = writes' + 1 ∧ rest = input.drop handshakeSize ∧
        x = .handshakeFailed) ∨
      ∃ st r, Verified na password input st ∧
        Requested platform (input.drop handshakeSize) r ∧ writes = writes' + 2 ∧
        rest = (input.drop handshakeSize).drop (8 + requestSizeOf (input.drop handshakeSize)) ∧
        x = if accepts then .transfer r st else .declined := by
  rw [serveSender, feed_bind_eq_returned]
  constructor
  · rintro ⟨decryptor?, w, later, hhandshake, h⟩
    obtain ⟨hlen, rfl, rfl, key, hkey, ⟨hverify, rfl⟩ | ⟨hverify, st, hst, rfl⟩⟩ :=
      feed_receiveHandshake.mp hhandshake
    -- a refused handshake ends the round before a request is read
    · cases h
      exact Or.inl ⟨⟨hlen, key, hkey, hverify⟩, rfl, rfl, rfl⟩
    · obtain ⟨r, w', later', hrequest, hrest⟩ := feed_bind_eq_returned.mp h
      obtain ⟨hsize, hallocate, hdecode, rfl, rfl⟩ := feed_receiveTransferRequest.mp hrequest
      obtain ⟨accepted, w', later', haccept, hend⟩ := feed_bind_eq_returned.mp hrest
      obtain ⟨hprint, rfl, rfl, rfl⟩ := feed_acceptTransferRequest.mp haccept
      cases hend
      exact Or.inr ⟨st, r, ⟨hlen, key, hkey, hverify, hst⟩, ⟨hsize, hallocate, hdecode, hprint⟩,
        rfl, rfl, rfl⟩
  · rintro (⟨⟨hlen, key, hkey, hverify⟩, rfl, rfl, rfl⟩ | ⟨st, r, ⟨hlen, key, hkey, hverify, hst⟩,
      ⟨hsize, hallocate, hdecode, hprint⟩, rfl, rfl, rfl⟩)
    · exact ⟨none, writes', _, feed_receiveHandshake.mpr ⟨hlen, rfl, rfl, key, hkey,
        Or.inl ⟨hverify, rfl⟩⟩, rfl⟩
    · refine ⟨some st, writes' + 1, _, feed_receiveHandshake.mpr ⟨hlen, rfl, rfl, key, hkey,
        Or.inr ⟨hverify, st, hst, rfl⟩⟩, ?_⟩
      refine feed_bind_eq_returned.mpr ⟨r, _, _, feed_receiveTransferRequest.mpr
        ⟨hsize, hallocate, hdecode, rfl, rfl⟩, ?_⟩
      exact feed_bind_eq_returned.mpr ⟨accepts, _, _, feed_acceptTransferRequest.mpr
        ⟨hprint, rfl, rfl, rfl⟩, rfl⟩

end Receiver

end Trit
