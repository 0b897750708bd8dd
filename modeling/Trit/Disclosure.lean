import Trit.Handshake
import Trit.Sender

/-!
# What a sender tells its peer

The sender's side of a session up to the transfer, with a peer that sends whatever it likes,
whenever it likes.  What the sender goes on with depends on one byte of the peer.

* `HasRequest`: the sender gets as far as a serialized request, if the peer lets it;
* `discloses_iff`: no byte of the request is written if and only if the first byte of the peer is
  the failure byte, or there is none.
-/

namespace Trit

open Transition

namespace Sender

variable {na : Sodium}

theorem serialize_ne_nil {r : TransferRequest} {bytes : Bytes} (h : r.serialize = .ok bytes) :
    bytes ≠ [] := by
  obtain ⟨infos, -, h⟩ := Except.bind_eq_ok.mp h
  cases h
  simp [LittleEndian.leBytes]

/-- Nothing but the peer keeps the sender from sending a request. -/
def HasRequest (c : Setup na) : Prop :=
  ∃ st r bytes, na.initPush c.key c.header = some st ∧ c.createTransferRequest = .ok r ∧
    r.serialize = .ok bytes

/-- A request is not written as long as it is not sent. -/
theorem silent_sendTransferRequest (r : TransferRequest) (st : na.stream.State) (input : Bytes) :
    ((sendTransferRequest r).bind fun accepted =>
      (.done (if accepted then .transfer r st else .declined) : Talk (Outcome na))).Silent
      (· = .request) input ↔ ∀ bytes, r.serialize ≠ .ok bytes := by
  cases hser : r.serialize with
  | error e =>
    simp [sendTransferRequest, hser, Dialogue.ofExcept, Dialogue.bind, Dialogue.Silent]
  | ok bytes =>
    simp [sendTransferRequest, hser, Dialogue.ofExcept, Dialogue.bind, Dialogue.Silent,
      serialize_ne_nil hser]

/-- The sender authenticates its peer by one byte.  Whatever the peer sends, in no run any byte of
the request is written if and only if the first byte it sends is the failure byte, or it sends
none; where the sender has no request to send, nothing is written in any case. -/
theorem discloses_iff (c : Setup na) (coming : Bytes) :
    (∀ s, Reach Dialogue.Party.step any (Dialogue.Party.start (startSession c) coming) s →
      s.Kept (· = .request)) ↔
      (HasRequest c → ∀ b, coming.head? = some b → b = 0) := by
  rw [Dialogue.silent_iff, startSession]
  cases hinit : na.initPush c.key c.header with
  | none =>
    simp [Dialogue.Silent, HasRequest, hinit]
  | some st =>
    cases coming with
    | nil => simp [sendHandshake, Dialogue.bind, Dialogue.Silent]
    | cons b rest =>
      by_cases hb : b = 0
      · simp [sendHandshake, Dialogue.bind, Dialogue.Silent, hb]
      · have hgoes : HasRequest c ↔ ∃ r bytes, c.createTransferRequest = .ok r ∧
            r.serialize = .ok bytes := by
          simp [HasRequest, hinit]
        cases hcreate : c.createTransferRequest with
        | error e =>
          simp [sendHandshake, Dialogue.bind, Dialogue.Silent, hb, Dialogue.ofExcept, hgoes,
            hcreate]
        | ok r =>
          simp [sendHandshake, Dialogue.bind, Dialogue.Silent, hb, Dialogue.ofExcept, hgoes,
            hcreate, silent_sendTransferRequest]

/-- A sender of the file of one byte. -/
def oneByteSetup : Setup .plain where
  key := [112] ++ List.replicate saltSize 1
  salt := List.replicate saltSize 1
  nonce := List.replicate nonceSize 2
  header := List.replicate headerSize 5
  createTransferRequest := .ok oneByteRequest
  length_salt := rfl
  length_nonce := rfl
  length_header := rfl

/-- A peer that knows nothing sends one byte that is not zero, and gets the request. -/
theorem exists_disclosed : ∃ s, Reach Dialogue.Party.step any
    (Dialogue.Party.start (startSession oneByteSetup) [1]) s ∧
    ∃ bytes, (.request, bytes) ∈ s.written ∧ bytes ≠ [] ∧
      oneByteRequest.serialize = .ok bytes := by
  have hrun : (exec Dialogue.Party.step
      (Dialogue.Party.start (startSession oneByteSetup) [1])
      (List.replicate 4 .next ++ [.arrive] ++ List.replicate 3 .next)).map
      (fun s => decide (s.written.getLast? =
        some (.request, [1, 0, 0, 0, 1, 0, 0, 0, 0, 0, 0, 0, 1, 0, 0, 0, 0, 0, 0, 0, 1, 0, 0, 0,
          1, 0, 97, 1, 0, 0, 0, 0, 0, 0, 0]))) = some true := by decide +kernel
  obtain ⟨s, hs, htest⟩ := reach_of_exec_test _ (fun _ _ _ => trivial) hrun
  exact ⟨s, hs, _, List.mem_of_getLast? (of_decide_eq_true htest), by simp, rfl⟩

end Sender

end Trit
