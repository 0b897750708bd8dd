import Trit.Disclosure
import Trit.Survival

/-!
# Which handshakes a receiver accepts

Senders that hold the password, an attacker that does not, and the connections that the attacker
makes to the receiver with what it has seen and computed.  Nothing in a handshake comes from the
receiver, and the receiver remembers nothing of a connection.

* `World`, `World.step`: the boxes made so far, the handshakes sent, the connections accepted;
* `World.Ideal`: what is assumed of libsodium and of the attacker;
* `World.accepts_produced`: what is accepted has been produced by a sender that holds the password,
  and what has been produced is accepted each time.
-/

namespace Trit

open Transition Dialogue

variable {na : Sodium} {password : Bytes}

/-- A secret box that somebody has made. -/
structure Box (na : Sodium) where
  key : na.Key
  nonce : Bytes
  message : Bytes

/-- The ciphertext of a box. -/
def Box.ciphertext (b : Box na) : Bytes := na.secretbox b.key b.nonce b.message

/-- Everything that has happened: the boxes that have been made, the senders that have sent their
handshake, and the bytes of the connections whose handshake has been accepted. -/
structure World (na : Sodium) where
  made : List (Box na)
  sent : List (Sender.Setup na)
  accepted : List Bytes

namespace World

/-- What can happen: a sender sends its handshake, which the attacker records; the attacker makes a
box; the attacker connects to the receiver and sends bytes. -/
inductive Event (na : Sodium)
  | send (c : Sender.Setup na)
  | box (b : Box na)
  | connect (bytes : Bytes) (writes : ℕ)

/-- Nothing has happened yet. -/
def start : World na := ⟨[], [], []⟩

/-- One event. -/
def step (password : Bytes) (s : World na) : Event na → Option (World na)
  | .send c => some { s with
      made := s.made ++ [⟨c.key, c.nonce, handshakeTag⟩]
      sent := s.sent ++ [c] }
  | .box b => some { s with made := s.made ++ [b] }
  | .connect bytes writes =>
      match (Receiver.receiveHandshake na password).feed writes bytes with
      | .returned (some _) _ _ => some { s with accepted := s.accepted ++ [bytes] }
      | _ => some s

/-- What is assumed: a sender has the key of the password; the attacker has no key of the password;
what opens under a key and a nonce has been made with them; and a key belongs to one salt. -/
def Ideal (password : Bytes) (s : World na) : Event na → Prop
  | .send c => na.pwhash password c.salt = some c.key
  | .box b => ∀ salt, na.pwhash password salt ≠ some b.key
  | .connect bytes _ => ∀ key, na.pwhash password (saltOf bytes) = some key →
      ((na.secretboxOpen key (nonceOf bytes) (ciphertextOf bytes)).isSome = true →
        ∃ b ∈ s.made, b.key = key ∧ b.nonce = nonceOf bytes ∧
          b.ciphertext = ciphertextOf bytes) ∧
      ∀ c ∈ s.sent, c.key = key → c.salt = saltOf bytes

/-- The bytes start with the salt, the nonce and the ciphertext of the sender. -/
def Produced (c : Sender.Setup na) (bytes : Bytes) : Prop :=
  saltOf bytes = c.salt ∧ nonceOf bytes = c.nonce ∧
    ciphertextOf bytes = encryptHandshakeTag c.key c.nonce

/-- What holds in every run: a box is the tag of a sender, or made without a key of the password;
what has been accepted has been produced. -/
structure Fair (password : Bytes) (s : World na) : Prop where
  made : ∀ b ∈ s.made, (∃ c ∈ s.sent, b = ⟨c.key, c.nonce, handshakeTag⟩) ∨
    ∀ salt, na.pwhash password salt ≠ some b.key
  holders : ∀ c ∈ s.sent, na.pwhash password c.salt = some c.key
  accepted : ∀ bytes ∈ s.accepted, ∃ c ∈ s.sent, Produced c bytes

variable {s t : World na}

theorem Fair.start : Fair password (start : World na) :=
  ⟨by simp [World.start], by simp [World.start], by simp [World.start]⟩

theorem isSome_of_verify {key : na.Key} {nonce ciphertext : Bytes}
    (h : verifyHandshakeTag key nonce ciphertext = true) :
    (na.secretboxOpen key nonce ciphertext).isSome = true := by
  unfold verifyHandshakeTag at h
  cases hopen : na.secretboxOpen key nonce ciphertext with
  | none =>
    rw [hopen] at h
    cases h
  | some message => rfl

/-- A handshake that is accepted has been produced. -/
theorem Fair.produced (hs : Fair password s) {bytes : Bytes} {writes : ℕ}
    (hideal : Ideal password s (.connect bytes writes)) {key : na.Key}
    (hkey : na.pwhash password (saltOf bytes) = some key)
    (hverify : verifyHandshakeTag key (nonceOf bytes) (ciphertextOf bytes) = true) :
    ∃ c ∈ s.sent, Produced c bytes := by
  obtain ⟨hmade, hsalt⟩ := hideal key hkey
  -- the box that opens is a sender's: the attacker's have no key of the password
  obtain ⟨b, hb, hbkey, hbnonce, hciphertext⟩ := hmade (isSome_of_verify hverify)
  rcases hs.made b hb with ⟨c, hc, rfl⟩ | hattacker
  · refine ⟨c, hc, (hsalt c hc hbkey).symm, hbnonce.symm, ?_⟩
    exact hciphertext.symm
  · rw [← hbkey] at hkey
    exact absurd hkey (hattacker _)

theorem Fair.step {a : Event na} (hs : Fair password s) (hideal : Ideal password s a)
    (h : s.step password a = some t) : Fair password t := by
  obtain ⟨hmade, hholders, haccepted⟩ := hs
  cases a with
  | send c =>
    cases h
    refine ⟨fun b hb => ?_, fun c' hc' => ?_, fun bytes hbytes => ?_⟩
    · rcases List.mem_append.mp hb with hb | hb
      · rcases hmade b hb with ⟨c', hc', hb⟩ | hattacker
        · exact Or.inl ⟨c', List.mem_append_left _ hc', hb⟩
        · exact Or.inr hattacker
      · exact Or.inl ⟨c, List.mem_append_right _ (List.mem_singleton_self c),
          List.mem_singleton.mp hb⟩
    · rcases List.mem_append.mp hc' with hc' | hc'
      · exact hholders c' hc'
      · rw [List.mem_singleton.mp hc']
        exact hideal
    · obtain ⟨c', hc', hproduced⟩ := haccepted bytes hbytes
      exact ⟨c', List.mem_append_left _ hc', hproduced⟩
  | box b =>
    cases h
    refine ⟨fun b' hb' => ?_, hholders, haccepted⟩
    rcases List.mem_append.mp hb' with hb' | hb'
    · exact hmade b' hb'
    · rw [List.mem_singleton.mp hb']
      exact Or.inr hideal
  | connect bytes writes =>
    simp only [World.step] at h
    split at h
    next st rest w hfeed =>
      cases h
      refine ⟨hmade, hholders, fun bytes' hbytes' => ?_⟩
      rcases List.mem_append.mp hbytes' with hbytes' | hbytes'
      · exact haccepted bytes' hbytes'
      · rw [List.mem_singleton.mp hbytes']
        obtain ⟨-, -, -, key, hkey, ⟨-, hnone⟩ | ⟨hverify, -⟩⟩ :=
          Receiver.feed_receiveHandshake.mp hfeed
        · cases hnone
        · exact Fair.produced ⟨hmade, hholders, haccepted⟩ hideal hkey hverify
    next =>
      cases h
      exact ⟨hmade, hholders, haccepted⟩

theorem Fair.of_reach (h : Reach (World.step password) (Ideal password) World.start s) :
    Fair password s :=
  h.invariant (fun _ _ _ hi hideal hstep => hi.step hideal hstep) Fair.start

/-- What a receiver accepts.  In every run, for every attacker without the password: the salt, the
nonce and the ciphertext of every handshake that has been accepted are those of a sender that holds
the password; and a connection that starts with those of such a sender, and with any header that
libsodium takes, is accepted however often they have been accepted before. -/
theorem accepts_produced
    (h : Reach (World.step password) (Ideal password) (start : World na) s) :
    (∀ bytes ∈ s.accepted, ∃ c ∈ s.sent, Produced c bytes) ∧
    ∀ c ∈ s.sent, ∀ bytes writes, handshakeSize ≤ bytes.length → Produced c bytes →
      (∃ st, na.initPull c.key (headerOf bytes) = some st) →
      s.step password (.connect bytes (writes + 1)) =
        some { s with accepted := s.accepted ++ [bytes] } := by
  have hs := Fair.of_reach h
  refine ⟨hs.accepted, ?_⟩
  rintro c hc bytes writes hlen ⟨hsalt, hnonce, hciphertext⟩ ⟨st, hst⟩
  have hkey := hs.holders c hc
  rw [← hsalt] at hkey
  have hverify : verifyHandshakeTag c.key (nonceOf bytes) (ciphertextOf bytes) = true := by
    rw [hnonce, hciphertext]
    exact verify_encryptHandshakeTag c.key c.nonce
  have hfeed : (Receiver.receiveHandshake na password).feed (writes + 1) bytes =
      .returned (some st) (bytes.drop handshakeSize) writes :=
    Receiver.feed_receiveHandshake.mpr ⟨hlen, rfl, rfl, c.key, hkey, Or.inr ⟨hverify, st, hst, rfl⟩⟩
  rw [step, hfeed]

/-- The frame of the session of `oneByteSetup`. -/
def recordedFrame : Bytes :=
  [1, 0, 0, 0, 0, 0, 0, 0, 1, 1, 0, 18, 0, 3, 7, 5, 1] ++ List.replicate 14 0

/-- The session of `oneByteSetup`, with the given name for its file: the handshake, the request with
its size, and one frame. -/
def oneByteSession (name : UInt8) : Bytes :=
  List.replicate saltSize 1 ++ List.replicate nonceSize 2 ++
    (Sodium.mac ([112] ++ List.replicate saltSize 1) ++ handshakeTag) ++
    List.replicate headerSize 5 ++ [35, 0, 0, 0, 0, 0, 0, 0] ++
    [1, 0, 0, 0, 1, 0, 0, 0, 0, 0, 0, 0, 1, 0, 0, 0, 0, 0, 0, 0, 1, 0, 0, 0, 1, 0, name, 1, 0, 0, 0,
      0, 0, 0, 0] ++ recordedFrame

/-- Everything that the sender of `oneByteSetup` writes in a session. -/
def recordedSession : Bytes := oneByteSession 97

/-- The state in which the stream of that session starts. -/
def recordedState : Sodium.plain.stream.State := (5 : UInt8)

/-- The world after the session has been recorded and sent to the receiver `n` times. -/
def replayed (n : ℕ) : World .plain where
  made := [⟨Sender.oneByteSetup.key, Sender.oneByteSetup.nonce, handshakeTag⟩]
  sent := [Sender.oneByteSetup]
  accepted := List.replicate n recordedSession

set_option maxRecDepth 4000 in
theorem reach_replayed (n : ℕ) :
    Reach (World.step [112]) (Ideal [112]) (World.start : World .plain) (replayed n) := by
  induction n with
  | zero => exact Reach.single (a := .send Sender.oneByteSetup) rfl rfl
  | succ n ih =>
    refine ih.tail (a := .connect recordedSession 1) ?_ ?_
    · intro key hkey
      cases hkey
      constructor
      · intro _
        exact ⟨_, List.mem_singleton_self _, rfl, rfl, rfl⟩
      · intro c hc _
        rw [List.mem_singleton.mp hc]
        rfl
    · obtain ⟨st, rest, hfeed⟩ : ∃ st rest, (Receiver.receiveHandshake .plain [112]).feed 1
          recordedSession = .returned (some st) rest 0 := ⟨_, _, rfl⟩
      rw [World.step, hfeed, replayed, replayed, List.replicate_succ']

/-- The handshake of a recorded session is accepted twice. -/
theorem accepts_produced_replayed :
    (∀ bytes ∈ (replayed 2).accepted, ∃ c ∈ (replayed 2).sent, Produced c bytes) ∧
    ∀ c ∈ (replayed 2).sent, ∀ bytes writes, handshakeSize ≤ bytes.length → Produced c bytes →
      (∃ st, Sodium.plain.initPull c.key (headerOf bytes) = some st) →
      (replayed 2).step [112] (.connect bytes (writes + 1)) =
        some { replayed 2 with accepted := (replayed 2).accepted ++ [bytes] } :=
  accepts_produced (reach_replayed 2)

set_option maxRecDepth 4000 in
/-- A sender has sent its handshake once; it has been accepted twice; and each time the rest of the
recorded session leads to the end of a successful transfer. -/
theorem exists_replayed : ∃ s : World .plain,
    Reach (World.step [112]) (Ideal [112]) World.start s ∧ s.sent = [Sender.oneByteSetup] ∧
    s.accepted = [recordedSession, recordedSession] ∧
    Receiver.serve .plain .large [112] ⟨recordedSession, true, true, 2⟩ =
      .receiving Sender.oneByteRequest recordedState recordedFrame ∧
    ∃ t, Reach (Receiver.step Sender.oneByteRequest) any
      (Receiver.initial Receiver.queueCapacity Sender.oneByteRequest ⟨recordedFrame, true⟩
        Receiver.emptyDirectory recordedState) t ∧ t.main = .completed := by
  refine ⟨replayed 2, reach_replayed 2, rfl, rfl, rfl, ?_⟩
  have hrun : (exec (Receiver.step Sender.oneByteRequest)
      (Receiver.initial Receiver.queueCapacity Sender.oneByteRequest
        ⟨recordedFrame, true⟩ Receiver.emptyDirectory recordedState)
      (List.replicate 4 (.producer none) ++ List.replicate 9 (.stage none) ++
        List.replicate 7 (.consumer none) ++ List.replicate 3 (.tracker none) ++ [.main])).map
      (fun s => decide (s.main = .completed)) = some true := by decide +kernel
  obtain ⟨t, ht, hmain⟩ := reach_of_exec_test _ (fun _ _ _ => trivial) hrun
  exact ⟨t, ht, of_decide_eq_true hmain⟩

end World

end Trit
