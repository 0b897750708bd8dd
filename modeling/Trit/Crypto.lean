import Trit.Chunk
import Mathlib.Tactic.SplitIfs

/-!
# Stream encryption

`crypto.h` wraps libsodium's `crypto_secretstream_xchacha20poly1305`.  The library itself is not
part of the repository: `SecretStream` states what the code relies on, and everything else is
generic in it.

* `SecretStream`: the states of a stream, `push` and `pull`, the 17 bytes a push adds, and the
  round trip between two ends in the same state;
* `Encryptor.encrypt`, `Decryptor.decrypt`: the two wrappers with their checks;
* `SecretStream.pushAll`: the ciphertexts of a list of messages, pushed in order;
* `SecretStream.counting`: a stream without secrecy that satisfies the laws.
-/

namespace Trit

/-- `crypto_secretstream_xchacha20poly1305_ABYTES`. -/
def encryptionAdditionalBytes : ℕ := 17

/-- `crypto_secretstream_xchacha20poly1305_TAG_MESSAGE`. -/
def tagMessage : UInt8 := 0

/-- `crypto_secretstream_xchacha20poly1305_TAG_FINAL`. -/
def tagFinal : UInt8 := 3

/-- The secret stream of libsodium.  The two ends of a stream that share the key and the header
start in the same state (`init_push` on one side, `init_pull` on the other). -/
structure SecretStream where
  State : Type
  /-- `push` encrypts a message under a tag. -/
  push : State → Bytes → UInt8 → Bytes × State
  /-- `pull` authenticates and decrypts; `none` is a nonzero return value. -/
  pull : State → Bytes → Option (Bytes × UInt8 × State)
  push_length : ∀ st m tag, (push st m tag).1.length = m.length + encryptionAdditionalBytes
  pull_length : ∀ st c m tag st', pull st c = some (m, tag, st') →
    c.length = m.length + encryptionAdditionalBytes
  pull_push : ∀ st m tag, pull st (push st m tag).1 = some (m, tag, (push st m tag).2)

namespace SecretStream

variable (ss : SecretStream)

/-- The ciphertexts of messages pushed in order, each with its tag. -/
def pushAll (st : ss.State) : List (Bytes × UInt8) → List Bytes
  | [] => []
  | (m, tag) :: rest => (ss.push st m tag).1 :: pushAll (ss.push st m tag).2 rest

/-- The state after messages pushed in order. -/
def stateAfter (st : ss.State) : List (Bytes × UInt8) → ss.State
  | [] => st
  | (m, tag) :: rest => stateAfter (ss.push st m tag).2 rest

/-- Nobody has forged a ciphertext: of all the bytes that stand in `stream`, the pull after the
first `k` messages accepts the ciphertext of message `k` and nothing else. -/
def Unforged (st : ss.State) (ms : List (Bytes × UInt8)) (stream : Bytes) : Prop :=
  ∀ k c r, c <:+: stream → ss.pull (ss.stateAfter st (ms.take k)) c = some r →
    (ss.pushAll st ms)[k]? = some c

@[simp] theorem length_pushAll (st : ss.State) (ms : List (Bytes × UInt8)) :
    (ss.pushAll st ms).length = ms.length := by
  induction ms generalizing st with
  | nil => rfl
  | cons a ms ih => simp [pushAll, ih]

/-- The `k`-th ciphertext is pushed in the state after the first `k` messages. -/
theorem getElem?_pushAll (st : ss.State) (ms : List (Bytes × UInt8)) (k : ℕ) :
    (ss.pushAll st ms)[k]? =
      ms[k]?.map fun m => (ss.push (ss.stateAfter st (ms.take k)) m.1 m.2).1 := by
  induction ms generalizing st k with
  | nil => rfl
  | cons a ms ih =>
    cases k with
    | zero => rfl
    | succ k => simpa [pushAll, stateAfter] using ih (ss.push st a.1 a.2).2 k

theorem stateAfter_take_succ (st : ss.State) {ms : List (Bytes × UInt8)} {k : ℕ}
    {m : Bytes × UInt8} (h : ms[k]? = some m) :
    ss.stateAfter st (ms.take (k + 1)) = (ss.push (ss.stateAfter st (ms.take k)) m.1 m.2).2 := by
  induction ms generalizing st k with
  | nil => cases h
  | cons a ms ih =>
    cases k with
    | zero =>
      cases h
      rfl
    | succ k => exact ih (ss.push st a.1 a.2).2 h

/-- A pull that succeeds on an unforged stream returns the next message. -/
theorem Unforged.pull_eq {ss : SecretStream} {st : ss.State} {ms : List (Bytes × UInt8)}
    {stream c : Bytes} {k : ℕ} {r : Bytes × UInt8 × ss.State} (h : ss.Unforged st ms stream)
    (hc : c <:+: stream)
    (hpull : ss.pull (ss.stateAfter st (ms.take k)) c = some r) :
    ms[k]? = some (r.1, r.2.1) ∧ r.2.2 = ss.stateAfter st (ms.take (k + 1)) := by
  have hget := h k c r hc hpull
  rw [getElem?_pushAll, Option.map_eq_some_iff] at hget
  obtain ⟨m, hm, rfl⟩ := hget
  rw [ss.pull_push] at hpull
  cases hpull
  exact ⟨hm, (ss.stateAfter_take_succ st hm).symm⟩

/-- A stream that hides nothing: the tag, the message, and the position in the stream as the
authenticator.  It has the laws of a secret stream, so they are consistent. -/
def counting : SecretStream where
  State := UInt8
  push n m tag := (tag :: m ++ List.replicate 16 n, n + 1)
  pull n c :=
    match c with
    | [] => none
    | tag :: rest =>
        if 16 ≤ rest.length ∧ rest.drop (rest.length - 16) = List.replicate 16 n then
          some (rest.take (rest.length - 16), tag, n + 1)
        else none
  push_length n m tag := by simp [encryptionAdditionalBytes]
  pull_length := by
    intro n c m tag n' h
    cases c with
    | nil => cases h
    | cons t rest =>
      simp only at h
      split_ifs at h with hc
      obtain ⟨rfl, -, -⟩ : rest.take (rest.length - 16) = m ∧ t = tag ∧ n + 1 = n' := by
        simpa using h
      simp only [List.length_cons, List.length_take, encryptionAdditionalBytes]
      omega
  pull_push := by
    intro n m tag
    simp

/-- A stream that hides nothing, with an authenticator of 16 bytes behind the message. -/
def withAuthenticator (auth : UInt8 → Bytes → Bytes) (hauth : ∀ n m, (auth n m).length = 16) :
    SecretStream where
  State := UInt8
  push n m tag := (tag :: (m ++ auth n m), n + 1)
  pull n c :=
    match c with
    | [] => none
    | tag :: rest =>
        if 16 ≤ rest.length ∧ rest.drop (rest.length - 16) = auth n (rest.take (rest.length - 16))
        then some (rest.take (rest.length - 16), tag, n + 1)
        else none
  push_length n m tag := by simp [hauth, encryptionAdditionalBytes]
  pull_length := by
    intro n c m tag n' h
    cases c with
    | nil => cases h
    | cons t rest =>
      simp only at h
      split_ifs at h with hc
      obtain ⟨rfl, -, -⟩ : rest.take (rest.length - 16) = m ∧ t = tag ∧ n + 1 = n' := by
        simpa using h
      simp only [List.length_cons, List.length_take, encryptionAdditionalBytes]
      omega
  pull_push := by
    intro n m tag
    simp [hauth]

/-- The authenticator of `measured`. -/
def position (n : UInt8) (m : Bytes) : Bytes :=
  n :: UInt8.ofNat m.length :: List.replicate 14 0

/-- A stream that authenticates the position of a message and its length, so that no part of a
ciphertext passes for another one. -/
def measured : SecretStream := withAuthenticator position fun n m => by simp [position]

/-- An unforged stream is one whose parts have all been tried. -/
theorem unforged_of_forall {ss : SecretStream} {st : ss.State} {ms : List (Bytes × UInt8)}
    {stream : Bytes}
    (h : ∀ k ∈ List.range (ms.length + 1), ∀ i ∈ List.range (stream.length + 1),
      ∀ j ∈ List.range (stream.length + 1),
        (ss.pull (ss.stateAfter st (ms.take k)) ((stream.drop i).take j)).isSome = true →
          (ss.pushAll st ms)[k]? = some ((stream.drop i).take j)) :
    ss.Unforged st ms stream := by
  rintro k c r ⟨before, after, rfl⟩ hpull
  have hc : (((before ++ c ++ after).drop before.length).take c.length) = c := by simp
  have hlen : before.length + c.length ≤ (before ++ c ++ after).length := by simp
  have hbefore : before.length ∈ List.range ((before ++ c ++ after).length + 1) :=
    List.mem_range.mpr (by omega)
  have hlength : c.length ∈ List.range ((before ++ c ++ after).length + 1) :=
    List.mem_range.mpr (by omega)
  by_cases hk : k ≤ ms.length
  · have htry := h k (List.mem_range.mpr (by omega)) before.length hbefore c.length hlength
    rw [hc, hpull] at htry
    exact htry rfl
  · have htry := h ms.length (by simp) before.length hbefore c.length hlength
    rw [hc, List.take_length, ← List.take_of_length_le (i := k) (by omega : ms.length ≤ k),
      hpull] at htry
    have hnone := htry rfl
    rw [List.getElem?_eq_none (by simp)] at hnone
    cases hnone

end SecretStream

variable {ss : SecretStream}

/-- `Encryptor::encrypt`: the ciphertext and the state the encryptor goes on with. -/
def Encryptor.encrypt (st : ss.State) (input : Bytes) (isFinal : Bool) :
    Except Exception (Bytes × ss.State) :=
  let tag := if isFinal then tagFinal else tagMessage
  let (output, st') := ss.push st input tag
  if output.length ≠ input.length + encryptionAdditionalBytes then
    .error (.runtimeError "Encryption output bad length")
  else .ok (output, st')

/-- `Decryptor::decrypt`: the plaintext, whether its tag is `TAG_FINAL`, and the state. -/
def Decryptor.decrypt (st : ss.State) (input : Bytes) :
    Except Exception (Bytes × Bool × ss.State) :=
  if input.length < encryptionAdditionalBytes then
    .error (.invalidArgument "Decryptor: Ciphertext chunk too small")
  else
    match ss.pull st input with
    | none => .error (.runtimeError "Decryptor: Authentication failed or corrupt chunk")
    | some (output, tag, st') =>
        if output.length ≠ input.length - encryptionAdditionalBytes then
          .error (.runtimeError "Decryption output bad length")
        else .ok (output, tag == tagFinal, st')

/-- The encryptor's own length check never fires. -/
theorem Encryptor.encrypt_eq (st : ss.State) (input : Bytes) (isFinal : Bool) :
    Encryptor.encrypt st input isFinal =
      .ok (ss.push st input (if isFinal then tagFinal else tagMessage)) := by
  simp [Encryptor.encrypt, ss.push_length]

theorem Decryptor.decrypt_ok {st st' : ss.State} {input output : Bytes} {isFinal : Bool}
    (h : Decryptor.decrypt st input = .ok (output, isFinal, st')) :
    ∃ tag, ss.pull st input = some (output, tag, st') ∧ (tag == tagFinal) = isFinal := by
  unfold Decryptor.decrypt at h
  split_ifs at h
  cases hpull : ss.pull st input with
  | none =>
    rw [hpull] at h
    cases h
  | some r =>
    rw [hpull] at h
    dsimp only at h
    split_ifs at h
    cases h
    exact ⟨r.2.1, rfl, rfl⟩

/-- Decrypting what the other end encrypted in the same state. -/
theorem Decryptor.decrypt_push (st : ss.State) (m : Bytes) (tag : UInt8) :
    Decryptor.decrypt st (ss.push st m tag).1 =
      .ok (m, tag == tagFinal, (ss.push st m tag).2) := by
  have hlen := ss.push_length st m tag
  simp [Decryptor.decrypt, ss.pull_push, hlen]

end Trit
