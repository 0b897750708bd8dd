import Trit.Transmission

/-!
# Chunks of any size on their way to the wire

`encrypt_chunk` followed by `send_chunks`, for a chunk with any number of bytes.  Both look at the
size in 16 bits.

* `IsFrame`: the socket holds one frame with this payload;
* `Whole`: the chunk makes one of the functions throw, or all of it is on the wire;
* `whole_iff`: so it is unless the 16 bits hide the size, or the 17 bytes of the encryption no
  longer fit.
-/

namespace Trit

open Transition LittleEndian TransferManager

namespace EncryptionManager

variable {ss : SecretStream} {st : ss.State} {chunkSize : UInt32}
  {numChunks sequenceNum : UInt64} {data : Bytes}

/-- One frame with this payload: 11 bytes, the size of the payload, and the payload. -/
def IsFrame (socket payload : Bytes) : Prop :=
  ∃ header size, socket = header ++ size ++ payload ∧ header.length = 11 ∧ size.length = 2 ∧
    leValue size = payload.length

/-- `encrypt_chunk` throws, or `send_chunks` can go to its end with the encrypted chunk, and then
there is one frame on the socket, with the ciphertext of all the bytes of data. -/
def Whole (st : ss.State) (chunkSize : UInt32) (numChunks sequenceNum : UInt64) (data : Bytes) :
    Prop :=
  (∃ e, encryptChunk ⟨chunkSize, numChunks, .encryptor st⟩ (.plain sequenceNum data) =
    .error e) ∨
  ∃ c m, encryptChunk ⟨chunkSize, numChunks, .encryptor st⟩ (.plain sequenceNum data) =
      .ok (c, m) ∧
    ∀ {capacity : ℕ} (s : Solo capacity Bytes SendPc), 0 < capacity →
      Reach (Solo.step sendChunks) (Feeding [c]) (Solo.start capacity .abortCheck []) s →
      CanReach (Solo.step sendChunks) (Feeding [c]) (fun t => t.thread = .returned) s ∧
      (s.thread = .returned → ∃ ciphertext,
        ciphertext = (ss.push st data (tagOf numChunks (.plain sequenceNum data))).1 ∧
        ciphertext.length = data.length + encryptionAdditionalBytes ∧
        IsFrame s.view.world ciphertext)

/-- The frame of a chunk ends with as many bytes as its size says in 16 bits. -/
theorem frame_eq (c : Chunk) : ∃ header : Bytes, header.length = 11 ∧
    frame c = header ++ leBytes 2 c.size.toNat ++ c.data.take c.size.toNat := by
  refine ⟨leBytes 8 c.sequenceNum.toNat ++ ([if c.compressed then 1 else 0] ++
    leBytes 2 c.originalSize.toNat), by simp, ?_⟩
  simp [frame, frameFields]

/-- The payload of a frame on the socket is what the frame of the chunk ends with. -/
theorem IsFrame.payload_eq {c : Chunk} {payload : Bytes} (h : IsFrame (frame c) payload) :
    payload = c.data.take c.size.toNat := by
  obtain ⟨header, size, hsocket, hheader, hsize, -⟩ := h
  obtain ⟨header', hheader', hframe⟩ := frame_eq c
  have heq := hsocket.symm.trans hframe
  refine (List.append_inj heq ?_).2
  rw [List.length_append, List.length_append, hheader, hheader', hsize, length_leBytes]

/-- A chunk whose size fits into 16 bits, also with the bytes that the encryption adds. -/
theorem whole_of_fits (hne : sequenceNum ≠ 0) (hle : sequenceNum ≤ numChunks)
    (hlen : data.length + encryptionAdditionalBytes ≤ uint16Max) :
    Whole st chunkSize numChunks sequenceNum data := by
  have hsize : (Chunk.plain sequenceNum data).size.toNat = data.length :=
    Chunk.size_toNat_of_le (by show data.length ≤ uint16Max; omega)
  have henc := encryptChunk_of_range chunkSize (c := .plain sequenceNum data)
    hne hle st
  by_cases hbig : chunkSize.toNat < (Chunk.plain sequenceNum data).size.toNat
  · rw [if_pos hbig] at henc
    exact Or.inl ⟨_, henc⟩
  · rw [if_neg hbig, hsize, Chunk.plain_data, List.take_length] at henc
    refine Or.inr ⟨_, _, henc, fun s hcap hs => ?_⟩
    have hsend := Sending.of_reach hs
    refine ⟨hsend.canReach hcap, fun hreturned => ⟨_, rfl, ss.push_length _ _ _, ?_⟩⟩
    rw [hsend.world_eq hreturned, frames_cons, frames_nil, List.append_nil]
    -- the ciphertext is not longer than 16 bits can say
    have hlength := ss.push_length st data (tagOf numChunks (.plain sequenceNum data))
    generalize (ss.push st data (tagOf numChunks (.plain sequenceNum data))).1 = ciphertext
      at hlength ⊢
    obtain ⟨header, hheader, hframe⟩ :=
      frame_eq (.packed sequenceNum ciphertext (Chunk.plain sequenceNum data).size)
    have hcipher : (Chunk.packed sequenceNum ciphertext
        (Chunk.plain sequenceNum data).size).size.toNat = ciphertext.length :=
      Chunk.size_toNat_of_le (by show ciphertext.length ≤ uint16Max; omega)
    rw [hcipher, Chunk.packed_data, List.take_length] at hframe
    refine ⟨header, leBytes 2 ciphertext.length, hframe, hheader, length_leBytes _ _, ?_⟩
    refine leValue_leBytes_of_lt ?_
    unfold uint16Max at hlen
    omega

/-- A chunk that is not rejected, and is larger than that. -/
theorem not_whole_of_large (hne : sequenceNum ≠ 0) (hle : sequenceNum ≤ numChunks)
    (hpass : data.length % 65536 ≤ chunkSize.toNat)
    (hlen : uint16Max < data.length + encryptionAdditionalBytes) :
    ¬ Whole st chunkSize numChunks sequenceNum data := by
  have hsize := (Chunk.plain sequenceNum data).size_toNat
  have henc := encryptChunk_of_range chunkSize (c := .plain sequenceNum data)
    hne hle st
  rw [if_neg (by rw [hsize]; exact Nat.not_lt.mpr hpass)] at henc
  rintro (⟨e, he⟩ | ⟨c, m, hc, hwhole⟩)
  · cases henc.symm.trans he
  · have hstart : Reach (Solo.step sendChunks) (Feeding [c]) (Solo.start 1 .abortCheck [])
        (Solo.start 1 .abortCheck []) := .refl
    obtain ⟨s, hs, hreturned⟩ := (hwhole _ Nat.one_pos hstart).1
    obtain ⟨ciphertext, -, hlength, hframe⟩ := (hwhole s Nat.one_pos hs).2 hreturned
    rw [(Sending.of_reach hs).world_eq hreturned, frames_cons, frames_nil,
      List.append_nil] at hframe
    -- the payload of a frame is shorter than the ciphertext would be
    have hpayload := congrArg List.length hframe.payload_eq
    have hlt := c.size.toNat_lt
    rw [List.length_take, hlength] at hpayload
    unfold uint16Max at hlen
    omega

/-- A chunk with a number in range is rejected or sent whole, if and only if its size in 16 bits is
larger than the chunk size, or its size and the 17 bytes that are added fit into 16 bits. -/
theorem whole_iff (hne : sequenceNum ≠ 0) (hle : sequenceNum ≤ numChunks) :
    Whole st chunkSize numChunks sequenceNum data ↔
      chunkSize.toNat < data.length % 65536 ∨
        data.length + encryptionAdditionalBytes ≤ uint16Max := by
  constructor
  · intro hwhole
    by_contra hnot
    rw [not_or, Nat.not_lt, Nat.not_le] at hnot
    exact not_whole_of_large hne hle hnot.1 hnot.2 hwhole
  · rintro (hbig | hlen)
    · have henc := encryptChunk_of_range chunkSize (c := .plain sequenceNum data)
        hne hle st
      rw [if_pos (by rw [Chunk.size_toNat]; exact hbig)] at henc
      exact Or.inl ⟨_, henc⟩
    · exact whole_of_fits hne hle hlen

/-- A chunk of three bytes. -/
theorem whole_iff_threeBytes : Whole Sender.newStream 8192 1 1 [1, 2, 3] :=
  (whole_iff (by decide) (by decide)).mpr (Or.inr (by decide))

/-- Of 65541 bytes, five are encrypted and sent. -/
theorem not_whole_of_wrap :
    ¬ Whole Sender.newStream 8192 1 1 (List.replicate 65541 0) := by
  refine not_whole_of_large (by decide) (by decide) ?_ ?_
  · rw [List.length_replicate]
    decide
  · rw [List.length_replicate]
    decide

end EncryptionManager

end Trit
