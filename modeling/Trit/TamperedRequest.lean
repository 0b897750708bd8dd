import Trit.AttackedReceiver
import Trit.Freshness

/-!
# What a successful receive says about the request

A session that an attacker delivers to the receiver in place of a sender's.  The handshake and the
stream are authenticated, the request is not: it is not bound to either of them.

* `Holder`: a sender that holds the password, with its request and the chunks it has encrypted;
* `Authentic`: what is assumed of libsodium about the bytes of a session;
* `Guarded.of_completed`: what a receiver that has completed has decrypted;
* `binds_to_sender`: which sender a successful receive belongs to, and what it says about the
  request.
-/

namespace Trit

open Transition Dialogue FileManager TransferManager

variable {na : Sodium} {platform : Platform} {password : Bytes}

/-- A sender that holds the password: its side of the handshake, its request, and the chunks that
it has encrypted so far. -/
structure Holder (na : Sodium) where
  setup : Sender.Setup na
  request : TransferRequest
  requestBytes : Bytes
  chunks : List Chunk
  created : setup.createTransferRequest = .ok request
  serialized : request.serialize = .ok requestBytes
  counted : request.fileInfos.length = request.numFiles.toNat
  numbered : Numbered chunks
  encrypted : ∃ st es m, na.initPush setup.key setup.header = some st ∧
    transformAll EncryptionManager.encryptChunk (Sender.manager request st) chunks = .ok (es, m)

namespace Holder

/-- The messages of its stream. -/
def messages (x : Holder na) : List (Bytes × UInt8) :=
  x.chunks.map fun c => (c.data, EncryptionManager.tagOf x.request.numChunks.toUInt64 c)

/-- A sender has encrypted at most `num_chunks` chunks. -/
theorem length_chunks_le (x : Holder na) : x.chunks.length ≤ x.request.numChunks.toNat := by
  obtain ⟨st, es, m, -, henc⟩ := x.encrypted
  exact x.numbered.length_le x.request.numChunks rfl henc

/-- The key and the header of its stream are these. -/
def Starts (x : Holder na) (key : na.Key) (header : Bytes) : Prop :=
  x.setup.key = key ∧ x.setup.header = header

end Holder

/-- What is assumed about the bytes of a session and about those that follow the request: a box that
opens has the key of a holder; on the stream of a holder only its messages can be decrypted, each in
its place; under a holder's key and another header, nothing can be decrypted. -/
structure Authentic (password : Bytes) (holders : List (Holder na)) (bytes coming : Bytes) :
    Prop where
  box : ∀ key, na.pwhash password (saltOf bytes) = some key →
    (na.secretboxOpen key (nonceOf bytes) (ciphertextOf bytes)).isSome = true →
      ∃ x ∈ holders, x.setup.key = key
  stream : ∀ x ∈ holders, ∀ st, na.initPull x.setup.key x.setup.header = some st →
    na.stream.Unforged st x.messages coming
  header : ∀ x ∈ holders, ∀ st, na.initPull x.setup.key (headerOf bytes) = some st →
    (∀ y ∈ holders, ¬ y.Starts x.setup.key (headerOf bytes)) → na.stream.Unforged st [] coming

namespace Receiver

variable {capacity : ℕ} {ss : SecretStream} {r : TransferRequest} {st : ss.State}

/-- A receiver that has completed has decrypted `num_chunks` messages, the first of its stream. -/
theorem Guarded.of_completed {stream : Bytes} {s : State capacity ss}
    {ms : List (Bytes × UInt8)} (hforged : ss.Unforged st ms stream)
    (hi : Guarded r st stream s) (hmain : s.main = .completed) :
    r.numChunks.toNat ≤ ms.length ∧ s.downstream.queue.pushed.map Chunk.data =
      (ms.take r.numChunks.toNat).map Prod.fst := by
  have hjoin : s.joinable = true := hi.slot.joined (by simp [hmain])
  have hT : ¬ s.Threw := Pipeline.not_threw_of_joinable hjoin (hi.slot.completed hmain)
  obtain ⟨hproducer, hstage, -, -⟩ := Pipeline.joinable_iff.mp hjoin
  have hlen : s.downstream.queue.pushed.length = r.numChunks.toNat :=
    hi.length_pushed hproducer hstage hT
  obtain ⟨hle, hmap⟩ := hi.pushed_eq hforged
  rw [hlen] at hle hmap
  exact ⟨hle, hmap⟩

/-- What a successful receive says.  For every attacker without the password: if a handshake has
been accepted and `receive_files` has completed, there is a sender that holds the password, whose
key and header these were; the decrypted payloads are the first `num_chunks` payloads of that
sender, in order, at least one and no more than the `num_chunks` of its request; and the request is
the one that the bytes on the wire hold, which is that sender's if these bytes are. -/
theorem binds_to_sender {holders : List (Holder na)} {p : Peer} {r : TransferRequest}
    {st : na.stream.State} {coming : Bytes} {start : FileSystem}
    {s : State queueCapacity na.stream}
    (hauthentic : Authentic password holders p.bytes coming)
    (hserve : serve na platform password p = .receiving r st coming)
    (hs : Reach (step r) any (initial queueCapacity r ⟨coming, true⟩ start st) s)
    (hmain : s.main = .completed) :
    ∃ x ∈ holders, na.pwhash password (saltOf p.bytes) = some x.setup.key ∧
      headerOf p.bytes = x.setup.header ∧
      0 < r.numChunks.toNat ∧ r.numChunks.toNat ≤ x.request.numChunks.toNat ∧
      s.downstream.queue.pushed.map Chunk.data =
        (x.chunks.take r.numChunks.toNat).map Chunk.data ∧
      TransferRequest.deserialize (requestOf (p.bytes.drop handshakeSize)) = .ok r ∧
      (requestOf (p.bytes.drop handshakeSize) = x.requestBytes → r = x.request) := by
  obtain ⟨-, -, -, ⟨-, key, hkey, hverify, hst'⟩, ⟨-, -, hdecode, -⟩, hnum⟩ :=
    of_serve_eq_receiving hserve
  have hpos : 0 < r.numChunks.toNat := by
    refine Nat.pos_of_ne_zero fun hzero => hnum ?_
    exact UInt32.toNat_inj.mp hzero
  obtain ⟨x, hx, rfl⟩ := hauthentic.box key hkey (World.isSome_of_verify hverify)
  have hguarded := Guarded.of_reach hs
  -- the header is not part of the box, so it may be another one than the holder's
  by_cases hstarts : ∃ y ∈ holders, y.Starts x.setup.key (headerOf p.bytes)
  · obtain ⟨y, hy, hykey, hyheader⟩ := hstarts
    rw [← hykey, ← hyheader] at hst'
    obtain ⟨hle, hmap⟩ := hguarded.of_completed (hauthentic.stream y hy st hst') hmain
    have hlength : y.messages.length = y.chunks.length := List.length_map _
    have hchunks := y.length_chunks_le
    refine ⟨y, hy, hykey ▸ hkey, hyheader.symm, hpos, by omega, ?_, hdecode, fun hrequest => ?_⟩
    · rw [hmap, Holder.messages, ← List.map_take, List.map_map]
      rfl
    · rw [hrequest, TransferRequest.deserialize_serialize y.counted y.serialized] at hdecode
      exact (Except.ok.inj hdecode).symm
  -- a stream of nobody: not even the first chunk can be decrypted
  · have hforged := hauthentic.header x hx st hst' fun y hy hyx => hstarts ⟨y, hy, hyx⟩
    obtain ⟨hle, -⟩ := hguarded.of_completed hforged hmain
    rw [List.length_nil] at hle
    omega

/-! ### A file with another name -/

/-- The sender of `oneByteSetup`. -/
def oneByteHolder : Holder .plain where
  setup := Sender.oneByteSetup
  request := Sender.oneByteRequest
  requestBytes := [1, 0, 0, 0, 1, 0, 0, 0, 0, 0, 0, 0, 1, 0, 0, 0, 0, 0, 0, 0, 1, 0, 0, 0, 1, 0, 97,
    1, 0, 0, 0, 0, 0, 0, 0]
  chunks := [⟨1, false, 1, [7]⟩]
  created := rfl
  serialized := rfl
  counted := rfl
  numbered i c hc := by
    cases i with
    | zero =>
      cases hc
      rfl
    | succ i => cases hc
  encrypted := ⟨World.recordedState, _, _, rfl, rfl⟩

/-- The request for the file, with another name. -/
def renamedRequest : TransferRequest := ⟨1, 1, 1, 0, 1, [⟨[98], 1⟩]⟩

theorem authentic_renamed :
    Authentic [112] [oneByteHolder] (World.oneByteSession 98) World.recordedFrame := by
  have hforged : Sodium.plain.stream.Unforged World.recordedState oneByteHolder.messages
      World.recordedFrame :=
    SecretStream.unforged_of_forall (by decide +kernel)
  refine ⟨fun key hkey _ => ?_, fun x hx st hst => ?_, fun x hx st hst hother => ?_⟩
  · cases hkey
    exact ⟨oneByteHolder, List.mem_singleton_self _, rfl⟩
  · cases List.mem_singleton.mp hx
    cases hst
    exact hforged
  · cases List.mem_singleton.mp hx
    exact absurd ⟨rfl, rfl⟩ (hother oneByteHolder (List.mem_singleton_self _))

set_option maxRecDepth 4000 in
theorem serve_renamed : serve .plain .large [112] ⟨World.oneByteSession 98, true, true, 2⟩ =
    .receiving renamedRequest World.recordedState World.recordedFrame := by
  rfl

theorem reach_renamed : ∃ s, Reach (step renamedRequest) any
    (initial queueCapacity renamedRequest ⟨World.recordedFrame, true⟩ emptyDirectory
      World.recordedState) s ∧ s.main = .completed := by
  have hrun : (exec (step renamedRequest) (initial queueCapacity renamedRequest
      ⟨World.recordedFrame, true⟩ emptyDirectory World.recordedState)
      (List.replicate 4 (.producer none) ++ List.replicate 9 (.stage none) ++
        List.replicate 7 (.consumer none) ++ List.replicate 3 (.tracker none) ++ [.main])).map
      (fun s => decide (s.main = .completed)) = some true := by decide +kernel
  obtain ⟨s, hs, hmain⟩ := reach_of_exec_test _ (fun _ _ _ => trivial) hrun
  exact ⟨s, hs, of_decide_eq_true hmain⟩

theorem binds_to_sender_renamed : ∃ s, Reach (step renamedRequest) any
    (initial queueCapacity renamedRequest ⟨World.recordedFrame, true⟩ emptyDirectory
      World.recordedState) s ∧ s.downstream.queue.pushed.map Chunk.data = [[7]] := by
  obtain ⟨s, hs, hmain⟩ := reach_renamed
  obtain ⟨x, hx, -, -, -, -, hdata, -⟩ :=
    binds_to_sender authentic_renamed serve_renamed hs hmain
  refine ⟨s, hs, ?_⟩
  rw [hdata, List.mem_singleton.mp hx]
  rfl

/-- The attacker replaces the name of the file in the request: the receive completes, with another
request than the sender's. -/
theorem exists_renamed : ∃ (p : Peer) (r : TransferRequest) (st : Sodium.plain.stream.State)
    (coming : Bytes) (s : State queueCapacity Sodium.plain.stream),
    Authentic [112] [oneByteHolder] p.bytes coming ∧
    serve .plain .large [112] p = .receiving r st coming ∧
    Reach (step r) any (initial queueCapacity r ⟨coming, true⟩ emptyDirectory st) s ∧
    s.main = .completed ∧ r ≠ oneByteHolder.request := by
  obtain ⟨s, hs, hmain⟩ := reach_renamed
  exact ⟨_, renamedRequest, _, _, s, authentic_renamed, serve_renamed, hs, hmain, by decide⟩

end Receiver

end Trit
