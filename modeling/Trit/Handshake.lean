import Trit.TransferRequest
import Trit.Crypto
import Trit.Lib.Dialogue
import Mathlib.Data.Nat.Log

/-!
# The handshake and the transfer request

The messages that a sender and a receiver exchange before the transfer, on both sides:

    salt, nonce, ciphertext, header  ->
                                     <-  success or failure byte
    request size, request            ->
                                     <-  accept or decline byte

The rest of libsodium, and what depends on the machine, are not part of the repository; `Sodium`
and `Platform` state what the code relies on.

* `Sodium`, `encryptHandshakeTag`, `verifyHandshakeTag`: key derivation and the handshake tag;
* `Sender.sendHandshake`, `Sender.sendTransferRequest`, `Sender.startSession`: the sender's side;
* `Receiver.receiveHandshake`, `Receiver.receiveTransferRequest`,
  `Receiver.acceptTransferRequest`, `Receiver.serveSender`: the receiver's side.
-/

namespace Trit

open LittleEndian

/-! ### Keys and tags -/

/-- `SALT_SIZE`. -/
def saltSize : ℕ := 16

/-- `NONCE_SIZE`. -/
def nonceSize : ℕ := 24

/-- `HEADER_SIZE`. -/
def headerSize : ℕ := 24

/-- `HANDSHAKE_TAG_LITERAL`: `trit_bonjour`. -/
def handshakeTag : Bytes := [116, 114, 105, 116, 95, 98, 111, 110, 106, 111, 117, 114]

/-- `crypto_secretbox_MACBYTES`. -/
def secretboxMacBytes : ℕ := 16

/-- `HANDSHAKE_CIPHERTEXT_SIZE`. -/
def handshakeCiphertextSize : ℕ := handshakeTag.length + secretboxMacBytes

/-- libsodium: `crypto_pwhash`, `crypto_secretbox_easy` and `_open_easy`, and the two functions that
start a secret stream.  `none` is a nonzero return value. -/
structure Sodium where
  stream : SecretStream
  Key : Type
  /-- The key for a password and a salt. -/
  pwhash : Bytes → Bytes → Option Key
  /-- The ciphertext of a message under a key and a nonce. -/
  secretbox : Key → Bytes → Bytes → Bytes
  secretboxOpen : Key → Bytes → Bytes → Option Bytes
  /-- `init_push`, which makes up a header, and `init_pull`, which is given one. -/
  initPush : Key → Bytes → Option stream.State
  initPull : Key → Bytes → Option stream.State
  secretbox_length : ∀ key nonce message,
    (secretbox key nonce message).length = message.length + secretboxMacBytes
  secretboxOpen_secretbox : ∀ key nonce message,
    secretboxOpen key nonce (secretbox key nonce message) = some message
  initPull_eq : ∀ key header st, initPush key header = some st → initPull key header = some st

variable {na : Sodium}

/-- `encrypt_handshake_tag`, without the choice of the nonce. -/
def encryptHandshakeTag (key : na.Key) (nonce : Bytes) : Bytes :=
  na.secretbox key nonce handshakeTag

/-- `verify_handshake_tag`. -/
def verifyHandshakeTag (key : na.Key) (nonce ciphertext : Bytes) : Bool :=
  match na.secretboxOpen key nonce ciphertext with
  | none => false
  | some decrypted => decrypted == handshakeTag

@[simp] theorem length_encryptHandshakeTag (key : na.Key) (nonce : Bytes) :
    (encryptHandshakeTag key nonce).length = handshakeCiphertextSize :=
  na.secretbox_length key nonce handshakeTag

/-- The tag verifies under the key it was encrypted with. -/
@[simp] theorem verify_encryptHandshakeTag (key : na.Key) (nonce : Bytes) :
    verifyHandshakeTag key nonce (encryptHandshakeTag key nonce) = true := by
  simp [verifyHandshakeTag, encryptHandshakeTag, na.secretboxOpen_secretbox]

/-- The authenticator of `Sodium.plain`. -/
def Sodium.mac (key : Bytes) : Bytes := (key ++ List.replicate secretboxMacBytes 0).take
  secretboxMacBytes

/-- A library without secrecy that satisfies the laws: the key is the password with the salt, its
first bytes authenticate a box, and a stream starts at the first byte of its header. -/
def Sodium.plain : Sodium where
  stream := .measured
  Key := Bytes
  pwhash password salt := some (password ++ salt)
  secretbox key _ message := mac key ++ message
  secretboxOpen key _ ciphertext :=
    if ciphertext.take secretboxMacBytes = mac key then some (ciphertext.drop secretboxMacBytes)
    else none
  initPush _ header := some (header.headD 0)
  initPull _ header := some (header.headD 0)
  secretbox_length key _ message := by
    simp only [mac, List.length_append, List.length_take, List.length_replicate]
    omega
  secretboxOpen_secretbox key _ message := by
    have hlen : (mac key).length = secretboxMacBytes := by
      simp only [mac, List.length_append, List.length_take, List.length_replicate]
      omega
    simp [← hlen]
  initPull_eq _ _ _ h := h

/-- The messages before the transfer, each by what it holds. -/
inductive Message
  | salt
  | nonce
  | ciphertext
  | header
  | handshakeSuccess
  | requestSize
  | request
  | requestAccepted
  deriving DecidableEq

/-- One side of a session up to the transfer. -/
abbrev Talk (α : Type) := Dialogue UInt8 Exception Message α

/-! ### The sender -/

namespace Sender

/-- What a sender brings into a session: its key and the salt of the key, the nonce and the header
that are made up, and what `create_transfer_request` returns. -/
structure Setup (na : Sodium) where
  key : na.Key
  salt : Bytes
  nonce : Bytes
  header : Bytes
  createTransferRequest : Except Exception TransferRequest
  length_salt : salt.length = saltSize
  length_nonce : nonce.length = nonceSize
  length_header : header.length = headerSize

/-- How the session goes on: it is over, or `send_files` starts. -/
inductive Outcome (na : Sodium)
  | handshakeFailed
  | declined
  | transfer (transferRequest : TransferRequest) (encryptor : na.stream.State)

/-- `send_handshake`. -/
def sendHandshake (c : Setup na) : Talk Bool :=
  .write .salt c.salt <|
  .write .nonce c.nonce <|
  .write .ciphertext (encryptHandshakeTag c.key c.nonce) <|
  .write .header c.header <|
  .read 1 fun byte => .done (byte != [0])

/-- `send_transfer_request`. -/
def sendTransferRequest (transferRequest : TransferRequest) : Talk Bool :=
  (Dialogue.ofExcept transferRequest.serialize).bind fun buffer =>
  .write .requestSize (leBytes 8 buffer.length) <|
  .write .request buffer <|
  .read 1 fun byte => .done (byte != [0])

/-- `start_session`, once the connection is there, up to `send_files`. -/
def startSession (c : Setup na) : Talk (Outcome na) :=
  match na.initPush c.key c.header with
  | none => .throw (.runtimeError "Encryptor: Failed to initialize stream encryption")
  | some encryptor =>
      (sendHandshake c).bind fun success =>
      if !success then .done .handshakeFailed else
      (Dialogue.ofExcept c.createTransferRequest).bind fun transferRequest =>
      (sendTransferRequest transferRequest).bind fun accepted =>
      .done (if accepted then .transfer transferRequest encryptor else .declined)

end Sender

/-! ### The receiver -/

/-- What depends on the machine: the memory that a vector can have, the value that
`format_data_size` computes with `log10`, and how it prints a fraction. -/
structure Platform where
  memory : ℕ
  powerOf1000 : UInt64 → ℕ
  showUnitValue : UInt64 → ℕ → String

namespace Platform

/-- `PTRDIFF_MAX`. -/
def maxVectorSize : ℕ := 2 ^ 63 - 1

/-- The constructor of `std::vector<uint8_t>` with a size. -/
def allocate (platform : Platform) (size : ℕ) : Except Exception Unit :=
  if maxVectorSize < size then
    .error (.lengthError "cannot create std::vector larger than max_size()")
  else if platform.memory < size then .error .badAlloc
  else .ok ()

/-- `format_data_size`. -/
def formatDataSize (platform : Platform) (sizeInBytes : UInt64) : Except Exception String :=
  if sizeInBytes = 0 then .ok "0 B"
  else
    let powerOf1000 := platform.powerOf1000 sizeInBytes
    if powerOf1000 = 0 then .ok (toString sizeInBytes.toNat ++ " B")
    else if 5 < powerOf1000 then .error (.runtimeError "Data size too large to format")
    else .ok (platform.showUnitValue sizeInBytes powerOf1000 ++
      ["", " KB", " MB", " GB", " TB", " PB"].getD powerOf1000 "")

/-- A machine with the memory for 2^62 bytes.  Its logarithm is exact; that of the source is a
`double`, which comes to 18 some way before 10^18. -/
def large : Platform where
  memory := 2 ^ 62
  powerOf1000 size := Nat.log 10 size.toNat / 3
  showUnitValue _ _ := ""

end Platform

/-- The loop of `print` over the files. -/
def TransferRequest.printFileInfos (platform : Platform) :
    List FileInfo → Except Exception Unit
  | [] => .ok ()
  | info :: infos => do
      let _ ← platform.formatDataSize info.size
      printFileInfos platform infos

/-- `print`, up to the text: the sizes of the files and of the transfer are formatted. -/
def TransferRequest.print (platform : Platform) (r : TransferRequest) :
    Except Exception Unit := do
  printFileInfos platform r.fileInfos
  let _ ← platform.formatDataSize r.transferSize
  return ()

namespace Receiver

/-- How the session goes on: the receiver waits for the next connection, or `receive_files`
starts. -/
inductive Outcome (na : Sodium)
  | handshakeFailed
  | declined
  | transfer (transferRequest : TransferRequest) (decryptor : na.stream.State)

/-- The end of `receive_handshake`, once everything has been read. -/
def replyToHandshake (key : na.Key) (nonce ciphertext header : Bytes) :
    Talk (Option na.stream.State) :=
  if verifyHandshakeTag key nonce ciphertext then
    match na.initPull key header with
    | none => .throw (.runtimeError "Decryptor: Failed to initialize stream decryption")
    | some decryptor => .write .handshakeSuccess [1] (.done (some decryptor))
  else .write .handshakeSuccess [0] (.done none)

/-- `receive_handshake`; what is returned is `decryptor_opt`. -/
def receiveHandshake (na : Sodium) (password : Bytes) : Talk (Option na.stream.State) :=
  .read saltSize fun salt =>
  match na.pwhash password salt with
  | none => .throw (.runtimeError "Key derivation failed")
  | some key =>
      .read nonceSize fun nonce =>
      .read handshakeCiphertextSize fun ciphertext =>
      .read headerSize fun header =>
      replyToHandshake key nonce ciphertext header

/-- `receive_transfer_request`. -/
def receiveTransferRequest (platform : Platform) : Talk TransferRequest :=
  .read 8 fun size =>
  (Dialogue.ofExcept (platform.allocate (leValue size))).bind fun _ =>
  .read (leValue size) fun buffer =>
  Dialogue.ofExcept (TransferRequest.deserialize buffer)

/-- `accept_transfer_request`; `accepts` is the user's choice. -/
def acceptTransferRequest (platform : Platform) (accepts : Bool)
    (transferRequest : TransferRequest) : Talk Bool :=
  (Dialogue.ofExcept (transferRequest.print platform)).bind fun _ =>
  .write .requestAccepted [if accepts then 1 else 0] (.done accepts)

/-- One round of the loop of `start_session`, once a sender has connected, up to
`receive_files`. -/
def serveSender (na : Sodium) (platform : Platform) (password : Bytes) (accepts : Bool) :
    Talk (Outcome na) :=
  (receiveHandshake na password).bind fun decryptor? =>
  match decryptor? with
  | none => .done .handshakeFailed
  | some decryptor =>
      (receiveTransferRequest platform).bind fun transferRequest =>
      (acceptTransferRequest platform accepts transferRequest).bind fun accepted =>
      .done (if accepted then .transfer transferRequest decryptor else .declined)

end Receiver

end Trit
