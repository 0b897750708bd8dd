import Trit.Handshake
import Trit.Sender
import Trit.Lib.Exchange
import Mathlib.Data.List.Forall2

/-!
# Both ends of a session

Senders that connect to one receiver, one after the other.  A session is the exchange between the
sender's `start_session` and one round of the receiver's, over streams whose symbols arrive one by
one; the receiver goes on to the next connection when a round ends without a transfer.

* `Connection`, `Connection.Honest`: a sender with its password and the user's answer, and what is
  assumed of libsodium and of the sender;
* `Agreed`: the two ends conclude the same;
* `Connection.Honest.ends`, `Connection.Honest.concludes_iff`: the end of a session;
* `Service`, `Service.step`: the receiver and all the senders;
* `Service.agree`: in every run, every session ends with both ends agreeing, if and only if it does
  not start a transfer of more files than 32 bits count.
-/

namespace Trit

open LittleEndian Transition Dialogue

/-! ### One session -/

/-- A sender with its password, and the user's answer to its request. -/
structure Connection (na : Sodium) where
  setup : Sender.Setup na
  password : Bytes
  accepts : Bool

variable {na : Sodium} {platform : Platform} {password : Bytes}

/-- The two programs of a session and the streams between them. -/
abbrev Conversation (na : Sodium) :=
  Exchange UInt8 Exception Message (Sender.Outcome na) (Receiver.Outcome na)

/-- The two ends of a session agree: the handshake has failed, the request has been declined, or
the transfer starts with the same request and the stream of the sender's key and header. -/
inductive Agreed (password : Bytes) (c : Connection na) :
    Sender.Outcome na → Receiver.Outcome na → Prop
  | handshakeFailed (h : password ≠ c.password) : Agreed password c .handshakeFailed
      .handshakeFailed
  | declined (h : password = c.password) (ha : c.accepts = false) :
      Agreed password c .declined .declined
  | transfer (h : password = c.password) (ha : c.accepts = true) (r : TransferRequest)
      (st : na.stream.State) (hst : na.initPull c.setup.key c.setup.header = some st) :
      Agreed password c (.transfer r st) (.transfer r st)

namespace Connection

/-- The request of the sender lists fewer files than 32 bits count. -/
def Counted (c : Connection na) : Prop :=
  ∀ r, c.setup.createTransferRequest = .ok r → r.fileInfos.length < 2 ^ 32

/-- The receiver's machine has the memory for the request of the sender. -/
def Held (platform : Platform) (c : Connection na) : Prop :=
  ∀ r bytes, c.setup.createTransferRequest = .ok r → r.serialize = .ok bytes →
    platform.allocate bytes.length = .ok ()

/-- An honest sender.  Its key is that of its password; the keys of a salt are equal if and only if
the passwords are; a secret box opens if and only if the key is the one it was made with; the
request comes from `from_file_paths` and can be serialized into a vector; the sizes are below
10^17. -/
structure Honest (password : Bytes) (c : Connection na) : Prop where
  senderKey : na.pwhash c.password c.setup.salt = some c.setup.key
  receiverKey : ∃ key, na.pwhash password c.setup.salt = some key
  keys : ∀ key, na.pwhash password c.setup.salt = some key →
    (key = c.setup.key ↔ password = c.password)
  secretbox : ∀ key, na.pwhash password c.setup.salt = some key →
    ((na.secretboxOpen key c.setup.nonce
      (na.secretbox c.setup.key c.setup.nonce handshakeTag)).isSome = true ↔ key = c.setup.key)
  encryptor : ∃ st, na.initPush c.setup.key c.setup.header = some st
  built : ∃ (Path : Type) (relative : Path → Bytes)
    (fileSize : Path → Except Exception UInt64) (paths : List Path),
    c.setup.createTransferRequest = TransferRequest.fromFilePaths relative fileSize paths
  serialized : ∃ r bytes, c.setup.createTransferRequest = .ok r ∧ r.serialize = .ok bytes ∧
    bytes.length ≤ Platform.maxVectorSize ∧ r.transferSize.toNat < 10 ^ 17 ∧
    ∀ info ∈ r.fileInfos, info.size.toNat < 10 ^ 17

end Connection

/-- `format_data_size` fails only for sizes from 10^17 on. -/
def Platform.Formats (platform : Platform) : Prop :=
  ∀ size, size.toNat < 10 ^ 17 → platform.powerOf1000 size ≤ 5

theorem Platform.Formats.formatDataSize (h : platform.Formats) {size : UInt64}
    (hsize : size.toNat < 10 ^ 17) : ∃ text, platform.formatDataSize size = .ok text := by
  unfold Platform.formatDataSize
  have hpower := h size hsize
  dsimp only
  split_ifs with h0 h1 h2
  · exact ⟨_, rfl⟩
  · exact ⟨_, rfl⟩
  · omega
  · exact ⟨_, rfl⟩

/-- A request with sizes below 10^17 can be printed. -/
theorem Platform.Formats.print (h : platform.Formats) {r : TransferRequest}
    (htotal : r.transferSize.toNat < 10 ^ 17)
    (hsizes : ∀ info ∈ r.fileInfos, info.size.toNat < 10 ^ 17) : r.print platform = .ok () := by
  have hinfos : ∀ infos : List FileInfo, (∀ info ∈ infos, info.size.toNat < 10 ^ 17) →
      TransferRequest.printFileInfos platform infos = .ok () := by
    intro infos hinfos
    induction infos with
    | nil => rfl
    | cons info infos ih =>
      obtain ⟨text, htext⟩ := h.formatDataSize (hinfos info List.mem_cons_self)
      rw [TransferRequest.printFileInfos, htext]
      exact ih fun i hi => hinfos i (List.mem_cons_of_mem _ hi)
  obtain ⟨text, htext⟩ := h.formatDataSize htotal
  rw [TransferRequest.print, hinfos r.fileInfos hsizes, htext]
  rfl

theorem Platform.leValue_of_le {size : ℕ} (h : size ≤ Platform.maxVectorSize) :
    leValue (leBytes 8 size) = size := by
  refine leValue_leBytes_of_lt ?_
  unfold Platform.maxVectorSize at h
  omega

namespace Connection

variable {c : Connection na}

variable {α γ : Type} {key : na.Key} (f : Bool → Talk α) (g : Option na.stream.State → Talk γ)

theorem meets_handshake (hkey : na.pwhash password c.setup.salt = some key) :
    Exchange.Meets ((Sender.sendHandshake c.setup).bind f)
      ((Receiver.receiveHandshake na password).bind g)
      (.read 1 fun byte => f (byte != [0]))
      ((Receiver.replyToHandshake key c.setup.nonce
        (encryptHandshakeTag c.setup.key c.setup.nonce) c.setup.header).bind g) := by
  refine (Exchange.Meets.left Message.salt c.setup.length_salt _ _).trans ?_
  simp only [hkey]
  refine (Exchange.Meets.left Message.nonce c.setup.length_nonce _ _).trans ?_
  refine (Exchange.Meets.left Message.ciphertext (length_encryptHandshakeTag _ _) _ _).trans ?_
  exact Exchange.Meets.left Message.header c.setup.length_header _ _

/-- A tag that does not verify is refused. -/
theorem meets_refused (hkey : na.pwhash password c.setup.salt = some key)
    (hverify : verifyHandshakeTag key c.setup.nonce
      (encryptHandshakeTag c.setup.key c.setup.nonce) = false) :
    Exchange.Meets ((Sender.sendHandshake c.setup).bind f)
      ((Receiver.receiveHandshake na password).bind g) (f false) (g none) := by
  refine (meets_handshake f g hkey).trans ?_
  rw [Receiver.replyToHandshake, hverify, if_neg Bool.false_ne_true]
  exact Exchange.Meets.right Message.handshakeSuccess [0] rfl _ _

/-- A tag that verifies is accepted, and the decryptor is set up. -/
theorem meets_verified (hkey : na.pwhash password c.setup.salt = some key)
    (hverify : verifyHandshakeTag key c.setup.nonce
      (encryptHandshakeTag c.setup.key c.setup.nonce) = true) {st : na.stream.State}
    (hst : na.initPull key c.setup.header = some st) :
    Exchange.Meets ((Sender.sendHandshake c.setup).bind f)
      ((Receiver.receiveHandshake na password).bind g) (f true) (g (some st)) := by
  refine (meets_handshake f g hkey).trans ?_
  rw [Receiver.replyToHandshake, hverify, if_pos rfl, hst]
  exact Exchange.Meets.right Message.handshakeSuccess [1] rfl _ _

theorem meets_request {r r' : TransferRequest} {bytes : Bytes} (hser : r.serialize = .ok bytes)
    (hvector : bytes.length ≤ Platform.maxVectorSize)
    (hallocate : platform.allocate bytes.length = .ok ())
    (hdecode : TransferRequest.deserialize bytes = .ok r') (hprint : r'.print platform = .ok ())
    (accepts : Bool) (f : Bool → Talk α) (g : TransferRequest → Bool → Talk γ) :
    Exchange.Meets ((Sender.sendTransferRequest r).bind f)
      ((Receiver.receiveTransferRequest platform).bind fun transferRequest =>
        (Receiver.acceptTransferRequest platform accepts transferRequest).bind
          (g transferRequest))
      (f accepts) (g r' accepts) := by
  have hsize := Platform.leValue_of_le hvector
  rw [Sender.sendTransferRequest, hser]
  refine (Exchange.Meets.left Message.requestSize (length_leBytes 8 _) _ _).trans ?_
  simp only [hsize, hallocate]
  refine (Exchange.Meets.left Message.request rfl _ _).trans ?_
  simp only [hdecode, Dialogue.ofExcept, Dialogue.bind, Receiver.acceptTransferRequest, hprint]
  cases accepts
  · exact Exchange.Meets.right Message.requestAccepted [0] rfl _ _
  · exact Exchange.Meets.right Message.requestAccepted [1] rfl _ _

/-- A request that the receiver's memory cannot hold makes the receiver throw. -/
theorem meets_unheld {r : TransferRequest} {bytes : Bytes} (hser : r.serialize = .ok bytes)
    (hvector : bytes.length ≤ Platform.maxVectorSize) {e : Exception}
    (hallocate : platform.allocate bytes.length = .error e) (f : Bool → Talk α)
    (g : TransferRequest → Talk γ) :
    Exchange.Meets ((Sender.sendTransferRequest r).bind f)
      ((Receiver.receiveTransferRequest platform).bind g)
      (.write .request bytes (.read 1 fun byte => f (byte != [0]))) (.throw e) := by
  have hsize := Platform.leValue_of_le hvector
  rw [Sender.sendTransferRequest, hser]
  refine (Exchange.Meets.left Message.requestSize (length_leBytes 8 _) _ _).trans ?_
  simp only [hsize, hallocate]
  exact Exchange.Meets.refl _ _

/-! ### The outcome -/

/-- A session that starts: both programs, and empty streams. -/
def conversation (platform : Platform) (password : Bytes) (c : Connection na) : Conversation na :=
  Exchange.start (Sender.startSession c.setup)
    (Receiver.serveSender na platform password c.accepts)

/-- Every run of the session ends with both sides agreeing, and nothing left unread. -/
def Concludes (password : Bytes) (c : Connection na) (x : Conversation na) : Prop :=
  ∃ a b, Ends Exchange.step x (Exchange.start (.done a) (.done b)) ∧ Agreed password c a b

/-- If the passwords are equal, the request fits into the receiver's memory, and if it is accepted,
it lists fewer files than 32 bits count. -/
def Fits (platform : Platform) (password : Bytes) (c : Connection na) : Prop :=
  password = c.password → c.Held platform ∧ (c.accepts = true → c.Counted)

/-- The tag of an honest sender verifies if and only if the passwords are equal. -/
theorem Honest.verify_iff (h : c.Honest password)
    (hkey : na.pwhash password c.setup.salt = some key) :
    verifyHandshakeTag key c.setup.nonce (encryptHandshakeTag c.setup.key c.setup.nonce) = true ↔
      password = c.password := by
  rw [← h.keys key hkey]
  constructor
  · intro hverify
    rw [← h.secretbox key hkey]
    unfold verifyHandshakeTag at hverify
    cases hopen : na.secretboxOpen key c.setup.nonce
        (encryptHandshakeTag c.setup.key c.setup.nonce) with
    | none =>
      rw [hopen] at hverify
      cases hverify
    | some message =>
      rw [encryptHandshakeTag] at hopen
      rw [hopen]
      rfl
  · rintro rfl
    exact verify_encryptHandshakeTag _ _

/-- With different passwords, both sides conclude that the handshake has failed. -/
theorem Honest.meets_handshakeFailed (h : c.Honest password) (hne : password ≠ c.password) :
    Exchange.Meets (Sender.startSession c.setup)
      (Receiver.serveSender na platform password c.accepts)
      (.done .handshakeFailed) (.done .handshakeFailed) := by
  obtain ⟨key, hkey⟩ := h.receiverKey
  obtain ⟨st, hst⟩ := h.encryptor
  have hverify := mt (h.verify_iff hkey).mp hne
  rw [Bool.not_eq_true] at hverify
  rw [Sender.startSession, hst]
  exact meets_refused _ _ hkey hverify

theorem Honest.meets_handshake (h : c.Honest password) (platform : Platform)
    (heq : password = c.password) {st : na.stream.State}
    (hst : na.initPush c.setup.key c.setup.header = some st)
    {r : TransferRequest} (hr : c.setup.createTransferRequest = .ok r) :
    Exchange.Meets (Sender.startSession c.setup)
      (Receiver.serveSender na platform password c.accepts)
      ((Sender.sendTransferRequest r).bind fun accepted =>
        .done (if accepted then .transfer r st else .declined))
      ((Receiver.receiveTransferRequest platform).bind fun transferRequest =>
        (Receiver.acceptTransferRequest platform c.accepts transferRequest).bind fun accepted =>
        .done (if accepted then .transfer transferRequest st else .declined)) := by
  have hkey := h.senderKey
  rw [← heq] at hkey
  have hverify := (h.verify_iff hkey).mpr heq
  rw [Sender.startSession, hst]
  refine (meets_verified _ _ hkey hverify (na.initPull_eq _ _ _ hst)).trans ?_
  simp only [hr]
  exact Exchange.Meets.refl _ _

/-- The end of a session: both sides conclude, and they agree if the session fits; otherwise it
may also be that the receiver throws. -/
theorem Honest.ends (hf : platform.Formats) (h : c.Honest password) :
    ∃ f, Ends Exchange.step (c.conversation platform password) f ∧
      ((∃ a b, f = Exchange.start (.done a) (.done b) ∧
        (Agreed password c a b ↔ c.Fits platform password)) ∨
      (¬ c.Fits platform password ∧ ∃ e, f.right = .throw e)) := by
  by_cases heq : password = c.password
  · obtain ⟨st, hst⟩ := h.encryptor
    obtain ⟨r, bytes, hr, hser, hvector, htotal, hsizes⟩ := h.serialized
    obtain ⟨Path, relative, fileSize, paths, hbuilt⟩ := h.built
    rw [hr] at hbuilt
    obtain ⟨r', hdecode, htotal', hinfos, hsame⟩ :=
      TransferRequest.decode_of_fromFilePaths hbuilt.symm hser
    have hhandshake := h.meets_handshake platform heq hst hr
    cases hallocate : platform.allocate bytes.length with
    | error e =>
      -- the receiver throws, and the sender goes on waiting for the answer
      obtain ⟨f, hends, hright⟩ :=
        (hhandshake.trans (meets_unheld hser hvector hallocate _ _)).ends_of_throw
      refine ⟨f, hends, Or.inr ⟨fun hfits => ?_, e, hright⟩⟩
      have hheld := (hfits heq).1 r bytes hr hser
      rw [hallocate] at hheld
      cases hheld
    | ok u =>
      have hprint : r'.print platform = .ok () :=
        hf.print (htotal' ▸ htotal) fun info hinfo => hsizes info (hinfos info hinfo)
      have hmeets := hhandshake.trans (meets_request hser hvector hallocate hdecode hprint
        c.accepts _ _)
      have hheld : c.Held platform := by
        intro r₁ bytes₁ hr₁ hser₁
        rw [hr] at hr₁
        cases hr₁
        rw [hser] at hser₁
        cases hser₁
        exact hallocate
      -- `num_files` has 32 bits, and the receiver reads as many entries as it says
      have hcounted : c.Counted ↔ r.fileInfos.length < 2 ^ 32 := by
        simp [Counted, hr]
      refine ⟨_, hmeets.ends, Or.inl ⟨_, _, rfl, ?_⟩⟩
      cases haccepts : c.accepts with
      | false =>
        constructor
        · intro _ _
          exact ⟨hheld, by simp [haccepts]⟩
        · intro _
          exact .declined heq haccepts
      | true =>
        constructor
        · rintro ⟨⟩
          exact fun _ => ⟨hheld, fun _ => hcounted.mpr (hsame.mp rfl)⟩
        · intro hfits
          rw [hsame.mpr (hcounted.mp ((hfits heq).2 haccepts))]
          exact .transfer heq haccepts r st (na.initPull_eq _ _ _ hst)
  · refine ⟨_, (h.meets_handshakeFailed heq).ends, Or.inl ⟨_, _, rfl, ?_⟩⟩
    constructor
    · intro _ heq'
      exact absurd heq' heq
    · intro _
      exact .handshakeFailed heq

/-- At any time of a session: it concludes if and only if it fits. -/
theorem Honest.concludes_iff (hf : platform.Formats) (h : c.Honest password)
    {as : List Dialogue.Move} {x : Conversation na}
    (hx : exec Exchange.step (c.conversation platform password) as = some x) :
    c.Concludes password x ↔ c.Fits platform password := by
  obtain ⟨f, hends, hf⟩ := h.ends hf
  constructor
  · rintro ⟨a, b, hab, hagreed⟩
    -- the moves of the two sides commute, so every run from `x` has the one end `f`
    have heq := hends.unique (Exchange.commutes.ends_of_exec hx hab)
    rcases hf with ⟨a', b', rfl, hiff⟩ | ⟨-, e, hright⟩
    · cases heq
      exact hiff.mp hagreed
    · rw [heq] at hright
      cases hright
  · intro hfits
    rcases hf with ⟨a, b, rfl, hiff⟩ | ⟨hnot, -⟩
    · exact ⟨a, b, hends.of_exec hx, hiff.mpr hfits⟩
    · exact absurd hfits hnot

/-- When the receiver has concluded, it has read everything that the sender has written. -/
theorem Honest.consumed (hf : platform.Formats) (h : c.Honest password)
    {as : List Dialogue.Move} {x : Conversation na}
    (hx : exec Exchange.step (c.conversation platform password) as = some x)
    {b : Receiver.Outcome na} (hb : x.right = .done b) : x.inRight = [] ∧ x.toRight = [] := by
  obtain ⟨f, hends, hf⟩ := h.ends hf
  have hfinished : Exchange.Finished x.right := by
    rw [hb]
    exact Exchange.finished_done b
  obtain ⟨hright, hunread⟩ := Exchange.right_of_ends (hends.of_exec hx) hfinished
  rcases hf with ⟨a', b', rfl, -⟩ | ⟨-, e, hthrow⟩
  · exact List.append_eq_nil_iff.mp (List.prefix_nil.mp hunread)
  · rw [hb, hthrow] at hright
    cases hright

end Connection

/-! ### One receiver and many senders -/

/-- The sessions that have begun, in order, and the senders that will connect. -/
structure Service (na : Sodium) where
  sessions : List (Conversation na)
  waiting : List (Connection na)

namespace Service

/-- What can happen: the receiver takes the next connection, or something happens in the session
`i`. -/
inductive Event
  | accept
  | move (i : ℕ) (m : Dialogue.Move)

/-- The receiver has concluded without a transfer, and goes on to `wait_for_connection`. -/
def Over (x : Conversation na) : Bool :=
  match x.right with
  | .done .handshakeFailed | .done .declined => true
  | _ => false

/-- One event. -/
def step (platform : Platform) (password : Bytes) (s : Service na) :
    Event → Option (Service na)
  | .accept =>
      match s.waiting with
      | [] => none
      | c :: rest =>
          if s.sessions.getLast?.all Over then
            some { sessions := s.sessions ++ [c.conversation platform password], waiting := rest }
          else none
  | .move i m =>
      match s.sessions[i]? with
      | none => none
      | some x => (Exchange.step x m).map fun y => { s with sessions := s.sessions.set i y }

/-- No sender has connected. -/
def start (connections : List (Connection na)) : Service na := ⟨[], connections⟩

/-- A session of a run is a session that has started and gone on. -/
def Begun (platform : Platform) (password : Bytes) (c : Connection na) (x : Conversation na) :
    Prop :=
  ∃ as, exec Exchange.step (c.conversation platform password) as = some x

/-- The sessions are those of the first connections, in order. -/
def Serves (platform : Platform) (password : Bytes) (connections : List (Connection na))
    (s : Service na) : Prop :=
  ∃ begun, connections = begun ++ s.waiting ∧
    List.Forall₂ (Begun platform password) begun s.sessions

variable {connections : List (Connection na)} {s t : Service na}

theorem forall₂_set {R : Connection na → Conversation na → Prop} {cs : List (Connection na)}
    {xs : List (Conversation na)} (h : List.Forall₂ R cs xs) {i : ℕ} {x y : Conversation na}
    (hx : xs[i]? = some x) (hy : ∀ c, R c x → R c y) : List.Forall₂ R cs (xs.set i y) := by
  induction h generalizing i with
  | nil => cases hx
  | @cons c x' cs xs hc hcs ih =>
    cases i with
    | zero =>
      cases hx
      exact .cons (hy c hc) hcs
    | succ i => exact .cons hc (ih hx)

theorem exists_of_mem {R : Connection na → Conversation na → Prop} {cs : List (Connection na)}
    {xs : List (Conversation na)} (h : List.Forall₂ R cs xs) {x : Conversation na} (hx : x ∈ xs) :
    ∃ c ∈ cs, R c x := by
  induction h with
  | nil => cases hx
  | @cons c x' cs xs hc hcs ih =>
    rcases List.mem_cons.mp hx with rfl | hx
    · exact ⟨c, List.mem_cons_self, hc⟩
    · obtain ⟨c', hc', hR⟩ := ih hx
      exact ⟨c', List.mem_cons_of_mem _ hc', hR⟩

theorem forall₂_of_mem {R S : Connection na → Conversation na → Prop} {cs : List (Connection na)}
    {xs : List (Conversation na)} (h : List.Forall₂ R cs xs)
    (hRS : ∀ c ∈ cs, ∀ x, R c x → S c x) : List.Forall₂ S cs xs := by
  induction h with
  | nil => exact .nil
  | cons hc _ ih =>
    refine .cons (hRS _ List.mem_cons_self _ hc) (ih fun c hmem => ?_)
    exact hRS c (List.mem_cons_of_mem _ hmem)

/-- Taking a connection: the next one, once the last session is over. -/
theorem step_accept (h : step platform password s .accept = some t) :
    ∃ c, s.waiting = c :: t.waiting ∧
      t.sessions = s.sessions ++ [c.conversation platform password] ∧
      s.sessions.getLast?.all Over = true := by
  simp only [step] at h
  cases hwaiting : s.waiting with
  | nil =>
    rw [hwaiting] at h
    cases h
  | cons c rest =>
    rw [hwaiting] at h
    dsimp only at h
    split_ifs at h with hover
    cases h
    exact ⟨c, rfl, rfl, hover⟩

theorem step_move {i : ℕ} {m : Dialogue.Move}
    (h : step platform password s (.move i m) = some t) :
    ∃ x y, s.sessions[i]? = some x ∧ Exchange.step x m = some y ∧
      t = { s with sessions := s.sessions.set i y } := by
  simp only [step] at h
  cases hx : s.sessions[i]? with
  | none =>
    rw [hx] at h
    cases h
  | some x =>
    rw [hx] at h
    obtain ⟨y, hy, rfl⟩ := Option.map_eq_some_iff.mp h
    exact ⟨x, y, rfl, hy, rfl⟩

/-- A session that takes a step is still a session of the run. -/
theorem Begun.step {c : Connection na} {x y : Conversation na} {m : Dialogue.Move}
    (h : Begun platform password c x) (hy : Exchange.step x m = some y) :
    Begun platform password c y := by
  obtain ⟨as, has⟩ := h
  refine ⟨as ++ [m], exec_trans has ?_⟩
  rw [exec, hy]
  rfl

/-- Every event keeps the sessions those of the connections. -/
theorem Serves.step {a : Event} (hs : Serves platform password connections s)
    (h : s.step platform password a = some t) : Serves platform password connections t := by
  obtain ⟨begun, rfl, hbegun⟩ := hs
  cases a with
  | accept =>
    obtain ⟨c, hwaiting, hsessions, -⟩ := step_accept h
    refine ⟨begun ++ [c], ?_, ?_⟩
    · rw [hwaiting, List.append_assoc, List.singleton_append]
    · rw [hsessions]
      exact List.rel_append hbegun (.cons ⟨[], rfl⟩ .nil)
  | move i m =>
    obtain ⟨x, y, hx, hy, rfl⟩ := step_move h
    exact ⟨begun, rfl, forall₂_set hbegun hx fun _ hc => hc.step hy⟩

/-- In every run: the sessions are those of the first connections, in order; each of them ends in
every run with both sides agreeing and nothing left unread, if and only if it fits; and whenever
the receiver takes the next connection, its session starts like the first one, and the receiver has
read everything that the previous sender has written. -/
theorem agree (hf : platform.Formats) (hc : ∀ c ∈ connections, c.Honest password)
    (h : Reach (Service.step platform password) any (start connections) s) :
    (∃ begun, connections = begun ++ s.waiting ∧
      List.Forall₂ (fun c x => c.Concludes password x ↔ c.Fits platform password)
        begun s.sessions) ∧
    ∀ t, s.step platform password .accept = some t →
      (∃ c, s.waiting = c :: t.waiting ∧
        t.sessions = s.sessions ++ [c.conversation platform password]) ∧
      ∀ x, s.sessions.getLast? = some x → x.inRight = [] ∧ x.toRight = [] := by
  obtain ⟨begun, rfl, hbegun⟩ : Serves platform password connections s :=
    h.invariant (fun _ _ _ hs _ hstep => hs.step hstep) ⟨[], rfl, .nil⟩
  have hhonest : ∀ c ∈ begun, c.Honest password :=
    fun c hmem => hc c (List.mem_append_left _ hmem)
  constructor
  · refine ⟨begun, rfl, forall₂_of_mem hbegun fun c hmem x hx => ?_⟩
    obtain ⟨as, has⟩ := hx
    exact (hhonest c hmem).concludes_iff hf has
  · intro t ht
    obtain ⟨c, hwaiting, hsessions, hover⟩ := step_accept ht
    refine ⟨⟨c, hwaiting, hsessions⟩, fun x hx => ?_⟩
    -- the previous session is over only if its receiver has concluded
    obtain ⟨c', hc', as, has⟩ := exists_of_mem hbegun (List.mem_of_getLast? hx)
    rw [hx] at hover
    have hright : ∃ b, x.right = .done b := by
      simp only [Option.all_some, Over] at hover
      split at hover
      · exact ⟨_, ‹_›⟩
      · exact ⟨_, ‹_›⟩
      · cases hover
    obtain ⟨b, hb⟩ := hright
    exact (hhonest c' hc').consumed hf has hb

end Service

/-! ### More files than 32 bits count -/

theorem Platform.formats_large : Platform.large.Formats := by
  intro size hsize
  show Nat.log 10 size.toNat / 3 ≤ 5
  rcases Nat.eq_zero_or_pos size.toNat with hzero | hpos
  · simp [hzero]
  · have hlog := Nat.log_lt_of_lt_pow hpos.ne' hsize
    omega

namespace TransferRequest

/-- Files with short paths can be serialized, in a bounded number of bytes. -/
theorem serializeFileInfos_of_le {n : ℕ} (hn : n ≤ uint16Max) {infos : List FileInfo}
    (h : ∀ info ∈ infos, info.relativePath.length ≤ n) :
    ∃ bytes, serializeFileInfos infos = .ok bytes ∧ bytes.length ≤ infos.length * (10 + n) := by
  induction infos with
  | nil => exact ⟨[], rfl, by simp⟩
  | cons info infos ih =>
    obtain ⟨bytes, hbytes, hlen⟩ := ih fun i hi => h i (List.mem_cons_of_mem _ hi)
    have hinfo := h info List.mem_cons_self
    refine ⟨leBytes 2 info.relativePath.length ++ info.relativePath ++
      leBytes 8 info.size.toNat ++ bytes, ?_, ?_⟩
    · rw [serializeFileInfos, if_neg (by omega), hbytes]
      rfl
    · simp only [List.length_append, length_leBytes, List.length_cons, Nat.add_mul]
      omega

theorem serialize_of_ok {r : TransferRequest} {bytes : Bytes}
    (h : serializeFileInfos r.fileInfos = .ok bytes) :
    ∃ head, head.length = 24 ∧ r.serialize = .ok (head ++ bytes) := by
  refine ⟨leBytes 4 r.numFiles.toNat ++ leBytes 8 r.transferSize.toNat ++
    leBytes 4 r.uncompressedChunkSize.toNat ++ leBytes 4 r.uncompressedFinalChunkSize.toNat ++
    leBytes 4 r.numChunks.toNat, by simp, ?_⟩
  rw [serialize, h]
  rfl

theorem addFileInfos_one {Path : Type} (relative : Path → Bytes) (paths : List Path)
    (infos : List FileInfo) (size : UInt64) :
    addFileInfos relative (fun _ => .ok 1) paths infos size =
      .ok (infos ++ paths.map (fun path => ⟨relative path, 1⟩), size + .ofNat paths.length) := by
  induction paths generalizing infos size with
  | nil => simp [addFileInfos]
  | cons path paths ih =>
    rw [addFileInfos]
    show addFileInfos _ _ paths _ _ = _
    rw [ih, List.append_assoc, List.length_cons, UInt64.ofNat_add, UInt64.add_assoc,
      UInt64.add_comm (1 : UInt64)]
    rfl

/-- The request for files of one byte, if the number of files does not look like none. -/
theorem fromFilePaths_one {Path : Type} (relative : Path → Bytes) (paths : List Path)
    (hnum : paths.length % 2 ^ 32 ≠ 0) (hlt : paths.length < 2 ^ 64) :
    ∃ r, fromFilePaths relative (fun _ => .ok 1) paths = .ok r ∧
      r.fileInfos = paths.map (fun path => ⟨relative path, 1⟩) ∧
      r.transferSize.toNat = paths.length := by
  have hfiles : UInt32.ofNat paths.length ≠ 0 := by
    intro h
    exact hnum (congrArg UInt32.toNat h)
  have hsize : (UInt64.ofNat paths.length).toNat = paths.length := Nat.mod_eq_of_lt hlt
  have htransfer : UInt64.ofNat paths.length ≠ 0 := by
    intro h
    rw [h] at hsize
    rw [← hsize] at hnum
    exact hnum rfl
  have hadd := addFileInfos_one relative paths [] 0
  rw [List.nil_append, UInt64.zero_add] at hadd
  cases hr : fromFilePaths relative (fun _ => .ok 1) paths with
  | error e =>
    rw [fromFilePaths] at hr
    simp [hfiles, hadd, htransfer, Bind.bind, Except.bind, pure, Except.pure] at hr
  | ok r =>
    have hadd' := (fromFilePaths_ok hr).1
    rw [hadd] at hadd'
    obtain ⟨hinfos, htotal⟩ := Prod.mk.inj (Except.ok.inj hadd')
    rw [htotal] at hsize
    exact ⟨r, rfl, hinfos.symm, hsize⟩

end TransferRequest

/-- A name of 33 digits. -/
def binaryName (i : ℕ) : Bytes :=
  (List.range 33).map fun k => if i.testBit k then 49 else 48

namespace Connection

/-- A sender in the library without secrecy. -/
def plain (p : UInt8) (request : Except Exception TransferRequest) : Connection .plain where
  setup :=
    { key := [p] ++ List.replicate saltSize 3
      salt := List.replicate saltSize 3
      nonce := List.replicate nonceSize 4
      header := List.replicate headerSize 6
      createTransferRequest := request
      length_salt := rfl
      length_nonce := rfl
      length_header := rfl }
  password := [p]
  accepts := true

theorem honest_plain (p : UInt8) {Path : Type} {relative : Path → Bytes}
    {fileSize : Path → Except Exception UInt64} {paths : List Path} {r : TransferRequest}
    {bytes : Bytes} (hr : TransferRequest.fromFilePaths relative fileSize paths = .ok r)
    (hser : r.serialize = .ok bytes) (hvector : bytes.length ≤ Platform.maxVectorSize)
    (htotal : r.transferSize.toNat < 10 ^ 17)
    (hsizes : ∀ info ∈ r.fileInfos, info.size.toNat < 10 ^ 17) :
    (plain p (.ok r)).Honest [112] where
  senderKey := rfl
  receiverKey := ⟨_, rfl⟩
  keys key hkey := by
    cases hkey
    show (112 :: List.replicate saltSize 3 : Bytes) = p :: List.replicate saltSize 3 ↔ [112] = [p]
    simp
  secretbox key hkey := by
    cases hkey
    by_cases hp : p = 112
    · simp [hp, plain, Sodium.plain, Sodium.mac, saltSize, secretboxMacBytes]
    · simp [hp, plain, Sodium.plain, Sodium.mac, saltSize, secretboxMacBytes, Ne.symm hp]
  encryptor := ⟨_, rfl⟩
  built := ⟨Path, relative, fileSize, paths, hr.symm⟩
  serialized := ⟨r, bytes, rfl, hser, hvector, htotal, hsizes⟩

theorem honest_oneByte (p : UInt8) : (plain p (.ok Sender.oneByteRequest)).Honest [112] := by
  refine honest_plain p Sender.fromFilePaths_oneByte rfl (by decide) (by decide) ?_
  intro info hinfo
  rw [List.mem_singleton.mp hinfo]
  decide

end Connection

/-- Two senders with one file each: the first one has a wrong password, and has connected. -/
def Service.twoSenders : Service .plain where
  sessions := [(Connection.plain 113 (.ok Sender.oneByteRequest)).conversation .large [112]]
  waiting := [.plain 112 (.ok Sender.oneByteRequest)]

theorem Service.agree_twoSenders :
    (∃ begun, [.plain 113 (.ok Sender.oneByteRequest), .plain 112 (.ok Sender.oneByteRequest)] =
        begun ++ twoSenders.waiting ∧
      List.Forall₂ (fun c x => c.Concludes [112] x ↔ c.Fits .large [112])
        begun twoSenders.sessions) ∧
    ∀ t, twoSenders.step .large [112] .accept = some t →
      (∃ c, twoSenders.waiting = c :: t.waiting ∧
        t.sessions = twoSenders.sessions ++ [c.conversation .large [112]]) ∧
      ∀ x, twoSenders.sessions.getLast? = some x → x.inRight = [] ∧ x.toRight = [] := by
  refine agree Platform.formats_large ?_ (Reach.single (a := .accept) trivial rfl)
  intro c hc
  rcases List.mem_pair.mp hc with rfl | rfl
  · exact Connection.honest_oneByte 113
  · exact Connection.honest_oneByte 112

/-- A sender of 2^32 + 1 files of one byte, whose password is right and whose request is accepted:
the session does not conclude. -/
theorem Service.exists_disagreement : ∃ (c : Connection .plain) (s : Service .plain)
    (x : Conversation .plain), Platform.large.Formats ∧ c.Honest [112] ∧
    Reach (Service.step .large [112]) any (Service.start [c]) s ∧ s.sessions = [x] ∧
    ¬ c.Concludes [112] x := by
  have hlen : (List.range (2 ^ 32 + 1)).length = 2 ^ 32 + 1 := List.length_range
  obtain ⟨r, hr, hinfos, htotal⟩ := TransferRequest.fromFilePaths_one binaryName
    (List.range (2 ^ 32 + 1)) (by rw [hlen]; decide) (by rw [hlen]; decide)
  have hcount : r.fileInfos.length = 2 ^ 32 + 1 := by
    rw [hinfos, List.length_map, hlen]
  -- the names are short enough for a path and for the vector of the request
  have hpaths : ∀ info ∈ r.fileInfos, info.relativePath.length ≤ 33 ∧ info.size = 1 := by
    intro info hinfo
    rw [hinfos] at hinfo
    obtain ⟨i, -, rfl⟩ := List.mem_map.mp hinfo
    exact ⟨by simp [binaryName], rfl⟩
  obtain ⟨bytes, hbytes, hbound⟩ := TransferRequest.serializeFileInfos_of_le (n := 33)
    (by decide) fun info hinfo => (hpaths info hinfo).1
  obtain ⟨head, hhead, hser⟩ := TransferRequest.serialize_of_ok hbytes
  have hhonest : (Connection.plain 112 (.ok r)).Honest [112] := by
    refine Connection.honest_plain 112 hr hser ?_ ?_ ?_
    · rw [List.length_append, hhead]
      rw [hcount] at hbound
      exact le_trans (Nat.add_le_add_left hbound 24) (by decide)
    · omega
    · intro info hinfo
      rw [(hpaths info hinfo).2]
      decide
  refine ⟨.plain 112 (.ok r), _, _, Platform.formats_large, hhonest,
    Reach.single (a := .accept) trivial rfl, rfl, fun hconcludes => ?_⟩
  have hstart : exec Exchange.step ((Connection.plain 112 (.ok r)).conversation .large [112]) [] =
      some _ := rfl
  have hfits := (hhonest.concludes_iff Platform.formats_large hstart).mp hconcludes
  have hcounted := (hfits rfl).2 rfl r rfl
  omega

end Trit
