import Trit.StagingReports
import Trit.StagedTransfer
import Trit.StagingDirectories
import Trit.UserInput
import Trit.Lib.Numerals

/-!
# The command line

`main.cpp`: what the program makes of its arguments, the port that a receiver listens on, and the
staging area under a sequence of commands that are typed.

* `Utils.isValidPort`, `Utils.stoi`: reading the port; `isValidPort_iff`: what is accepted;
* `Invocation`, `CommandLine.main`: the dispatch of the commands, with the checks of the handlers;
* `choosePort`: the loop of `handle_receive`, over what the system answers at each round;
* `ports_agree`: the port of the receiver can be typed at the sender, and no other;
* `Invocation.execute`, `CommandLine.session`: commands on the staging area, one after the other,
  with their exit status and their output;
* `observe`: what somebody who sees only the terminal knows about the staged set;
* `observe_session`: that is the staged set.
-/

namespace Trit

namespace Utils

/-! ### Ports -/

/-- `is_valid_port`. -/
def isValidPort (portStr : Bytes) : Bool :=
  if portStr = [] then false
  else if !portStr.all Numerals.isDigit then false
  else
    match Numerals.toUnsigned isSpace 64 portStr with
    | .error _ => false
    | .ok port => 49152 ≤ port && port ≤ 65535

/-- `std::stoi`; `std::out_of_range` is a `logic_error` as well. -/
def stoi (s : Bytes) : Except Exception ℤ :=
  match Numerals.toSigned isSpace 32 s with
  | .error .invalidArgument => .error (.invalidArgument "stoi")
  | .error .outOfRange => .error (.logicError "stoi")
  | .ok z => .ok z

/-- A decimal numeral of a number. -/
def Denotes (s : Bytes) (n : ℕ) : Prop :=
  s ≠ [] ∧ (∀ c ∈ s, Numerals.isDigit c = true) ∧ Numerals.value s = n

instance (s : Bytes) (n : ℕ) : Decidable (Denotes s n) :=
  inferInstanceAs (Decidable (_ ∧ _ ∧ _))

theorem isSpace_of_isDigit {c : UInt8} (h : Numerals.isDigit c = true) : isSpace c = false := by
  simp only [Numerals.isDigit, Bool.and_eq_true, decide_eq_true_eq, UInt8.le_iff_toNat_le] at h
  have hlow : (48 : UInt8).toNat = 48 := rfl
  simp only [isSpace, Bool.or_eq_false_iff, Bool.and_eq_false_iff, beq_eq_false_iff_ne,
    decide_eq_false_iff_not, UInt8.le_iff_toNat_le]
  refine ⟨?_, Or.inr ?_⟩
  · rintro rfl
    exact absurd h.1 (by decide)
  · have hhigh : (13 : UInt8).toNat = 13 := rfl
    omega

theorem denotes_decimal (n : ℕ) : Denotes (Numerals.decimal n) n :=
  ⟨Numerals.decimal_ne_nil n, fun _ h => Numerals.isDigit_of_mem_decimal h,
    Numerals.value_decimal n⟩

/-- A port is accepted if and only if it is a numeral of a port that is not reserved. -/
theorem isValidPort_iff {portStr : Bytes} :
    isValidPort portStr = true ↔ ∃ n, Denotes portStr n ∧ 49152 ≤ n ∧ n ≤ 65535 := by
  unfold isValidPort
  by_cases hnil : portStr = []
  · rw [if_pos hnil]
    exact iff_of_false Bool.false_ne_true fun ⟨_, h, _⟩ => h.1 hnil
  · rw [if_neg hnil]
    by_cases hdigits : portStr.all Numerals.isDigit = true
    · have hall := List.all_eq_true.mp hdigits
      rw [hdigits, Bool.not_true, if_neg Bool.false_ne_true,
        Numerals.toUnsigned_digits (fun _ => isSpace_of_isDigit) 64 hnil hall]
      have hread : (∃ n, Denotes portStr n ∧ 49152 ≤ n ∧ n ≤ 65535) ↔
          49152 ≤ Numerals.value portStr ∧ Numerals.value portStr ≤ 65535 :=
        ⟨fun ⟨_, ⟨_, _, rfl⟩, h⟩ => h, fun h => ⟨_, ⟨hnil, hall, rfl⟩, h⟩⟩
      rw [hread]
      by_cases hlarge : 2 ^ 64 ≤ Numerals.value portStr
      · rw [if_pos hlarge]
        exact iff_of_false Bool.false_ne_true fun h => by omega
      · rw [if_neg hlarge]
        simp
    · rw [Bool.not_eq_true] at hdigits
      rw [hdigits, Bool.not_false, if_pos rfl]
      refine iff_of_false Bool.false_ne_true fun ⟨_, h, _⟩ => ?_
      rw [List.all_eq_true.mpr h.2.1] at hdigits
      cases hdigits

theorem stoi_of_denotes {s : Bytes} {n : ℕ} (h : Denotes s n) (hn : n < 2 ^ 31) :
    stoi s = .ok n := by
  obtain ⟨hne, hall, rfl⟩ := h
  rw [stoi, Numerals.toSigned_digits (fun _ => isSpace_of_isDigit) hne hall hn]

end Utils

open Staging (ascii)

/-! ### The dispatch of the commands -/

/-- What `main` makes of its arguments: a call of a function with arguments, the end of the process
with a status and two texts, or an exception. -/
inductive Invocation
  | stage (filePatterns : List Bytes)
  | unstage (filePatterns : List Bytes)
  | list
  | clear
  | help
  | send (ip : Bytes) (port : UInt16) (password : Bytes)
  | receive (password : Bytes)
  | exit (status : ℕ) (cerr cout : Bytes)
  | throws (e : Exception)

namespace CommandLine

/-- `handle_add`. -/
def handleAdd (args : List Bytes) : Invocation :=
  if args.length < 1 then
    .exit 1 (ascii "trit: 'add' requires at least one file pattern.\n")
      (ascii "usage: trit add <file_pattern>...\n")
  else .stage args

/-- `handle_drop`. -/
def handleDrop (args : List Bytes) : Invocation :=
  if args.length < 1 then
    .exit 1 (ascii "trit: 'drop' requires at least one file pattern.\n")
      (ascii "usage: trit drop <file_pattern>...\n")
  else .unstage args

/-- `handle_list`. -/
def handleList (_args : List Bytes) : Invocation := .list

/-- `handle_clear`. -/
def handleClear (_args : List Bytes) : Invocation := .clear

/-- `handle_help`. -/
def handleHelp (_args : List Bytes) : Invocation := .help

/-- `handle_send`; whether an address is valid is decided by the network library. -/
def handleSend (isValidIpAddress : Bytes → Bool) (args : List Bytes) : Invocation :=
  if args.length ≠ 2 ∧ args.length ≠ 3 then
    .exit 1 (ascii "trit: 'send' requires an ip, port, and optionally a password.\n")
      (ascii "usage: trit send <ip> <port> [password]\n")
  else
    let ip := args.getD 0 []
    if !isValidIpAddress ip then
      .exit 1 (ascii "trit: invalid IP address\n") (ascii "example: 192.168.1.10\n")
    else
      let portStr := args.getD 1 []
      if !Utils.isValidPort portStr then
        .exit 1 (ascii "trit: invalid port\n")
          (ascii "port must be a number between 49152 and 65535\n")
      else
        match Utils.stoi portStr with
        | .error e => .throws e
        | .ok port => .send ip (.ofNat (port % 2 ^ 16).toNat) (args.getD 2 [])

/-- `handle_receive`, up to the local address. -/
def handleReceive (args : List Bytes) : Invocation :=
  if 1 < args.length then
    .exit 1 (ascii "trit: 'receive' only optionally takes a password.\n")
      (ascii "usage: trit receive [password]\n")
  else .receive (args.getD 0 [])

/-- `command_dispatch_map`. -/
def commandDispatchMap (isValidIpAddress : Bytes → Bool) :
    List (Bytes × (List Bytes → Invocation)) :=
  [(ascii "add", handleAdd), (ascii "drop", handleDrop), (ascii "list", handleList),
    (ascii "clear", handleClear), (ascii "help", handleHelp),
    (ascii "send", handleSend isValidIpAddress), (ascii "receive", handleReceive)]

/-- `main`, with the arguments after the name of the program. -/
def main (isValidIpAddress : Bytes → Bool) : List Bytes → Invocation
  | [] => .exit 1 (ascii "trit: no command passed\n")
      (ascii "See 'trit help' for a list of commands.\n")
  | command :: commandArgs =>
      match (commandDispatchMap isValidIpAddress).lookup command with
      | some handler => handler commandArgs
      | none => .exit 1 (ascii "trit: unknown command '" ++ command ++ ascii "'\n")
          (ascii "See 'trit help' for a list of commands.\n")

/-! ### The port of the receiver -/

/-- `DEFAULT_RECEIVER_PORT`. -/
def defaultReceiverPort : UInt16 := 52525

/-- A value of `distribution(gen)`. -/
def Draw : Type := {n : ℕ // 49152 ≤ n ∧ n ≤ 65535}

/-- `generate_random_port`. -/
def generateRandomPort (draw : Draw) : UInt16 := .ofNat draw.1

/-- One round of the loop of `handle_receive`, with the port to try; the system says which ports are
available in this round. -/
def portRound (localPortAvailable : ℕ → UInt16 → Bool) (draws : ℕ → Draw) (s : ℕ × UInt16) :
    UInt16 ⊕ (ℕ × UInt16) :=
  if localPortAvailable s.1 s.2 then .inl s.2
  else .inr (s.1 + 1, generateRandomPort (draws s.1))

/-- The port that `handle_receive` listens on; `none` if so many rounds do not suffice. -/
def choosePort (localPortAvailable : ℕ → UInt16 → Bool) (draws : ℕ → Draw) (rounds : ℕ) :
    Option UInt16 :=
  TextInput.retry (portRound localPortAvailable draws) rounds (0, defaultReceiverPort)

/-- The port that is tried in a round. -/
def candidate (draws : ℕ → Draw) : ℕ → UInt16
  | 0 => defaultReceiverPort
  | k + 1 => generateRandomPort (draws k)

variable {localPortAvailable : ℕ → UInt16 → Bool} {draws : ℕ → Draw}

theorem toNat_generateRandomPort (draw : Draw) : (generateRandomPort draw).toNat = draw.1 :=
  UInt16.toNat_ofNat_of_lt' (by have := draw.2.2; show _ < 65536; omega)

/-- Every port that is tried is not reserved. -/
theorem candidate_bounds (draws : ℕ → Draw) (k : ℕ) :
    49152 ≤ (candidate draws k).toNat ∧ (candidate draws k).toNat ≤ 65535 := by
  cases k with
  | zero => exact ⟨by show 49152 ≤ 52525; omega, by show 52525 ≤ 65535; omega⟩
  | succ k =>
    rw [candidate, toNat_generateRandomPort]
    exact (draws k).2

theorem retry_portRound {rounds : ℕ} (start : ℕ) {port : UInt16} :
    TextInput.retry (portRound localPortAvailable draws) rounds (start, candidate draws start) =
        some port ↔
      ∃ k, start ≤ k ∧ k < start + rounds ∧ candidate draws k = port ∧
        localPortAvailable k port = true ∧
        ∀ j, start ≤ j → j < k → localPortAvailable j (candidate draws j) = false := by
  induction rounds generalizing start with
  | zero =>
    refine iff_of_false nofun ?_
    rintro ⟨k, hle, hlt, -⟩
    omega
  | succ rounds ih =>
    by_cases havail : localPortAvailable start (candidate draws start) = true
    · have hround : portRound localPortAvailable draws (start, candidate draws start) =
          .inl (candidate draws start) := if_pos havail
      rw [TextInput.retry_of_inl hround]
      constructor
      · intro h
        cases h
        exact ⟨start, le_rfl, by omega, rfl, havail, fun j hle hlt => by omega⟩
      · rintro ⟨k, hle, -, rfl, -, hbefore⟩
        rcases Nat.eq_or_lt_of_le hle with rfl | hlt
        · rfl
        · rw [hbefore start le_rfl hlt] at havail
          cases havail
    · have hround : portRound localPortAvailable draws (start, candidate draws start) =
          .inr (start + 1, candidate draws (start + 1)) := if_neg havail
      rw [TextInput.retry_of_inr hround]
      refine (ih (start + 1)).trans ⟨?_, ?_⟩
      · rintro ⟨k, hle, hlt, hport, hk, hbefore⟩
        refine ⟨k, by omega, by omega, hport, hk, fun j hj hjk => ?_⟩
        rcases Nat.eq_or_lt_of_le hj with rfl | hj
        · exact Bool.not_eq_true _ ▸ havail
        · exact hbefore j hj hjk
      · rintro ⟨k, hle, hlt, rfl, hk, hbefore⟩
        have hne : k ≠ start := by
          rintro rfl
          exact havail hk
        exact ⟨k, by omega, by omega, rfl, hk, fun j hj hjk => hbefore j (by omega) hjk⟩

/-- The loop ends with the first port that is available when it is tried. -/
theorem choosePort_eq_some_iff {rounds : ℕ} {port : UInt16} :
    choosePort localPortAvailable draws rounds = some port ↔
      ∃ k < rounds, candidate draws k = port ∧ localPortAvailable k port = true ∧
        ∀ j < k, localPortAvailable j (candidate draws j) = false := by
  refine (retry_portRound 0).trans ⟨?_, ?_⟩
  · rintro ⟨k, -, hlt, hport, hk, hbefore⟩
    exact ⟨k, by omega, hport, hk, fun j hj => hbefore j (Nat.zero_le j) hj⟩
  · rintro ⟨k, hlt, hport, hk, hbefore⟩
    exact ⟨k, Nat.zero_le k, by omega, hport, hk, fun j _ hj => hbefore j hj⟩

/-- Some port is found as soon as one is available when it is tried. -/
theorem exists_choosePort_iff :
    (∃ rounds port, choosePort localPortAvailable draws rounds = some port) ↔
      ∃ k, localPortAvailable k (candidate draws k) = true := by
  constructor
  · rintro ⟨rounds, port, h⟩
    obtain ⟨k, -, rfl, hk, -⟩ := choosePort_eq_some_iff.mp h
    exact ⟨k, hk⟩
  · intro h
    refine ⟨Nat.find h + 1, candidate draws (Nat.find h), choosePort_eq_some_iff.mpr
      ⟨Nat.find h, Nat.lt_succ_self _, rfl, Nat.find_spec h, fun j hj => ?_⟩⟩
    rw [← Bool.not_eq_true]
    exact Nat.find_min h hj

/-- The sender is called for a port if and only if a numeral of it was typed, and the address is
valid. -/
theorem main_send_iff {isValidIpAddress : Bytes → Bool} {ip portStr : Bytes}
    {password : Option Bytes} {port : UInt16} :
    main isValidIpAddress (ascii "send" :: ip :: portStr :: password.toList) =
        .send ip port (password.getD []) ↔
      isValidIpAddress ip = true ∧ Utils.Denotes portStr port.toNat ∧ 49152 ≤ port.toNat := by
  have hmain : main isValidIpAddress (ascii "send" :: ip :: portStr :: password.toList) =
      if !isValidIpAddress ip then
        .exit 1 (ascii "trit: invalid IP address\n") (ascii "example: 192.168.1.10\n")
      else if !Utils.isValidPort portStr then
        .exit 1 (ascii "trit: invalid port\n")
          (ascii "port must be a number between 49152 and 65535\n")
      else
        match Utils.stoi portStr with
        | .error e => .throws e
        | .ok port => .send ip (.ofNat (port % 2 ^ 16).toNat) (password.getD []) := by
    cases password <;> rfl
  rw [hmain]
  by_cases hip : isValidIpAddress ip = true
  · rw [hip, Bool.not_true, if_neg Bool.false_ne_true]
    by_cases hvalid : Utils.isValidPort portStr = true
    · obtain ⟨n, hn, hlow, hhigh⟩ := Utils.isValidPort_iff.mp hvalid
      rw [hvalid, Bool.not_true, if_neg Bool.false_ne_true, Utils.stoi_of_denotes hn (by omega)]
      have hcast : ((n : ℤ) % 2 ^ 16).toNat = n := by omega
      have hnarrow : (UInt16.ofNat n).toNat = n :=
        UInt16.toNat_ofNat_of_lt' (by show _ < 65536; omega)
      simp only [hcast, Invocation.send.injEq, true_and, and_true]
      constructor
      · rintro rfl
        rw [hnarrow]
        exact ⟨hn, hlow⟩
      · rintro ⟨hdenotes, -⟩
        rw [← UInt16.toNat_inj, hnarrow, ← hn.2.2, hdenotes.2.2]
    · rw [if_pos (by simpa using hvalid)]
      refine iff_of_false nofun ?_
      rintro ⟨-, hdenotes, hlow⟩
      have hhigh : port.toNat < 65536 := port.toNat_lt
      exact hvalid (Utils.isValidPort_iff.mpr ⟨_, hdenotes, hlow, by omega⟩)
  · rw [if_pos (by simpa using hip)]
    exact iff_of_false nofun fun h => hip h.1

theorem main_receive {isValidIpAddress : Bytes → Bool} (password : Option Bytes) :
    main isValidIpAddress (ascii "receive" :: password.toList) =
      .receive (password.getD []) := by
  cases password <;> rfl

/-- A receiver finds a port as soon as one that it tries is available.  With the port that it shows
and the same password the two command lines meet: the sender is called for this port if and only if
the string that is typed is a numeral of it, as the one that is shown is. -/
theorem ports_agree {isValidIpAddress : Bytes → Bool} {ip : Bytes}
    (hip : isValidIpAddress ip = true) (password : Option Bytes) :
    ((∃ rounds port, choosePort localPortAvailable draws rounds = some port) ↔
      ∃ k, localPortAvailable k (candidate draws k) = true) ∧
    ∀ rounds port, choosePort localPortAvailable draws rounds = some port →
      main isValidIpAddress (ascii "receive" :: password.toList) = .receive (password.getD []) ∧
      main isValidIpAddress (ascii "send" :: ip :: Numerals.decimal port.toNat ::
        password.toList) = .send ip port (password.getD []) ∧
      ∀ portStr, main isValidIpAddress (ascii "send" :: ip :: portStr :: password.toList) =
        .send ip port (password.getD []) ↔ Utils.Denotes portStr port.toNat := by
  refine ⟨exists_choosePort_iff, fun rounds port h => ?_⟩
  obtain ⟨k, -, rfl, -, -⟩ := choosePort_eq_some_iff.mp h
  have hlow := (candidate_bounds draws k).1
  refine ⟨main_receive password, main_send_iff.mpr ⟨hip, Utils.denotes_decimal _, hlow⟩,
    fun portStr => main_send_iff.trans ⟨fun h => h.2.1, fun h => ⟨hip, h, hlow⟩⟩⟩

/-- The default port is available. -/
theorem ports_agree_default : main (fun _ => true) [ascii "send", ascii "10.0.0.2",
    ascii "52525"] = .send (ascii "10.0.0.2") defaultReceiverPort [] := by
  have hagree := (@ports_agree (fun _ _ => true) (fun _ => ⟨49152, by decide⟩) (fun _ => true)
    (ascii "10.0.0.2") rfl none).2 1 defaultReceiverPort rfl
  have hshown : Numerals.decimal defaultReceiverPort.toNat = ascii "52525" := by decide
  rw [hshown] at hagree
  exact hagree.2.1

/-! ### Commands on the staging area -/

/-- The output of `staging::help`. -/
def helpText : Bytes :=
  ascii ("Commands:\n" ++
    "  trit add <file_pattern>...          Stage file(s) for transfer\n" ++
    "  trit drop <file_pattern>...         Unstage previously staged file(s)\n" ++
    "  trit list                           List currently staged files\n" ++
    "  trit send <ip> <port> [password]    Send a file transfer request to a receiver\n" ++
    "  trit receive [password]             Start listening for incoming file transfers\n\n" ++
    "  trit help                           Display this help message\n" ++
    "File pattern syntax:\n" ++
    "  *.ext           Matches all files with the given extension in the current directory\n" ++
    "  name.*          Matches all files with the given base name and any extension in the " ++
    "current directory\n" ++
    "  *               Matches all files in the current directory\n" ++
    "  **              Matches all files recursively in the current directory and " ++
    "subdirectories\n" ++
    "  path/to/*.ext   Matches all files with the given extension in the specified " ++
    "subdirectory\n" ++
    "  ?               Matches any single character (e.g., 'f?o.txt' matches 'foo.txt', " ++
    "'fao.txt')\n\n")

end CommandLine

open Staging

namespace Invocation

/-- The invocation does not use the network. -/
def isLocal : Invocation → Bool
  | .send _ _ _ => false
  | .receive _ => false
  | _ => true

/-- The set of staged files that the invocation leaves. -/
def evolve (w : WorkingTree) (S : Finset Bytes) : Invocation → Finset Bytes
  | .stage filePatterns => S ∪ w.filesToStage filePatterns
  | .unstage filePatterns => S \ S.filter (w.matching (w.normalizePatterns filePatterns) ·)
  | .clear => ∅
  | _ => S

variable {ι : Type} (w : WorkingTree) (hlines : ∀ e ∈ w.tree.entries, ∀ a ∈ e.1, 10 ∉ a) (p : ι)

/-- The relative paths of the staged files after the invocation, for somebody who has known them
before and sees the output only. -/
def observe (known : Finset Bytes) (cout : Bytes) : Invocation → Finset Bytes
  | .stage _ => known ∪ printedPaths cout
  | .unstage _ => if cout = [] then ∅ else known \ printedPaths cout
  | .clear => ∅
  | _ => known

/-- The invocation calls a function, and not one that uses the network. -/
def Runs : Invocation → Prop
  | .stage _ | .unstage _ | .list | .clear | .help => True
  | _ => False

/-- A process that executes a command on the staging area: its exit status, its output, and what it
leaves behind, if nobody interferes and all its operations succeed. -/
def returns (e : Enumeration) (fs : Option (Directory ι)) (c : Command) :
    Except Exception (ℕ × Bytes × Option (Directory ι)) :=
  let r := (Printing.script w.relative e c).runAloud (w.workingDirectory hlines) p fs
  r.2.map fun fs => (0, r.1, fs)

/-- A process that does not use the network. -/
def execute (e : Enumeration) (fs : Option (Directory ι)) :
    (i : Invocation) → i.isLocal = true → Except Exception (ℕ × Bytes × Option (Directory ι))
  | .stage filePatterns, _ =>
      returns w hlines p e fs (.add (w.matching (w.normalizePatterns filePatterns)))
  | .unstage filePatterns, _ =>
      returns w hlines p e fs (.drop (w.matching (w.normalizePatterns filePatterns)))
  | .list, _ => returns w hlines p e fs .list
  | .clear, _ => returns w hlines p e fs .clear
  | .help, _ => .ok (0, CommandLine.helpText, fs)
  | .exit status _ cout, _ => .ok (status, cout, fs)
  | .throws e, _ => .error e

variable {w hlines p}

theorem execute_of_eq {e : Enumeration} {fs : Option (Directory ι)} {i : Invocation} {status : ℕ}
    {cerr cout : Bytes} (h : i = .exit status cerr cout) (hi : i.isLocal = true) :
    i.execute w hlines p e fs hi = .ok (status, cout, fs) := by
  subst h
  rfl

end Invocation

namespace CommandLine

/-- A command line that is typed and does not use the network, and the order in which the process
goes through its sets. -/
structure Typed (isValidIpAddress : Bytes → Bool) where
  args : List Bytes
  enumeration : Enumeration
  isLocal : (main isValidIpAddress args).isLocal = true

/-- What the terminal shows of a process. -/
structure Shown where
  args : List Bytes
  status : ℕ
  cout : Bytes

variable {isValidIpAddress : Bytes → Bool} {ι : Type}

/-- Command lines that are typed one after the other. -/
def session (w : WorkingTree) (hlines : ∀ e ∈ w.tree.entries, ∀ a ∈ e.1, 10 ∉ a) (p : ι) :
    List (Typed isValidIpAddress) → Option (Directory ι) →
      Except Exception (List Shown × Option (Directory ι))
  | [], fs => .ok ([], fs)
  | l :: ls, fs => do
      let (status, cout, fs) ←
        (main isValidIpAddress l.args).execute w hlines p l.enumeration fs l.isLocal
      let (shown, fs) ← session w hlines p ls fs
      return (⟨l.args, status, cout⟩ :: shown, fs)

/-- What somebody who sees the terminal only knows about the staged files. -/
def observe (isValidIpAddress : Bytes → Bool) (known : Finset Bytes) (t : Shown) : Finset Bytes :=
  (main isValidIpAddress t.args).observe known t.cout

/-- The usage of a command that does not use the network. -/
def FitsUsage : List Bytes → Prop
  | [] => False
  | command :: commandArgs =>
      command ∈ [ascii "list", ascii "clear", ascii "help"] ∨
        command ∈ [ascii "add", ascii "drop"] ∧ commandArgs ≠ []

theorem main_cons (command : Bytes) (commandArgs : List Bytes) :
    main isValidIpAddress (command :: commandArgs) =
      if command = ascii "add" then handleAdd commandArgs
      else if command = ascii "drop" then handleDrop commandArgs
      else if command = ascii "list" then .list
      else if command = ascii "clear" then .clear
      else if command = ascii "help" then .help
      else if command = ascii "send" then handleSend isValidIpAddress commandArgs
      else if command = ascii "receive" then handleReceive commandArgs
      else .exit 1 (ascii "trit: unknown command '" ++ command ++ ascii "'\n")
          (ascii "See 'trit help' for a list of commands.\n") := by
  have hlookup : ∀ (key : Bytes) (handler : List Bytes → Invocation)
      (rest : List (Bytes × (List Bytes → Invocation))),
      ((key, handler) :: rest).lookup command =
        if command = key then some handler else rest.lookup command := by
    intro key handler rest
    rw [List.lookup_cons]
    by_cases h : command = key
    · rw [if_pos h, beq_iff_eq.mpr h]
    · rw [if_neg h, beq_eq_false_iff_ne.mpr h]
  rw [main, commandDispatchMap]
  simp only [hlookup, List.lookup_nil]
  split_ifs <;> rfl

/-- `handle_send` calls the sender or exits; it does not throw, since `is_valid_port` has read the
port before. -/
theorem handleSend_cases (args : List Bytes) :
    (∃ ip port password, handleSend isValidIpAddress args = .send ip port password) ∨
      ∃ cerr cout, handleSend isValidIpAddress args = .exit 1 cerr cout := by
  unfold handleSend
  dsimp only
  split_ifs with hlength hip hport
  · exact Or.inr ⟨_, _, rfl⟩
  · exact Or.inr ⟨_, _, rfl⟩
  · exact Or.inr ⟨_, _, rfl⟩
  · rw [Bool.not_eq_true, Bool.not_eq_false'] at hport
    obtain ⟨n, hn, -, hhigh⟩ := Utils.isValidPort_iff.mp hport
    rw [Utils.stoi_of_denotes hn (by omega)]
    exact Or.inl ⟨_, _, _, rfl⟩

/-- Without the network, arguments that fit the usage call a function, and others make the process
exit with status 1. -/
theorem main_of_isLocal {args : List Bytes} (h : (main isValidIpAddress args).isLocal = true) :
    (FitsUsage args ∧ (main isValidIpAddress args).Runs) ∨
      (¬ FitsUsage args ∧ ∃ cerr cout, main isValidIpAddress args = .exit 1 cerr cout) := by
  cases args with
  | nil => exact Or.inr ⟨id, _, _, rfl⟩
  | cons command commandArgs =>
    by_cases hpatterns : command ∈ [ascii "add", ascii "drop"]
    · have hother : command ∉ [ascii "list", ascii "clear", ascii "help"] := by
        simp only [List.mem_cons, List.not_mem_nil, or_false] at hpatterns
        rcases hpatterns with rfl | rfl <;> decide
      cases commandArgs with
      | nil =>
        refine Or.inr ⟨fun hfits => hfits.elim hother fun hfits => hfits.2 rfl, ?_⟩
        simp only [List.mem_cons, List.not_mem_nil, or_false] at hpatterns
        rcases hpatterns with rfl | rfl <;> exact ⟨_, _, rfl⟩
      | cons pattern patterns =>
        refine Or.inl ⟨Or.inr ⟨hpatterns, List.cons_ne_nil _ _⟩, ?_⟩
        simp only [List.mem_cons, List.not_mem_nil, or_false] at hpatterns
        rcases hpatterns with rfl | rfl <;> exact trivial
    · by_cases hother : command ∈ [ascii "list", ascii "clear", ascii "help"]
      · refine Or.inl ⟨Or.inl hother, ?_⟩
        simp only [List.mem_cons, List.not_mem_nil, or_false] at hother
        rcases hother with rfl | rfl | rfl <;> exact trivial
      · refine Or.inr ⟨fun hfits => hfits.elim hother fun hfits => hpatterns hfits.1, ?_⟩
        simp only [List.mem_cons, List.not_mem_nil, or_false, not_or] at hpatterns hother
        rw [main_cons, if_neg hpatterns.1, if_neg hpatterns.2, if_neg hother.1, if_neg hother.2.1,
          if_neg hother.2.2] at h ⊢
        split_ifs at h ⊢ with hsend hreceive
        · rcases handleSend_cases commandArgs with ⟨ip, port, password, heq⟩ | hexit
          · rw [heq] at h
            cases h
          · exact hexit
        · unfold handleReceive at h ⊢
          split_ifs at h ⊢
          · exact ⟨_, _, rfl⟩
          · cases h
        · exact ⟨_, _, rfl⟩

end CommandLine

namespace Staging

namespace WorkingTree

variable {w : WorkingTree} {path : Bytes}

theorem newline_notMem_relative (hlines : ∀ e ∈ w.tree.entries, ∀ a ∈ e.1, 10 ∉ a)
    (h : path ∈ w.getFilesInCwd) : 10 ∉ w.relative path := by
  obtain ⟨p, hp, hfile⟩ := canonical_of_collected h
  rw [relative_eq hp, relativeString]
  split_ifs
  · decide
  · intro hmem
    rcases mem_separated hmem with hslash | ⟨a, ha, hmem⟩
    · cases hslash
    · obtain ⟨part, hpart, rfl⟩ := List.mem_map.mp ha
      rcases List.mem_append.mp hpart with hpart | hpart
      · obtain rfl := List.eq_of_mem_replicate hpart
        revert hmem
        decide
      · obtain ⟨name, hname, rfl⟩ := List.mem_map.mp hpart
        exact hlines _ (FileTree.kind_eq_some.mp hfile) name (List.mem_of_mem_drop hname) hmem

/-- A pattern does not tell two links to one file apart. -/
theorem matching_congr {path' : Bytes} (h : path ∈ w.getFilesInCwd) (h' : path' ∈ w.getFilesInCwd)
    (heq : w.relative path = w.relative path') (filePatterns : List Bytes) :
    w.matching filePatterns path = w.matching filePatterns path' := by
  have hrelative : w.relativeToCwd path = w.relativeToCwd path' := by
    rw [relativeToCwd, relativeToCwd, (relative_eq_iff h h').mp heq]
  rw [matching, matching, hrelative]

/-- What a pattern takes from a set of files, it takes from their relative paths. -/
theorem image_sdiff_filter_matching {S : Finset Bytes} (hS : S ⊆ w.getFilesInCwd)
    (filePatterns : List Bytes) :
    (S \ S.filter (w.matching filePatterns ·)).image w.relative =
      S.image w.relative \ (S.filter (w.matching filePatterns ·)).image w.relative := by
  ext path
  simp only [Finset.mem_image, Finset.mem_sdiff, Finset.mem_filter, not_and]
  constructor
  · rintro ⟨file, ⟨hfile, hnot⟩, rfl⟩
    refine ⟨⟨file, hfile, rfl⟩, ?_⟩
    rintro ⟨file', ⟨hfile', hmatching⟩, heq⟩
    exact hnot hfile (matching_congr (hS hfile') (hS hfile) heq filePatterns ▸ hmatching)
  · rintro ⟨⟨file, hfile, rfl⟩, hnot⟩
    exact ⟨file, ⟨hfile, fun _ hmatching => hnot ⟨file, ⟨hfile, hmatching⟩, rfl⟩⟩, rfl⟩

end WorkingTree

namespace Settled

variable {ι : Type} {w : WorkingTree} {hlines : ∀ e ∈ w.tree.entries, ∀ a ∈ e.1, 10 ∉ a}
  {S : Finset Bytes} {fs : Option (Directory ι)} {p : ι} {e : Enumeration}

/-- A command returns, and leaves the staging area as it should be. -/
theorem returns (h : Settled (w.workingDirectory hlines) S fs) {c : Command}
    (hc : c.stages = true) :
    ∃ fs', Settled (w.workingDirectory hlines) (c.evolve w.getFilesInCwd S) fs' ∧
      Invocation.returns w hlines p e fs c = .ok (0, ((Printing.script w.relative e c).runAloud
        (w.workingDirectory hlines) p fs).1, fs') := by
  obtain ⟨fs', h', hrun⟩ := h.run (p := p) hc
  refine ⟨fs', h', ?_⟩
  rw [Invocation.returns, Script.runAloud_silent, Printing.silent_script hc, hrun]
  rfl

/-- An invocation returns, leaves the staging area as it should be, and its output says what has
become of the staged set. -/
theorem execute (h : Settled (w.workingDirectory hlines) S fs) {i : Invocation}
    (hi : i.isLocal = true) (hruns : i.Runs) :
    ∃ cout fs', i.execute w hlines p e fs hi = .ok (0, cout, fs') ∧
      Settled (w.workingDirectory hlines) (i.evolve w S) fs' ∧
      i.observe (S.image w.relative) cout = (i.evolve w S).image w.relative := by
  have hline : ∀ file ∈ (w.workingDirectory hlines).files, 10 ∉ w.relative file :=
    fun file hfile => WorkingTree.newline_notMem_relative hlines hfile
  cases i with
  | stage filePatterns =>
    obtain ⟨fs', h', hreturns⟩ := h.returns (p := p) (e := e)
      (c := .add (w.matching (w.normalizePatterns filePatterns))) rfl
    refine ⟨_, fs', hreturns, h', ?_⟩
    rw [Invocation.observe, Printing.script, h.printedPaths_stage hline, ← Finset.image_union,
      Finset.union_sdiff_self_eq_union]
    rfl
  | unstage filePatterns =>
    obtain ⟨fs', h', hreturns⟩ := h.returns (p := p) (e := e)
      (c := .drop (w.matching (w.normalizePatterns filePatterns))) rfl
    refine ⟨_, fs', hreturns, h', ?_⟩
    have hprinted := h.printedPaths_unstage (p := p) (e := e) hline
      (w.matching (w.normalizePatterns filePatterns))
    rw [Invocation.observe, Printing.script, Invocation.evolve]
    dsimp only at hprinted
    split_ifs at hprinted ⊢ with hnil
    · rw [hprinted, Finset.image_empty]
    · rw [hprinted, WorkingTree.image_sdiff_filter_matching h.subset]
  | list =>
    obtain ⟨fs', h', hreturns⟩ := h.returns (p := p) (e := e) (c := .list) rfl
    exact ⟨_, fs', hreturns, h', rfl⟩
  | clear =>
    obtain ⟨fs', h', hreturns⟩ := h.returns (p := p) (e := e) (c := .clear) rfl
    exact ⟨_, fs', hreturns, h', rfl⟩
  | help => exact ⟨_, fs, rfl, h, rfl⟩
  | _ => cases hruns

end Settled

end Staging

namespace CommandLine

open Staging

variable {isValidIpAddress : Bytes → Bool} {ι : Type} {w : WorkingTree}
  {hlines : ∀ e ∈ w.tree.entries, ∀ a ∈ e.1, 10 ∉ a} {p : ι} {S : Finset Bytes}
  {fs : Option (Directory ι)}

/-- The set that command lines leave. -/
def evolveAll (w : WorkingTree) (S : Finset Bytes) (ls : List (Typed isValidIpAddress)) :
    Finset Bytes :=
  ls.foldl (fun S l => (main isValidIpAddress l.args).evolve w S) S

theorem execute_line (h : Settled (w.workingDirectory hlines) S fs)
    (l : Typed isValidIpAddress) :
    ∃ status cout fs', (main isValidIpAddress l.args).execute w hlines p l.enumeration fs
        l.isLocal = .ok (status, cout, fs') ∧
      Settled (w.workingDirectory hlines) ((main isValidIpAddress l.args).evolve w S) fs' ∧
      (FitsUsage l.args ∧ status = 0 ∨ ¬ FitsUsage l.args ∧ status = 1) ∧
      observe isValidIpAddress (S.image w.relative) ⟨l.args, status, cout⟩ =
        ((main isValidIpAddress l.args).evolve w S).image w.relative := by
  have hlocal := l.isLocal
  unfold observe
  rcases main_of_isLocal hlocal with ⟨hfits, hruns⟩ | ⟨hfits, cerr, cout, hexit⟩
  · obtain ⟨cout, fs', hexecute, h', hobserve⟩ := h.execute (p := p) (e := l.enumeration) hlocal
      hruns
    exact ⟨0, cout, fs', hexecute, h', Or.inl ⟨hfits, rfl⟩, hobserve⟩
  · refine ⟨1, cout, fs, Invocation.execute_of_eq hexit hlocal, ?_, Or.inr ⟨hfits, rfl⟩, ?_⟩
    · rw [hexit]
      exact h
    · dsimp only
      rw [hexit]
      rfl

theorem run_session (h : Settled (w.workingDirectory hlines) S fs)
    (ls : List (Typed isValidIpAddress)) :
    ∃ shown fs', session w hlines p ls fs = .ok (shown, fs') ∧
      Settled (w.workingDirectory hlines) (evolveAll w S ls) fs' ∧
      List.Forall₂ (fun l t => t.args = l.args ∧
        (FitsUsage t.args ∧ t.status = 0 ∨ ¬ FitsUsage t.args ∧ t.status = 1)) ls shown ∧
      shown.foldl (observe isValidIpAddress) (S.image w.relative) =
        (evolveAll w S ls).image w.relative := by
  induction ls generalizing S fs with
  | nil => exact ⟨[], fs, rfl, h, .nil, rfl⟩
  | cons l ls ih =>
    obtain ⟨status, cout, fs₁, hexecute, h₁, hstatus, hobserve⟩ := execute_line (p := p) h l
    obtain ⟨shown, fs', hsession, h', hall, hrest⟩ := ih h₁
    refine ⟨⟨l.args, status, cout⟩ :: shown, fs', ?_, h', .cons ⟨rfl, hstatus⟩ hall, ?_⟩
    · rw [session, hexecute]
      simp only [bind, Except.bind, hsession]
      rfl
    · rw [List.foldl_cons, hobserve]
      exact hrest

/-- A directory is added, `drop` is typed without a pattern, and the files are listed. -/
def addDropList (e : Enumeration) : List (Typed fun _ => true) :=
  [⟨[ascii "add", ascii "a"], e, rfl⟩, ⟨[ascii "drop"], e, rfl⟩, ⟨[ascii "list"], e, rfl⟩]

end CommandLine

end Trit
