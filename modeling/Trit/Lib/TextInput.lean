import Mathlib.Data.List.TakeWhile
import Mathlib.Tactic.Common

/-!
# Text input

An input stream over an arbitrary alphabet, with the flags that every extraction looks at and sets,
and loops that read from it until a value is accepted.

* `TextInput`: what has not been read yet, and the flags;
* `get`, `getline`, `clear`, `ignore`: the operations, each with its sentry;
* `getline_opened`: what is read from a good stream, up to a separator or to the end;
* `retry`: a loop without a bound; `retry_eq_none` proves that it does not end, from a set of states
  that it cannot leave.
-/

/-- An input stream: what has not been read, whether the end has been seen, and whether an
extraction has failed. -/
structure TextInput (α : Type*) where
  rest : List α
  eof : Bool
  fail : Bool
  deriving DecidableEq

namespace TextInput

variable {α : Type*}

/-- A stream before the first extraction. -/
def opened (content : List α) : TextInput α := ⟨content, false, false⟩

/-- No flag is set. -/
def good (s : TextInput α) : Bool := !s.eof && !s.fail

/-- The extraction of one character that is no space, if there is one. -/
def get (space : α → Bool) (s : TextInput α) : Option α × TextInput α :=
  if s.good then
    match s.rest.dropWhile space with
    | [] => (none, ⟨[], true, true⟩)
    | c :: rest => (some c, opened rest)
  else (none, { s with fail := true })

/-- All flags are reset. -/
def clear (s : TextInput α) : TextInput α := opened s.rest

/-- The rest of a line is skipped, with the separator. -/
def ignore [DecidableEq α] (sep : α) (s : TextInput α) : TextInput α :=
  if s.good then
    match s.rest.dropWhile (· ≠ sep) with
    | [] => ⟨[], true, false⟩
    | _ :: rest => opened rest
  else { s with fail := true }

/-- The extraction of a line into a string; the string stays as it was if the stream is not good.
At the end of the input it fails if there is nothing to extract. -/
def getline [DecidableEq α] (sep : α) (s : TextInput α) (old : List α) :
    List α × TextInput α :=
  if s.good then
    match s.rest.dropWhile (· ≠ sep) with
    | [] => (s.rest, ⟨[], true, s.rest.isEmpty⟩)
    | _ :: rest => (s.rest.takeWhile (· ≠ sep), opened rest)
  else (old, { s with fail := true })

theorem get_opened_space {space : α → Bool} {a : α} (h : space a = true) (l : List α) :
    (opened (a :: l)).get space = (opened l).get space := by
  simp [get, good, opened, List.dropWhile_cons_of_pos h]

theorem get_opened_cons {space : α → Bool} {a : α} (h : ¬ space a = true) (l : List α) :
    (opened (a :: l)).get space = (some a, opened l) := by
  simp [get, good, opened, List.dropWhile_cons_of_neg h]

/-- Whatever the flags are, a character that is extracted was in front of what is left, but for
spaces. -/
theorem get_eq_some {space : α → Bool} {s t : TextInput α} {a : α}
    (h : s.get space = (some a, t)) :
    ∃ spaces, s.rest = spaces ++ a :: t.rest ∧ space a = false := by
  unfold get at h
  split at h
  · split at h
    · cases h
    · rename_i c rest hdrop
      cases h
      have hsplit := List.takeWhile_append_dropWhile (p := space) (l := s.rest)
      rw [hdrop] at hsplit
      have hhead := List.head_dropWhile_not space (l := s.rest) (by simp [hdrop])
      simp only [hdrop, List.head_cons] at hhead
      exact ⟨_, hsplit.symm, hhead⟩
  · cases h

/-- An extraction that fails leaves a part of what was there. -/
theorem rest_get_none {space : α → Bool} {s t : TextInput α} (h : s.get space = (none, t)) :
    t.rest <:+ s.rest := by
  unfold get at h
  split at h
  · split at h
    · cases h
      exact List.nil_suffix
    · cases h
  · cases h
    exact List.suffix_rfl

variable [DecidableEq α] {sep : α}

theorem rest_ignore (sep : α) (s : TextInput α) : (s.ignore sep).rest <:+ s.rest := by
  unfold ignore
  split
  · split
    · exact List.nil_suffix
    · rename_i rest hdrop
      have hsuffix := List.dropWhile_suffix (l := s.rest) (· ≠ sep)
      rw [hdrop] at hsuffix
      exact (List.suffix_cons _ _).trans hsuffix
  · exact List.suffix_rfl

/-- What is read from a good stream: up to a separator, or to the end. -/
theorem getline_opened (sep : α) (content old : List α) :
    (sep ∉ content ∧
      (opened content).getline sep old = (content, ⟨[], true, content.isEmpty⟩)) ∨
    ∃ line rest, content = line ++ sep :: rest ∧ sep ∉ line ∧
      (opened content).getline sep old = (line, opened rest) := by
  have hsplit := List.takeWhile_append_dropWhile (p := (· ≠ sep)) (l := content)
  cases hdrop : content.dropWhile (· ≠ sep) with
  | nil =>
    rw [hdrop, List.append_nil] at hsplit
    refine Or.inl ⟨fun hmem => ?_, ?_⟩
    · rw [← hsplit] at hmem
      have hne := List.mem_takeWhile_imp hmem
      simp at hne
    · simp only [getline, good, opened, hdrop]
      rfl
  | cons c rest =>
    have hhead := List.head_dropWhile_not (· ≠ sep) (l := content)
      (by rw [hdrop]; exact List.cons_ne_nil _ _)
    simp only [hdrop, List.head_cons, decide_eq_false_iff_not, not_not] at hhead
    obtain rfl : c = sep := hhead
    rw [hdrop] at hsplit
    refine Or.inr ⟨_, rest, hsplit.symm, fun hmem => ?_, ?_⟩
    · have hne := List.mem_takeWhile_imp hmem
      simp at hne
    · simp only [getline, good, opened, hdrop]
      rfl

theorem getline_of_not_good {s : TextInput α} (h : s.good = false) (old : List α) :
    s.getline sep old = (old, { s with fail := true }) := by
  rw [getline, h]
  rfl

/-! ### Loops -/

variable {σ β : Type*} {body : σ → β ⊕ σ}

/-- A loop that goes on until its body gives a result; `none` if so many rounds do not suffice. -/
def retry (body : σ → β ⊕ σ) : ℕ → σ → Option β
  | 0, _ => none
  | n + 1, s =>
      match body s with
      | .inl b => some b
      | .inr t => retry body n t

theorem retry_of_inl {s : σ} {b : β} (h : body s = .inl b) (n : ℕ) :
    retry body (n + 1) s = some b := by
  rw [retry, h]

theorem retry_of_inr {s t : σ} (h : body s = .inr t) (n : ℕ) :
    retry body (n + 1) s = retry body n t := by
  rw [retry, h]

theorem retry_congr {s t : σ} (h : body s = body t) (n : ℕ) : retry body n s = retry body n t := by
  cases n with
  | zero => rfl
  | succ n => rw [retry, retry, h]

/-- The loop does not end if there is no result in a set of states that the body cannot leave. -/
theorem retry_eq_none {I : σ → Prop} (hI : ∀ s, I s → ∃ t, body s = .inr t ∧ I t) {s : σ} (hs : I s)
    (n : ℕ) : retry body n s = none := by
  induction n generalizing s with
  | zero => rfl
  | succ n ih =>
    obtain ⟨t, ht, hIt⟩ := hI s hs
    rw [retry_of_inr ht, ih hIt]

end TextInput
