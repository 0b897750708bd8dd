import Trit.Chunk
import Trit.Lib.TextInput

/-!
# Prompting

`utils::input` for characters and for lines: it asks until one of the expected values is entered.

* `inputChar`, `inputString`: the two specialisations, with a bound on the rounds of the loop;
* `Answers`, `AnswersLine`: the loop ends and returns an expected value that stands in the input;
* `prompts_iff`: when it does.
-/

namespace Trit

open TextInput

namespace Utils

/-- `isspace`, in the `C` locale. -/
def isSpace (c : UInt8) : Bool := c == 32 || (9 ≤ c && c ≤ 13)

/-- The condition for another round: there are expected values, and `std::find` finds none. -/
def unexpected {α : Type} [DecidableEq α] (expectedValues : List α) (input : α) : Bool :=
  !expectedValues.isEmpty && (expectedValues.find? (· = input)).isNone

theorem unexpected_iff {α : Type} [DecidableEq α] {expectedValues : List α} {input : α} :
    unexpected expectedValues input = true ↔ expectedValues ≠ [] ∧ input ∉ expectedValues := by
  have hnone : (∀ x ∈ expectedValues, ¬ x = input) ↔ input ∉ expectedValues :=
    ⟨fun h hin => h input hin rfl, fun h x hx heq => h (heq ▸ hx)⟩
  simp [unexpected, hnone]

/-- One round of the loop of `input<char>`: a failure clears the stream and skips a line. -/
def inputCharRound (expectedValues : List UInt8) (cin : TextInput UInt8) :
    UInt8 ⊕ TextInput UInt8 :=
  match cin.get isSpace with
  | (none, cin) => .inr (cin.clear.ignore 10)
  | (some input, cin) =>
      if unexpected expectedValues input then .inr cin else .inl input

/-- `input<char>`; `none` if so many rounds do not suffice. -/
def inputChar (expectedValues : List UInt8) (rounds : ℕ) (cin : TextInput UInt8) : Option UInt8 :=
  retry (inputCharRound expectedValues) rounds cin

/-- One round of the loop of `input<std::string>`, with the string that `getline` reads into. -/
def inputStringRound (expectedValues : List Bytes) (s : TextInput UInt8 × Bytes) :
    Bytes ⊕ (TextInput UInt8 × Bytes) :=
  let (input, cin) := s.1.getline 10 s.2
  if unexpected expectedValues input then .inr (cin, input) else .inl input

/-- `input<std::string>`. -/
def inputString (expectedValues : List Bytes) (rounds : ℕ) (cin : TextInput UInt8) :
    Option Bytes :=
  retry (inputStringRound expectedValues) rounds (cin, [])

/-- `input<char>` ends and returns an expected character of the input; it throws nothing, so it has
no other way to end. -/
def Answers (expectedValues : List UInt8) (content : Bytes) : Prop :=
  ∃ rounds input, inputChar expectedValues rounds (opened content) = some input ∧
    input ∈ expectedValues ∧ input ∈ content

/-- `input<std::string>` ends and returns an expected line of the input. -/
def AnswersLine (expectedValues : List Bytes) (content : Bytes) : Prop :=
  ∃ rounds input, inputString expectedValues rounds (opened content) = some input ∧
    input ∈ expectedValues ∧ input ∈ content.splitOn 10

/-! ### Characters -/

variable {expectedValues : List UInt8} {content : Bytes} {c : UInt8}

/-- While an expected character is left, the loop comes to one. -/
theorem answers_of_mem (hmem : c ∈ content) (hspace : ¬ isSpace c = true)
    (hexpected : c ∈ expectedValues) : Answers expectedValues content := by
  induction content with
  | nil => cases hmem
  | cons a content ih =>
    by_cases ha : isSpace a = true
    · -- the round is the one without the space
      have hround : inputCharRound expectedValues (opened (a :: content)) =
          inputCharRound expectedValues (opened content) := by
        rw [inputCharRound, inputCharRound, get_opened_space ha]
      have hne : c ≠ a := by
        rintro rfl
        exact hspace ha
      obtain ⟨rounds, input, hinput, hin, hcontent⟩ := ih (List.mem_of_ne_of_mem hne hmem)
      exact ⟨rounds, input, (retry_congr hround rounds).trans hinput, hin,
        List.mem_cons_of_mem a hcontent⟩
    · have hnonempty : expectedValues ≠ [] := List.ne_nil_of_mem hexpected
      by_cases hin : a ∈ expectedValues
      · have hround : inputCharRound expectedValues (opened (a :: content)) = .inl a := by
          rw [inputCharRound, get_opened_cons ha]
          exact if_neg fun h => (unexpected_iff.mp h).2 hin
        exact ⟨1, a, retry_of_inl hround 0, hin, List.mem_cons_self⟩
      · have hround : inputCharRound expectedValues (opened (a :: content)) =
            .inr (opened content) := by
          rw [inputCharRound, get_opened_cons ha]
          exact if_pos (unexpected_iff.mpr ⟨hnonempty, hin⟩)
        have hne : c ≠ a := by
          rintro rfl
          exact hin hexpected
        obtain ⟨rounds, input, hinput, hin, hcontent⟩ := ih (List.mem_of_ne_of_mem hne hmem)
        exact ⟨rounds + 1, input, (retry_of_inr hround rounds).trans hinput, hin,
          List.mem_cons_of_mem a hcontent⟩

/-- Without one it never ends: at the end of the input the stream is cleared, and fails again. -/
theorem inputChar_eq_none (hne : expectedValues ≠ [])
    (h : ∀ c ∈ content, isSpace c = true ∨ c ∉ expectedValues) (rounds : ℕ) :
    inputChar expectedValues rounds (opened content) = none := by
  refine retry_eq_none
    (I := fun cin => ∀ c ∈ cin.rest, isSpace c = true ∨ c ∉ expectedValues) ?_ h rounds
  intro cin hcin
  unfold inputCharRound
  cases hget : cin.get isSpace with
  | mk input cin' =>
    cases input with
    | none =>
      refine ⟨_, rfl, fun c hc => hcin c ?_⟩
      exact (rest_get_none hget).subset ((rest_ignore 10 cin'.clear).subset hc)
    | some a =>
      obtain ⟨spaces, hrest, ha⟩ := get_eq_some hget
      rw [hrest] at hcin
      rcases hcin a (by simp) with hspace | hnot
      · rw [hspace] at ha
        cases ha
      · exact ⟨cin', if_pos (unexpected_iff.mpr ⟨hne, hnot⟩), fun c hc => hcin c (by simp [hc])⟩

/-! ### Lines -/

variable {expectedStrings : List Bytes} {line : Bytes}

/-- While an expected line is left, the loop comes to one. -/
theorem answersLine_of_mem (old : Bytes) (hmem : line ∈ content.splitOn 10)
    (hexpected : line ∈ expectedStrings) :
    ∃ rounds input, retry (inputStringRound expectedStrings) rounds (opened content, old) =
      some input ∧ input ∈ expectedStrings ∧ input ∈ content.splitOn 10 := by
  induction hlength : content.length using Nat.strong_induction_on generalizing content old with
  | _ n ih =>
    have hnonempty : expectedStrings ≠ [] := List.ne_nil_of_mem hexpected
    rcases getline_opened 10 content old with ⟨hsep, hget⟩ | ⟨first, rest, rfl, hsep, hget⟩
    · rw [List.splitOn_eq_singleton hsep] at hmem ⊢
      obtain rfl := List.mem_singleton.mp hmem
      have hround : inputStringRound expectedStrings (opened line, old) = .inl line := by
        rw [inputStringRound, hget]
        exact if_neg fun h => (unexpected_iff.mp h).2 hexpected
      exact ⟨1, line, retry_of_inl hround 0, hexpected, List.mem_singleton_self line⟩
    · rw [List.splitOn_append_cons_self_of_not_mem hsep] at hmem ⊢
      by_cases hin : first ∈ expectedStrings
      · have hround : inputStringRound expectedStrings (opened (first ++ 10 :: rest), old) =
            .inl first := by
          rw [inputStringRound, hget]
          exact if_neg fun h => (unexpected_iff.mp h).2 hin
        exact ⟨1, first, retry_of_inl hround 0, hin, List.mem_cons_self⟩
      · have hround : inputStringRound expectedStrings (opened (first ++ 10 :: rest), old) =
            .inr (opened rest, first) := by
          rw [inputStringRound, hget]
          exact if_pos (unexpected_iff.mpr ⟨hnonempty, hin⟩)
        have hne : line ≠ first := by
          rintro rfl
          exact hin hexpected
        have hlt : rest.length < n := by
          rw [← hlength, List.length_append, List.length_cons]
          omega
        obtain ⟨rounds, input, hinput, hin, hcontent⟩ :=
          ih rest.length hlt first (List.mem_of_ne_of_mem hne hmem) rfl
        exact ⟨rounds + 1, input, (retry_of_inr hround rounds).trans hinput, hin,
          List.mem_cons_of_mem first hcontent⟩

/-- Without one it never ends: behind the end of the input the last line stays in the string. -/
theorem inputString_eq_none (hne : expectedStrings ≠ [])
    (h : ∀ line ∈ content.splitOn 10, line ∉ expectedStrings) (rounds : ℕ) :
    inputString expectedStrings rounds (opened content) = none := by
  refine retry_eq_none (I := fun s =>
    (∃ content, s.1 = opened content ∧ ∀ line ∈ content.splitOn 10, line ∉ expectedStrings) ∨
      s.1.good = false ∧ s.2 ∉ expectedStrings) ?_ (Or.inl ⟨content, rfl, h⟩) rounds
  rintro ⟨cin, old⟩ (⟨content, rfl, hcontent⟩ | ⟨hgood, hold⟩)
  · rcases getline_opened 10 content old with ⟨hsep, hget⟩ | ⟨first, rest, rfl, hsep, hget⟩
    · rw [List.splitOn_eq_singleton hsep] at hcontent
      have hnot := hcontent content (List.mem_singleton_self content)
      refine ⟨(⟨[], true, content.isEmpty⟩, content), ?_, Or.inr ⟨rfl, hnot⟩⟩
      rw [inputStringRound, hget]
      exact if_pos (unexpected_iff.mpr ⟨hne, hnot⟩)
    · rw [List.splitOn_append_cons_self_of_not_mem hsep] at hcontent
      have hnot := hcontent first List.mem_cons_self
      refine ⟨(opened rest, first), ?_,
        Or.inl ⟨rest, rfl, fun line hline => hcontent line (List.mem_cons_of_mem first hline)⟩⟩
      rw [inputStringRound, hget]
      exact if_pos (unexpected_iff.mpr ⟨hne, hnot⟩)
  · refine ⟨({ cin with fail := true }, old), ?_, Or.inr ⟨?_, hold⟩⟩
    · rw [inputStringRound, getline_of_not_good hgood]
      exact if_pos (unexpected_iff.mpr ⟨hne, hold⟩)
    · simp [good]

/-- When prompting ends: an expected character that is no space is entered; an expected line is
entered. -/
theorem prompts_iff (hchars : expectedValues ≠ []) (hstrings : expectedStrings ≠ [])
    (content : Bytes) :
    (Answers expectedValues content ↔
      ∃ c ∈ content, ¬ isSpace c = true ∧ c ∈ expectedValues) ∧
    (AnswersLine expectedStrings content ↔
      ∃ line ∈ content.splitOn 10, line ∈ expectedStrings) := by
  constructor
  · constructor
    · rintro ⟨rounds, input, hinput, -⟩
      by_contra hnone
      have hall : ∀ c ∈ content, isSpace c = true ∨ c ∉ expectedValues := by
        intro c hc
        by_contra hnot
        rw [not_or, not_not] at hnot
        exact hnone ⟨c, hc, hnot⟩
      rw [inputChar_eq_none hchars hall] at hinput
      cases hinput
    · rintro ⟨c, hc, hspace, hexpected⟩
      exact answers_of_mem hc hspace hexpected
  · constructor
    · rintro ⟨rounds, input, hinput, -⟩
      by_contra hnone
      rw [inputString_eq_none hstrings fun line hline hexpected => hnone ⟨line, hline, hexpected⟩]
        at hinput
      cases hinput
    · rintro ⟨line, hline, hexpected⟩
      exact answersLine_of_mem [] hline hexpected

/-- The prompt of the receiver, and the line `yes`. -/
theorem prompts_iff_request :
    (Answers [121, 110] [32, 121, 10] ↔
      ∃ c ∈ ([32, 121, 10] : Bytes), ¬ isSpace c = true ∧ c ∈ [121, 110]) ∧
    (AnswersLine [[121, 101, 115]] [32, 121, 10] ↔
      ∃ line ∈ List.splitOn 10 ([32, 121, 10] : Bytes), line ∈ [[121, 101, 115]]) :=
  prompts_iff (List.cons_ne_nil _ _) (List.cons_ne_nil _ _) _

/-- The prompt of the receiver does not end if there is no input. -/
theorem not_answers_nil : ¬ Answers [121, 110] [] := by
  rintro ⟨rounds, input, hinput, -⟩
  rw [inputChar_eq_none (by decide +kernel) (by decide +kernel)] at hinput
  cases hinput

end Utils

end Trit
