import Trit.Chunk
import Trit.Lib.Regex
import Trit.Lib.Glob

/-!
# File patterns

`file_pattern_to_regex`: how a pattern of the user becomes a regular expression.

* `filePatternToRegex`: the text of the expression;
* `regexMatch`: `std::regex_match` of a path against it;
* `globAlphabet`: the wildcards of a pattern;
* `parse_filePatternToRegex`: the text is an expression, one term for each piece of the pattern;
* `regexMatch_iff`: it matches what the pattern matches, where `.` stands for no line terminator;
* `glob_translation`: so on paths without line terminators the translation is correct.
-/

namespace Trit

open Regex Glob

namespace Staging

/-! ### The translation -/

/-- What is appended for a character that is no star. -/
def escaped (c : UInt8) : Bytes :=
  if c = 63 then [46]                 -- `?` becomes `.`
  else if c = 46 then [92, 46]        -- `.` becomes `\.`
  else if c = 47 then [47]            -- `/`
  else if c = 92 then [92, 92]        -- a backslash of the user
  else if isAlnum c then [c]
  else [92, c]

/-- `.*`, for two stars. -/
def deepText : Bytes := [46, 42]

/-- `[^/]*`, for one star. -/
def shallowText : Bytes := [91, 94, 47, 93, 42]

/-- The loop of `file_pattern_to_regex`. -/
def translated : Bytes → Bytes
  | [] => []
  | [c] => if c = 42 then shallowText else escaped c
  | c :: d :: rest =>
      if c = 42 then
        if d = 42 then deepText ++ translated rest else shallowText ++ translated (d :: rest)
      else escaped c ++ translated (d :: rest)

/-- `file_pattern_to_regex`. -/
def filePatternToRegex (filePattern : Bytes) : Bytes := [94] ++ translated filePattern ++ [36]

/-- `std::regex_match` of a string against `std::regex(text)`; `none` if the text is no regular
expression. -/
def regexMatch (s text : Bytes) : Option Bool := (parse text).map (fullMatch · s)

/-! ### The expression -/

/-- The wildcards of a pattern: `*` and `?`, with `/` between the names. -/
def globAlphabet : Alphabet UInt8 where
  star := 42
  mark := 63
  separator := 47
  star_ne_mark := by decide
  star_ne_separator := by decide
  mark_ne_separator := by decide

/-- The term for a piece of a pattern. -/
def tokenTerm : Token UInt8 → Term
  | .deep => .many .any
  | .shallow => .many (.noneOf [47])
  | .single => .once .any
  | .letter c => .once (.char c)

theorem read_escaped (c : UInt8) (ts : List Term) :
    Reader.read ⟨.plain, ts⟩ (escaped c) =
      some ⟨.plain, tokenTerm (token globAlphabet c) :: ts⟩ := by
  by_cases hmark : c = 63
  · rw [hmark]
    rfl
  have htoken : token globAlphabet c = .letter c := if_neg hmark
  rw [htoken, escaped, if_neg hmark]
  split_ifs with hdot hslash hbackslash halnum
  · rw [hdot]
    rfl
  · rw [hslash]
    rfl
  · rw [hbackslash]
    rfl
  · show (Reader.next ⟨.plain, ts⟩ c).bind pure = _
    rw [Reader.next_alnum halnum]
    rfl
  · exact Reader.read_escape (Bool.eq_false_iff.mpr halnum) ts

/-- The loop writes one term for each piece of the pattern. -/
theorem read_translated (p : Bytes) (ts : List Term) :
    Reader.read ⟨.plain, ts⟩ (translated p) =
      some ⟨.plain, ((tokens globAlphabet p).map tokenTerm).reverse ++ ts⟩ := by
  induction p using translated.induct generalizing ts with
  | case1 => rfl
  | case2 => rfl
  | case3 c hc =>
    have htokens : tokens globAlphabet [c] = [token globAlphabet c] := tokens_cons hc []
    rw [translated, if_neg hc, read_escaped, htokens]
    rfl
  | case4 rest ih =>
    have hdeep : Reader.read ⟨.plain, ts⟩ deepText = some ⟨.plain, .many .any :: ts⟩ := rfl
    have htokens : tokens globAlphabet (42 :: 42 :: rest) = .deep :: tokens globAlphabet rest :=
      tokens_star_star rest
    rw [translated, if_pos rfl, if_pos rfl, Reader.read_append, hdeep, Option.bind_some, ih,
      htokens, List.map_cons, List.reverse_cons, List.append_assoc]
    rfl
  | case5 d rest hd ih =>
    have hshallow : Reader.read ⟨.plain, ts⟩ shallowText =
        some ⟨.plain, .many (.noneOf [47]) :: ts⟩ := rfl
    have htokens : tokens globAlphabet (42 :: d :: rest) =
        .shallow :: tokens globAlphabet (d :: rest) := tokens_star hd rest
    rw [translated, if_pos rfl, if_neg hd, Reader.read_append, hshallow, Option.bind_some, ih,
      htokens, List.map_cons, List.reverse_cons, List.append_assoc]
    rfl
  | case6 c d rest hc ih =>
    have htokens : tokens globAlphabet (c :: d :: rest) =
        token globAlphabet c :: tokens globAlphabet (d :: rest) := tokens_cons hc _
    rw [translated, if_neg hc, Reader.read_append, read_escaped, Option.bind_some, ih,
      htokens, List.map_cons, List.reverse_cons, List.append_assoc]
    rfl

/-- The text is an expression, with one term for each piece of the pattern. -/
theorem parse_filePatternToRegex (p : Bytes) :
    parse (filePatternToRegex p) =
      some (.start :: (tokens globAlphabet p).map tokenTerm ++ [.finish]) := by
  have hread : Reader.read ⟨.plain, []⟩ (filePatternToRegex p) = some ⟨.plain,
      .finish :: (((tokens globAlphabet p).map tokenTerm).reverse ++ [.start])⟩ := by
    have hstart : Reader.read ⟨.plain, []⟩ [94] = some ⟨.plain, [.start]⟩ := rfl
    rw [filePatternToRegex, Reader.read_append, Reader.read_append, hstart, Option.bind_some,
      read_translated]
    rfl
  rw [parse, hread]
  simp

/-! ### What it matches -/

/-- The characters for which `.` stands. -/
def dots : Set UInt8 := {c | c ∉ terminators}

instance (c : UInt8) : Decidable (c ∈ dots) := inferInstanceAs (Decidable (c ∉ terminators))

theorem language_tokenTerm (t : Token UInt8) :
    (tokenTerm t).language = t.language globAlphabet dots := by
  ext s
  cases t with
  | deep => exact forall₂_congr fun c _ => by simp [Atom.accepts, dots]
  | shallow =>
    constructor
    · intro h hslash
      cases h 47 hslash
    · intro h c hc
      have hne : c ≠ 47 := by
        rintro rfl
        exact h hc
      simpa [Atom.accepts] using hne
  | single => exact exists_congr fun c => and_congr_left fun _ => by simp [Atom.accepts, dots]
  | letter a =>
    constructor
    · rintro ⟨c, hc, rfl⟩
      obtain rfl : a = c := eq_of_beq hc
      rfl
    · rintro rfl
      exact ⟨a, beq_self_eq_true a, rfl⟩

/-- The expression matches what the pattern matches. -/
theorem regexMatch_iff (p path : Bytes) :
    regexMatch path (filePatternToRegex p) = some true ↔
      path ∈ Glob.language globAlphabet dots p := by
  have hasserts : ∀ t ∈ (tokens globAlphabet p).map tokenTerm, t.asserts = false := by
    intro t ht
    obtain ⟨u, -, rfl⟩ := List.mem_map.mp ht
    cases u <;> rfl
  rw [regexMatch, parse_filePatternToRegex, Option.map_some, Option.some.injEq,
    fullMatch_anchored hasserts, Glob.language, List.map_map]
  have hlanguages : Term.language ∘ tokenTerm = Token.language globAlphabet dots :=
    funext language_tokenTerm
  rw [hlanguages]

/-- The translation of patterns is correct: every pattern becomes a regular expression, and a path
without line terminators matches it if and only if it matches the pattern.  This is the meaning of
the expression; an implementation of `std::regex` has limits on its size and on the depth of its
search, and they are left out. -/
theorem glob_translation {path : Bytes} (hpath : ∀ c ∈ path, c ∉ terminators) (p : Bytes) :
    ∃ b, regexMatch path (filePatternToRegex p) = some b ∧
      (b = true ↔ path ∈ Glob.language globAlphabet Set.univ p) := by
  obtain ⟨b, hb⟩ : ∃ b, regexMatch path (filePatternToRegex p) = some b :=
    ⟨_, by rw [regexMatch, parse_filePatternToRegex, Option.map_some]⟩
  refine ⟨b, hb, ?_⟩
  have hdots : ∀ c ∈ path, c ∈ dots ↔ c ∈ Set.univ :=
    fun c hc => iff_of_true (hpath c hc) (Set.mem_univ c)
  rw [← mem_language_congr hdots p, ← regexMatch_iff, hb, Option.some.injEq]

/-- `src/**.c` and the path `src/a/b.c`. -/
theorem glob_translation_source :
    ∃ b, regexMatch [115, 114, 99, 47, 97, 47, 98, 46, 99]
        (filePatternToRegex [115, 114, 99, 47, 42, 42, 46, 99]) = some b ∧
      (b = true ↔ [115, 114, 99, 47, 97, 47, 98, 46, 99] ∈
        Glob.language globAlphabet Set.univ [115, 114, 99, 47, 42, 42, 46, 99]) :=
  glob_translation (by decide +kernel) _

end Staging

end Trit
