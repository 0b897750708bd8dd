import Mathlib.Computability.Language
import Mathlib.Tactic.Common

/-!
# Regular expressions

A part of the ECMAScript grammar, over bytes: characters, `.`, escaped characters, bracket
expressions without ranges, `*` behind one of these, `^` and `$`.  Groups, alternatives, other
quantifiers and escapes with a meaning of their own are left out.

* `Atom`, `Term`: the syntax;
* `parse`: the text of an expression, read character by character; `none` if it is no expression of
  this part of the grammar;
* `fullMatch`: whether the whole of a string matches;
* `fullMatch_anchored`: for terms without assertions between `^` and `$`, this is membership in a
  product of languages.
-/

namespace Regex

/-- What stands for one character. -/
inductive Atom
  /-- `.`: any character that does not end a line -/
  | any
  | char (c : UInt8)
  | oneOf (cs : List UInt8)
  | noneOf (cs : List UInt8)
  deriving DecidableEq

/-- A character that ends a line: a line feed or a carriage return. -/
def terminators : List UInt8 := [10, 13]

namespace Atom

def accepts : Atom → UInt8 → Bool
  | any, c => !terminators.contains c
  | char a, c => a == c
  | oneOf cs, c => cs.contains c
  | noneOf cs, c => !cs.contains c

end Atom

/-- A term: an assertion, an atom, or any number of characters of an atom. -/
inductive Term
  | start
  | finish
  | once (a : Atom)
  | many (a : Atom)
  deriving DecidableEq

/-! ### Reading an expression -/

/-- `isalnum` in the classic locale. -/
def isAlnum (c : UInt8) : Bool :=
  (48 ≤ c && c ≤ 57) || (65 ≤ c && c ≤ 90) || (97 ≤ c && c ≤ 122)

/-- Where the reader stands: between two terms, behind a backslash, behind an opening bracket, or
among the characters of a bracket expression. -/
inductive Mode
  | plain
  | escape
  | bracket
  | inside (negated : Bool) (cs : List UInt8)
  deriving DecidableEq

/-- The reader: where it stands, and the terms it has read, latest first. -/
structure Reader where
  mode : Mode
  terms : List Term
  deriving DecidableEq

/-- The characters with a meaning that is left out: `+?(){}|]`. -/
def reserved : List UInt8 := [43, 63, 40, 41, 123, 125, 124, 93]

/-- The characters that do not stand for themselves between brackets: `\`, `-`, `[`, `]`. -/
def bracketReserved : List UInt8 := [92, 45, 91, 93]

namespace Reader

/-- One character between two terms. -/
def plain (ts : List Term) (c : UInt8) : Option Reader :=
  if c = 94 then some ⟨.plain, .start :: ts⟩          -- `^`
  else if c = 36 then some ⟨.plain, .finish :: ts⟩    -- `$`
  else if c = 46 then some ⟨.plain, .once .any :: ts⟩ -- `.`
  else if c = 92 then some ⟨.escape, ts⟩              -- `\`
  else if c = 91 then some ⟨.bracket, ts⟩             -- `[`
  else if c = 42 then                                 -- `*`
    match ts with
    | .once a :: ts => some ⟨.plain, .many a :: ts⟩
    | _ => none
  else if c ∈ reserved then none
  else some ⟨.plain, .once (.char c) :: ts⟩

/-- One character. -/
def next (r : Reader) (c : UInt8) : Option Reader :=
  match r.mode with
  | .plain => plain r.terms c
  | .escape =>
      if isAlnum c then none else some ⟨.plain, .once (.char c) :: r.terms⟩
  | .bracket =>
      if c = 94 then some ⟨.inside true [], r.terms⟩
      else if c ∈ bracketReserved then none
      else some ⟨.inside false [c], r.terms⟩
  | .inside negated cs =>
      if c = 93 then
        some ⟨.plain, .once (if negated then .noneOf cs else .oneOf cs) :: r.terms⟩
      else if c ∈ bracketReserved then none
      else some ⟨.inside negated (cs ++ [c]), r.terms⟩

/-- A whole text. -/
def read (r : Reader) (text : List UInt8) : Option Reader := text.foldlM next r

theorem read_append (r : Reader) (text text' : List UInt8) :
    r.read (text ++ text') = (r.read text).bind fun r' => r'.read text' :=
  List.foldlM_append

theorem next_alnum {c : UInt8} (h : isAlnum c = true) (ts : List Term) :
    next ⟨.plain, ts⟩ c = some ⟨.plain, .once (.char c) :: ts⟩ := by
  have hne : ∀ d, isAlnum d = false → c ≠ d := by
    rintro d hd rfl
    rw [hd] at h
    cases h
  have hreserved : c ∉ reserved := fun hmem =>
    hne c ((by decide +kernel : ∀ d ∈ reserved, isAlnum d = false) c hmem) rfl
  show plain ts c = _
  unfold plain
  rw [if_neg (hne 94 rfl), if_neg (hne 36 rfl), if_neg (hne 46 rfl), if_neg (hne 92 rfl),
    if_neg (hne 91 rfl), if_neg (hne 42 rfl), if_neg hreserved]

theorem read_escape {c : UInt8} (h : isAlnum c = false) (ts : List Term) :
    read ⟨.plain, ts⟩ [92, c] = some ⟨.plain, .once (.char c) :: ts⟩ := by
  have hnext : next ⟨.escape, ts⟩ c = some ⟨.plain, .once (.char c) :: ts⟩ := by
    rw [next, if_neg (by simp [h])]
  show (next ⟨.escape, ts⟩ c).bind pure = _
  rw [hnext]
  rfl

end Reader

/-- The terms of an expression. -/
def parse (text : List UInt8) : Option (List Term) :=
  match Reader.read ⟨.plain, []⟩ text with
  | some ⟨.plain, ts⟩ => some ts.reverse
  | _ => none

/-! ### Matching -/

/-- Any number of characters that `p` accepts, and then what `k` accepts; `k` is told whether it
begins at the start of the string. -/
def manyThen (p : UInt8 → Bool) (k : Bool → List UInt8 → Bool) : Bool → List UInt8 → Bool
  | b, [] => k b []
  | b, c :: s => k b (c :: s) || (p c && manyThen p k false s)

/-- The rest of an expression against the rest of a string; `b` says that it is the whole
string. -/
def run : List Term → Bool → List UInt8 → Bool
  | [], _, s => s.isEmpty
  | .start :: ts, b, s => b && run ts b s
  | .finish :: ts, b, s => s.isEmpty && run ts b s
  | .once _ :: _, _, [] => false
  | .once a :: ts, _, c :: s => a.accepts c && run ts false s
  | .many a :: ts, b, s => manyThen a.accepts (run ts) b s

/-- `regex_match`: the whole string. -/
def fullMatch (ts : List Term) (s : List UInt8) : Bool := run ts true s

/-! ### The language of an expression -/

/-- The strings of characters that `p` accepts. -/
def every (p : UInt8 → Bool) : Language UInt8 := {s | ∀ c ∈ s, p c = true}

theorem nil_mem_every (p : UInt8 → Bool) : [] ∈ every p := fun _ hc => by cases hc

/-- What a term matches, if it is no assertion. -/
def Term.language : Term → Language UInt8
  | .once a => {s | ∃ c, a.accepts c = true ∧ s = [c]}
  | .many a => every a.accepts
  | .start | .finish => 1

/-- A term that is an assertion about a place in the string. -/
def Term.asserts : Term → Bool
  | .start | .finish => true
  | .once _ | .many _ => false

theorem manyThen_eq_true {p : UInt8 → Bool} {k : Bool → List UInt8 → Bool} {L : Language UInt8}
    (hk : ∀ b s, k b s = true ↔ s ∈ L) (b : Bool) (s : List UInt8) :
    manyThen p k b s = true ↔ s ∈ every p * L := by
  induction s generalizing b with
  | nil =>
    rw [manyThen, hk, Language.mem_mul]
    constructor
    · intro h
      exact ⟨[], nil_mem_every p, [], h, rfl⟩
    · rintro ⟨u, -, v, hv, huv⟩
      obtain ⟨rfl, rfl⟩ := List.append_eq_nil_iff.mp huv
      exact hv
  | cons c s ih =>
    rw [manyThen, Bool.or_eq_true, Bool.and_eq_true, hk, ih, Language.mem_mul, Language.mem_mul]
    constructor
    · rintro (h | ⟨hc, u, hu, v, hv, rfl⟩)
      · exact ⟨[], nil_mem_every p, c :: s, h, rfl⟩
      · refine ⟨c :: u, ?_, v, hv, rfl⟩
        intro d hd
        rcases List.mem_cons.mp hd with rfl | hd
        · exact hc
        · exact hu d hd
    · rintro ⟨u, hu, v, hv, huv⟩
      cases u with
      | nil =>
        obtain rfl : v = c :: s := huv
        exact Or.inl hv
      | cons d u =>
        obtain ⟨rfl, rfl⟩ := List.cons.inj huv
        exact Or.inr ⟨hu d List.mem_cons_self,
          u, fun e he => hu e (List.mem_cons_of_mem d he), v, hv, rfl⟩

/-- Terms without assertions before `$` match the product of their languages. -/
theorem run_finish {ts : List Term} (h : ∀ t ∈ ts, t.asserts = false) (b : Bool)
    (s : List UInt8) :
    run (ts ++ [.finish]) b s = true ↔ s ∈ (ts.map Term.language).prod := by
  induction ts generalizing b s with
  | nil => simp [run, Language.mem_one]
  | cons t ts ih =>
    have ih := ih fun u hu => h u (List.mem_cons_of_mem t hu)
    rw [List.map_cons, List.prod_cons]
    cases t with
    | start | finish => cases h _ List.mem_cons_self
    | once a =>
      rw [List.cons_append, Language.mem_mul]
      constructor
      · intro hrun
        cases s with
        | nil => cases hrun
        | cons c s =>
          rw [run, Bool.and_eq_true, ih] at hrun
          exact ⟨[c], ⟨c, hrun.1, rfl⟩, s, hrun.2, rfl⟩
      · rintro ⟨_, ⟨c, hc, rfl⟩, v, hv, rfl⟩
        rw [List.singleton_append, run, Bool.and_eq_true, ih]
        exact ⟨hc, hv⟩
    | many a => exact manyThen_eq_true ih b s

/-- A string matches terms between `^` and `$` if it is in the product of their languages. -/
theorem fullMatch_anchored {ts : List Term} (h : ∀ t ∈ ts, t.asserts = false) (s : List UInt8) :
    fullMatch (.start :: ts ++ [.finish]) s = true ↔ s ∈ (ts.map Term.language).prod := by
  rw [fullMatch, List.cons_append, run, Bool.true_and, run_finish h]

end Regex
