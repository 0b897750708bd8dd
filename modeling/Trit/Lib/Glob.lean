import Mathlib.Computability.Language
import Mathlib.Tactic.Common

/-!
# Glob patterns

Patterns with wildcards for paths, over an arbitrary alphabet: two stars for any string, one star
for any string without the separator, a question mark for one character.

* `Token`, `tokens`: the pieces of a pattern, from left to right;
* `language`: what a pattern matches, where the double star and the question mark stand for
  characters of a given set only;
* `language_append`: patterns that are put behind each other;
* `self_mem_language`: a pattern matches itself;
* `count_le_of_mem`: a string has all characters of a pattern that it matches, the wildcards apart.
-/

namespace Glob

variable {α : Type*}

/-- A piece of a pattern. -/
inductive Token (α : Type*)
  | deep
  | shallow
  | single
  | letter (a : α)
  deriving DecidableEq

/-- The characters with a meaning of their own. -/
structure Alphabet (α : Type*) where
  star : α
  mark : α
  separator : α
  star_ne_mark : star ≠ mark
  star_ne_separator : star ≠ separator
  mark_ne_separator : mark ≠ separator

variable [DecidableEq α] (A : Alphabet α)

/-- The piece that a character other than a star is. -/
def token (a : α) : Token α := if a = A.mark then .single else .letter a

/-- The pieces of a pattern: two stars are taken together, from left to right. -/
def tokens : List α → List (Token α)
  | [] => []
  | [a] => if a = A.star then [.shallow] else [token A a]
  | a :: b :: p =>
      if a = A.star then
        if b = A.star then .deep :: tokens p else .shallow :: tokens (b :: p)
      else token A a :: tokens (b :: p)

/-- What a piece matches; the double star and the question mark stand for characters in `dot`. -/
def Token.language (dot : Set α) : Token α → Language α
  | .deep => {s | ∀ c ∈ s, c ∈ dot}
  | .shallow => {s | A.separator ∉ s}
  | .single => {s | ∃ c ∈ dot, s = [c]}
  | .letter a => {[a]}

/-- What a pattern matches. -/
def language (dot : Set α) (p : List α) : Language α :=
  ((tokens A p).map (Token.language A dot)).prod

variable {A} {dot : Set α}

/-! ### The pieces -/

theorem tokens_star_star (p : List α) : tokens A (A.star :: A.star :: p) = .deep :: tokens A p := by
  rw [tokens, if_pos rfl, if_pos rfl]

theorem tokens_star {b : α} (h : b ≠ A.star) (p : List α) :
    tokens A (A.star :: b :: p) = .shallow :: tokens A (b :: p) := by
  rw [tokens, if_pos rfl, if_neg h]

theorem tokens_cons {a : α} (h : a ≠ A.star) (p : List α) :
    tokens A (a :: p) = token A a :: tokens A p := by
  cases p with
  | nil => simp [tokens, h]
  | cons b p => rw [tokens, if_neg h]

/-- A pattern is taken apart at a character that is no star. -/
theorem tokens_append (p : List α) {a : α} (h : a ≠ A.star) (q : List α) :
    tokens A (p ++ a :: q) = tokens A p ++ tokens A (a :: q) := by
  induction p using tokens.induct A with
  | case1 => rfl
  | case2 => exact (tokens_star h q).trans (by simp [tokens])
  | case3 b hb => exact (tokens_cons hb (a :: q)).trans (by simp [tokens, hb])
  | case4 p ih =>
    simp only [List.cons_append, tokens_star_star, ih]
  | case5 b p hb ih =>
    simp only [List.cons_append] at ih ⊢
    rw [tokens_star hb, tokens_star hb, ih, List.cons_append]
  | case6 b c p hb ih =>
    simp only [List.cons_append] at ih ⊢
    rw [tokens_cons hb, tokens_cons hb, ih, List.cons_append]

/-! ### What a pattern matches -/

theorem language_nil : language A dot [] = 1 := rfl

theorem language_cons {a : α} (h : a ≠ A.star) (p : List α) :
    language A dot (a :: p) = (token A a).language A dot * language A dot p := by
  rw [language, tokens_cons h, List.map_cons, List.prod_cons]
  rfl

theorem language_star_star (p : List α) :
    language A dot (A.star :: A.star :: p) =
      Token.language A dot .deep * language A dot p := by
  rw [language, tokens_star_star, List.map_cons, List.prod_cons]
  rfl

theorem language_star {b : α} (h : b ≠ A.star) (p : List α) :
    language A dot (A.star :: b :: p) =
      Token.language A dot .shallow * language A dot (b :: p) := by
  rw [language, tokens_star h, List.map_cons, List.prod_cons]
  rfl

theorem language_singleton_star :
    language A dot [A.star] = Token.language A dot .shallow := by
  simp [language, tokens]

theorem language_append (p : List α) {a : α} (h : a ≠ A.star) (q : List α) :
    language A dot (p ++ a :: q) = language A dot p * language A dot (a :: q) := by
  rw [language, tokens_append p h, List.map_append, List.prod_append]
  rfl

/-- Only the characters of a string say what the double star and the question mark stand for. -/
theorem mem_language_congr {dot' : Set α} {s : List α} (h : ∀ c ∈ s, c ∈ dot ↔ c ∈ dot')
    (p : List α) : s ∈ language A dot p ↔ s ∈ language A dot' p := by
  have htoken : ∀ (t : Token α) (u : List α), (∀ c ∈ u, c ∈ dot ↔ c ∈ dot') →
      (u ∈ t.language A dot ↔ u ∈ t.language A dot') := by
    intro t u hu
    cases t with
    | deep => exact forall₂_congr hu
    | shallow | letter a => exact Iff.rfl
    | single =>
      constructor
      · rintro ⟨c, hc, rfl⟩
        exact ⟨c, (hu c (List.mem_singleton_self c)).mp hc, rfl⟩
      · rintro ⟨c, hc, rfl⟩
        exact ⟨c, (hu c (List.mem_singleton_self c)).mpr hc, rfl⟩
  unfold language
  induction tokens A p generalizing s with
  | nil => exact Iff.rfl
  | cons t ts ih =>
    simp only [List.map_cons, List.prod_cons, Language.mem_mul]
    constructor
    · rintro ⟨u, hu, v, hv, rfl⟩
      have hleft := htoken t u fun c hc => h c (List.mem_append_left v hc)
      have hright := ih fun c hc => h c (List.mem_append_right u hc)
      exact ⟨u, hleft.mp hu, v, hright.mp hv, rfl⟩
    · rintro ⟨u, hu, v, hv, rfl⟩
      have hleft := htoken t u fun c hc => h c (List.mem_append_left v hc)
      have hright := ih fun c hc => h c (List.mem_append_right u hc)
      exact ⟨u, hleft.mpr hu, v, hright.mpr hv, rfl⟩

/-- A character without a meaning of its own. -/
def Plain (A : Alphabet α) (a : α) : Prop := a ≠ A.star ∧ a ≠ A.mark

instance (a : α) : Decidable (Plain A a) := inferInstanceAs (Decidable (_ ∧ _))

omit [DecidableEq α] in
theorem plain_separator : Plain A A.separator :=
  ⟨A.star_ne_separator.symm, A.mark_ne_separator.symm⟩

theorem language_plain_cons {a : α} (h : Plain A a) (p : List α) :
    language A dot (a :: p) = ({[a]} : Language α) * language A dot p := by
  rw [language_cons h.1, token, if_neg h.2]
  rfl

/-- What begins with plain characters matches only strings that begin with them. -/
theorem mem_language_plain_append {u : List α} (h : ∀ a ∈ u, Plain A a) (p s : List α) :
    s ∈ language A dot (u ++ p) ↔ ∃ v ∈ language A dot p, s = u ++ v := by
  induction u generalizing s with
  | nil => simp
  | cons a u ih =>
    have ih := ih fun b hb => h b (List.mem_cons_of_mem a hb)
    rw [List.cons_append, language_plain_cons (h a List.mem_cons_self), Language.mem_mul]
    constructor
    · rintro ⟨_, rfl, w, hw, rfl⟩
      obtain ⟨v, hv, rfl⟩ := (ih w).mp hw
      exact ⟨v, hv, rfl⟩
    · rintro ⟨v, hv, rfl⟩
      exact ⟨[a], rfl, u ++ v, (ih _).mpr ⟨v, hv, rfl⟩, rfl⟩

theorem mem_language_plain {u : List α} (h : ∀ a ∈ u, Plain A a) (s : List α) :
    s ∈ language A dot u ↔ s = u := by
  have happend : s ∈ language A dot (u ++ []) ↔ ∃ v ∈ language A dot [], s = u ++ v :=
    mem_language_plain_append h [] s
  rw [List.append_nil, language_nil] at happend
  rw [happend]
  simp [Language.mem_one]

/-- A pattern that is put behind another one with a separator between them. -/
theorem mem_language_separated (p q s : List α) :
    s ∈ language A dot (p ++ A.separator :: q) ↔
      ∃ u ∈ language A dot p, ∃ v ∈ language A dot q, s = u ++ A.separator :: v := by
  rw [language_append p plain_separator.1, language_plain_cons plain_separator, Language.mem_mul]
  constructor
  · rintro ⟨u, hu, w, hw, rfl⟩
    obtain ⟨_, rfl, v, hv, rfl⟩ := Language.mem_mul.mp hw
    exact ⟨u, hu, v, hv, rfl⟩
  · rintro ⟨u, hu, v, hv, rfl⟩
    exact ⟨u, hu, A.separator :: v, Language.mem_mul.mpr ⟨[A.separator], rfl, v, hv, rfl⟩, rfl⟩

omit [DecidableEq α] in
theorem singleton_mem_shallow : [A.star] ∈ Token.language A dot .shallow := by
  intro hsep
  exact A.star_ne_separator (List.mem_singleton.mp hsep).symm

theorem singleton_mem_token (hmark : A.mark ∈ dot) (a : α) :
    [a] ∈ (token A a).language A dot := by
  unfold token
  split_ifs with h
  · exact ⟨a, h ▸ hmark, rfl⟩
  · exact rfl

/-- A pattern matches itself. -/
theorem self_mem_language (hstar : A.star ∈ dot) (hmark : A.mark ∈ dot) (p : List α) :
    p ∈ language A dot p := by
  induction p using tokens.induct A with
  | case1 => exact Language.nil_mem_one
  | case2 =>
    rw [language_singleton_star]
    exact singleton_mem_shallow
  | case3 b hb =>
    rw [language_cons hb]
    exact Language.append_mem_mul (singleton_mem_token hmark b) Language.nil_mem_one
  | case4 p ih =>
    rw [language_star_star]
    have htwo : [A.star, A.star] ∈ Token.language A dot .deep := by
      intro c hc
      obtain rfl : c = A.star := by simpa using hc
      exact hstar
    exact Language.append_mem_mul htwo ih
  | case5 b p hb ih =>
    rw [language_star hb]
    exact Language.append_mem_mul singleton_mem_shallow ih
  | case6 b c p hb ih =>
    rw [language_cons hb]
    exact Language.append_mem_mul (singleton_mem_token hmark b) ih

/-! ### Characters that stand for themselves -/

theorem count_token_le {a b : α} {u : List α} (hb : Plain A b)
    (h : u ∈ (token A a).language A dot) : [a].count b ≤ u.count b := by
  unfold token at h
  split_ifs at h with ha
  · rw [ha, List.count_singleton, if_neg (by simpa using hb.2.symm)]
    exact Nat.zero_le _
  · obtain rfl : u = [a] := h
    exact le_refl _

/-- A string has all characters of a pattern that it matches, the wildcards apart. -/
theorem count_le_of_mem {b : α} (hb : Plain A b) {p s : List α} (h : s ∈ language A dot p) :
    p.count b ≤ s.count b := by
  induction p using tokens.induct A generalizing s with
  | case1 => exact Nat.zero_le _
  | case2 =>
    rw [List.count_singleton, if_neg (by simpa using hb.1.symm)]
    exact Nat.zero_le _
  | case3 c hc =>
    rw [language_cons hc] at h
    obtain ⟨u, hu, v, hv, rfl⟩ := Language.mem_mul.mp h
    rw [List.count_append]
    exact (count_token_le hb hu).trans (Nat.le_add_right _ _)
  | case4 p ih =>
    rw [language_star_star] at h
    obtain ⟨u, -, v, hv, rfl⟩ := Language.mem_mul.mp h
    rw [List.count_append, List.count_cons_of_ne hb.1.symm, List.count_cons_of_ne hb.1.symm]
    exact (ih hv).trans (Nat.le_add_left _ _)
  | case5 c p hc ih =>
    rw [language_star hc] at h
    obtain ⟨u, -, v, hv, rfl⟩ := Language.mem_mul.mp h
    rw [List.count_append, List.count_cons_of_ne hb.1.symm]
    exact (ih hv).trans (Nat.le_add_left _ _)
  | case6 c d p hc ih =>
    rw [language_cons hc] at h
    obtain ⟨u, hu, v, hv, rfl⟩ := Language.mem_mul.mp h
    rw [← List.singleton_append, List.count_append, List.count_append]
    exact Nat.add_le_add (count_token_le hb hu) (ih hv)

theorem mem_of_mem_language {b : α} (hb : Plain A b) {p s : List α} (hp : b ∈ p)
    (h : s ∈ language A dot p) : b ∈ s :=
  List.count_pos_iff.mp ((List.count_pos_iff.mpr hp).trans_le (count_le_of_mem hb h))

end Glob
