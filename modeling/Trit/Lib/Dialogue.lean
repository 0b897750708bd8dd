import Trit.Lib.Transition
import Mathlib.Tactic.SplitIfs

/-!
# Dialogues

Programs that talk over a stream of symbols: they read a given number of symbols, blocking until
these have arrived, and write labelled messages.

* `Dialogue`, `bind`: the programs, and one after the other;
* `Party`, `Party.step`: a program while the symbols that its peer sends arrive one by one, until
  the connection breaks;
* `Silent`: given what the peer sends, the program writes nothing under certain labels;
  `silent_iff` says that this is so if and only if no run does;
* `Follows`: whatever it reads, the program writes the messages of a script; `Follows.of_reach` says
  so of every run that has not failed;
* `feed`: the end of a program whose peer sends a list of symbols and then closes the stream.
-/

/-- A program that talks over a stream of symbols `β`; `ε` are its exceptions, `ℓ` the labels of
its messages. -/
inductive Dialogue (β ε ℓ α : Type)
  | done (a : α)
  | throw (e : ε)
  | read (n : ℕ) (k : List β → Dialogue β ε ℓ α)
  | write (label : ℓ) (message : List β) (k : Dialogue β ε ℓ α)

namespace Dialogue

open Transition

variable {β ε ℓ α γ : Type}

/-- One program after the other. -/
def bind : Dialogue β ε ℓ α → (α → Dialogue β ε ℓ γ) → Dialogue β ε ℓ γ
  | .done a, f => f a
  | .throw e, _ => .throw e
  | .read n k, f => .read n fun symbols => (k symbols).bind f
  | .write label message k, f => .write label message (k.bind f)

/-- A computation without messages. -/
def ofExcept : Except ε α → Dialogue β ε ℓ α
  | .ok a => .done a
  | .error e => .throw e

/-! ### A program and its peer -/

/-- A program, the symbols that have arrived and are not read yet, those that the peer will send,
and the messages written so far. -/
structure Party (β ε ℓ α : Type) where
  todo : Dialogue β ε ℓ α
  inbox : List β
  coming : List β
  written : List (ℓ × List β)

/-- What can happen: the program goes on, a symbol arrives, or the connection breaks after `n`
symbols of a message. -/
inductive Event (ε : Type)
  | next
  | arrive
  | broken (n : ℕ) (e : ε)

namespace Party

/-- The start of a program whose peer will send `coming`. -/
def start (d : Dialogue β ε ℓ α) (coming : List β) : Party β ε ℓ α := ⟨d, [], coming, []⟩

/-- One event. -/
def step (s : Party β ε ℓ α) : Event ε → Option (Party β ε ℓ α)
  | .next =>
      match s.todo with
      | .write label message k =>
          some { s with todo := k, written := s.written ++ [(label, message)] }
      | .read n k =>
          if n ≤ s.inbox.length then
            some { s with todo := k (s.inbox.take n), inbox := s.inbox.drop n }
          else none
      | _ => none
  | .arrive =>
      match s.coming with
      | b :: rest => some { s with inbox := s.inbox ++ [b], coming := rest }
      | [] => none
  | .broken n e =>
      match s.todo with
      | .write label message _ =>
          some { s with todo := .throw e, written := s.written ++ [(label, message.take n)] }
      | .read _ _ => some { s with todo := .throw e }
      | _ => none

variable {s t : Party β ε ℓ α}

theorem todo_of_done {x : α} {a : Event ε} (hs : s.todo = .done x) (h : s.step a = some t) :
    t.todo = .done x := by
  obtain ⟨todo, inbox, coming, written⟩ := s
  subst hs
  cases a with
  | arrive =>
    cases coming with
    | nil => cases h
    | cons b rest =>
      cases h
      rfl
  | _ => cases h

/-- Everything that the peer sends can arrive at once. -/
theorem reach_arrived (s : Party β ε ℓ α) :
    Reach step any s { s with inbox := s.inbox ++ s.coming, coming := [] } := by
  obtain ⟨todo, inbox, coming, written⟩ := s
  induction coming generalizing inbox with
  | nil =>
    show Reach step any _ ⟨todo, inbox ++ [], [], written⟩
    rw [List.append_nil]
  | cons b rest ih =>
    have hrest := ih (inbox ++ [b])
    rw [List.append_assoc, List.singleton_append] at hrest
    exact Reach.head (a := .arrive) trivial rfl hrest

end Party

/-! ### What a program does not write -/

/-- When it reads the given symbols, the program writes nothing under the labels `P`. -/
def Silent (P : ℓ → Prop) : Dialogue β ε ℓ α → List β → Prop
  | .done _, _ | .throw _, _ => True
  | .read n k, input => n ≤ input.length → (k (input.take n)).Silent P (input.drop n)
  | .write label message k, input => (P label → message = []) ∧ k.Silent P input

/-- Nothing has been written under the labels `P`. -/
def Party.Kept (P : ℓ → Prop) (s : Party β ε ℓ α) : Prop :=
  ∀ w ∈ s.written, P w.1 → w.2 = []

theorem Silent.step {P : ℓ → Prop} {s t : Party β ε ℓ α} {a : Event ε}
    (hs : s.todo.Silent P (s.inbox ++ s.coming)) (hk : s.Kept P) (h : s.step a = some t) :
    t.todo.Silent P (t.inbox ++ t.coming) ∧ t.Kept P := by
  obtain ⟨todo, inbox, coming, written⟩ := s
  have hwritten : ∀ label message, (P label → message = []) →
      ∀ w ∈ written ++ [(label, message)], P w.1 → w.2 = [] := by
    intro label message hmessage w hw
    rcases List.mem_append.mp hw with hw | hw
    · exact hk w hw
    · rw [List.mem_singleton] at hw
      rw [hw]
      exact hmessage
  cases a with
  | next =>
    cases todo with
    | write label message k =>
      cases h
      exact ⟨hs.2, hwritten label message hs.1⟩
    | read n k =>
      simp only [Party.step] at h
      split_ifs at h with hn
      cases h
      have hlen : n ≤ (inbox ++ coming).length := by
        rw [List.length_append]
        omega
      have hrest := hs hlen
      rw [List.take_append_of_le_length hn, List.drop_append_of_le_length hn] at hrest
      exact ⟨hrest, hk⟩
    | _ => cases h
  | arrive =>
    cases coming with
    | nil => cases h
    | cons b rest =>
      cases h
      refine ⟨?_, hk⟩
      show todo.Silent P (inbox ++ [b] ++ rest)
      rw [List.append_assoc]
      exact hs
  | broken n e =>
    cases todo with
    | write label message k =>
      cases h
      refine ⟨trivial, hwritten label _ fun hP => ?_⟩
      rw [hs.1 hP]
      exact List.take_nil
    | read m k =>
      cases h
      exact ⟨trivial, hk⟩
    | _ => cases h

/-- A program that no run takes to a message is silent. -/
theorem silent_of_reach {P : ℓ → Prop} (d : Dialogue β ε ℓ α) (inbox coming : List β)
    (written : List (ℓ × List β))
    (h : ∀ t, Reach Party.step any ⟨d, inbox, coming, written⟩ t → t.Kept P) :
    d.Silent P (inbox ++ coming) := by
  induction d generalizing inbox coming written with
  | done a => trivial
  | throw e => trivial
  | read n k ih =>
    intro hn
    have harrived := Party.reach_arrived ⟨.read n k, inbox, coming, written⟩
    have hnext : Party.step ⟨.read n k, inbox ++ coming, [], written⟩ (.next : Event ε) =
        some ⟨k ((inbox ++ coming).take n), (inbox ++ coming).drop n, [], written⟩ := if_pos hn
    have hread := harrived.tail trivial hnext
    have hrest := ih _ _ [] _ fun t ht => h t (hread.trans ht)
    rwa [List.append_nil] at hrest
  | write label message k ih =>
    have hwrite : Reach Party.step any (⟨.write label message k, inbox, coming, written⟩ :
        Party β ε ℓ α) ⟨k, inbox, coming, written ++ [(label, message)]⟩ :=
      Reach.single (a := .next) trivial rfl
    refine ⟨?_, ih inbox coming _ fun t ht => h t (hwrite.trans ht)⟩
    exact h _ hwrite (label, message) (by simp)

/-- A program writes nothing under the labels `P` in any run if and only if it is silent when it
reads what its peer sends. -/
theorem silent_iff {P : ℓ → Prop} {d : Dialogue β ε ℓ α} {coming : List β} :
    (∀ s, Reach Party.step any (Party.start d coming) s → s.Kept P) ↔ d.Silent P coming := by
  constructor
  · exact silent_of_reach d [] coming []
  · intro hs s h
    have hstart : Party.Kept P (Party.start d coming) := by
      intro w hw
      cases hw
    exact (h.invariant (I := fun s => s.todo.Silent P (s.inbox ++ s.coming) ∧ s.Kept P)
      (fun _ _ _ hi _ hstep => hi.1.step hi.2 hstep) ⟨hs, hstart⟩).2

/-! ### What a program writes -/

/-- Whatever it reads, the program writes the messages of a script; where it returns `a` and has not
written the messages `rest`, `R a rest` holds. -/
def Follows (R : α → List (ℓ × List β) → Prop) :
    Dialogue β ε ℓ α → List (ℓ × List β) → Prop
  | .done a, rest => R a rest
  | .throw _, _ => True
  | .read _ k, rest => ∀ symbols, (k symbols).Follows R rest
  | .write label message k, rest => ∃ rest', rest = (label, message) :: rest' ∧ k.Follows R rest'

theorem Follows.bind {R : γ → List (ℓ × List β) → Prop} {f : α → Dialogue β ε ℓ γ}
    {d : Dialogue β ε ℓ α} {script : List (ℓ × List β)}
    (h : d.Follows (fun a rest => (f a).Follows R rest) script) : (d.bind f).Follows R script := by
  induction d generalizing script with
  | done a => exact h
  | throw e => trivial
  | read n k ih => exact fun symbols => ih symbols (h symbols)
  | write label message k ih =>
    obtain ⟨rest, rfl, h⟩ := h
    exact ⟨rest, rfl, ih h⟩

/-- An exception has ended the program. -/
def Party.Failed (s : Party β ε ℓ α) : Prop := ∃ e, s.todo = .throw e

theorem Party.not_failed_of_done {s : Party β ε ℓ α} {x : α} (h : s.todo = .done x) :
    ¬ s.Failed := by
  rintro ⟨e, he⟩
  rw [h] at he
  cases he

/-- What has been written is the beginning of the script, and the program follows the rest. -/
def Party.OnScript (R : α → List (ℓ × List β) → Prop) (script : List (ℓ × List β))
    (s : Party β ε ℓ α) : Prop :=
  ∃ rest, script = s.written ++ rest ∧ s.todo.Follows R rest

/-- Every event that does not end the program keeps it on its script. -/
theorem Party.OnScript.step {R : α → List (ℓ × List β) → Prop} {script : List (ℓ × List β)}
    {s t : Party β ε ℓ α} {a : Event ε} (hi : s.Failed ∨ s.OnScript R script)
    (h : s.step a = some t) : t.Failed ∨ t.OnScript R script := by
  obtain ⟨todo, inbox, coming, written⟩ := s
  cases a with
  | next =>
    cases todo with
    | write label message k =>
      cases h
      rcases hi with ⟨e, he⟩ | ⟨rest, hscript, rest', rfl, hfollows⟩
      · cases he
      · refine Or.inr ⟨rest', ?_, hfollows⟩
        rw [List.append_assoc]
        exact hscript
    | read n k =>
      simp only [Party.step] at h
      split_ifs at h with hn
      cases h
      rcases hi with ⟨e, he⟩ | ⟨rest, hscript, hfollows⟩
      · cases he
      · exact Or.inr ⟨rest, hscript, hfollows _⟩
    | _ => cases h
  | arrive =>
    cases coming with
    | nil => cases h
    | cons b rest =>
      cases h
      exact hi
  | broken n e =>
    cases todo with
    | write label message k =>
      cases h
      exact Or.inl ⟨e, rfl⟩
    | read m k =>
      cases h
      exact Or.inl ⟨e, rfl⟩
    | _ => cases h

/-- In every run that has not failed, the program is on its script. -/
theorem Follows.of_reach {R : α → List (ℓ × List β) → Prop} {script : List (ℓ × List β)}
    {d : Dialogue β ε ℓ α} {coming : List β} {ok : Party β ε ℓ α → Event ε → Prop}
    {s : Party β ε ℓ α} (hd : d.Follows R script) (h : Reach Party.step ok (Party.start d coming) s)
    (hs : ¬ s.Failed) : s.OnScript R script := by
  have hstart : (Party.start d coming).OnScript R script := ⟨script, rfl, hd⟩
  exact (h.invariant (I := fun s => s.Failed ∨ s.OnScript R script)
    (fun _ _ _ hi _ hstep => Party.OnScript.step hi hstep) (Or.inr hstart)).resolve_left hs

/-! ### A program on a closed stream -/

/-- The end of a program: it returns, with the symbols it has left unread and the number of writes
that can still succeed; it throws; the stream ends in the middle of a read; a write fails. -/
inductive Ending (β ε α : Type)
  | returned (a : α) (rest : List β) (writes : ℕ)
  | threw (e : ε)
  | starved
  | broken
  deriving DecidableEq

/-- The end of a program whose peer sends `input` and closes the stream; `writes` says how many
writes succeed. -/
def feed : Dialogue β ε ℓ α → ℕ → List β → Ending β ε α
  | .done a, writes, input => .returned a input writes
  | .throw e, _, _ => .threw e
  | .read n k, writes, input =>
      if n ≤ input.length then (k (input.take n)).feed writes (input.drop n) else .starved
  | .write _ _ _, 0, _ => .broken
  | .write _ _ k, writes + 1, input => k.feed writes input

/-- What follows a program starts where the program ends. -/
def Ending.andThen (x : Ending β ε α) (f : α → ℕ → List β → Ending β ε γ) : Ending β ε γ :=
  match x with
  | .returned a rest writes => f a writes rest
  | .threw e => .threw e
  | .starved => .starved
  | .broken => .broken

theorem feed_bind (d : Dialogue β ε ℓ α) (f : α → Dialogue β ε ℓ γ) (writes : ℕ)
    (input : List β) :
    (d.bind f).feed writes input =
      (d.feed writes input).andThen fun a writes rest => (f a).feed writes rest := by
  induction d generalizing writes input with
  | done a => rfl
  | throw e => rfl
  | read n k ih =>
    simp only [bind, feed]
    split_ifs
    · exact ih _ _ _
    · rfl
  | write label message k ih =>
    cases writes with
    | zero => rfl
    | succ writes => exact ih writes input

theorem Ending.andThen_eq_returned {x : Ending β ε α} {f : α → ℕ → List β → Ending β ε γ} {c : γ}
    {rest : List β} {writes : ℕ} :
    x.andThen f = .returned c rest writes ↔
      ∃ a writes' rest', x = .returned a rest' writes' ∧
        f a writes' rest' = .returned c rest writes := by
  cases x with
  | returned a rest' writes' =>
    constructor
    · intro h
      exact ⟨a, writes', rest', rfl, h⟩
    · rintro ⟨a, writes', rest', h, hf⟩
      cases h
      exact hf
  | _ => simp [andThen]

/-- A read returns what follows it, if there is enough to read. -/
theorem feed_read_eq_returned {n : ℕ} {k : List β → Dialogue β ε ℓ α} {writes : ℕ}
    {input : List β} {a : α} {rest : List β} {writes' : ℕ} :
    (read n k : Dialogue β ε ℓ α).feed writes input = .returned a rest writes' ↔
      n ≤ input.length ∧
        (k (input.take n)).feed writes (input.drop n) = .returned a rest writes' := by
  rw [feed]
  split_ifs with h
  · simp [h]
  · simp [h]

theorem feed_write_eq_returned {label : ℓ} {message : List β} {k : Dialogue β ε ℓ α}
    {writes : ℕ} {input : List β} {a : α} {rest : List β} {writes' : ℕ} :
    (write label message k).feed writes input = .returned a rest writes' ↔
      ∃ n, writes = n + 1 ∧ k.feed n input = .returned a rest writes' := by
  cases writes with
  | zero => simp [feed]
  | succ n => simp [feed]

theorem feed_bind_eq_returned {d : Dialogue β ε ℓ α} {f : α → Dialogue β ε ℓ γ} {writes : ℕ}
    {input : List β} {c : γ} {rest : List β} {writes' : ℕ} :
    (d.bind f).feed writes input = .returned c rest writes' ↔
      ∃ a w r, d.feed writes input = .returned a r w ∧
        (f a).feed w r = .returned c rest writes' := by
  rw [feed_bind]
  exact Ending.andThen_eq_returned

/-- A computation returns if and only if it succeeds. -/
theorem feed_ofExcept_eq_returned {x : Except ε α} {writes : ℕ} {input : List β} {a : α}
    {rest : List β} {writes' : ℕ} :
    (ofExcept x : Dialogue β ε ℓ α).feed writes input = .returned a rest writes' ↔
      x = .ok a ∧ rest = input ∧ writes = writes' := by
  cases x with
  | error e => simp [ofExcept, feed]
  | ok b => simp [ofExcept, feed, eq_comm]

/-- What follows a computation returns if and only if the computation succeeds. -/
theorem feed_ofExcept_bind_eq_returned {x : Except ε α} {f : α → Dialogue β ε ℓ γ} {writes : ℕ}
    {input : List β} {c : γ} {rest : List β} {writes' : ℕ} :
    ((ofExcept x).bind f).feed writes input = .returned c rest writes' ↔
      ∃ a, x = .ok a ∧ (f a).feed writes input = .returned c rest writes' := by
  cases x with
  | error e => simp [ofExcept, bind, feed]
  | ok b => simp [ofExcept, bind]

end Dialogue
