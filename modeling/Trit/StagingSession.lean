import Trit.StagingCommands

/-!
# The staging area during a transfer

One process executes `start_session`, up to `staging::clear`; between its steps other commands add
and drop files, each of them as one step.

* `Sending`, `step`: the sender, the staging area, and what is owed to the user;
* `Kept`: every file that was staged is still staged or has been sent;
* `Spares`: the sender does not remove a file that it has not sent;
* `kept_iff_spares`: no staged file is forgotten as long as that is so, and no longer.
-/

namespace Trit

open Transition

namespace Staging

/-- The sender and the staging area.  `sender` is what `start_session` has still to do, `request`
are the files of its request, `sent` those of a request whose transfer is complete, and `owed` are
the files that were staged, unless the user has dropped or cleared them since. -/
structure Sending where
  tree : Tree
  store : Store
  sender : Script Outside
  request : Finset Bytes
  sent : Finset Bytes
  owed : Finset Bytes

/-- What can happen: a command of the user, a change of the tree, or a step of the sender. -/
inductive Deed
  | add (matching : Bytes → Bool)
  | drop (matching : Bytes → Bool)
  | clear
  | create (tree : Tree)
  | send (answer : Bool)

/-- The paths in `staged.txt`. -/
def paths : Store → Finset Bytes
  | none => ∅
  | some text => text.image Line.path

/-- A path that is one line of a file. -/
def OneLine (p : Bytes) : Prop := p ≠ [] ∧ 10 ∉ p

theorem oneLine_of_mem_paths {store : Store} {p : Bytes} (h : p ∈ paths store) : OneLine p := by
  cases store with
  | none => exact absurd h (Finset.notMem_empty p)
  | some text =>
    obtain ⟨l, -, rfl⟩ := Finset.mem_image.mp h
    exact ⟨l.nonempty, l.unbroken⟩

theorem mem_of_load {tree : Tree} {store : Store} {staged : Finset Bytes}
    (h : loadStagedFiles tree store = .ok staged) (p : Bytes) :
    p ∈ staged ↔ p ∈ paths store ∧ p ∈ tree.present := by
  cases store with
  | none =>
    cases h
    simp [paths]
  | some text =>
    rw [loadStagedFiles] at h
    split_ifs at h
    obtain rfl := Except.ok.inj h
    rw [mem_listed, paths, Finset.mem_image]

/-- A path of one line that is saved is in the file. -/
theorem mem_paths_stored {staged : Finset Bytes} {p : Bytes} (hp : p ∈ staged) (h : OneLine p) :
    p ∈ paths (some (stored staged)) := by
  refine Finset.mem_image.mpr ⟨⟨p, h.1, h.2⟩, mem_stored.mpr ⟨p, hp, ?_⟩, rfl⟩
  rw [lines_path ⟨p, h.1, h.2⟩]
  exact Finset.mem_singleton_self _

namespace Sending

/-- The sender has not begun, and owes the user the files that are staged. -/
def initial (tree : Tree) (store : Store) : Sending :=
  ⟨tree, store, startSession, ∅, ∅, (paths store).filter (· ∈ tree.present)⟩

/-- What a command that has loaded the staged files leaves behind. -/
def command (s : Sending) (staged : Finset Bytes) (u : Update) : Sending :=
  { s with
    store := (u.effect s.tree staged).apply s.store
    owed :=
      match u, u.effect s.tree staged with
      | .stage matching, .save _ => s.owed ∪ s.tree.files.filter (matching ·)
      | .unstage matching, .save _ | .unstage matching, .delete =>
          s.owed \ staged.filter (matching ·)
      | _, _ => s.owed }

/-- A command of the user, executed as one step. -/
def update (s : Sending) (u : Update) : Sending :=
  match loadStagedFiles s.tree s.store with
  | .ok staged => s.command staged u
  | .error _ => s

/-- One step of `start_session`. -/
def send (s : Sending) (answer : Bool) : Option Sending :=
  match s.sender with
  | .done => none
  | .load k =>
      match loadStagedFiles s.tree s.store with
      | .ok staged => some { s with sender := k staged }
      | .error _ => some { s with sender := .done }
  | .walk k => some { s with sender := k s.tree.files }
  | .save staged k => some { s with store := some (stored staged), sender := k }
  | .delete k => some { s with store := none, sender := k }
  | .ifStaged yes no => some { s with sender := if s.store.isSome then yes else no }
  | .outside (.request staged) k =>
      some { s with sender := k answer, request := if answer then staged else s.request }
  | .outside .transfer k =>
      some { s with sender := k answer, sent := if answer then s.sent ∪ s.request else s.sent }
  | .outside _ k => some { s with sender := k answer }

/-- One step; files may come into existence, but none is deleted. -/
def step (s : Sending) : Deed → Option Sending
  | .add matching => some (s.update (.stage matching))
  | .drop matching => some (s.update (.unstage matching))
  | .clear => some { s with
      store := none
      owed := if s.store.isSome then ∅ else s.owed }
  | .create tree =>
      if s.tree.present ⊆ tree.present ∧ s.tree.files ⊆ tree.files then some { s with tree := tree }
      else none
  | .send answer => s.send answer

/-- No staged file is forgotten unsent. -/
def Kept (s : Sending) : Prop := ∀ p ∈ s.owed, p ∈ paths s.store ∨ p ∈ s.sent

/-- The sender is about to remove the staging area. -/
def removes : Script Outside → Bool
  | .delete _ => true
  | _ => false

/-- An `add` that gets as far as `save_staged_files`. -/
def saves (s : Sending) (matching : Bytes → Bool) : Bool :=
  match loadStagedFiles s.tree s.store with
  | .ok staged =>
      match (Update.stage matching).effect s.tree staged with
      | .save _ => true
      | _ => false
  | .error _ => false

/-- No path that is saved has a line break in its name, and the sender removes no file that it owes
and has not sent. -/
def Spares (s : Sending) : Deed → Prop
  | .add matching => s.saves matching = true →
      ∀ p ∈ s.tree.files.filter (matching ·), OneLine p
  | .send _ => removes s.sender = true → ∀ p ∈ s.owed, p ∈ paths s.store → p ∈ s.sent
  | _ => True

instance (s : Sending) (a : Deed) : Decidable (s.Spares a) :=
  match a with
  | .add _ => inferInstanceAs (Decidable (_ → ∀ p ∈ _, _ ∧ _))
  | .send _ => inferInstanceAs (Decidable (_ → ∀ p ∈ _, _ → _))
  | .drop _ | .clear | .create _ => instDecidableTrue

variable {s t : Sending}

/-- A command changes the store as it does alone, or fails and changes nothing. -/
theorem store_update (s : Sending) (u : Update) :
    (s.update u).store = match u.script.alone s.tree s.store with
      | .ok store => store
      | .error _ => s.store := by
  unfold update
  cases hload : loadStagedFiles s.tree s.store with
  | ok staged => rw [Update.alone_eq hload]; rfl
  | error e =>
    rw [Update.script_eq, Script.alone, hload]

/-! ### What the sender may do -/

/-- A script that saves nothing, and makes requests only for paths that were loaded. -/
def Proper : Script Outside → Prop
  | .done => True
  | .load k => ∀ staged, (∀ p ∈ staged, OneLine p) → Proper (k staged)
  | .walk k => ∀ files, Proper (k files)
  | .save _ _ => False
  | .delete k => Proper k
  | .ifStaged yes no => Proper yes ∧ Proper no
  | .outside (.request staged) k => (∀ p ∈ staged, OneLine p) ∧ ∀ b, Proper (k b)
  | .outside _ k => ∀ b, Proper (k b)

theorem proper_startSession : Proper startSession := by
  intro staged _
  dsimp only
  split_ifs with hempty
  · trivial
  · -- the answers in turn: each negative one is the end
    rintro (_ | _)
    · trivial
    rintro (_ | _)
    · trivial
    intro files hfiles
    refine ⟨hfiles, ?_⟩
    rintro (_ | _)
    · trivial
    rintro (_ | _)
    · trivial
    rintro (_ | _)
    · trivial
    · exact ⟨trivial, trivial⟩

/-- What holds in every run. -/
structure Regular (s : Sending) : Prop where
  present : s.owed ⊆ s.tree.present
  sender : Proper s.sender
  request : ∀ p ∈ s.request, OneLine p
  sent : ∀ p ∈ s.sent, OneLine p

theorem Regular.initial (tree : Tree) (store : Store) : Regular (initial tree store) where
  present := fun _ hp => (Finset.mem_filter.mp hp).2
  sender := proper_startSession
  request := fun p hp => absurd hp (Finset.notMem_empty p)
  sent := fun p hp => absurd hp (Finset.notMem_empty p)

/-- The steps of the sender: the store stays as it is, unless it is removed, and only files that
were requested are sent. -/
theorem Regular.send {answer : Bool} (hi : Regular s) (h : s.send answer = some t) :
    Regular t ∧ t.tree = s.tree ∧ t.owed = s.owed ∧ s.sent ⊆ t.sent ∧
      (removes s.sender = false → t.store = s.store) ∧
      (removes s.sender = true → t.store = none ∧ t.sent = s.sent) := by
  have hproper := hi.sender
  unfold Sending.send at h
  generalize hsender : s.sender = script at h hproper
  cases script with
  | done => cases h
  | load k =>
    cases hload : loadStagedFiles s.tree s.store with
    | ok staged =>
      simp only [hload, Option.some.injEq] at h
      subst h
      refine ⟨⟨hi.present, hproper staged fun p hp => ?_, hi.request, hi.sent⟩, rfl, rfl,
        Finset.Subset.refl _, fun _ => rfl, nofun⟩
      exact oneLine_of_mem_paths ((mem_of_load hload p).mp hp).1
    | error e =>
      simp only [hload, Option.some.injEq] at h
      subst h
      exact ⟨⟨hi.present, trivial, hi.request, hi.sent⟩, rfl, rfl, Finset.Subset.refl _,
        fun _ => rfl, nofun⟩
  | walk k =>
    obtain rfl := Option.some.inj h
    exact ⟨⟨hi.present, hproper _, hi.request, hi.sent⟩, rfl, rfl, Finset.Subset.refl _,
      fun _ => rfl, nofun⟩
  -- a session saves nothing
  | save staged k => exact hproper.elim
  | delete k =>
    obtain rfl := Option.some.inj h
    exact ⟨⟨hi.present, hproper, hi.request, hi.sent⟩, rfl, rfl, Finset.Subset.refl _, nofun,
      fun _ => ⟨rfl, rfl⟩⟩
  | ifStaged yes no =>
    obtain rfl := Option.some.inj h
    refine ⟨⟨hi.present, ?_, hi.request, hi.sent⟩, rfl, rfl, Finset.Subset.refl _,
      fun _ => rfl, nofun⟩
    dsimp only
    split_ifs
    · exact hproper.1
    · exact hproper.2
  | outside q k =>
    cases q with
    | request staged =>
      obtain rfl := Option.some.inj h
      refine ⟨⟨hi.present, hproper.2 answer, ?_, hi.sent⟩, rfl, rfl, Finset.Subset.refl _,
        fun _ => rfl, nofun⟩
      cases answer with
      | true => exact hproper.1
      | false => exact hi.request
    | transfer =>
      obtain rfl := Option.some.inj h
      cases answer with
      | true =>
        refine ⟨⟨hi.present, hproper true, hi.request, fun p hp => ?_⟩, rfl, rfl,
          Finset.subset_union_left, fun _ => rfl, nofun⟩
        -- what has been sent now is what has been requested
        exact (Finset.mem_union.mp hp).elim (hi.sent p) (hi.request p)
      | false =>
        exact ⟨⟨hi.present, hproper false, hi.request, hi.sent⟩, rfl, rfl,
          Finset.Subset.refl _, fun _ => rfl, nofun⟩
    | _ =>
      obtain rfl := Option.some.inj h
      exact ⟨⟨hi.present, hproper answer, hi.request, hi.sent⟩, rfl, rfl, Finset.Subset.refl _,
        fun _ => rfl, nofun⟩

/-! ### The commands of the user -/

/-- A path that is owed and staged is among those that a command loads. -/
theorem Regular.mem_loaded {staged : Finset Bytes} {p : Bytes} (hi : Regular s)
    (hload : loadStagedFiles s.tree s.store = .ok staged) (hp : p ∈ s.owed)
    (hstaged : p ∈ paths s.store) : p ∈ staged :=
  (mem_of_load hload p).mpr ⟨hstaged, hi.present hp⟩

theorem update_of_error {e : Exception} (hload : loadStagedFiles s.tree s.store = .error e)
    (u : Update) : s.update u = s := by
  rw [update, hload]

theorem update_of_ok {staged : Finset Bytes} (hload : loadStagedFiles s.tree s.store = .ok staged)
    (u : Update) : s.update u = s.command staged u := by
  rw [update, hload]

theorem command_of_nothing {staged : Finset Bytes} {u : Update}
    (heffect : u.effect s.tree staged = .nothing) : s.command staged u = s := by
  simp only [command, heffect, Effect.apply]

/-- An `add` that gets as far as `save_staged_files`: what is owed is kept unless a path that is
saved has a line break. -/
theorem Regular.add_save {staged files : Finset Bytes} {matching : Bytes → Bool} (hi : Regular s)
    (hk : Kept s) (hload : loadStagedFiles s.tree s.store = .ok staged)
    (heffect : (Update.stage matching).effect s.tree staged = .save files) :
    Regular (s.command staged (.stage matching)) ∧
      (Kept (s.command staged (.stage matching)) ↔ s.Spares (.add matching)) := by
  have hcommand : s.command staged (.stage matching) = { s with
      store := some (stored files), owed := s.owed ∪ s.tree.files.filter (matching ·) } := by
    simp only [command, heffect, Effect.apply]
  have hsaves : s.saves matching = true := by simp only [saves, hload, heffect]
  have hfiles := stageEffect_eq_save heffect
  rw [hcommand]
  refine ⟨⟨?_, hi.sender, hi.request, hi.sent⟩, ?_, ?_⟩
  · refine Finset.union_subset hi.present fun p hp => s.tree.files_subset ?_
    exact (Finset.mem_filter.mp hp).1
  · intro hkept _ p hp
    rcases hkept p (Finset.mem_union_right _ hp) with hstaged | hsent
    · exact oneLine_of_mem_paths hstaged
    · exact hi.sent p hsent
  · intro hspares p hp
    rcases Finset.mem_union.mp hp with hp | hp
    · rcases hk p hp with hstaged | hsent
      · have hloaded := hi.mem_loaded hload hp hstaged
        refine Or.inl (mem_paths_stored ?_ (oneLine_of_mem_paths hstaged))
        rw [hfiles]
        exact Finset.mem_union_left _ hloaded
      · exact Or.inr hsent
    · refine Or.inl (mem_paths_stored ?_ (hspares hsaves p hp))
      rw [hfiles]
      exact Finset.mem_union_right _ hp

/-- Adding files: nothing that is owed is lost, unless a path that is saved has a line break. -/
theorem Regular.add (hi : Regular s) (hk : Kept s) (matching : Bytes → Bool) :
    Regular (s.update (.stage matching)) ∧
      (Kept (s.update (.stage matching)) ↔ s.Spares (.add matching)) := by
  cases hload : loadStagedFiles s.tree s.store with
  | error e =>
    rw [update_of_error hload]
    refine ⟨hi, iff_of_true hk fun h => ?_⟩
    simp [saves, hload] at h
  | ok staged =>
    rw [update_of_ok hload]
    cases heffect : (Update.stage matching).effect s.tree staged with
    | nothing =>
      rw [command_of_nothing heffect]
      refine ⟨hi, iff_of_true hk fun h => ?_⟩
      simp [saves, hload, heffect] at h
    | delete =>
      have hcommand : s.command staged (.stage matching) = { s with store := none } := by
        simp only [command, heffect, Effect.apply]
      rw [hcommand]
      refine ⟨⟨hi.present, hi.sender, hi.request, hi.sent⟩, iff_of_true (fun p hp => ?_)
        fun h => ?_⟩
      · rcases hk p hp with hstaged | hsent
        · have hloaded := hi.mem_loaded hload hp hstaged
          rw [stageEffect_eq_delete heffect] at hloaded
          exact absurd hloaded (Finset.notMem_empty p)
        · exact Or.inr hsent
      · simp [saves, hload, heffect] at h
    | save files => exact hi.add_save hk hload heffect

/-- Dropping files: only those are lost that are dropped. -/
theorem Regular.drop (hi : Regular s) (hk : Kept s) (matching : Bytes → Bool) :
    Regular (s.update (.unstage matching)) ∧ Kept (s.update (.unstage matching)) := by
  cases hload : loadStagedFiles s.tree s.store with
  | error e =>
    rw [update_of_error hload]
    exact ⟨hi, hk⟩
  | ok staged =>
    rw [update_of_ok hload]
    -- what is owed and not dropped is among the rest, or has been sent
    have hrest : ∀ p ∈ s.owed \ staged.filter (matching ·),
        p ∈ staged \ staged.filter (matching ·) ∧ OneLine p ∨ p ∈ s.sent := by
      intro p hp
      obtain ⟨howed, hnot⟩ := Finset.mem_sdiff.mp hp
      rcases hk p howed with hstaged | hsent
      · have hloaded := hi.mem_loaded hload howed hstaged
        exact Or.inl ⟨Finset.mem_sdiff.mpr ⟨hloaded, hnot⟩, oneLine_of_mem_paths hstaged⟩
      · exact Or.inr hsent
    have hpresent : s.owed \ staged.filter (matching ·) ⊆ s.tree.present :=
      Finset.sdiff_subset.trans hi.present
    cases heffect : (Update.unstage matching).effect s.tree staged with
    | nothing =>
      rw [command_of_nothing heffect]
      exact ⟨hi, hk⟩
    | delete =>
      have hcommand : s.command staged (.unstage matching) = { s with
          store := none, owed := s.owed \ staged.filter (matching ·) } := by
        simp only [command, heffect, Effect.apply]
      rw [hcommand]
      refine ⟨⟨hpresent, hi.sender, hi.request, hi.sent⟩, fun p hp => ?_⟩
      rcases hrest p hp with ⟨hmem, -⟩ | hsent
      · rw [unstageEffect_eq_delete heffect] at hmem
        exact absurd hmem (Finset.notMem_empty p)
      · exact Or.inr hsent
    | save files =>
      have hcommand : s.command staged (.unstage matching) = { s with
          store := some (stored files), owed := s.owed \ staged.filter (matching ·) } := by
        simp only [command, heffect, Effect.apply]
      rw [hcommand]
      refine ⟨⟨hpresent, hi.sender, hi.request, hi.sent⟩, fun p hp => ?_⟩
      rcases hrest p hp with ⟨hmem, hline⟩ | hsent
      · rw [← unstageEffect_eq_save heffect] at hmem
        exact Or.inl (mem_paths_stored hmem hline)
      · exact Or.inr hsent

/-- One step: nothing is forgotten if and only if the step spares what is owed. -/
theorem Regular.step {a : Deed} (hi : Regular s) (hk : Kept s) (h : s.step a = some t) :
    Regular t ∧ (Kept t ↔ s.Spares a) := by
  cases a with
  | add matching =>
    obtain rfl := Option.some.inj h
    exact hi.add hk matching
  | drop matching =>
    obtain rfl := Option.some.inj h
    obtain ⟨hregular, hkept⟩ := hi.drop hk matching
    exact ⟨hregular, iff_of_true hkept trivial⟩
  | clear =>
    obtain rfl := Option.some.inj h
    cases hstore : s.store with
    | none =>
      refine ⟨⟨hi.present, hi.sender, hi.request, hi.sent⟩, iff_of_true (fun p hp => ?_) trivial⟩
      have hp' := hk p hp
      rwa [hstore] at hp'
    | some text =>
      exact ⟨⟨Finset.empty_subset _, hi.sender, hi.request, hi.sent⟩,
        iff_of_true (fun p hp => absurd hp (Finset.notMem_empty p)) trivial⟩
  | create tree =>
    simp only [Sending.step] at h
    split_ifs at h with hgrows
    obtain rfl := Option.some.inj h
    exact ⟨⟨hi.present.trans hgrows.1, hi.sender, hi.request, hi.sent⟩, iff_of_true hk trivial⟩
  | send answer =>
    obtain ⟨hregular, -, howed, hsent, hkeeps, hremoves⟩ := hi.send h
    refine ⟨hregular, ?_⟩
    cases hr : removes s.sender with
    | false =>
      refine iff_of_true (fun p hp => ?_) fun hr' => nomatch hr.symm.trans hr'
      rw [howed] at hp
      rw [hkeeps hr]
      exact (hk p hp).imp id fun h => hsent h
    | true =>
      obtain ⟨hstore, hsame⟩ := hremoves hr
      constructor
      · intro hkept _ p hp hstaged
        have hp' := hkept p (by rw [howed]; exact hp)
        rw [hstore, hsame] at hp'
        exact hp'.resolve_left (Finset.notMem_empty p)
      · intro hspares p hp
        rw [howed] at hp
        refine Or.inr (hsent ?_)
        rcases hk p hp with hstaged | hold
        · exact hspares hr p hp hstaged
        · exact hold

/-- No staged file is forgotten unsent as long as the sender, when it removes the staging area,
removes no file that is owed and not sent, and no path with a line break is saved; and no longer:
the first step that does not meet this forgets a file. -/
theorem kept_iff_spares (tree : Tree) (store : Store) {s : Sending}
    (h : Reach step Spares (Sending.initial tree store) s) :
    Kept s ∧ ∀ a t, s.step a = some t → (Kept t ↔ s.Spares a) := by
  obtain ⟨hi, hk⟩ : Regular s ∧ Kept s :=
    h.invariant (I := fun t => Regular t ∧ Kept t)
      (fun _ _ _ ⟨hi, hk⟩ ha hs => ⟨(hi.step hk hs).1, (hi.step hk hs).2.mpr ha⟩)
      ⟨Regular.initial tree store, fun p hp => Or.inl (Finset.mem_filter.mp hp).1⟩
  exact ⟨hk, fun a t ht => (hi.step hk ht).2⟩

/-- A staging area with one of two files. -/
def oneOfTwo : Sending := initial Commands.twoFiles (some (lines [97]))

/-- `start_session`, from the first look at the staged files to the request. -/
def untilRequest : List Deed := List.replicate 5 (.send true)

/-- The rest of `start_session`. -/
def untilCleared : List Deed := List.replicate 4 (.send true)

/-- A file that is added before the request is made is sent. -/
theorem kept_addBeforeRequest : ∃ s, Reach step Spares oneOfTwo s ∧
    s.store = none ∧ s.sent = {[97], [98]} ∧ Kept s := by
  have hrun : (exec (restrict step Spares) oneOfTwo
      (.add (· = [98]) :: untilRequest ++ untilCleared)).map
      (fun s => decide (s.store = none ∧ s.sent = {[97], [98]})) = some true := by
    decide +kernel
  obtain ⟨s, hs, htest⟩ := reach_of_exec_restrict _ hrun
  obtain ⟨hstore, hsent⟩ := of_decide_eq_true htest
  exact ⟨s, hs, hstore, hsent, (kept_iff_spares _ _ hs).1⟩

/-- A file that is added after the request has been made is neither sent nor staged in the end. -/
theorem exists_forgotten : ∃ s, Reach step any oneOfTwo s ∧ s.store = none ∧ s.sent = {[97]} ∧
    [98] ∈ s.owed ∧ ¬ Kept s := by
  have hrun : (exec step oneOfTwo (untilRequest ++ .add (· = [98]) :: untilCleared)).map
      (fun s => decide (s.store = none ∧ s.sent = {[97]} ∧ [98] ∈ s.owed)) = some true := by
    decide +kernel
  obtain ⟨s, hs, htest⟩ := reach_of_exec_test _ (fun _ _ _ => trivial) hrun
  obtain ⟨hstore, hsent, howed⟩ := of_decide_eq_true htest
  refine ⟨s, hs, hstore, hsent, howed, fun hkept => ?_⟩
  have hforgotten := hkept [98] howed
  rw [hstore, hsent] at hforgotten
  exact absurd hforgotten (by decide)

end Sending

end Staging

end Trit
