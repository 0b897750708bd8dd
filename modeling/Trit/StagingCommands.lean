import Trit.Staging
import Trit.Lib.Serial
import Trit.Lib.Transition
import Mathlib.Data.Finset.SDiff
import Mathlib.Logic.Function.Basic

/-!
# Concurrent staging commands

Several `add` and `drop` commands at once, under a lock that excludes: a command takes the lock for
`load_staged_files`, and once more for `save_staged_files` or `delete_staging_files`.

* `Update`: the commands; `Update.effect`: what they decide to do; `alone_eq`: what they do alone;
* `Commands`, `step`: several commands, interleaved between acquiring the lock, the operation on
  `staged.txt`, and the release;
* `Update.Current`: what a command has loaded is still good enough for what it is about to do;
* `serializable`: if that is so at every write, the commands that succeed are serializable.
-/

namespace Trit

open Transition Serial

namespace Staging

/-! ### The commands -/

/-- A command that changes the set of staged files. -/
inductive Update
  | stage (matching : Bytes → Bool)
  | unstage (matching : Bytes → Bool)

namespace Update

def script : Update → Script Empty
  | .stage matching => Staging.stage matching
  | .unstage matching => Staging.unstage matching

/-- What the command does once it has loaded the staged files. -/
def effect (tree : Tree) (staged : Finset Bytes) : Update → Effect
  | .stage matching => stageEffect (tree.files.filter (matching ·)) staged
  | .unstage matching => unstageEffect (staged.filter (matching ·)) staged

/-- The rest of the command once it has loaded the staged files. -/
def afterLoad (staged : Finset Bytes) : Update → Script Empty
  | .stage matching => .walk fun filesInCwd =>
      (stageEffect (filesInCwd.filter (matching ·)) staged).script
  | .unstage matching => (unstageEffect (staged.filter (matching ·)) staged).script

theorem script_eq (u : Update) : u.script = .load fun staged => u.afterLoad staged := by
  cases u <;> rfl

end Update

/-- What a command leaves in `staged.txt`. -/
def Effect.apply (store : Store) : Effect → Store
  | .nothing => store
  | .save staged => some (stored staged)
  | .delete => none

theorem alone_effect (tree : Tree) (e : Effect) (store : Store) :
    (e.script : Script Empty).alone tree store = .ok (e.apply store) := by
  cases e <;> rfl

/-- A command alone does what it decides to do. -/
theorem Update.alone_eq {tree : Tree} {u : Update} {store : Store} {staged : Finset Bytes}
    (h : loadStagedFiles tree store = .ok staged) :
    u.script.alone tree store = .ok ((u.effect tree staged).apply store) := by
  rw [script_eq, Script.alone_load h]
  cases u with
  | stage matching => exact alone_effect tree _ store
  | unstage matching => exact alone_effect tree _ store

/-- `staged.txt`, if there is one, has no line for a file that does not exist. -/
def NoStale (tree : Tree) : Store → Prop
  | none => True
  | some text => Clean tree text

instance (tree : Tree) (store : Store) : Decidable (NoStale tree store) :=
  match store with
  | none => instDecidableTrue
  | some text => inferInstanceAs (Decidable (∀ l ∈ text, l.path ∈ tree.present))

/-- What a command has loaded and what it would load now differ only in files that it matches; and
where it would have nothing to do any more, `staged.txt` has no stale line. -/
def Update.Agrees (tree : Tree) (staged now : Finset Bytes) (store : Store) : Update → Prop
  | .stage matching =>
      staged ∪ tree.files.filter (matching ·) = now ∪ tree.files.filter (matching ·) ∧
        (tree.files.filter (matching ·) ⊆ now → NoStale tree store)
  | .unstage matching =>
      staged \ staged.filter (matching ·) = now \ now.filter (matching ·) ∧
        (now.filter (matching ·) = ∅ → NoStale tree store)

instance (tree : Tree) (staged now : Finset Bytes) (store : Store) (u : Update) :
    Decidable (u.Agrees tree staged now store) :=
  match u with
  | .stage _ => inferInstanceAs (Decidable (_ ∧ (_ → _)))
  | .unstage _ => inferInstanceAs (Decidable (_ ∧ (_ → _)))

/-- A command could load the store as it is now, and agrees with what it would load. -/
def Update.Current (tree : Tree) (staged : Finset Bytes) (store : Store) (u : Update) : Prop :=
  ∃ now, loadStagedFiles tree store = .ok now ∧ u.Agrees tree staged now store

instance (tree : Tree) (staged : Finset Bytes) (store : Store) (u : Update) :
    Decidable (u.Current tree staged store) :=
  match h : loadStagedFiles tree store with
  | .ok now => decidable_of_iff (u.Agrees tree staged now store)
      ⟨fun ha => ⟨now, h, ha⟩, fun ⟨_, h', ha⟩ => Except.ok.inj (h.symm.trans h') ▸ ha⟩
  | .error _ => isFalse fun ⟨_, h', _⟩ => nomatch h.symm.trans h'

/-- What is loaded from a file without stale lines is written back as it was. -/
theorem store_of_load {tree : Tree} {store : Store} {now : Finset Bytes}
    (h : loadStagedFiles tree store = .ok now) (hstale : NoStale tree store) :
    now = ∅ ∧ store = none ∨ now ≠ ∅ ∧ store = some (stored now) := by
  cases store with
  | none =>
    cases h
    exact Or.inl ⟨rfl, rfl⟩
  | some text =>
    rw [loadStagedFiles] at h
    split_ifs at h with hempty
    obtain rfl := Except.ok.inj h
    exact Or.inr ⟨hempty, by rw [stored_listed hstale]⟩

/-- Adding files to what was loaded, and to what is there now. -/
theorem stageEffect_apply {tree : Tree} {store : Store} {files staged now : Finset Bytes}
    (hload : loadStagedFiles tree store = .ok now) (hunion : staged ∪ files = now ∪ files)
    (hstale : files ⊆ now → NoStale tree store) (he : stageEffect files staged ≠ .nothing) :
    (stageEffect files now).apply store = (stageEffect files staged).apply store := by
  by_cases hfiles : files = ∅
  · subst hfiles
    rw [Finset.union_empty, Finset.union_empty] at hunion
    rw [hunion]
  · have hnew : ¬ files ⊆ staged := by
      intro hsub
      exact he (by rw [stageEffect, if_neg hfiles, if_pos hsub])
    have hsave : (stageEffect files staged).apply store = some (stored (now ∪ files)) := by
      rw [stageEffect, if_neg hfiles, if_neg hnew, hunion]
      rfl
    rw [hsave]
    by_cases hsub : files ⊆ now
    · -- another command has added them: nothing is left to do
      have hnow : now ≠ ∅ := by
        rintro rfl
        exact hfiles (Finset.subset_empty.mp hsub)
      rcases store_of_load hload (hstale hsub) with ⟨hempty, -⟩ | ⟨-, hstore⟩
      · exact absurd hempty hnow
      · rw [stageEffect, if_neg hfiles, if_pos hsub, Finset.union_eq_left.mpr hsub]
        exact hstore
    · rw [stageEffect, if_neg hfiles, if_neg hsub]
      rfl

/-- Dropping files from what was loaded, and from what is there now. -/
theorem unstageEffect_apply {tree : Tree} {store : Store} {files files' staged now : Finset Bytes}
    (hload : loadStagedFiles tree store = .ok now) (hrest : staged \ files = now \ files')
    (hstale : files' = ∅ → NoStale tree store) (he : unstageEffect files staged ≠ .nothing) :
    (unstageEffect files' now).apply store = (unstageEffect files staged).apply store := by
  have hfiles : files ≠ ∅ := by
    intro hempty
    exact he (by rw [unstageEffect, if_pos hempty])
  rw [unstageEffect, unstageEffect, if_neg hfiles, hrest]
  by_cases hfiles' : files' = ∅
  · -- another command has dropped them: nothing is left to do
    rw [if_pos hfiles', hfiles', Finset.sdiff_empty]
    rcases store_of_load hload (hstale hfiles') with ⟨hempty, hstore⟩ | ⟨hnow, hstore⟩
    · rw [if_pos hempty]
      exact hstore
    · rw [if_neg hnow]
      exact hstore
  · rw [if_neg hfiles']

/-- The write that a command is about to make is the one it would make alone. -/
theorem Update.Current.alone {tree : Tree} {u : Update} {store : Store} {staged : Finset Bytes}
    (h : u.Current tree staged store) (he : u.effect tree staged ≠ .nothing) :
    u.script.alone tree store = .ok ((u.effect tree staged).apply store) := by
  obtain ⟨now, hload, ha⟩ := h
  rw [Update.alone_eq hload]
  congr 1
  cases u with
  | stage matching => exact stageEffect_apply hload ha.1 ha.2 he
  | unstage matching => exact unstageEffect_apply hload ha.1 ha.2 he

/-! ### Several commands at once -/

/-- Where a command stands: before an operation, with the lock it has taken for an operation, or
behind that operation, where `none` stands for an exception. -/
inductive Phase
  | at (s : Script Empty)
  | locked (s : Script Empty)
  | unlocking (next : Option (Script Empty))
  | finished
  | failed

/-- A command behind the release of its lock. -/
def Phase.resume : Option (Script Empty) → Phase
  | some s => .at s
  | none => .failed

/-- The command writes or deletes `staged.txt`; a `save` that cannot open the file does not. -/
def Phase.writes (succeeds : Bool) : Phase → Bool
  | .locked (.save _ _) => succeeds
  | .locked (.delete _) => true
  | _ => false

/-- The commands of a directory; `loaded` keeps what `load_staged_files` has returned to each. -/
structure Commands (ι : Type) where
  lock : Option ι
  store : Store
  phases : ι → Phase
  loaded : ι → Finset Bytes

variable {ι : Type}

namespace Commands

/-- All commands have been started. -/
def initial (us : ι → Update) (store : Store) : Commands ι :=
  ⟨none, store, fun i => .at (us i).script, fun _ => ∅⟩

variable [DecidableEq ι]

/-- The phase of one command changes. -/
def set (s : Commands ι) (i : ι) (phase : Phase) : Commands ι :=
  { s with phases := Function.update s.phases i phase }

/-- A command tries to take the lock. -/
def acquire (s : Commands ι) (i : ι) (script : Script Empty) (succeeds : Bool) : Commands ι :=
  if s.lock = none ∧ succeeds = true then { s.set i (.locked script) with lock := some i }
  else s.set i .failed

/-- One step of one command, which may fail. -/
def step (tree : Tree) (s : Commands ι) : ι × Bool → Option (Commands ι)
  | (i, succeeds) =>
      match s.phases i with
      | .at .done => some (s.set i .finished)
      | .at (.walk k) => some (s.set i (if succeeds then .at (k tree.files) else .failed))
      | .at (.ifStaged yes no) => some (s.set i (.at (if s.store.isSome then yes else no)))
      | .at (.load k) => some (s.acquire i (.load k) succeeds)
      | .at (.save staged k) => some (s.acquire i (.save staged k) succeeds)
      | .at (.delete k) => some (s.acquire i (.delete k) succeeds)
      | .at (.outside q _) => nomatch q
      | .locked (.load k) =>
          match loadStagedFiles tree s.store with
          | .ok staged => some { s.set i (.unlocking (some (k staged))) with
              loaded := Function.update s.loaded i staged }
          | .error _ => some (s.set i (.unlocking none))
      | .locked (.save staged k) =>
          some (if succeeds then
            { s.set i (.unlocking (some k)) with store := some (stored staged) }
            else s.set i (.unlocking none))
      | .locked (.delete k) => some { s.set i (.unlocking (some k)) with store := none }
      | .locked _ => none
      | .unlocking next => some { s.set i (.resume next) with lock := none }
      | .finished => none
      | .failed => none

/-- A command writes only if what it has loaded is still good enough. -/
def Current (tree : Tree) (us : ι → Update) (s : Commands ι) (a : ι × Bool) : Prop :=
  (s.phases a.1).writes a.2 = true → (us a.1).Current tree (s.loaded a.1) s.store

instance (tree : Tree) (us : ι → Update) (s : Commands ι) (a : ι × Bool) :
    Decidable (s.Current tree us a) :=
  inferInstanceAs (Decidable (_ → _))

/-! ### The serial order -/

/-- How far a command has come.  `committed` says that it has a place in the serial order, `seen`
that `staged` was loaded from a store of the serial execution. -/
inductive Progress (tree : Tree) (u : Update) (staged : Finset Bytes) (committed seen : Prop) :
    Phase → Prop
  | start (hc : ¬ committed) : Progress tree u staged committed seen (.at u.script)
  | reading (hc : ¬ committed) : Progress tree u staged committed seen (.locked u.script)
  | read (hc : ¬ committed) (hs : seen) :
      Progress tree u staged committed seen (.unlocking (some (u.afterLoad staged)))
  | matching (hc : ¬ committed) (hs : seen) :
      Progress tree u staged committed seen (.at (u.afterLoad staged))
  | decided (hc : ¬ committed) (hs : seen) :
      Progress tree u staged committed seen (.at (u.effect tree staged).script)
  | writing (hc : ¬ committed) (he : u.effect tree staged ≠ .nothing) :
      Progress tree u staged committed seen (.locked (u.effect tree staged).script)
  | written (hc : committed) : Progress tree u staged committed seen (.unlocking (some .done))
  | ending (hc : committed) : Progress tree u staged committed seen (.at .done)
  | finished (hc : committed) : Progress tree u staged committed seen .finished
  | throwing (hc : ¬ committed) : Progress tree u staged committed seen (.unlocking none)
  | failed (hc : ¬ committed) : Progress tree u staged committed seen .failed

omit [DecidableEq ι] in
theorem Progress.mono {tree : Tree} {u : Update} {staged : Finset Bytes}
    {committed committed' seen seen' : Prop} {phase : Phase} (hc : committed' ↔ committed)
    (hs : seen → seen') (h : Progress tree u staged committed seen phase) :
    Progress tree u staged committed' seen' phase := by
  cases h with
  | start h => exact .start (mt hc.mp h)
  | reading h => exact .reading (mt hc.mp h)
  | read h h' => exact .read (mt hc.mp h) (hs h')
  | matching h h' => exact .matching (mt hc.mp h) (hs h')
  | decided h h' => exact .decided (mt hc.mp h) (hs h')
  | writing h he => exact .writing (mt hc.mp h) he
  | written h => exact .written (hc.mpr h)
  | ending h => exact .ending (hc.mpr h)
  | finished h => exact .finished (hc.mpr h)
  | throwing h => exact .throwing (mt hc.mp h)
  | failed h => exact .failed (mt hc.mp h)

/-- The commands executed alone. -/
def alone (tree : Tree) (us : ι → Update) (i : ι) : Store → Except Exception Store :=
  (us i).script.alone tree

/-- What a command has loaded was there at some point of the serial execution. -/
def Seen (tree : Tree) (us : ι → Update) (start : Store) (order : List ι)
    (staged : Finset Bytes) : Prop :=
  ∃ v, Visited (alone tree us) start order v ∧ loadStagedFiles tree v = .ok staged

/-- The commands that have a place in `order`, executed in this order, lead to the store. -/
structure Serialized (tree : Tree) (us : ι → Update) (start : Store) (s : Commands ι)
    (order : List ι) : Prop where
  nodup : order.Nodup
  runs : Runs (alone tree us) start order s.store
  progress : ∀ i, Progress tree (us i) (s.loaded i) (i ∈ order)
    (Seen tree us start order (s.loaded i)) (s.phases i)

omit [DecidableEq ι] in
theorem Serialized.initial (tree : Tree) (us : ι → Update) (start : Store) :
    Serialized tree us start (initial us start) [] where
  nodup := List.nodup_nil
  runs := rfl
  progress := fun _ => .start List.not_mem_nil

variable {tree : Tree} {us : ι → Update} {start : Store} {s t : Commands ι} {order : List ι}

theorem Serialized.keep {i : ι} {phase : Phase} (hi : Serialized tree us start s order)
    (hphases : t.phases = Function.update s.phases i phase) (hloaded : t.loaded = s.loaded)
    (hstore : t.store = s.store)
    (hp : Progress tree (us i) (s.loaded i) (i ∈ order) (Seen tree us start order (s.loaded i))
      phase) :
    Serialized tree us start t order := by
  refine ⟨hi.nodup, by rw [hstore]; exact hi.runs, fun j => ?_⟩
  rw [hphases, hloaded]
  rcases eq_or_ne j i with rfl | hj
  · rw [Function.update_self]
    exact hp
  · rw [Function.update_of_ne hj]
    exact hi.progress j

/-- A step of one command that gives it a place in the serial order. -/
theorem Serialized.commit {i : ι} {phase : Phase} {order' : List ι}
    (hi : Serialized tree us start s order) (hnew : i ∉ order)
    (hphases : t.phases = Function.update s.phases i phase) (hloaded : t.loaded = s.loaded)
    (hperm : order'.Perm (i :: order)) (hruns : Runs (alone tree us) start order' t.store)
    (hvisited : ∀ v, Visited (alone tree us) start order v → Visited (alone tree us) start order' v)
    (hp : ∀ staged seen, Progress tree (us i) staged True seen phase) :
    Serialized tree us start t order' := by
  refine ⟨hperm.nodup_iff.mpr (List.nodup_cons.mpr ⟨hnew, hi.nodup⟩), hruns, fun j => ?_⟩
  rw [hphases, hloaded]
  rcases eq_or_ne j i with rfl | hj
  · rw [Function.update_self]
    exact (hp _ _).mono (iff_true_intro (hperm.mem_iff.mpr List.mem_cons_self)) id
  · rw [Function.update_of_ne hj]
    refine (hi.progress j).mono ?_ ?_
    · rw [hperm.mem_iff, List.mem_cons, or_iff_right hj]
    · rintro ⟨v, hv, hload⟩
      exact ⟨v, hvisited v hv, hload⟩

theorem Serialized.acquire {i : ι} {script : Script Empty} {succeeds : Bool}
    (hi : Serialized tree us start s order) (hnew : i ∉ order)
    (hp : Progress tree (us i) (s.loaded i) (i ∈ order) (Seen tree us start order (s.loaded i))
      (.locked script)) :
    Serialized tree us start (s.acquire i script succeeds) order := by
  unfold Commands.acquire
  split_ifs
  · exact hi.keep rfl rfl rfl hp
  · exact hi.keep rfl rfl rfl (.failed hnew)

/-- A command that has decided what to do takes the lock again, or is done: then its place is where
it has loaded the staged files. -/
theorem Serialized.step_decided {i : ι} {succeeds : Bool}
    (hi : Serialized tree us start s order) (hnew : i ∉ order)
    (hseen : Seen tree us start order (s.loaded i))
    (hphase : s.phases i = .at ((us i).effect tree (s.loaded i)).script)
    (h : s.step tree (i, succeeds) = some t) : ∃ order', Serialized tree us start t order' := by
  have hwriting : (us i).effect tree (s.loaded i) ≠ .nothing →
      Progress tree (us i) (s.loaded i) (i ∈ order) (Seen tree us start order (s.loaded i))
        (.locked ((us i).effect tree (s.loaded i)).script) := .writing hnew
  cases heffect : (us i).effect tree (s.loaded i) with
  | nothing =>
    rw [heffect] at hphase
    simp only [Commands.step, hphase, Effect.script, Option.some.injEq] at h
    subst h
    obtain ⟨v, hv, hload⟩ := hseen
    have halone : alone tree us i v = .ok v := by
      rw [alone, Update.alone_eq hload, heffect]
      rfl
    obtain ⟨order', hperm, hruns, hvisited⟩ := hi.runs.insert hv halone
    exact ⟨order', hi.commit hnew rfl rfl hperm hruns hvisited fun _ _ => .finished trivial⟩
  | save staged =>
    have hwriting := hwriting (by rw [heffect]; exact nofun)
    rw [heffect] at hphase hwriting
    simp only [Commands.step, hphase, Effect.script, Option.some.injEq] at h
    subst h
    exact ⟨order, hi.acquire hnew hwriting⟩
  | delete =>
    have hwriting := hwriting (by rw [heffect]; exact nofun)
    rw [heffect] at hphase hwriting
    simp only [Commands.step, hphase, Effect.script, Option.some.injEq] at h
    subst h
    exact ⟨order, hi.acquire hnew hwriting⟩

/-- A command writes what it would write alone, and its place is the last one. -/
theorem Serialized.step_writing {i : ι} {succeeds : Bool}
    (hi : Serialized tree us start s order) (hnew : i ∉ order)
    (he : (us i).effect tree (s.loaded i) ≠ .nothing)
    (hphase : s.phases i = .locked ((us i).effect tree (s.loaded i)).script)
    (hc : s.Current tree us (i, succeeds)) (h : s.step tree (i, succeeds) = some t) :
    ∃ order', Serialized tree us start t order' := by
  have halone : (s.phases i).writes succeeds = true → alone tree us i s.store =
      .ok (((us i).effect tree (s.loaded i)).apply s.store) := fun hw => (hc hw).alone he
  rw [hphase] at halone
  have hlast : ∀ u, alone tree us i s.store = .ok u →
      (order ++ [i]).Perm (i :: order) ∧ Runs (alone tree us) start (order ++ [i]) u := by
    intro u hu
    exact ⟨List.perm_append_comm, hi.runs.concat hu⟩
  cases heffect : (us i).effect tree (s.loaded i) with
  | nothing => exact absurd heffect he
  | save staged =>
    rw [heffect] at hphase halone
    simp only [Commands.step, hphase, Effect.script, Option.some.injEq] at h
    cases succeeds with
    | true =>
      obtain ⟨hperm, hruns⟩ := hlast _ (halone rfl)
      subst h
      exact ⟨order ++ [i], hi.commit hnew rfl rfl hperm hruns (fun _ hv => hv.append [i])
        fun _ _ => .written trivial⟩
    | false =>
      subst h
      exact ⟨order, hi.keep rfl rfl rfl (.throwing hnew)⟩
  | delete =>
    rw [heffect] at hphase halone
    obtain ⟨hperm, hruns⟩ := hlast _ (halone rfl)
    simp only [Commands.step, hphase, Effect.script, Option.some.injEq] at h
    subst h
    exact ⟨order ++ [i], hi.commit hnew rfl rfl hperm hruns (fun _ hv => hv.append [i])
      fun _ _ => .written trivial⟩

theorem Serialized.step {a : ι × Bool} (hi : Serialized tree us start s order)
    (hc : s.Current tree us a) (h : s.step tree a = some t) :
    ∃ order', Serialized tree us start t order' := by
  obtain ⟨i, succeeds⟩ := a
  have hp := hi.progress i
  generalize hphase : s.phases i = phase at hp
  cases hp with
  | start hnew =>
    rw [Update.script_eq] at hphase
    simp only [Commands.step, hphase, Option.some.injEq] at h
    subst h
    refine ⟨order, hi.acquire hnew ?_⟩
    rw [← Update.script_eq]
    exact .reading hnew
  | reading hnew =>
    rw [Update.script_eq] at hphase
    cases hload : loadStagedFiles tree s.store with
    | ok staged =>
      simp only [Commands.step, hphase, hload, Option.some.injEq] at h
      subst h
      refine ⟨order, hi.nodup, hi.runs, fun j => ?_⟩
      rcases eq_or_ne j i with rfl | hj
      · simp only [set, Function.update_self]
        exact .read hnew ⟨s.store, hi.runs.visited, hload⟩
      · simp only [set, Function.update_of_ne hj]
        exact hi.progress j
    | error e =>
      simp only [Commands.step, hphase, hload, Option.some.injEq] at h
      subst h
      exact ⟨order, hi.keep rfl rfl rfl (.throwing hnew)⟩
  | read hnew hseen =>
    simp only [Commands.step, hphase, Option.some.injEq] at h
    subst h
    exact ⟨order, hi.keep rfl rfl rfl (.matching hnew hseen)⟩
  | matching hnew hseen =>
    cases hu : us i with
    | stage matching =>
      rw [hu] at hphase
      simp only [Commands.step, hphase, Update.afterLoad, Option.some.injEq] at h
      subst h
      refine ⟨order, hi.keep rfl rfl rfl ?_⟩
      cases succeeds with
      | true =>
        have hdecided : Progress tree (us i) (s.loaded i) (i ∈ order)
            (Seen tree us start order (s.loaded i))
            (.at ((us i).effect tree (s.loaded i)).script) := .decided hnew hseen
        rw [hu] at hdecided ⊢
        exact hdecided
      | false => exact .failed hnew
    | unstage matching =>
      have heq : (us i).afterLoad (s.loaded i) = ((us i).effect tree (s.loaded i)).script := by
        rw [hu]
        rfl
      exact hi.step_decided hnew hseen (hphase.trans (congrArg Phase.at heq)) h
  | decided hnew hseen => exact hi.step_decided hnew hseen hphase h
  -- the step that changes the store: here the command takes its place in the order
  | writing hnew he => exact hi.step_writing hnew he hphase hc h
  | written hold =>
    simp only [Commands.step, hphase, Option.some.injEq] at h
    subst h
    exact ⟨order, hi.keep rfl rfl rfl (.ending hold)⟩
  | ending hold =>
    simp only [Commands.step, hphase, Option.some.injEq] at h
    subst h
    exact ⟨order, hi.keep rfl rfl rfl (.finished hold)⟩
  | finished hold => simp [Commands.step, hphase] at h
  | throwing hnew =>
    simp only [Commands.step, hphase, Option.some.injEq] at h
    subst h
    exact ⟨order, hi.keep rfl rfl rfl (.failed hnew)⟩
  | failed hnew => simp [Commands.step, hphase] at h

/-- Staging commands are serializable, as long as every command that writes or deletes `staged.txt`
agrees with what it would load at that moment: the final store is the result of executing, in some
order, exactly the commands that have finished without an error. -/
theorem serializable (tree : Tree) (us : ι → Update) (start : Store) {s : Commands ι}
    (h : Reach (step tree) (Current tree us) (Commands.initial us start) s)
    (hend : ∀ i, s.phases i = .finished ∨ s.phases i = .failed) :
    ∃ order : List ι, order.Nodup ∧ (∀ i, i ∈ order ↔ s.phases i = .finished) ∧
      Runs (alone tree us) start order s.store := by
  obtain ⟨order, hi⟩ : ∃ order, Serialized tree us start s order :=
    h.invariant (I := fun t => ∃ order, Serialized tree us start t order)
      (fun _ _ _ ⟨_, hi⟩ hc hs => hi.step hc hs) ⟨[], Serialized.initial tree us start⟩
  refine ⟨order, hi.nodup, fun i => ?_, hi.runs⟩
  have hp := hi.progress i
  rcases hend i with hphase | hphase
  · rw [hphase] at hp ⊢
    cases hp with
    | finished hold => exact iff_of_true hold rfl
  · rw [hphase] at hp ⊢
    cases hp with
    | failed hnew => exact iff_of_false hnew nofun

/-- A tree with two files. -/
def twoFiles : Tree := ⟨{[97], [98]}, {[97], [98]}, Finset.Subset.refl _⟩

/-- Both commands load the staged files, then both go on to their end. -/
def interleaved : List (Bool × Bool) :=
  List.replicate 3 (false, true) ++ List.replicate 3 (true, true) ++
    List.replicate 5 (false, true) ++ List.replicate 5 (true, true)

/-- Both commands have ended without an error, with this store. -/
def endsWith (store : Store) (s : Commands Bool) : Bool :=
  match s.phases false, s.phases true with
  | .finished, .finished => decide (s.store = store)
  | _, _ => false

theorem of_endsWith {store : Store} {s : Commands Bool} (h : endsWith store s = true) :
    (∀ i, s.phases i = .finished) ∧ s.store = store := by
  unfold endsWith at h
  split at h
  · rename_i hfalse htrue
    refine ⟨fun i => ?_, of_decide_eq_true h⟩
    cases i
    · exact hfalse
    · exact htrue
  · cases h

/-- Two commands that add the same file. -/
theorem serializable_sameFile : ∃ s, Reach (step twoFiles)
      (Current twoFiles fun _ => .stage (· = [97]))
      (Commands.initial (fun _ : Bool => .stage (· = [97])) none) s ∧
    s.store = some (lines [97]) ∧ ∃ order : List Bool, order.Nodup ∧ (∀ i, i ∈ order) ∧
      Runs (alone twoFiles fun _ => .stage (· = [97])) none order s.store := by
  have hrun : (exec (restrict (step twoFiles) (Current twoFiles fun _ => .stage (· = [97])))
      (Commands.initial (fun _ : Bool => .stage (· = [97])) none) interleaved).map
      (endsWith (some (lines [97]))) = some true := by decide +kernel
  obtain ⟨s, hs, htest⟩ := reach_of_exec_restrict _ hrun
  obtain ⟨hfinished, hstore⟩ := of_endsWith htest
  obtain ⟨order, hnodup, hmem, hruns⟩ := serializable twoFiles (fun _ => .stage (· = [97])) none hs
    fun i => Or.inl (hfinished i)
  exact ⟨s, hs, hstore, order, hnodup, fun i => (hmem i).mpr (hfinished i), hruns⟩

/-- One command adds one file, the other adds the other file. -/
def addBoth : Bool → Update
  | false => .stage (· = [97])
  | true => .stage (· = [98])

/-- Both commands load the empty set, and the second one to save loses the file of the first. -/
theorem exists_lost_update : ∃ s, Reach (step twoFiles) any (Commands.initial addBoth none) s ∧
    (∀ i, s.phases i = .finished) ∧ ¬ ∃ order : List Bool, order.Nodup ∧
      (∀ i, i ∈ order ↔ s.phases i = .finished) ∧
      Runs (alone twoFiles addBoth) none order s.store := by
  have hrun : (exec (step twoFiles) (Commands.initial addBoth none) interleaved).map
      (endsWith (some (lines [98]))) = some true := by decide +kernel
  obtain ⟨s, hs, htest⟩ := reach_of_exec_test _ (fun _ _ _ => trivial) hrun
  obtain ⟨hfinished, hstore⟩ := of_endsWith htest
  refine ⟨s, hs, hfinished, ?_⟩
  rintro ⟨order, hnodup, hmem, hruns⟩
  have hperm : order.Perm [false, true] := by
    refine (List.perm_ext_iff_of_nodup hnodup (by decide)).mpr fun i => ?_
    rw [hmem]
    refine iff_of_true (hfinished i) ?_
    cases i <;> decide
  have horder : order = [false, true] ∨ order = [true, false] := by
    obtain ⟨i, j, rfl⟩ := List.length_eq_two.mp hperm.length_eq
    cases i <;> cases j <;> simp at hnodup ⊢
  have hboth : s.store = some (lines [97] ∪ lines [98]) := by
    rcases horder with rfl | rfl
    · obtain ⟨u, hu, t, ht, hlast⟩ := hruns
      obtain rfl : some (lines [97]) = u := Except.ok.inj hu
      obtain rfl := Except.ok.inj ht
      exact hlast.symm.trans (by decide)
    · obtain ⟨u, hu, t, ht, hlast⟩ := hruns
      obtain rfl : some (lines [98]) = u := Except.ok.inj hu
      obtain rfl := Except.ok.inj ht
      exact hlast.symm.trans (by decide)
  rw [hstore] at hboth
  exact absurd hboth (by decide)

end Commands

end Staging

end Trit
