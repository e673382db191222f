/-
**The shared store over a run.**

What is kept for the whole program can be told from the run alone, whatever the order of its steps.
The settings in force are those that were first read with success since they were last forgotten, or
else what the environment says now.  Between closings there is one shared store; it was opened as
the settings then in force asked, and its records are those that were there when it was opened, with
the changes made since.  The table of a file is that at the start with all changes made in the file,
be the store that was connected to it closed meanwhile or not.  A store in memory starts empty, and
so does one under the name that stands for no file.

All this follows from what one step may do, by induction on the run.

Main definitions:

* `Sharing.run`, `Sharing.Proper` — runs, and what is assumed of them;
* `Sharing.snapshot?` — the settings that were read in a run and not forgotten;
* `Sharing.changes`, `Sharing.changesAt` — the changes that a run makes, all or those in one file;
* `Sharing.Calm` — the invariant of the session;
* `Sharing.Lasts` — what is said of the shared store over a part of a run.

Main results:

* `Sharing.settings_run`, `Sharing.alters_run`, `Sharing.table_run` — the settings, the records of
  the shared store, and the tables of the files after a run;
* `Sharing.lasts_of_run` — **the shared store over a run**;
* `Sharing.lost_records` — records that are lost, under a name that stands for no file and in
  memory.
-/

import EntitySchema.Proofs.StoreSteps

set_option autoImplicit false

namespace EntitySchema

namespace Sharing

open Session

variable {s s' t s₀ : Session} {sh : Shared} {x : Settings} {new : Store} {d : Disk} {rounds : Nat}
  {i : StoreId} {rs : List Record} {cs : List Change} {st : Step} {steps : List Step} {p : Place}

/-! ### Runs -/

/-- The session after a run. -/
def run (s : Session) : List Step → Session
  | [] => s
  | st :: steps => run (st.perform s) steps

/-- What is assumed of a run. -/
def Proper (s : Session) : List Step → Prop
  | [] => True
  | st :: steps => st.Proper s ∧ Proper (st.perform s) steps

/-- The settings that were read in a run with success, the first since they were last forgotten, if
some were kept before. -/
def snapshot? (s : Session) (kept? : Option Settings) : List Step → Option Settings
  | [] => kept?
  | st :: steps => snapshot? (st.perform s) (st.noted s kept?) steps

/-- The changes that a run makes in the stores that are the shared one at a time. -/
def changes (s : Session) : List Step → List Change
  | [] => []
  | st :: steps => st.made s ++ changes (st.perform s) steps

/-- The changes that a run makes in the file in a place. -/
def changesAt (p : Place) (s : Session) : List Step → List Change
  | [] => []
  | st :: steps =>
    (if place? (st.perform s) = some p then st.made s else []) ++ changesAt p (st.perform s) steps

/-- A run without saving and deleting makes no changes. -/
theorem changesAt_eq_nil (quiet : ∀ st ∈ steps, ∀ inFile s, st.change? inFile s = none) :
    changesAt p s steps = [] := by
  induction steps generalizing s with
  | nil => rfl
  | cons st steps ih =>
    obtain ⟨first, rest⟩ := List.forall_mem_cons.1 quiet
    rw [changesAt, Step.made_eq_nil fun inFile => first inFile s, ite_self, ih rest]
    rfl

theorem run_append (s : Session) (before during : List Step) :
    run s (before ++ during) = run (run s before) during := by
  induction before generalizing s with
  | nil => rfl
  | cons st before ih => exact ih _

theorem proper_append {before during : List Step} :
    Proper s (before ++ during) ↔ Proper s before ∧ Proper (run s before) during := by
  induction before generalizing s with
  | nil => exact ⟨fun h => ⟨trivial, h⟩, And.right⟩
  | cons st before ih => exact (and_congr_right fun _ => ih).trans and_assoc.symm

/-- The start of a program: nothing was opened, and no settings were read. -/
structure Begins (s : Session) : Prop where
  shared : s.shared = none
  settings : s.settings = none
  survey : s.survey = none

theorem Begins.calm (h : Begins s) : Calm s where
  survey := h.survey
  ready hs := by
    rw [h.shared] at hs
    cases hs
  keeps hs := by
    rw [h.shared] at hs
    cases hs
  place hs := by
    rw [h.shared] at hs
    cases hs

/-! ### What one step preserves -/

/-- The shared store is ready after changes, and keeps records. -/
theorem Calm.alters (calm : Calm t) (shared : t.shared = some sh) (h : Alters sh.store cs t s') :
    Calm s' := by
  have ready := calm.ready shared
  have same : ∀ {sh' : Shared}, s'.shared = some sh' → sh' = sh := fun hs =>
    Option.some.inj (hs.symm.trans (h.shared.trans shared))
  refine ⟨h.survey.trans calm.survey, fun hs => ?_, fun hs => ?_, fun hs => ?_⟩ <;>
    obtain rfl := same hs
  · exact ready.of_now h.shared h.survey h.now
  · obtain ⟨rs, keeps⟩ := calm.keeps shared
    exact ⟨_, h.keeps (ready.awaited _) keeps⟩
  · rw [h.place, h.path]
    exact calm.place shared

theorem calm_launched (unsurveyed : s.survey = none) (h : s.disk.Launches x new d rounds) :
    Calm (s.launched x new d rounds) := by
  have ready := ready_launched x new d rounds unsurveyed
  have same : ∀ {sh' : Shared}, (s.launched x new d rounds).shared = some sh' →
      sh' = ⟨s.stores.length, s.now, s.now.after rounds, none⟩ := fun hs =>
    (Option.some.inj hs).symm
  refine ⟨unsurveyed, fun hs => ?_, fun hs => ?_, fun hs => ?_⟩ <;> obtain rfl := same hs
  · exact ready
  · exact ⟨_, keeps_launched unsurveyed h⟩
  · dsimp only
    rw [store_eq launched_store, h.place?, h.path?]
    rfl

/-- A calm session stays calm. -/
theorem Effect.calm (effect : Effect s st s') (calm : Calm s) : Calm s' := by
  have closed : s'.shared = none → Calm s' := fun hs => by
    refine ⟨effect.survey, fun h => ?_, fun h => ?_, fun h => ?_⟩ <;>
      (rw [hs] at h; cases h)
  cases effect.does with
  | idles _ after => exact closed after
  | closes _ after => exact closed after
  | works _ ready work => exact calm.alters ready.shared work
  | launches _ _ launch work => exact (calm_launched calm.survey launch).alters rfl work

/-- Changes in the shared store are changes in the table of its file, if it has one. -/
theorem Calm.table_of_alters (calm : Calm t) (shared : t.shared = some sh)
    (h : Alters sh.store cs t s') : s'.disk.table p =
      MemoryStore.changed (t.disk.table p) (if place? s' = some p then cs else []) := by
  have place : place? s' = (t.store sh.store).place? := by
    rw [place?, h.shared, shared]
    exact h.place
  rw [place]
  by_cases hp : (t.store sh.store).place? = some p
  · obtain ⟨rs, keeps⟩ := calm.keeps shared
    have after := h.keeps ((calm.ready shared).awaited _) keeps
    rw [if_pos hp, after.table (h.place.trans hp), keeps.table hp]
  · rw [if_neg hp, h.table hp, MemoryStore.changed_nil]

/-- The table of a file after a step. -/
theorem Effect.table (effect : Effect s st s') (calm : Calm s) : s'.disk.table p =
      MemoryStore.changed (s.disk.table p) (if place? s' = some p then st.made s else []) := by
  have closed : s'.shared = none → s'.disk = s.disk → s'.disk.table p =
      MemoryStore.changed (s.disk.table p) (if place? s' = some p then st.made s else []) := by
    intro hs disk
    rw [place?, hs, disk, if_neg (by rintro ⟨⟩), MemoryStore.changed_nil]
  cases effect.does with
  | idles _ after disk _ => exact closed after disk
  | closes _ after disk => exact closed after disk
  | works _ ready work => exact calm.table_of_alters ready.shared work
  | launches _ _ launch work =>
    rw [(calm_launched calm.survey launch).table_of_alters rfl work]
    exact congrArg (MemoryStore.changed · _) (launch.table p)

/-! ### What a run preserves -/

theorem calm_run (calm : Calm s) (proper : Proper s steps) : Calm (run s steps) := by
  induction steps generalizing s with
  | nil => exact calm
  | cons st steps ih => exact ih ((Step.effect calm proper.1).calm calm) proper.2

/-- **The settings that are kept are those read in the run.** -/
theorem settings_run (calm : Calm s) (proper : Proper s steps) :
    (run s steps).settings = snapshot? s s.settings steps := by
  induction steps generalizing s with
  | nil => rfl
  | cons st steps ih =>
    have effect := Step.effect calm proper.1
    rw [snapshot?, ← effect.settings]
    exact ih (effect.calm calm) proper.2

/-- **Without a closing the shared store is the same, with the changes made.** -/
theorem alters_run (calm : Calm s) (proper : Proper s steps) (shared : s.shared = some sh)
    (unclosed : .closeStore ∉ steps) : Alters sh.store (changes s steps) s (run s steps) := by
  induction steps generalizing s with
  | nil => exact (Works.refl sh.store s).toAlters
  | cons st steps ih =>
    obtain ⟨first, rest⟩ := not_or.1 (mt List.mem_cons.2 unclosed)
    have effect := Step.effect calm proper.1
    have one : Alters sh.store (st.made s) s (st.perform s) := by
      cases effect.does with
      | idles before => exact absurd (before.symm.trans shared) (by rintro ⟨⟩)
      | closes same => exact absurd same.symm first
      | works _ ready work =>
        obtain rfl := Option.some.inj (ready.shared.symm.trans shared)
        exact work
      | launches before => exact absurd (before.symm.trans shared) (by rintro ⟨⟩)
    exact one.trans (ih (effect.calm calm) proper.2 (one.shared.trans shared) rest)

/-- **The table of a file has all changes that were made in it**, closings or not. -/
theorem table_run (calm : Calm s) (proper : Proper s steps) : (run s steps).disk.table p =
    MemoryStore.changed (s.disk.table p) (changesAt p s steps) := by
  induction steps generalizing s with
  | nil => rfl
  | cons st steps ih =>
    have effect := Step.effect calm proper.1
    rw [changesAt, MemoryStore.changed_append, ← effect.table calm]
    exact ih (effect.calm calm) proper.2

/-! ### The shared store over a run -/

/-- What is said of the shared store over a part of a run, which starts in a session with these
settings in force. -/
structure Lasts (s : Session) (force : Except Failure Settings) (during : List Step) : Prop where
  /-- Until it is closed there is one store, with the changes made since it was got. -/
  one {rest : List Step} {i : StoreId} : during = .getStore :: rest →
    (outcome sharedStore s).1 = .ok i → .closeStore ∉ rest →
      outcome sharedStore (run s during) = (.ok i, run s during) ∧
      ((run s during).store i).path? = ((Step.getStore.perform s).store i).path? ∧
      ∃ rs, (Step.getStore.perform s).Keeps i rs ∧ (run s during).Keeps i
        (MemoryStore.changed rs (changes (Step.getStore.perform s) rest))
  /-- Whatever asks for the store when there is none opens one. -/
  opens {st : Step} {rest : List Step} {x : Settings} : during = st :: rest → s.shared = none →
    st.asks s = true → force = .ok x → ∃ sh, (st.perform s).shared = some sh
  /-- The store that is opened is what the settings in force ask for. -/
  first {st : Step} {rest : List Step} {sh : Shared} : during = st :: rest → s.shared = none →
    (st.perform s).shared = some sh →
      ∃ x, force = .ok x ∧ sh.store = s.stores.length ∧
        ((st.perform s).store sh.store).path? = x.path? ∧
        (st.perform s).Keeps sh.store (MemoryStore.changed (x.found s.disk) (st.made s))
  /-- It starts empty if it is in memory. -/
  fresh {st : Step} {rest : List Step} {sh : Shared} : during = st :: rest → s.shared = none →
    (st.perform s).shared = some sh → (st.perform s).inFile sh.store = false →
      (st.perform s).Keeps sh.store (MemoryStore.changed [] (st.made s))
  closed {rest : List Step} : during = .closeStore :: rest →
    (Step.closeStore.perform s).shared = none
  /-- Where the settings cannot be read, nothing is opened and nothing is kept. -/
  refused {rest : List Step} {e : Failure} : during = .getStore :: rest →
    (outcome sharedStore s).1 = .error e →
      force = .error e ∧ s.shared = none ∧ s.settings = none ∧ Step.getStore.perform s = s
  /-- Where the environment can be read, the store is got. -/
  corrected {x : Settings} : Connectable (run s during) →
    Settings.read [] (run s during).environment [] = .ok x →
      ∃ i, (outcome sharedStore (run s during)).1 = .ok i
  /-- A file that is opened again has its records, with the changes made in it. -/
  reopened {sh sh' : Shared} {path : String} : s.shared = some sh →
    (run s during).shared = some sh' → (s.store sh.store).path? = some path →
    ((run s during).store sh'.store).path? = some path → path ≠ ":memory:" →
      ∃ rs, s.Keeps sh.store rs ∧ (run s during).Keeps sh'.store
        (MemoryStore.changed rs (changesAt (Path.ofText path).place s during))
  /-- An entity that is saved is put. -/
  written {a : Address} {rest : List Step} : during = .save a :: rest →
    (outcome (Persistence.save (.object a)) s).1.toBool = true →
      ∃ r : Record, (Step.save a).made s = [.put r.key r.data]

section

variable (calm : Calm s)

include calm

/-- Whoever gets the shared store finds it there afterwards. -/
theorem exists_shared_of_getStore (proper : Step.getStore.Proper s)
    (got : (outcome sharedStore s).1 = .ok i) :
    ∃ sh, (Step.getStore.perform s).shared = some sh ∧ sh.store = i := by
  cases hs : s.shared with
  | some sh =>
    have handed := (calm.ready hs).outcome_sharedStore
    refine ⟨sh, ?_, ?_⟩
    · rw [Step.perform, handed]
      exact hs
    · rw [handed] at got
      exact Except.ok.inj got
  | none =>
    obtain ⟨-, x, new, d, rounds, settings, launch⟩ | refused :=
      launches_or_refused proper hs true
    · have opened := outcome_sharedStore_of_launches calm.survey hs settings launch
      refine ⟨⟨s.stores.length, s.now, s.now.after rounds, none⟩, ?_, ?_⟩
      · rw [Step.perform, opened]
        rfl
      · rw [opened] at got
        exact Except.ok.inj got
    · obtain ⟨e, settings⟩ := refused rfl
      rw [outcome_sharedStore_of_error calm.survey hs settings] at got
      cases got

/-- Whoever does not get the shared store finds none, and the settings cannot be read. -/
theorem inForce_of_getStore_error {e : Failure} (proper : Step.getStore.Proper s)
    (refused : (outcome sharedStore s).1 = .error e) :
    s.shared = none ∧ Settings.inForce s.settings s.environment = .error e := by
  cases hs : s.shared with
  | some sh =>
    rw [(calm.ready hs).outcome_sharedStore] at refused
    cases refused
  | none =>
    cases settings : Settings.inForce s.settings s.environment with
    | error e' =>
      rw [outcome_sharedStore_of_error calm.survey hs settings] at refused
      cases refused
      exact ⟨rfl, rfl⟩
    | ok x =>
      obtain ⟨rounds, connects⟩ := proper hs x settings
      obtain ⟨new, d, launch⟩ := connects.exists_launches
      rw [outcome_sharedStore_of_launches calm.survey hs settings launch] at refused
      cases refused

/-- Whatever asks for the shared store when there is none opens one. -/
theorem exists_shared_of_asks (proper : st.Proper s) (unopened : s.shared = none)
    (asks : st.asks s = true) (settings : Settings.inForce s.settings s.environment = .ok x) :
    ∃ sh, (st.perform s).shared = some sh := by
  cases (Step.effect calm proper).does with
  | idles _ _ _ idle =>
    obtain ⟨e, refused⟩ := idle asks
    exact absurd (settings.symm.trans refused) (by rintro ⟨⟩)
  | closes same =>
    subst same
    cases asks
  | works _ ready => exact absurd (unopened.symm.trans ready.shared) (by rintro ⟨⟩)
  | launches _ _ _ work => exact ⟨_, work.shared⟩

/-- The step that opens the shared store launches it, and works on it. -/
theorem exists_launch (proper : st.Proper s) (unopened : s.shared = none)
    (shared : (st.perform s).shared = some sh) :
    sh.store = s.stores.length ∧ ∃ x new d rounds,
      Settings.inForce s.settings s.environment = .ok x ∧ s.disk.Launches x new d rounds ∧
      Alters sh.store (st.made s) (s.launched x new d rounds) (st.perform s) := by
  cases (Step.effect calm proper).does with
  | idles _ after => exact absurd (after.symm.trans shared) (by rintro ⟨⟩)
  | closes _ after => exact absurd (after.symm.trans shared) (by rintro ⟨⟩)
  | works _ ready => exact absurd (unopened.symm.trans ready.shared) (by rintro ⟨⟩)
  | @launches x new d rounds _ settings launch work =>
    obtain rfl := Option.some.inj (shared.symm.trans work.shared)
    exact ⟨rfl, x, new, d, rounds, settings, launch, work⟩

/-- A store that is opened keeps what the settings ask for, with the changes made at once. -/
theorem keeps_first (proper : st.Proper s) (unopened : s.shared = none)
    (shared : (st.perform s).shared = some sh) :
    ∃ x, Settings.inForce s.settings s.environment = .ok x ∧ sh.store = s.stores.length ∧
      ((st.perform s).store sh.store).path? = x.path? ∧
      (st.perform s).Keeps sh.store (MemoryStore.changed (x.found s.disk) (st.made s)) := by
  obtain ⟨there, x, new, d, rounds, settings, launch, work⟩ :=
    exists_launch calm proper unopened shared
  have ready := (calm_launched calm.survey launch).ready rfl
  refine ⟨x, settings, there, ?_, work.keeps (ready.awaited _) ?_⟩
  · rw [work.path, there, store_eq launched_store, launch.path?]
  · rw [there]
    exact keeps_launched calm.survey launch

/-- **What is said of the shared store holds from every calm session on.** -/
theorem lasts_of_calm {during : List Step} (proper : Proper s during) :
    Lasts s (Settings.inForce s.settings s.environment) during where
  one := by
    rintro rest i rfl got unclosed
    obtain ⟨sh, shared, rfl⟩ := exists_shared_of_getStore calm proper.1 got
    -- from the step on nothing closes the store, so what is kept in it is altered by work only
    have calm₁ := (Step.effect calm proper.1).calm calm
    have work := alters_run calm₁ proper.2 shared unclosed
    have ready := (calm_run calm₁ proper.2).ready (work.shared.trans shared)
    obtain ⟨rs, keeps⟩ := calm₁.keeps shared
    exact ⟨ready.outcome_sharedStore, work.path, rs, keeps,
      work.keeps ((calm₁.ready shared).awaited _) keeps⟩
  opens := by
    rintro st rest x rfl unopened asks settings
    exact exists_shared_of_asks calm proper.1 unopened asks settings
  first := by
    rintro st rest sh rfl unopened shared
    exact keeps_first calm proper.1 unopened shared
  fresh := by
    rintro st rest sh rfl unopened shared memory
    obtain ⟨x, -, -, path, keeps⟩ := keeps_first calm proper.1 unopened shared
    rw [inFile_eq_isSome, path] at memory
    have none : x.path? = none := by simpa using memory
    rw [Settings.found, Settings.place?, none] at keeps
    exact keeps
  closed := by
    rintro rest rfl
    exact (closeShared_spec s).1
  refused := by
    rintro rest e rfl refused
    obtain ⟨unopened, settings⟩ := inForce_of_getStore_error calm proper.1 refused
    refine ⟨settings, unopened, ?_, congrArg Prod.snd
      (outcome_sharedStore_of_error calm.survey unopened settings)⟩
    cases hs : s.settings with
    | none => rfl
    | some x =>
      rw [hs] at settings
      cases settings
  corrected := by
    intro x connectable read
    -- settings that can be read are in force from then on, so asking cannot be refused
    have calm₁ := calm_run calm proper
    cases got : (outcome sharedStore (run s during)).1 with
    | ok i => exact ⟨i, rfl⟩
    | error e =>
      obtain ⟨-, settings⟩ := inForce_of_getStore_error calm₁ connectable got
      cases hs : (run s during).settings with
      | none =>
        rw [hs] at settings
        exact absurd (read.symm.trans settings) (by rintro ⟨⟩)
      | some y =>
        rw [hs] at settings
        cases settings
  reopened := by
    intro sh sh' path shared shared' hpath hpath' named
    have calm₁ := calm_run calm proper
    obtain ⟨rs, keeps⟩ := calm.keeps shared
    obtain ⟨rs', keeps'⟩ := calm₁.keeps shared'
    have sited : some path >>= placeOf? = some (Path.ofText path).place := if_neg named
    have place := (calm.place shared).trans (hpath ▸ sited)
    have place' := (calm₁.place shared').trans (hpath' ▸ sited)
    -- both stores are connections to one place, and what is there is told by the run
    have table := table_run (p := (Path.ofText path).place) calm proper
    rw [keeps.table place, keeps'.table place'] at table
    exact ⟨rs, keeps, table ▸ keeps'⟩
  written := by
    rintro a rest rfl saved
    exact made_save calm proper.1 saved

end

/-- **The shared store over a run.** -/
theorem lasts_of_run {before during : List Step} (begins : Begins s₀)
    (proper : Proper s₀ (before ++ during)) :
    Lasts (run s₀ before)
      (Settings.inForce (snapshot? s₀ none before) (run s₀ before).environment) during := by
  obtain ⟨early, late⟩ := proper_append.1 proper
  have settings := settings_run begins.calm early
  rw [begins.settings] at settings
  rw [← settings]
  exact lasts_of_calm (calm_run begins.calm early) late

/-! ### A file that is opened again -/

/-- A class of people, who need a name. -/
def people : Catalog where
  classes := [⟨"Entity", "Entity", [0], [], none, some none⟩,
    ⟨"Person", "Person", [1, 0], [("name", Checker.string.require)], none, none⟩]
  names := [("Person", 1)]

/-- A session with a person in it and variables in the environment. -/
def personal (env : Table String) : Session :=
  { Session.initial with
    catalog := people
    heap := [.entity 1 (.str "1") [] [("name", .str "Ann")]]
    environment := env }

theorem begins_personal (env : Table String) : Begins (personal env) := ⟨rfl, rfl, rfl⟩

/-- The record of the person. -/
def ann : Record := ⟨⟨.text "Person", "1"⟩, [(.str "_id", .str "1"), (.str "name", .str "Ann")]⟩

/-- Variables that ask for a file in the working directory. -/
def fileVariables : Table String :=
  [("SHAPEGUARD_STORE_BACKEND", "sqlite"), ("SHAPEGUARD_DATABASE_URL", "sqlite")]

/-- What they say. -/
def fileSettings : Settings := ⟨.sqlite, "sqlite", none⟩

/-- The place of that file. -/
def filePlace : Place := Disk.working ++ ["sqlite"]

/-- The tree of files with that file in it. -/
def fileDisk : Disk := ((Disk.initial.openPlace filePlace).2).migrate (.file filePlace)

/-- The session after the person was saved in that file. -/
def savedSession : Session := (outcome (Persistence.save (.object 0))
  ((personal fileVariables).launched fileSettings (.file "sqlite" (.file filePlace)) fileDisk 8)).2

/-- The session after the store was closed then, and the environment was changed. -/
def closedSession : Session :=
  Step.perform (Step.closeStore.perform savedSession)
    (.setVariables [("SHAPEGUARD_STORE_BACKEND", some "memory")])

theorem launches_file : ∃ d rounds,
    closedSession.disk.Launches fileSettings (.file "sqlite" (.file filePlace)) d rounds := by
  have connect : ∃ d, closedSession.disk.connect "sqlite" = (.ok (.file filePlace), d) := by
    refine ⟨(closedSession.disk.connect "sqlite").2, ?_⟩
    rw [Disk.connect, ofText_sqlite]
    rfl
  obtain ⟨d, hd⟩ := connect
  rw [← normalPath_filing] at hd ⊢
  exact ⟨d, _, .file rfl hd (by rintro ⟨⟩)⟩

theorem launches_new_file : Disk.initial.Launches fileSettings (.file "sqlite" (.file filePlace))
    fileDisk 8 := by
  have connect : Disk.initial.connect "sqlite" = (.ok (.file filePlace), fileDisk) := by
    rw [Disk.connect, ofText_sqlite]
    rfl
  rw [← normalPath_filing] at connect ⊢
  exact .file rfl connect (by rintro ⟨⟩)

/-- The store is got in vain, the environment is corrected, and a person is saved. -/
def correcting : List Step :=
  [.getStore, .setVariables [("SHAPEGUARD_STORE_BACKEND", some "sqlite"),
    ("SHAPEGUARD_DATABASE_URL", some "sqlite")], .save 0]

/-- The store is closed and got again, in an environment that says something else. -/
def reopening : List Step :=
  [.closeStore, .setVariables [("SHAPEGUARD_STORE_BACKEND", some "memory")], .getStore]

/-- Variables that say nothing. -/
def misnamed : Table String := [("SHAPEGUARD_STORE_BACKEND", "postgres")]

/-- Nothing is read from such variables, and then the person is saved. -/
theorem run_correcting : run (personal misnamed) correcting = savedSession ∧
    Proper (personal misnamed) correcting := by
  have refused : Settings.inForce (personal misnamed).settings (personal misnamed).environment =
      .error (.invalid [⟨["store_backend"], .notAmongLiterals⟩]) := rfl
  have first : Step.getStore.perform (personal misnamed) = personal misnamed :=
    congrArg Prod.snd (outcome_sharedStore_of_error rfl rfl refused)
  have settings : Settings.inForce (personal fileVariables).settings
      (personal fileVariables).environment = .ok fileSettings := rfl
  have common : Persistence.Common (personal fileVariables) 0 1 "save" := ⟨rfl, rfl, rfl, rfl⟩
  have saving : (Step.save 0).perform (personal fileVariables) = savedSession :=
    congrArg Prod.snd (Persistence.outcome_save_of_launches rfl rfl common rfl settings
      launches_new_file)
  constructor
  · rw [correcting, run, first]
    exact saving
  · refine ⟨fun _ x hx => ?_, ?_⟩
    · cases refused.symm.trans hx
    · rw [first]
      refine ⟨trivial, ⟨fun _ x hx => ?_, 1, common, fun memory => ?_⟩, trivial⟩
      · cases settings.symm.trans hx
        exact ⟨8, launches_new_file.connects⟩
      · obtain ⟨x, hx, hb⟩ := memory
        cases settings.symm.trans hx
        cases hb

/-- The person is kept in the file, though the environment says something else by then. -/
theorem lasts_of_run_reopening :
    Begins (personal misnamed) ∧ Proper (personal misnamed) (correcting ++ reopening) ∧
    ∃ sh, (run (personal misnamed) (correcting ++ reopening)).shared = some sh ∧
      ((run (personal misnamed) (correcting ++ reopening)).store sh.store).path? = some "sqlite" ∧
      (run (personal misnamed) (correcting ++ reopening)).Keeps sh.store [ann] := by
  have begins := begins_personal misnamed
  obtain ⟨saved, early⟩ := run_correcting
  obtain ⟨d, rounds, launch⟩ := launches_file
  have settings : Settings.inForce closedSession.settings closedSession.environment =
      .ok fileSettings := rfl
  have got : run savedSession reopening =
      closedSession.launched fileSettings (.file "sqlite" (.file filePlace)) d rounds :=
    congrArg Prod.snd (outcome_sharedStore_of_launches rfl rfl settings launch)
  have late : Proper (run (personal misnamed) correcting) reopening := by
    rw [saved]
    refine ⟨trivial, trivial, fun _ x hx => ?_, trivial⟩
    cases settings.symm.trans hx
    exact ⟨rounds, launch.connects⟩
  have proper := proper_append.2 ⟨early, late⟩
  have lasts := lasts_of_run begins proper
  obtain ⟨sh, shared, there⟩ : ∃ sh, savedSession.shared = some sh ∧ sh.store = 0 := ⟨_, rfl, rfl⟩
  obtain ⟨sh', shared', there'⟩ : ∃ sh', (run savedSession reopening).shared = some sh' ∧
      sh'.store = closedSession.stores.length := by
    rw [got]
    exact ⟨_, rfl, rfl⟩
  have path : (savedSession.store sh.store).path? = some "sqlite" := by
    rw [there]
    rfl
  have path' : ((run savedSession reopening).store sh'.store).path? = some "sqlite" := by
    rw [there', got, store_eq launched_store]
    rfl
  have unchanged : changesAt (Path.ofText "sqlite").place savedSession reopening = [] :=
    changesAt_eq_nil (by simp [reopening, Step.change?])
  rw [saved] at lasts
  obtain ⟨rs, keeps, kept⟩ := lasts.reopened shared shared' path path' (by decide)
  have one : savedSession.Keeps sh.store [ann] := by
    rw [there]
    exact .file (.file rfl rfl rfl rfl)
  obtain rfl := keeps.unique one
  rw [unchanged] at kept
  rw [run_append, saved]
  exact ⟨begins, proper, sh', shared', path', kept⟩

/-! ### Records that are lost -/

/-- The variables that ask for a database that is in no file. -/
def unfiled : Table String :=
  [("SHAPEGUARD_STORE_BACKEND", "sqlite"),
    ("SHAPEGUARD_DATABASE_URL", "sqlite+aiosqlite:///:memory:")]

/-- What they say. -/
def unfiledSettings : Settings := ⟨.sqlite, "sqlite+aiosqlite:///:memory:", none⟩

theorem read_unfiled : Settings.read [] unfiled [] = .ok unfiledSettings := rfl

theorem path?_unfiled : unfiledSettings.path? = some ":memory:" := by
  have slashes : "sqlite+aiosqlite:///:memory:".splitOn "///" = ["sqlite+aiosqlite:", ":memory:"] :=
    splitOn_of_once (l := "sqlite+aiosqlite:".toList) (m := "///".toList) (r := ":memory:".toList)
      (c := '/') rfl (by decide) (by decide)
  have slash : ":memory:".splitOn "/" = [":memory:"] := splitOn_of_absent (by decide) (by decide)
  have database : unfiledSettings.databasePath = ":memory:" := by
    have own : "sqlite+aiosqlite:///:memory:".startsWith "sqlite" = true := by decide +kernel
    rw [Settings.databasePath, unfiledSettings]
    simp only [own, slashes]
    rfl
  have relative : ":memory:".startsWith "/" = false ∧ ":memory:".startsWith "//" = false ∧
      ":memory:".startsWith "///" = false := by decide +kernel
  have normal : normalPath ":memory:" = ":memory:" := by
    rw [normalPath]
    simp only [slash, relative]
    decide
  show some (normalPath unfiledSettings.databasePath) = _
  rw [database, normal]

theorem found_unfiled (d : Disk) : unfiledSettings.found d = [] := by
  have none : unfiledSettings.place? = none := by
    rw [Settings.place?, path?_unfiled]
    rfl
  rw [Settings.found, none]
  rfl

/-- It can be connected at any time. -/
theorem connects_unfiled (d : Disk) : d.Connects (storeFor unfiledSettings) 8 := by
  have path : normalPath unfiledSettings.databasePath = ":memory:" := Option.some.inj path?_unfiled
  have file : storeFor unfiledSettings = .file ":memory:" .closed := by
    rw [← path]
    rfl
  have connect : d.connect ":memory:" = (.ok (.own Database.blank.migrate), d) :=
    rfl
  rw [file]
  exact .file connect (by rintro ⟨⟩)

theorem connectable_of_unfiled (settings : Settings.inForce s.settings s.environment =
    .ok unfiledSettings) : Connectable s := by
  intro _ x hx
  cases settings.symm.trans hx
  exact ⟨8, connects_unfiled s.disk⟩

/-- A person is saved under this name, the store is closed, and it is got again. -/
theorem lost_unfiled :
    Begins (personal unfiled) ∧
    Proper (personal unfiled) [.save 0, .closeStore, .getStore] ∧
    ∃ sh sh', (run (personal unfiled) [.save 0]).shared = some sh ∧
      ((run (personal unfiled) [.save 0]).store sh.store).path? = some ":memory:" ∧
      (run (personal unfiled) [.save 0]).Keeps sh.store [ann] ∧
      (run (personal unfiled) [.save 0, .closeStore, .getStore]).shared = some sh' ∧
      ((run (personal unfiled) [.save 0, .closeStore, .getStore]).store sh'.store).path? =
        some ":memory:" ∧
      (run (personal unfiled) [.save 0, .closeStore, .getStore]).Keeps sh'.store [] := by
  have begins := begins_personal unfiled
  have calm := begins.calm
  have settings : Settings.inForce (personal unfiled).settings (personal unfiled).environment =
      .ok unfiledSettings := read_unfiled
  have saving : (Step.save 0).Proper (personal unfiled) := by
    refine ⟨connectable_of_unfiled settings, 1, ⟨rfl, rfl, rfl, rfl⟩, fun memory => ?_⟩
    obtain ⟨x, hx, hb⟩ := memory
    cases settings.symm.trans hx
    cases hb
  -- the person is saved in a store that is in no file
  obtain ⟨sh, shared⟩ := exists_shared_of_asks calm saving rfl rfl settings
  have effect := Step.effect calm saving
  obtain ⟨x, hx, there, path, keeps⟩ := keeps_first calm saving rfl shared
  cases settings.symm.trans hx
  have made : (Step.save 0).made (personal unfiled) = [.put ann.key ann.data] := by
    have inFile : ((Step.save 0).perform (personal unfiled)).inFile sh.store = true := by
      rw [inFile_eq_isSome, path, path?_unfiled]
      rfl
    rw [Step.made, shared]
    dsimp only
    rw [inFile]
    rfl
  rw [found_unfiled, made] at keeps
  -- it is closed, and the same settings are in force
  have reads : (Step.save 0).reads (personal unfiled) = true := rfl
  have saved := effect.settings.trans (Step.noted_of_reads reads)
  have closing := closeShared_spec ((Step.save 0).perform (personal unfiled))
  have closed := closing.2.2.2.trans saved
  rw [settings] at closed
  have again : Settings.inForce
      (Step.closeStore.perform ((Step.save 0).perform (personal unfiled))).settings
      (Step.closeStore.perform ((Step.save 0).perform (personal unfiled))).environment =
        .ok unfiledSettings := by
    rw [Step.perform, closed]
    rfl
  have getting : Step.getStore.Proper
      (Step.closeStore.perform ((Step.save 0).perform (personal unfiled))) :=
    connectable_of_unfiled again
  have calm₁ := effect.calm calm
  have calm₂ := (effect_closeStore calm₁).calm calm₁
  obtain ⟨sh', shared'⟩ := exists_shared_of_asks calm₂ getting closing.1 rfl again
  obtain ⟨x, hx, there', path', keeps'⟩ := keeps_first calm₂ getting closing.1 shared'
  cases again.symm.trans hx
  rw [found_unfiled, Step.made_eq_nil fun _ => rfl] at keeps'
  exact ⟨begins, ⟨saving, trivial, getting, trivial⟩, sh, sh', shared, path.trans path?_unfiled,
    keeps, shared', path'.trans path?_unfiled, keeps'⟩

/-- A class of boxes. -/
def boxes : Catalog where
  classes := [⟨"Entity", "Entity", [0], [], none, some none⟩,
    ⟨"Box", "Box", [1, 0], [("content", Checker.object)], none, none⟩]
  names := [("Box", 1)]

/-- A session with two boxes under one identifier; what is in the second cannot be copied. -/
def boxing : Session :=
  { Session.initial with
    catalog := boxes
    heap := [.entity 1 (.str "1") [] [("content", .dict [(.str "a", .int 1)])],
      .plain [("__deepcopy__", .int 5)],
      .entity 1 (.str "1") [] [("content", .dict [(.str "a", .object 1)])]] }

/-- The record of the first box. -/
def box : Record :=
  ⟨⟨.text "Box", "1"⟩, [(.str "_id", .str "1"), (.str "content", .dict [(.str "a", .int 1)])]⟩

/-- The first box is saved, and then the second one in vain. -/
theorem lost_box : Begins boxing ∧
    ∃ sh, (run boxing [.save 0]).shared = some sh ∧ (run boxing [.save 0]).Keeps sh.store [box] ∧
      (∃ e, (outcome (Persistence.save (.object 2)) (run boxing [.save 0])).1 = .error e) ∧
      (run boxing [.save 0, .save 2]).shared = some sh ∧
      (run boxing [.save 0, .save 2]).Keeps sh.store [] :=
  ⟨⟨rfl, rfl, rfl⟩, _, rfl, .memory rfl, ⟨_, rfl⟩, rfl, .memory rfl⟩

/-- **Records are lost under the name that stands for no file when the store is closed, and from
memory when a record is put in their place that cannot be copied.** -/
theorem lost_records :
    (∃ sh sh', (run (personal unfiled) [.save 0]).shared = some sh ∧
      ((run (personal unfiled) [.save 0]).store sh.store).path? = some ":memory:" ∧
      (run (personal unfiled) [.save 0]).Keeps sh.store [ann] ∧
      (run (personal unfiled) [.save 0, .closeStore, .getStore]).shared = some sh' ∧
      ((run (personal unfiled) [.save 0, .closeStore, .getStore]).store sh'.store).path? =
        some ":memory:" ∧
      (run (personal unfiled) [.save 0, .closeStore, .getStore]).Keeps sh'.store []) ∧
    ∃ sh, (run boxing [.save 0]).shared = some sh ∧ (run boxing [.save 0]).Keeps sh.store [box] ∧
      (∃ e, (outcome (Persistence.save (.object 2)) (run boxing [.save 0])).1 = .error e) ∧
      (run boxing [.save 0, .save 2]).shared = some sh ∧
      (run boxing [.save 0, .save 2]).Keeps sh.store [] :=
  ⟨lost_unfiled.2.2, lost_box.2⟩

end Sharing

end EntitySchema
