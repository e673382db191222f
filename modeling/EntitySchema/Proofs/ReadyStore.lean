/-
**The shared store once it is ready.**

The shared store is opened as the settings say when it is first asked for, and the one who asks
waits until it is connected.  From then on it is *ready*: whoever asks is handed it at once, and
asking changes nothing.  Loading and finding entities keep it so, and leave all stores, all files,
the environment and the settings as they are, be it that they fail half-way.

Where there is no shared store and the settings cannot be read, asking for it fails and changes
nothing at all.  Else asking *launches* it: the settings are kept, a new store comes last, and only
what has to be made on the way to its file is new in the tree of files.

Main definitions:

* `Session.Ready` — the shared store is there and connected;
* `Session.Held` — the sessions in which it stays so, and nothing becomes of any store;
* `Disk.Launches`, `Session.launched` — the shared store as it is opened and connected.

Main results:

* `Session.Ready.outcome_sharedStore` — **a ready store is handed out at once, and nothing
  changes**;
* `Session.Ready.held_find` — **finding an entity leaves the stores as they are**;
* `Session.outcome_sharedStore_of_launches`, `Session.outcome_sharedStore_of_error` — the shared
  store is launched, or asking fails and nothing changes;
* `Session.outcome_find_of_launches` — an entity is found where the shared store has been launched.
-/

import EntitySchema.Proofs.EquivalentCheckers
import EntitySchema.Proofs.SharedStore

set_option autoImplicit false

namespace EntitySchema

/-! ### What settings ask for -/

/-- The path of a store in a file. -/
def Store.path? : Store → Option String
  | .memory _ => none
  | .file path _ => some path

/-- The place of the file that a store is connected to. -/
def Store.place? : Store → Option Place
  | .file _ (.file p) => some p
  | _ => none

/-- The place of the file under a path; the name of no file has none. -/
def placeOf? (path : String) : Option Place :=
  if path = ":memory:" then none else some (Path.ofText path).place

namespace Settings

/-- The path of the file that settings ask for. -/
def path? (x : Settings) : Option String :=
  match x.backend with
  | .memory => none
  | .sqlite => some (normalPath x.databasePath)

/-- The place of the file that settings ask for. -/
def place? (x : Settings) : Option Place := x.path?.bind placeOf?

/-- The records that settings ask for: those in the file, if there is one. -/
def found (x : Settings) (d : Disk) : List Record := (x.place?.map d.table).getD []

/-- The settings in force: those that are kept, or else those of the environment. -/
def inForce (kept? : Option Settings) (env : Table String) : Except Failure Settings :=
  match kept? with
  | some x => .ok x
  | none => read [] env []

end Settings

/-- The store that settings ask for is connected: the store, what has become of the tree of files,
and the rounds that it takes. -/
inductive Disk.Launches (d : Disk) (x : Settings) : Store → Disk → Nat → Prop
  | memory : x.backend = .memory → Launches d x (.memory []) d 0
  | file {l : Link} {d' : Disk} : x.backend = .sqlite →
      d.connect (normalPath x.databasePath) = (.ok l, d') → l ≠ .unusable →
      Launches d x (.file (normalPath x.databasePath) l) d' (Session.roundsToConnect d l)

namespace Disk

variable {d d' : Disk} {x : Settings} {st : Store} {rounds : Nat}

/-- A store that can be connected is launched. -/
theorem Connects.exists_launches (h : d.Connects (Session.storeFor x) rounds) :
    ∃ st d', d.Launches x st d' rounds := by
  rw [Session.storeFor] at h
  cases hb : x.backend with
  | memory =>
    rw [hb] at h
    cases h
    exact ⟨_, _, .memory hb⟩
  | sqlite =>
    rw [hb] at h
    cases h with
    | file hc hu => exact ⟨_, _, .file hb hc hu⟩

namespace Launches

theorem connects (h : d.Launches x st d' rounds) : d.Connects (Session.storeFor x) rounds := by
  rw [Session.storeFor]
  cases h with
  | memory hb =>
    rw [hb]
    exact .memory
  | file hb hc hu =>
    rw [hb]
    exact .file hc hu

/-- A store has the path that settings ask for. -/
theorem path? (h : d.Launches x st d' rounds) : st.path? = x.path? := by
  cases h with
  | memory hb => rw [Settings.path?, hb]; rfl
  | file hb => rw [Settings.path?, hb]; rfl

/-- The table of every file is what it was. -/
theorem table (h : d.Launches x st d' rounds) (p : Place) : d'.table p = d.table p := by
  cases h with
  | memory => rfl
  | file _ hc =>
    have saves := saves_connect d (normalPath x.databasePath)
    rw [hc] at saves
    exact saves.table p

/-- What a store in a file is connected to: a file of its own that has just been made, where the
path names no file, or the file in the place that settings ask for.  Either is up to date. -/
theorem file_cases (h : d.Launches x st d' rounds) :
    (st = .memory [] ∧ x.place? = none) ∨
    (∃ path, st = .file path (.own Database.blank.migrate) ∧ x.place? = none) ∨
    ∃ path p db, st = .file path (.file p) ∧ x.place? = some p ∧
      d'.node? p = some (.file db) ∧ db.Current := by
  cases h with
  | memory hb =>
    refine .inl ⟨rfl, ?_⟩
    rw [Settings.place?, Settings.path?, hb]
    rfl
  | @file l d' hb hc hu =>
    refine .inr ?_
    rw [Settings.place?, Settings.path?, hb]
    rcases exists_database_of_connect hc with ⟨named, rfl⟩ | rfl | ⟨rfl, db, hdb⟩
    · exact .inl ⟨_, rfl, if_pos named⟩
    · exact absurd rfl hu
    · refine .inr ⟨_, _, db, rfl, if_neg fun named => ?_, hdb⟩
      rw [connect, if_pos named] at hc
      cases hc

/-- A store is connected to the file in the place that settings ask for, if there is one. -/
theorem place? (h : d.Launches x st d' rounds) : st.place? = x.place? := by
  rcases h.file_cases with ⟨rfl, none⟩ | ⟨path, rfl, none⟩ | ⟨path, p, db, rfl, some, -, -⟩
  · exact none.symm
  · exact none.symm
  · exact some.symm

end Launches

end Disk

namespace Session

variable {s s' : Session} {sh : Shared} {x : Settings} {st : Store} {d : Disk} {rounds : Nat}
  {e : Failure}

/-! ### A store that is ready -/

/-- The shared store is there, and its connection is not waited for. -/
structure Ready (s : Session) (sh : Shared) : Prop where
  shared : s.shared = some sh
  survey : s.survey = none
  failure : sh.failure? = none
  opened : sh.opened.Precedes sh.ready
  ready : sh.ready.Precedes s.now

namespace Ready

theorem not_before_opened (h : s.Ready sh) : s.now.before sh.opened = false :=
  h.opened.trans h.ready

theorem awaited (h : s.Ready sh) (i : StoreId) : s.awaited i = false := by
  have ready : s.now.before sh.ready = false := h.ready
  rw [Session.awaited, h.shared]
  simp [ready]

/-- The store stays ready as time goes by. -/
theorem of_now (h : s.Ready sh) (shared : s'.shared = s.shared) (survey : s'.survey = s.survey)
    (now : s.now.Precedes s'.now) : s'.Ready sh :=
  ⟨shared.trans h.shared, survey.trans h.survey, h.failure, h.opened, h.ready.trans now⟩

/-- **A ready store is handed out at once, and nothing changes.** -/
theorem outcome_sharedStore (h : s.Ready sh) : outcome sharedStore s = (.ok sh.store, s) := by
  rw [sharedStore, outcome_get_bind]
  simp only [h.survey, h.shared]
  cases hb : sh.opened.before s.now with
  | true =>
    rw [if_pos rfl]
    rfl
  | false =>
    -- no round has passed since the store was opened
    have now : sh.opened = s.now := Instant.eq_of_not_before hb h.not_before_opened
    have ready : sh.ready = s.now :=
      Instant.eq_of_not_before (now ▸ h.opened) h.ready
    have told : { sh with failure? := none } = sh := by rw [← h.failure]
    have same : { s with now := sh.ready, shared := some { sh with failure? := none } } = s := by
      rw [told, ready, ← h.shared]
    rw [if_neg Bool.false_ne_true, if_pos now, joinShared, outcome_get_bind, h.shared]
    refine (outcome_bind_ok (outcome_set s _)).trans ?_
    rw [same, h.failure]
    rfl

end Ready

/-- A session in which nothing has become of any store of another, in which the shared store is
ready, nor of files, classes, environment and settings. -/
structure Held (s₀ : Session) (sh : Shared) (s : Session) : Prop where
  catalog : s.catalog = s₀.catalog
  stores : s.stores = s₀.stores
  disk : s.disk = s₀.disk
  environment : s.environment = s₀.environment
  settings : s.settings = s₀.settings
  now : s₀.now.Precedes s.now
  ready : s.Ready sh

theorem Ready.held (h : s.Ready sh) : s.Held sh s := ⟨rfl, rfl, rfl, rfl, rfl, .refl _, h⟩

instance (s₀ : Session) (sh : Shared) : Loose (Held s₀ sh) s₀.catalog where
  catalog hs := hs.catalog
  heap _ hs := { hs with ready := hs.ready.of_now rfl rfl (.refl _) }
  lookups _ hs := { hs with ready := hs.ready.of_now rfl rfl (.refl _) }
  timed _ _ _ hs hs' now :=
    { hs' with
      now := hs.now.trans now
      ready := { hs'.ready with ready := hs.ready.ready.trans now } }
  shared s hs := by
    rw [hs.ready.outcome_sharedStore]
    exact ⟨rfl, hs⟩

section

variable {cls : ClassId} {id : Value}

/-- An entity is found without further ado where the shared store is ready. -/
theorem Ready.outcome_find (h : s.Ready sh) : outcome (Loading.find cls id) s =
    outcome (Loading.findWith (Loading.loadWithin (Loading.bound s .null)) cls id) s := by
  have there : ∀ asked?, s.arranged asked? = s := by
    intro asked?
    unfold arranged
    cases asked? with
    | none => rfl
    | some time =>
      rw [h.shared]
      dsimp only
      rw [h.not_before_opened, if_neg Bool.false_ne_true]
  rw [Loading.find, outcome_get_bind, outcome_arrange, there]

/-- What is looked up for an entity leaves the stores as they are. -/
theorem Ready.held_findWith (h : s.Ready sh) (fuel : Nat) :
    s.Held sh (outcome (Loading.findWith (Loading.loadWithin fuel) cls id) s).2 :=
  (Loading.agreeOn_findWith (Loading.keeps_loadWithin fuel) cls id s h.held).2

/-- **Finding an entity leaves the stores as they are**, be it that it fails. -/
theorem Ready.held_find (h : s.Ready sh) : s.Held sh (outcome (Loading.find cls id) s).2 := by
  rw [h.outcome_find]
  exact h.held_findWith _

end

/-! ### A store that is launched -/

/-- The session after the shared store was launched, and its connection was waited for. -/
def launched (s : Session) (x : Settings) (st : Store) (d : Disk) (rounds : Nat) : Session :=
  { s with
    settings := some x
    stores := s.stores ++ [st]
    disk := d
    shared := some ⟨s.stores.length, s.now, s.now.after rounds, none⟩
    now := s.now.after rounds }

/-- A store that is launched is ready. -/
theorem ready_launched (x : Settings) (st : Store) (d : Disk) (rounds : Nat)
    (unsurveyed : s.survey = none) : (s.launched x st d rounds).Ready
      ⟨s.stores.length, s.now, s.now.after rounds, none⟩ :=
  ⟨rfl, unsurveyed, rfl, Instant.precedes_after _ _, .refl _⟩

theorem launched_store : (s.launched x st d rounds).stores[s.stores.length]? = some st := by
  simp [launched]

/-- A store that is launched keeps the records that settings ask for. -/
theorem keeps_launched (unsurveyed : s.survey = none) (h : s.disk.Launches x st d rounds) :
    (s.launched x st d rounds).Keeps s.stores.length (x.found s.disk) := by
  have ready := (ready_launched x st d rounds unsurveyed).awaited
  have there : (s.launched x st d rounds).stores[s.stores.length]? = some st := launched_store
  have table := h.table
  rw [Settings.found]
  rcases h.file_cases with ⟨rfl, none⟩ | ⟨path, rfl, none⟩ | ⟨path, p, db, rfl, some, hdb, current⟩
  · rw [none]
    exact .memory there
  · rw [none]
    exact .file (.own there (ready _) Database.blank.records?_migrate)
  · rw [some]
    refine .file (.file there (ready _) hdb ?_)
    have rows : db.rows = d.table p := by rw [Disk.table, Disk.database, hdb]
    exact current.records?.trans (congrArg _ (rows.trans (table p)))

theorem currentSettings_eq (s : Session) :
    (outcome currentSettings s).1 = Settings.inForce s.settings s.environment := by
  rw [currentSettings, outcome_get_bind]
  cases s.settings with
  | some y => rfl
  | none =>
    cases hr : Settings.read [] s.environment [] with
    | error e => simp only [Settings.inForce, hr, outcome_bind_error (outcome_ofExcept _ _)]
    | ok y =>
      simp only [Settings.inForce, hr, outcome_bind_ok (outcome_ofExcept _ _)]
      rfl

/-- The settings in force are read and kept. -/
theorem outcome_currentSettings_of_ok (h : Settings.inForce s.settings s.environment = .ok x) :
    outcome currentSettings s = (.ok x, { s with settings := some x }) :=
  outcome_currentSettings ((currentSettings_eq s).trans h)

/-- Settings that cannot be read are not kept. -/
theorem outcome_currentSettings_of_error
    (h : Settings.inForce s.settings s.environment = .error e) :
    outcome currentSettings s = (.error e, s) := by
  rw [currentSettings, outcome_get_bind]
  cases hs : s.settings with
  | some y =>
    rw [hs] at h
    cases h
  | none =>
    have unread : Settings.read [] s.environment [] = .error e := by
      rw [hs] at h
      exact h
    simp only [unread, outcome_bind_error (outcome_ofExcept _ _)]

/-- Without settings no shared store is opened, and nothing changes. -/
theorem outcome_openShared_of_error (h : Settings.inForce s.settings s.environment = .error e)
    (time : Instant) : outcome (openShared time) s = (.error e, s) := by
  rw [openShared, outcome_bind_error (outcome_currentSettings_of_error h)]

/-- The store that settings ask for is connected where it comes last. -/
theorem outcome_connect_of_launches (h : s.disk.Launches x st d rounds) (time : Instant) :
    outcome (connect s.stores.length) { s with
      settings := some x, stores := s.stores ++ [storeFor x], now := time } =
      (.ok ⟨⟩, { s with
        settings := some x, stores := s.stores ++ [st], disk := d, now := time.after rounds }) := by
  have there : (s.stores ++ [storeFor x])[s.stores.length]? = some (storeFor x) := by simp
  rw [connect, outcome_get_bind, store_eq there, storeFor]
  cases h with
  | memory hb =>
    rw [hb]
    rfl
  | @file l d' hb hc hu =>
    have last : ∀ old new : Store, (s.stores ++ [old]).set s.stores.length new =
        s.stores ++ [new] :=
      fun old new => by simp
    rw [hb]
    dsimp only
    rw [hc]
    cases l with
    | unusable => exact absurd rfl hu
    | _ =>
      simp only [setStore, last]
      rfl

/-- The shared store is opened, and those who asked for it wait until it is connected. -/
theorem outcome_openShared_of_launches
    (settings : Settings.inForce s.settings s.environment = .ok x)
    (h : s.disk.Launches x st d rounds) : outcome (openShared s.now) s =
      (.ok ⟨⟩, { s.launched x st d rounds with now := s.now }) := by
  have opened : outcome (openStore (storeFor x)) { s with settings := some x } =
      (.ok s.stores.length, { s with settings := some x, stores := s.stores ++ [storeFor x] }) :=
        rfl
  have connected := outcome_connect_of_launches h s.now
  rw [openShared, outcome_bind_ok (outcome_currentSettings_of_ok settings),
    outcome_bind_ok opened, outcome_get_bind, outcome_modify_bind,
    outcome_bind_ok (outcome_attempt _ _)]
  dsimp only
  rw [connected]
  rfl

/-! ### Finding where the store is launched -/

section

variable {cls : ClassId} {id : Value} {load : ClassId → Value → Action Value}

/-- A class without a store of its own uses the shared one. -/
theorem outcome_storeOf_of_unassigned (unassigned : s.catalog.assignedStore? cls = none) :
    outcome (storeOf cls) s = outcome sharedStore s := by
  rw [storeOf, outcome_get_bind, unassigned]

/-- What is looked up depends on the store of the class. -/
theorem outcome_findWith_congr (catalog : s.catalog = s'.catalog)
    (plain : s'.catalog.lookupOf? cls = none)
    (h : outcome (storeOf cls) s = outcome (storeOf cls) s') :
    outcome (Loading.findWith load cls id) s = outcome (Loading.findWith load cls id) s' := by
  rw [Loading.findWith, outcome_get_bind, outcome_get_bind, catalog]
  simp only [plain]
  rw [outcome_bind, outcome_bind, h]

/-- Without a store nothing is looked up. -/
theorem outcome_findWith_of_error (plain : s.catalog.lookupOf? cls = none)
    (h : outcome (storeOf cls) s = (.error e, s')) :
    outcome (Loading.findWith load cls id) s = (.error e, s') := by
  rw [Loading.findWith, outcome_get_bind]
  simp only [plain]
  exact outcome_bind_error h

end

section

variable (unsurveyed : s.survey = none)

include unsurveyed

/-- Whoever opened the shared store is handed it when it is connected. -/
theorem outcome_sharedStore_of_opened :
    outcome sharedStore { s.launched x st d rounds with now := s.now } =
      (.ok s.stores.length, s.launched x st d rounds) := by
  have there : ({ s.launched x st d rounds with now := s.now } : Session).survey = none :=
    unsurveyed
  rw [sharedStore, outcome_get_bind, there]
  show outcome (if s.now.before s.now then pure s.stores.length
    else if s.now = s.now then joinShared
    else do openShared s.now; joinShared) _ = _
  rw [Instant.not_before_self, if_neg Bool.false_ne_true, if_pos rfl]
  rfl

variable (unopened : s.shared = none)

include unopened

/-- Whoever asks first opens the store. -/
theorem outcome_sharedStore_eq :
    outcome sharedStore s = outcome (do openShared s.now; joinShared) s := by
  rw [sharedStore, outcome_get_bind, unsurveyed, unopened]

/-- **Where the settings cannot be read, asking for the shared store fails and nothing changes.** -/
theorem outcome_sharedStore_of_error (h : Settings.inForce s.settings s.environment = .error e) :
    outcome sharedStore s = (.error e, s) := by
  rw [outcome_sharedStore_eq unsurveyed unopened,
    outcome_bind_error (outcome_openShared_of_error h _)]

/-- **Else it is launched** by whoever first asks for it. -/
theorem outcome_sharedStore_of_launches
    (settings : Settings.inForce s.settings s.environment = .ok x)
    (h : s.disk.Launches x st d rounds) :
    outcome sharedStore s = (.ok s.stores.length, s.launched x st d rounds) := by
  rw [outcome_sharedStore_eq unsurveyed unopened,
    outcome_bind_ok (outcome_openShared_of_launches settings h)]
  rfl

end

section

variable {cls : ClassId} {id : Value} (unassigned : s.catalog.assignedStore? cls = none)
  (plain : s.catalog.lookupOf? cls = none)

include unassigned plain

/-- To find an entity the shared store is asked for at once. -/
theorem firstRequest?_findWith (load : ClassId → Value → Action Value) :
    firstRequest? (Loading.findWith load cls id) s = some s.now := by
  have found : outcome (storeOf cls) { s with survey := some [] } =
      (.error .notConnected, { s with
        survey := some [s.now], now := s.now.after sharedStore.never }) :=
    (outcome_storeOf_of_unassigned (s := { s with survey := some [] }) unassigned).trans rfl
  have refused : outcome (Loading.findWith load cls id) { s with survey := some [] } =
      (.error .notConnected, { s with
        survey := some [s.now], now := s.now.after sharedStore.never }) :=
    outcome_findWith_of_error (s := { s with survey := some [] }) plain found
  show earliest?
    ((outcome (Loading.findWith load cls id) { s with survey := some [] }).2.survey.getD
    []) = some s.now
  rw [refused]
  rfl

variable (unsurveyed : s.survey = none) (unopened : s.shared = none)

include unsurveyed unopened

/-- Where the settings cannot be read, an entity is looked for in vain and nothing changes. -/
theorem outcome_find_of_error (h : Settings.inForce s.settings s.environment = .error e) :
    outcome (Loading.find cls id) s = (.error e, s) := by
  have found : outcome (storeOf cls) s = (.error e, s) :=
    (outcome_storeOf_of_unassigned unassigned).trans
      (outcome_sharedStore_of_error unsurveyed unopened h)
  have there : s.arranged (some s.now) = s := by
    unfold arranged
    rw [unopened]
    exact congrArg Prod.snd (outcome_openShared_of_error h s.now)
  rw [Loading.find, outcome_get_bind, outcome_arrange,
    firstRequest?_findWith unassigned plain, there]
  exact outcome_findWith_of_error plain found

/-- **An entity is found where the shared store has been launched.** -/
theorem outcome_find_of_launches (settings : Settings.inForce s.settings s.environment = .ok x)
    (h : s.disk.Launches x st d rounds) : outcome (Loading.find cls id) s =
      outcome (Loading.findWith (Loading.loadWithin (Loading.bound s .null)) cls id)
        (s.launched x st d rounds) := by
  have there : s.arranged (some s.now) = { s.launched x st d rounds with now := s.now } := by
    unfold arranged
    rw [unopened]
    exact congrArg Prod.snd (outcome_openShared_of_launches settings h)
  have opened : outcome (storeOf cls) { s.launched x st d rounds with now := s.now } =
      (.ok s.stores.length, s.launched x st d rounds) :=
    (outcome_storeOf_of_unassigned (s := { s.launched x st d rounds with now := s.now })
      unassigned).trans (outcome_sharedStore_of_opened unsurveyed)
  have handed : outcome (storeOf cls) (s.launched x st d rounds) =
      (.ok s.stores.length, s.launched x st d rounds) :=
    (outcome_storeOf_of_unassigned (s := s.launched x st d rounds) unassigned).trans
      (ready_launched x st d rounds unsurveyed).outcome_sharedStore
  rw [Loading.find, outcome_get_bind, outcome_arrange,
    firstRequest?_findWith unassigned plain, there]
  exact outcome_findWith_congr rfl plain (opened.trans handed.symm)

end

end Session

end EntitySchema
