/-
**The shared store, and which store a class uses.**

A class uses the store assigned to the nearest class of its lineage that has an assignment, unless
it is assigned none; else it uses the shared store, which is opened as the settings say when it is
first needed.  Settings are read from the environment once and kept until they are forgotten.

Of actions side by side the first in time to need the shared store opens it and waits until it is
connected; the others meanwhile find it open and not connected.

Main definitions:

* `Session.currentSettings` — the settings;
* `Session.sharedStore`, `Session.closeShared` — the shared store;
* `Session.arrange` — an action in whose course the shared store may be opened;
* `Session.assignStore`, `Session.storeOf` — the store that a class uses.
-/

import EntitySchema.Session

set_option autoImplicit false

namespace EntitySchema

namespace Session

/-! ### Settings -/

/-- Sets a variable of the environment, or takes it out. -/
def setVariable (name : String) (value? : Option String) : Action Unit := do
  let s ← get
  match value? with
  | some x => do
    let env ← ofExcept (Settings.setVariable s.environment name x)
    set { s with environment := env }
  | none => set { s with environment := Table.erase s.environment name }

/-- Sets variables of the environment, or takes them out of it, up to the first that cannot be
set. -/
def setVariables (vars : List (String × Option String)) : Action Unit :=
  vars.forM fun v => setVariable v.1 v.2

/-- Forgets the settings that were read. -/
def forgetSettings : Action Unit := modify fun s => { s with settings := none }

/-- The settings: those read before, or else those of the environment, which are kept. -/
def currentSettings : Action Settings := do
  let s ← get
  match s.settings with
  | some x => pure x
  | none => do
    let x ← ofExcept (Settings.read [] s.environment [])
    modify fun s => { s with settings := some x }
    pure x

/-! ### The shared store -/

/-- The store that settings ask for. -/
def storeFor (x : Settings) : Store :=
  match x.backend with
  | .memory => .memory []
  | .sqlite => .file (normalPath x.databasePath) .closed

/-- Opens the shared store and begins to connect it at an instant. -/
def openShared (time : Instant) : Action Unit := do
  let x ← currentSettings
  let i ← openStore (storeFor x)
  let now := (← get).now
  modify fun s => { s with now := time }
  let failure? ← match ← attempt (connect i) with
    | .ok () => pure none
    | .error f => pure (some f)
  modify fun s => { s with now := now, shared := some ⟨i, time, s.now, failure?⟩ }

/-- What the one who opened the shared store is told, once it is connected or that has failed. -/
def joinShared : Action StoreId := do
  let s ← get
  match s.shared with
  | none => throw .notConnected
  | some sh => do
    set { s with now := sh.ready, shared := some { sh with failure? := none } }
    match sh.failure? with
    | some f => throw f
    | none => pure sh.store

/-- The shared store.  The first to ask for it opens it and waits until it is connected; others find
it open, be it connected yet or not. -/
def sharedStore : Action StoreId := do
  let s ← get
  match s.survey, s.shared with
  | some asked, _ => do
    set { s with survey := some (s.now :: asked), now := s.now.after never }
    throw .notConnected
  | none, some sh =>
    if sh.opened.before s.now then pure sh.store
    else if sh.opened = s.now then joinShared
    else do
      openShared s.now
      joinShared
  | none, none => do
    openShared s.now
    joinShared
where
  /-- More rounds than anyone waits. -/
  never : Nat := Nat.pow 10 9

/-- The earliest of several instants. -/
def earliest? : List Instant → Option Instant
  | [] => none
  | t :: ts =>
    match earliest? ts with
    | some u => if u.before t then some u else some t
    | none => some t

/-- When an action first asks for the shared store, if it does. -/
def firstRequest? {α : Type} (a : Action α) (s : Session) : Option Instant :=
  let (_, s) := (a.run).run { s with survey := some [] }
  earliest? (s.survey.getD [])

/-- An action in whose course the shared store may be opened.  What asks for it first need not come
first in the order of the elements, so that is found out beforehand. -/
def arrange {α : Type} (a : Action α) : Action α := do
  let s ← get
  let unopened := match s.shared with
    | some sh => s.now.before sh.opened
    | none => true
  if unopened then
    match firstRequest? a s with
    | some time => discard (attempt (openShared time))
    | none => pure ()
  a

/-- Disconnects the shared store, if there is one, and forgets it. -/
def closeShared : Action Unit := do
  match (← get).shared with
  | none => pure ()
  | some sh => do
    disconnect sh.store
    modify fun s => { s with shared := none }

/-! ### The store of a class -/

/-- Assigns a store to a class, or none. -/
def assignStore (cls : ClassId) (st : Option StoreId) : Action Unit :=
  modify fun s => { s with catalog := s.catalog.assign cls st }

/-- The store that a class uses. -/
def storeOf (cls : ClassId) : Action StoreId := do
  match (← get).catalog.assignedStore? cls with
  | some i => pure i
  | none => sharedStore

end Session

end EntitySchema
