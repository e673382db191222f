/-
**Sessions: classes, entities and stores at work together.**

A session holds everything that an operation may read or change: the classes, the heap, the stores
that were opened and the files behind them, the environment and the settings read from it, the
identifiers made and the lookups noted.  An operation is an `Action`: it
may fail, and what it changed before it failed stays changed.

A session has a clock.  Waiting for a file takes rounds, and what happened at an instant that the
clock has not reached is not seen yet.

Main definitions:

* `Store`, `Shared`, `Note`, `Session`, `Action` — the state and the operations;
* `Session.build`, `Session.copy`, `Session.textOf` — actions on values;
* `Session.connect`, `Session.disconnect`, `Session.migrate` — the life of a store;
* `Session.rows`, `Session.setRows` — the table behind a store in a file;
* `Session.lookupsOf` — the lookups that a class answered.
-/

import EntitySchema.Construction
import EntitySchema.Method
import EntitySchema.Session.Instant
import EntitySchema.Settings
import EntitySchema.Store.Disk
import EntitySchema.Store.Memory

set_option autoImplicit false

namespace EntitySchema

/-- A store: its records in memory, or the path of its file and what it is connected to. -/
inductive Store where
  | memory (records : MemoryStore)
  | file (path : String) (link : Link)
  deriving Inhabited

/-- A store of a session, as its position in the order of opening. -/
abbrev StoreId := Nat

/-- The shared store: when it was opened, when it is connected, and the failure to connect it,
which is told to the one who opened it. -/
structure Shared where
  store : StoreId
  opened : Instant
  ready : Instant
  failure? : Option Failure

/-- A lookup of a class that does not leave the answer to a store: the class that was asked, what
for, and when. -/
structure Note where
  cls : ClassId
  id : Value
  time : Instant

/-- The state of a session. -/
structure Session where
  catalog : Catalog
  heap : Heap
  /-- The next token of a "not a number" or of another value that is told from its like. -/
  nextToken : Nat
  /-- The attributes that values other than objects were given, under the tokens of the values. -/
  given : List (Nat × Table Value)
  stores : List Store
  disk : Disk
  shared : Option Shared
  environment : Table String
  settings : Option Settings
  /-- The lookups that were not left to a store. -/
  lookups : List Note
  /-- The number of identifiers made so far. -/
  serial : Nat
  now : Instant
  /-- While it is being found out who asks for the shared store first: when it was asked for. -/
  survey : Option (List Instant)

/-- An operation on a session, which may fail. -/
abbrev Action (α : Type) := ExceptT Failure (StateM Session) α

namespace Session

/-- The state at the start. -/
def initial : Session :=
  { catalog := .initial
    heap := []
    nextToken := 0
    given := []
    stores := []
    disk := .initial
    shared := none
    environment := []
    settings := none
    lookups := []
    serial := 0
    now := .start
    survey := none }

/-! ### Actions -/

/-- The outcome of a computation that changes nothing. -/
def ofExcept {α : Type} (e : Except Failure α) : Action α := ExceptT.mk (pure e)

/-- A computation on the heap.  If it fails the heap stays as it was. -/
def build {α : Type} (b : Build α) : Action α := do
  let s ← get
  match b s.heap with
  | .ok (x, h) =>
    set { s with heap := h }
    pure x
  | .error e => throw e

/-- The outcome of an action, be it a failure. -/
def attempt {α : Type} (a : Action α) : Action (Except Failure α) := ExceptT.mk do
  let r ← a.run
  pure (.ok r)

/-- Lets rounds pass. -/
def wait (rounds : Nat) : Action Unit := modify fun s => { s with now := s.now.after rounds }

/-- A new token. -/
def freshToken : Action Nat := do
  let s ← get
  set { s with nextToken := s.nextToken + 1 }
  pure s.nextToken

/-- A copy of a value. -/
def copy (v : Value) : Action Value := do
  let s ← get
  let (w, h) := s.heap.copy v
  set { s with heap := h }
  pure w

/-- The shown form of a value. -/
def textOf (v : Value) : Action String := do
  let s ← get
  ofExcept (Method.toText s.catalog s.heap v)

/-! ### Lookups -/

/-- Notes a lookup of a class that is not left to a store. -/
def note (cls : ClassId) (id : Value) : Action Unit :=
  modify fun s => { s with lookups := s.lookups ++ [⟨cls, id, s.now⟩] }

/-- The identifiers that the lookup of a class was asked for, be it for the class itself or for one
that has the lookup from it, as far as the clock has come. -/
def lookupsOf (s : Session) (cls : ClassId) : List Value :=
  (s.lookups.filter fun n => (s.catalog.lookupOf? n.cls).map Prod.fst == some cls &&
    !s.now.before n.time).map Note.id

/-! ### Stores -/

/-- A store of the session. -/
def store (s : Session) (i : StoreId) : Store := (s.stores[i]?).getD (.memory [])

/-- The session with a store changed. -/
def setStore (s : Session) (i : StoreId) (st : Store) : Session :=
  { s with stores := s.stores.set i st }

/-- Opens a store, which is not connected yet. -/
def openStore (st : Store) : Action StoreId := do
  let s ← get
  set { s with stores := s.stores ++ [st] }
  pure s.stores.length

/-- Whether a store is the shared one and its connection is still waited for. -/
def awaited (s : Session) (i : StoreId) : Bool :=
  match s.shared with
  | some sh => sh.store == i && s.now.before sh.ready
  | none => false

/-- What a store is connected to at this instant. -/
def linkOf (s : Session) (i : StoreId) : Link :=
  match s.store i with
  | .memory _ => .closed
  | .file _ link => if s.awaited i then .closed else link

/-- The rounds that it takes to connect to a file; a file with a table already takes fewer. -/
def roundsToConnect (d : Disk) : Link → Nat
  | .closed => 0
  | .unusable => 2
  | .own _ => 8
  | .file p => if (d.node? p).isSome then 5 else 8

/-- Connects a store.  A file that is not there is made.  If that fails the store stays as it was,
unless the file can be opened and not be used. -/
def connect (i : StoreId) : Action Unit := do
  let s ← get
  match s.store i with
  | .memory _ => pure ()
  | .file path _ =>
    let (outcome, disk) := s.disk.connect path
    match outcome with
    | .ok link => do
      set ({ s with disk := disk }.setStore i (.file path link))
      wait (roundsToConnect s.disk link)
      match link with
      | .unusable => throw (.blocked .cannotOpen)
      | _ => pure ()
    | .error b => do
      set { s with disk := disk }
      wait (if b = .cannotOpen then 1 else 0)
      throw (.blocked b)

/-- Disconnects a store; one in memory forgets its records. -/
def disconnect (i : StoreId) : Action Unit := do
  let s ← get
  match s.store i with
  | .memory _ => set (s.setStore i (.memory []))
  | .file path _ =>
    match s.linkOf i with
    | .closed => pure ()
    | _ => do
      set (s.setStore i (.file path .closed))
      wait 1

/-- Makes sure that a store in a file is connected. -/
def requireLink (i : StoreId) : Action Unit := do
  match (← get).linkOf i with
  | .closed => throw .notConnected
  | _ => pure ()

/-- Makes sure that what a store is connected to can be used. -/
def requireUse (i : StoreId) : Action Unit := do
  match (← get).linkOf i with
  | .closed => throw .notConnected
  | .unusable => do
    wait 1
    throw (.blocked .cannotOpen)
  | _ => pure ()

/-- What the file of a connection holds. -/
def database (s : Session) : Link → Database
  | .own db => db
  | .file p => s.disk.database p
  | _ => .blank

/-- The table behind a store in a file.  It takes a round to tell that there is none. -/
def rows (i : StoreId) : Action FileTable := do
  requireUse i
  let s ← get
  match (s.database (s.linkOf i)).records? with
  | some t => pure t
  | none => do
    wait 1
    throw (.blocked .cannotOpen)

/-- Changes what the file behind a store holds. -/
def changeFile (i : StoreId) (change : Database → Database) : Action Unit :=
  modify fun s =>
    match s.store i with
    | .file path (.own db) => s.setStore i (.file path (.own (change db)))
    | .file _ (.file p) => { s with disk := s.disk.put p (.file (change (s.disk.database p))) }
    | _ => s

/-- Gives the table behind a store in a file other rows. -/
def setRows (i : StoreId) (t : FileTable) : Action Unit := changeFile i fun db => db.withRows t

/-- Brings the file of a store up to date. -/
def migrate (i : StoreId) : Action Unit := do
  match (← get).store i with
  | .memory _ => throw (.noAttribute "migrate")
  | .file _ _ => do
    requireUse i
    changeFile i Database.migrate
    wait 3

end Session

end EntitySchema
