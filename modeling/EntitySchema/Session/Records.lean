/-
**Records of the stores of a session.**

An operation on records names a store, a kind and mostly an identifier, all of them values.  The
identifier is told by its text.  What a kind or a bound of a listing may be depends on the store:
one in memory compares kinds as values and cuts windows, a file binds them to a query and has to be
connected.

Data go into a store in memory and come out of it as copies.  What is to go in is copied when the
record that it is to replace is out already, so where the copy fails that record is lost.  What is
in was copied once and can be copied again.  A file answers after some rounds, refusals included,
and a change that fails is undone in one more.

Main definitions:

* `Session.bound`, `Session.undone` — refusals of a file, and changes that are undone;
* `Session.dropRecord`, `Session.keepRecord` — a record taken out of a store in memory, or put in;
* `Session.fetchRecord`, `Session.putRecord`, `Session.removeRecord` — single records;
* `Session.listRecords`, `Session.countRecords` — the records of a kind.
-/

import EntitySchema.Session

set_option autoImplicit false

namespace EntitySchema

namespace Session

/-- What a file makes of the arguments of a query.  It takes a round to tell that they do not
serve. -/
def bound {α : Type} (e : Except Failure α) : Action α := do
  match e with
  | .ok x => pure x
  | .error f => do
    wait 1
    throw f

/-- A change of a file.  If it fails it is undone, which takes another round. -/
def undone {α : Type} (change : Action α) : Action α := do
  match ← attempt change with
  | .ok x => pure x
  | .error f => do
    wait 1
    throw f

/-- A kind that is searched for in memory. -/
def searchedKind (h : Heap) (kind : Value) : Except Failure (Option Kind) :=
  if kind.hashable (Heap.isEntity h) then .ok (Kind.ofValue? kind) else .error (.misuse .unhashable)

/-- The data of a record, if there is one. -/
def fetchRecord (i : StoreId) (kind id : Value) : Action (Option Value) := do
  let name ← textOf id
  let s ← get
  match s.store i with
  | .memory records =>
    match (← ofExcept (searchedKind s.heap kind)).bind fun k => records.get? ⟨k, name⟩ with
    | none => pure none
    | some data => do pure (some (← copy (.dict data)))
  | .file _ _ => do
    let t ← rows i
    let k ← bound (Kind.bind kind)
    wait 2
    pure ((t.get? k name).map Value.dict)

/-- Takes the record under a key out of a store in memory. -/
def dropRecord (i : StoreId) (key : RecordKey) : Action Unit := modify fun s =>
  match s.store i with
  | .memory records => s.setStore i (.memory (records.without key))
  | _ => s

/-- Puts a copy of a record into a store in memory.  If it cannot be copied, the record that it was
to replace is gone nevertheless. -/
def keepRecord (i : StoreId) (r : Record) : Action Unit := do
  if (← get).heap.copyable (.dict r.data) then
    match ← copy (.dict r.data) with
    | .dict es => modify fun s =>
        match s.store i with
        | .memory records => s.setStore i (.memory (records.put { r with data := es }))
        | _ => s
    | _ => pure ()
  else do
    dropRecord i r.key
    throw (.misuse .notCallable)

/-- Stores a record, if what is offered as one has no fault. -/
def putRecord (i : StoreId) (kind id data : Value) : Action Unit := do
  let name ← textOf id
  let r ← ofExcept (Record.examine kind name data)
  match (← get).store i with
  | .memory _ => keepRecord i r
  | .file _ _ => do
    requireLink i
    undone do
      let t ← rows i
      let (outcome, t) := t.put r
      setRows i t
      bound outcome
      wait 3

/-- Deletes a record, and tells whether there was one.  Where no record is, what cannot be a kind is
not noticed. -/
def removeRecord (i : StoreId) (kind id : Value) : Action Bool := do
  let s ← get
  match s.store i with
  | .memory records => do
    let name ← textOf id
    match ← ofExcept (if records.isEmpty then .ok none else searchedKind s.heap kind) with
    | none => pure false
    | some k =>
      let (found, records) := records.delete ⟨k, name⟩
      modify fun s => s.setStore i (.memory records)
      pure found
  | .file _ _ => do
    requireLink i
    let name ← textOf id
    undone do
      let t ← rows i
      let k ← bound (Kind.bind kind)
      let (found, t) := t.delete k name
      setRows i t
      wait 2
      pure found

/-- A bound of a listing in memory. -/
def indexOf : Value → Except Failure Int
  | .int n => .ok n
  | .bool b => .ok (if b then 1 else 0)
  | _ => .error (.misuse .notAnIndex)

/-- A bound of a listing of a file, once all arguments are bound. -/
def boundOf : Option Int → Except Failure Int
  | some n => .ok n
  | none => .error .unreadableBound

/-- The data of the records of a kind, the newest first. -/
def listRecords (i : StoreId) (kind limit offset : Value) : Action (List Value) := do
  match (← get).store i with
  | .memory records => do
    let found := (Kind.ofValue? kind).map fun k => records.list k
    let limit ← ofExcept (indexOf limit)
    let offset ← ofExcept (indexOf offset)
    match found with
    | none => pure []
    | some cut => (cut limit offset).mapM fun data => copy (.dict data)
  | .file _ _ => do
    let t ← rows i
    let (k, limit, offset) ← bound do
      let k ← Kind.bind kind
      let limit ← bindBound limit
      let offset ← bindBound offset
      .ok (k, ← boundOf limit, ← boundOf offset)
    wait 2
    pure ((t.list k limit offset).map Value.dict)

/-- The number of records of a kind. -/
def countRecords (i : StoreId) (kind : Value) : Action Nat := do
  match (← get).store i with
  | .memory records => pure (((Kind.ofValue? kind).map records.count).getD 0)
  | .file _ _ => do
    let t ← rows i
    let k ← bound (Kind.bind kind)
    wait 2
    pure (t.count k)

end Session

end EntitySchema
