/-
**Entities and their store.**

To save an entity is to give it an identifier if it has none, to validate it, and to store its raw
data under its kind and identifier.  To delete it is to delete that record.  Both go by the methods
and attributes of the entity, so what it has itself under such a name counts.

Main definitions:

* `Persistence.construct` — a new entity from a raw value and named arguments;
* `Persistence.ask` — what a method answers at once;
* `Persistence.perform` — the work that a call yields, done;
* `Persistence.save`, `Persistence.delete`.
-/

import EntitySchema.Loading

set_option autoImplicit false

namespace EntitySchema

namespace Persistence

/-! ### Construction -/

/-- The raw value and the further data among the arguments of a construction.  The raw value may be
given by name, once; the entity itself cannot. -/
def arguments (raw? : Option Value) (named : Table Value) :
    Except Failure (Value × Table Value) :=
  if Table.has named "self" then .error (.misuse (.argumentClash "self"))
  else match raw?, Table.get? named "raw" with
    | some _, some _ => .error (.misuse (.argumentClash "raw"))
    | some raw, none => .ok (raw, named)
    | none, some raw => .ok (raw, Table.erase named "raw")
    | none, none => .ok (.null, named)

/-- A new entity. -/
def construct (cls : ClassId) (raw? : Option Value) (named : Table Value) : Action Value := do
  let (raw, further) ← Session.ofExcept (arguments raw? named)
  Session.build (Construction.ofRawWith (← get).catalog cls raw further)

/-- What a method of a value answers at once, by its name.  A class that stands there makes a new
object. -/
def ask (v : Value) (name : String) : Action Value := do
  let s ← get
  match ← Session.ofExcept (Method.send s.catalog s.heap v name) with
  | .created (.entity c) => construct c none []
  | .created .plain => Session.build (Construction.alloc (.plain []))
  | answer => pure answer.toValue

/-! ### Saving -/

/-- The text of the `n`-th identifier that is made. -/
def identifier (n : Nat) : String := String.ofList (Text.hex 32 n)

/-- Gives an entity an identifier if it has none. -/
def identify (a : Address) : Action Unit := do
  let s ← get
  let id ← Session.ofExcept (Method.needed s.catalog s.heap a idField)
  if id.isNull then
    set { s with
      serial := s.serial + 1
      heap := s.heap.put a idField (.str (identifier (s.serial + 1))) }

/-- An attribute of an object. -/
def attributeOf (a : Address) (name : String) : Action Value := do
  let s ← get
  Session.ofExcept (Method.needed s.catalog s.heap a name)

/-- The store that an entity tells it uses, for a given way to do what a call yields.  Anything else
that it tells has no method of the name that is needed. -/
def storeOf (run : Value → Action Value) (a : Address) (needed : String) : Action StoreId := do
  match ← run (← attributeOf a "_resolve_store") with
  | .store i => pure i
  | _ => throw (.noAttribute needed)

/-- Does what a call of a value without arguments yields to wait for, through at most `fuel` calls
one inside the other. -/
def perform : Nat → Value → Action Value
  | 0, _ => throw .endless
  | fuel + 1, m => do
    let s ← get
    match ← Session.ofExcept (Method.invoke s.catalog s.heap m) with
    | .pending (.object a) "save" => do
      identify a
      let s ← get
      Session.ofExcept (Method.validate s.catalog s.heap a)
      let st ← storeOf (perform fuel) a "put"
      let kind ← attributeOf a "kind"
      let id ← attributeOf a idField
      let s ← get
      let raw ← Session.ofExcept (Method.toRaw s.catalog s.heap a)
      Session.putRecord st kind id raw
      pure (.object a)
    | .pending (.object a) "delete" => do
      if (← attributeOf a idField).isNull then pure (.bool false)
      else
        let st ← storeOf (perform fuel) a "delete"
        pure (.bool (← Session.removeRecord st (← attributeOf a "kind") (← attributeOf a idField)))
    | .pending (.cls c) "_resolve_store" => do pure (.store (← Session.storeOf c))
    | .pending (.cls c) "load" => Loading.load c .null
    | _ => throw (.misuse .notAwaitable)

/-- How many calls one inside the other suffice for all work that ends. -/
def depth (s : Session) : Nat := 4 * s.heap.length + 4

/-- Calls a method of a value and does the work that it yields. -/
def send (v : Value) (name : String) : Action Value := do
  let s ← get
  match Heap.attribute? s.catalog s.heap 0 v name with
  | some m => perform (depth s) m
  | none => throw (.noAttribute name)

/-- Saves an entity, and tells what that yields: the entity itself. -/
def save (v : Value) : Action Value := send v "save"

/-- Deletes the record of an entity, and tells whether there was one. -/
def delete (v : Value) : Action Value := send v "delete"

end Persistence

end EntitySchema
