/-
**Loading entities: construction that follows references.**

To load an entity is to construct it and then to load every field that produces entities: an eager
reference is looked up under the identifier of its payload, whatever else that holds, and an
embedded entity is loaded in turn.  The elements of an array and the values of a dictionary are
loaded side by side: all of them start, and then the failure that comes first is the outcome.

To find an entity is to load what the store of its class has under its kind and identifier, unless
the class or one of its lineage has a lookup of its own, which answers instead and is noted.

Records may refer to each other in circles, so loading has a bound on how many entities are entered
one after the other: a chain that enters more than there are records for each class comes back to
one of them.

Main definitions:

* `Checker.fetchWith` — an eager reference, for a given way to find an entity;
* `Checker.loadWith` — loading of a raw value, for given ways to load and to find an entity;
* `Checker.awaitWith` — decoding by a deferred checker;
* `Loading.load`, `Loading.find` — entities from raw data and by identifier;
* `Loading.decode` — decoding by any checker.
-/

import EntitySchema.Session.Gather
import EntitySchema.Session.Records
import EntitySchema.Session.Shared

set_option autoImplicit false

namespace EntitySchema

namespace Checker

section

variable (enter seek : ClassId → Value → Action Value)

/-- The identifier that a payload carries: under its name in a mapping, else as an attribute. -/
def payloadId (s : Session) (raw : Value) : Value :=
  match raw.entries? with
  | some es => Entries.getStr es idField
  | none => (Heap.attribute? s.catalog s.heap 0 raw idField).getD .null

/-- The entity that an eager reference finds; none if the payload has no identifier.  An identifier
without a written form is not looked up. -/
def fetchWith (target : Target) (raw : Value) : Action Value := do
  if raw.truthy then
    let s ← get
    let id := payloadId s raw
    if id.isNull then pure .null
    else
      let cls ← Session.ofExcept (s.catalog.resolve target)
      discard (Session.ofExcept (Method.write s.catalog s.heap id))
      seek cls id
  else pure .null

/-- The entity that an embedded reference loads: none of nothing, an instance of the class as it
is, and else what `enter` loads. -/
def enterWith (target : Target) (raw : Value) : Action Value := do
  if raw.isNull then pure .null
  else
    let s ← get
    let cls ← Session.ofExcept (s.catalog.resolve target)
    match raw with
    | .object a => if Heap.isInstance s.catalog s.heap a cls then pure raw else enter cls raw
    | _ => enter cls raw

/-- What a checker that produces entities loads of a raw value. -/
def loadWith : Checker → Value → Action Value
  | .arrayOf e _, raw => do
    let items ← Session.ofExcept (itemsOf raw)
    pure (.list (← Session.gather (fun x => loadWith e x) items))
  | .dictOf e _, raw => do
    let entries ← Session.ofExcept (entriesOf (← get).heap raw)
    let values ← Session.gather (fun p => loadWith e p.2) entries
    pure (.dict ((entries.map Prod.fst).zip values))
  | .reference t eager _, raw =>
    if eager.truthy then fetchWith seek t raw else enterWith enter t raw
  | .date _, raw => do
    let s ← get
    Session.ofExcept (raw.toMoment (Heap.objectName s.catalog s.heap))
  | _, raw => pure raw

/-- The decoding by a deferred checker.  A container is taken apart when its decoding is asked for,
and the containers in it are taken apart before any of their elements is looked up. -/
def awaitWith : Checker → Value → Heap → Except Failure (Action Value)
  | .arrayOf e _, raw, _ => do
    let items ← itemsOf raw
    pure do
      let h := (← get).heap
      let waiting ← Session.ofExcept (items.mapM fun x => awaitWith e x h)
      pure (.list (← Session.gather id waiting))
  | .dictOf e _, raw, h => do
    let entries ← entriesOf h raw
    pure do
      let h := (← get).heap
      let waiting ← Session.ofExcept (entries.mapM fun p => awaitWith e p.2 h)
      pure (.dict ((entries.map Prod.fst).zip (← Session.gather id waiting)))
  | .reference t _ _, raw, _ => pure (fetchWith seek t raw)
  | _, raw, _ => pure (pure raw)

end

end Checker

namespace Loading

/-! ### Raw data of a loaded entity -/

/-- The raw value of a field to load.  Raw data that are neither a mapping nor count as false have
no fields. -/
def rawField (raw : Value) (name : String) : Except Failure Value :=
  match raw.entries? with
  | some es => .ok (Entries.getStr es name)
  | none => if raw.truthy then .error (.noAttribute "get") else .ok .null

/-- Gives a field of an entity the value that was loaded; nothing is put aside for it any more. -/
def settle (a : Address) (name : String) (v : Value) : Action Unit :=
  modify fun s =>
    let h := s.heap.put a name v
    match (h.get a).own? pendingField with
    | some (.dict es) =>
      { s with heap := h.put a pendingField (.dict (es.filter fun e => !Value.isText name e.1)) }
    | _ => { s with heap := h }

/-- Loads the fields of an entity that produce entities, in order. -/
def loadFields (value : Checker → Value → Action Value) (a : Address) (raw : Value) :
    Schema → Action Unit
  | [] => pure ()
  | (name, c) :: fs => do
    if c.producesEntity then
      let x ← Session.ofExcept (rawField raw name)
      settle a name (← value c x)
    loadFields value a raw fs

/-! ### Loading and finding -/

/-- The entity that a class's own lookup answers with. -/
def answer (cls : ClassId) (found : Option Finding) : Action Value := do
  match found with
  | none => pure .null
  | some (.raw data) => do Session.build (Construction.ofRaw (← get).catalog cls data)
  | some (.entity a) => pure (.object a)

/-- The entity of a class with an identifier, for a given way to load it from a record. -/
def findWith (load : ClassId → Value → Action Value) (cls : ClassId) (id : Value) :
    Action Value := do
  let g := (← get).catalog
  match g.lookupOf? cls with
  | some (_, f) => do
    Session.note cls id
    answer cls (f id)
  | none => do
    let st ← Session.storeOf cls
    let name ← Session.textOf id
    match ← Session.fetchRecord st (.str (g.kindOf cls)) (.str name) with
    | none => pure .null
    | some record => load cls record

/-- Loads an entity from raw data, entering at most `fuel` entities one after the other. -/
def loadWithin : Nat → ClassId → Value → Action Value
  | 0, _, _ => throw .endless
  | fuel + 1, cls, raw => do
    let g := (← get).catalog
    let v ← Session.build (Construction.ofRaw g cls raw)
    match v with
    | .object a =>
      let enter := loadWithin fuel
      loadFields (Checker.loadWith enter (findWith enter)) a raw (g.schemaOf cls)
      pure v
    | v => pure v

/-- The depth of the deepest record of a list. -/
def recordDepth (rs : List Record) : Nat :=
  (rs.map fun r => Value.depthEntries r.data).foldl max 0

/-- The depth of the deepest record of a session, and the number of its records. -/
def recordExtent (s : Session) : Nat × Nat :=
  let inStores := s.stores.map fun st =>
    match st with
    | .memory records => records
    | .file _ (.own db) => db.rows
    | .file _ _ => []
  let all := inStores ++ s.disk.tables
  ((all.map recordDepth).foldl max 0, (all.map List.length).foldl (· + ·) 0)

/-- How many entities a loading that ends enters one after the other at most, if it starts from raw
data that embed no more entities than they are deep: those in the raw data and those in every
record, once for each class. -/
def bound (s : Session) (raw : Value) : Nat :=
  let (depth, count) := recordExtent s
  raw.depth + 1 + (depth + 2) * (count * s.catalog.classes.length + 1)

/-- How many objects the construction of an entity from raw data makes, if there is one: the entity
itself and the entities embedded in the raw data. -/
def made (s : Session) (cls : ClassId) (raw : Value) : Nat :=
  match Construction.ofRaw s.catalog cls raw s.heap with
  | .ok (_, h) => List.length h - List.length s.heap
  | .error _ => 0

/-- Loads an entity from raw data.  What is embedded in them is entered besides what is found. -/
def load (cls : ClassId) (raw : Value) : Action Value := do
  let s ← get
  Session.arrange (loadWithin (bound s .null + made s cls raw) cls raw)

/-- Finds the entity of a class with an identifier. -/
def find (cls : ClassId) (id : Value) : Action Value := do
  let s ← get
  Session.arrange (findWith (loadWithin (bound s .null)) cls id)

/-- What a checker makes of a raw value, waiting for lookups if it is deferred. -/
def decode (c : Checker) (raw : Value) : Action Value := do
  let s ← get
  if c.deferred then
    let waiting ← Session.ofExcept
      (Checker.awaitWith (findWith (loadWithin (bound s .null))) c raw s.heap)
    Session.arrange waiting
  else Session.build (Construction.decode s.catalog c raw)

end Loading

end EntitySchema
