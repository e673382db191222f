/-
**Construction of entities from raw data.**

An entity is constructed from a raw value that makes a dictionary; whatever counts as false makes
the empty one.  Each field of the schema takes the raw value under its name: as it is if the checker
does not decode, decoded if it does, and put aside until the entity is loaded if the checker is
deferred.  An embedded entity is constructed on the way, and one that is an instance of the right
class already is taken as it is.

Construction follows the raw data, which get less deep with every entity entered, so their depth
bounds it however the schemas refer to each other.

Main definitions:

* `Build` — computations that add cells to the heap and may fail;
* `Value.depth` — the depth of raw data;
* `Checker.decodeWith` — decoding, for a given way to construct an entity;
* `Construction.ofEntries`, `Construction.ofRaw` — entities from a dictionary and from a raw value;
* `Construction.decode` — decoding of a raw value.

Main results:

* `Checker.itemsOf_cases` — what an array is decoded from;
* `Construction.entriesOf_of_falsy` — what counts as false makes the empty dictionary.
-/

import EntitySchema.Heap
import EntitySchema.Value.Conversion

set_option autoImplicit false

namespace EntitySchema

/-- A computation that may add cells to the heap and may fail. -/
abbrev Build := StateT Heap (Except Failure)

/-! ### The depth of raw data -/

namespace Value

mutual

/-- The depth of a value: one more than the deepest of what it is made of. -/
def depth : Value → Nat
  | .list xs => depthItems xs + 1
  | .tuple xs => depthItems xs + 1
  | .set xs => depthItems xs + 1
  | .dict es => depthEntries es + 1
  | .ordered es => depthEntries es + 1
  | _ => 1
termination_by structural v => v

/-- The depth of the deepest of a list of values. -/
def depthItems : List Value → Nat
  | [] => 0
  | x :: xs => max (depth x) (depthItems xs)
termination_by structural xs => xs

/-- The depth of the deepest key or value of a dictionary. -/
def depthEntries : Entries → Nat
  | [] => 0
  | (k, v) :: es => max (max (depth k) (depth v)) (depthEntries es)
termination_by structural es => es

end

end Value

namespace Checker

section

variable (g : Catalog) (make : ClassId → Value → Build Value)

/-- The entity that a reference makes of a raw value: none of nothing, an instance of the class as
it is, and else what `make` constructs. -/
def decodeEntity (target : Target) (raw : Value) : Build Value :=
  if raw.isNull then pure .null
  else do
    let cls ← g.resolve target
    let h ← get
    match raw with
    | .object a => if Heap.isInstance g h a cls then pure raw else make cls raw
    | _ => make cls raw

/-- The items that an array is decoded from; nothing is the empty array. -/
def itemsOf (raw : Value) : Except Failure (List Value) :=
  if raw.isNull then .ok [] else raw.toItems

/-- An array is decoded from the items of a value, or from nothing. -/
theorem itemsOf_cases {raw : Value} {xs : List Value} (h : itemsOf raw = .ok xs) :
    xs = [] ∨ raw.isNull = false ∧ raw.items? = some xs := by
  unfold itemsOf at h
  split at h
  · cases h
    exact .inl rfl
  · next there => exact .inr ⟨eq_false_of_ne_true there, Value.toItems_eq_ok_iff.1 h⟩

/-- The entries that a dictionary is decoded from; nothing is the empty dictionary. -/
def entriesOf (h : Heap) (raw : Value) : Except Failure Entries :=
  if raw.isNull then .ok [] else raw.toEntries (Heap.isEntity h)

/-- What a checker makes of a raw value, at once; `make` constructs an entity. -/
def decodeWith : Checker → Value → Build Value
  | .date _, raw => do raw.toMoment (Heap.objectName g (← get))
  | .reference t _ _, raw => decodeEntity g make t raw
  | .arrayOf e _, raw => do
    let items ← itemsOf raw
    pure (.list (← items.mapM fun x => decodeWith e x))
  | .dictOf e _, raw => do
    let entries ← entriesOf (← get) raw
    pure (.dict (← entries.mapM fun p => do pure (p.1, ← decodeWith e p.2)))
  | _, raw => pure raw

end

end Checker

namespace Construction

/-- The dictionary that an entity is constructed from. -/
def entriesOf (h : Heap) (raw : Value) : Except Failure Entries :=
  if raw.truthy then raw.toEntries (Heap.isEntity h) else .ok []

/-- What counts as false makes the empty dictionary. -/
theorem entriesOf_of_falsy (h : Heap) {raw : Value} (hr : raw.truthy = false) :
    entriesOf h raw = .ok [] := by
  simp [entriesOf, hr]

/-- The value that a field starts with: decoded, put aside, or as it is. -/
def initialValue (decode : Checker → Value → Build Value) (c : Checker) (raw : Value) :
    Build Value :=
  if c.deferred then pure .null
  else if c.decodes then decode c raw
  else pure raw

/-- The fields of an entity and the raw values put aside, from its data. -/
def fieldsFrom (decode : Checker → Value → Build Value) (data : Entries) :
    Schema → Build (Table Value × Table Value)
  | [] => pure ([], [])
  | (name, c) :: fs => do
    let raw := Entries.getStr data name
    let v ← initialValue decode c raw
    let (fields, pending) ← fieldsFrom decode data fs
    pure ((name, v) :: fields,
      if c.deferred && !raw.isNull then (name, raw) :: pending else pending)

/-- Adds an object to the heap. -/
def alloc (c : Cell) : Build Value := do
  let (a, h) := (← get).alloc c
  set h
  pure (.object a)

variable (g : Catalog)

/-- An entity from its data, through at most `fuel` entities one inside the other. -/
def ofEntries : Nat → ClassId → Entries → Build Value
  | 0, _, _ => throw .endless
  | fuel + 1, cls, data => do
    let make := fun cls raw => do ofEntries fuel cls (← entriesOf (← get) raw)
    let (fields, pending) ← fieldsFrom (Checker.decodeWith g make) data (g.schemaOf cls)
    alloc (.entity cls (Entries.getStr data idField) pending fields)

/-- An entity from a raw value, with further data under names. -/
def ofRawWith (cls : ClassId) (raw : Value) (further : Table Value) : Build Value := do
  let data ← entriesOf (← get) raw
  let data := Entries.insertAll data (further.map fun f => (.str f.1, f.2))
  ofEntries g (Value.depthEntries data + 1) cls data

/-- An entity from a raw value. -/
def ofRaw (cls : ClassId) (raw : Value) : Build Value := do
  let data ← entriesOf (← get) raw
  ofEntries g (Value.depthEntries data + 1) cls data

/-- What a checker that is not deferred makes of a raw value. -/
def decode (c : Checker) (raw : Value) : Build Value :=
  Checker.decodeWith g (ofRaw g) c raw

end Construction

end EntitySchema
