/-
**Entities as raw data.**

The raw data of an entity are a dictionary: the identifier, if there is one, and then every field
of the schema.  An entity in a field becomes its own raw data, or its identifier alone if the field
is deferred; days and moments become text; arrays become lists and mappings dictionaries, item by
item.  A deferred field that has not been loaded keeps the raw value it was given.

What an entity in a field tells as its raw data is a parameter here, since it may have a method of
its own for that.

Main definitions:

* `Encoding.encodeWith` — the raw form of a value, for a given raw form of entities;
* `Encoding.rawWith` — the raw data of an object, likewise.
-/

import EntitySchema.Calendar.IsoText
import EntitySchema.Heap

set_option autoImplicit false

namespace EntitySchema

namespace Encoding

/-! ### Raw forms of values -/

section

variable (h : Heap) (visit : Address → Except Failure Value)

/-- The identifier of an entity alone, as raw data. -/
def identifierOnly (a : Address) : Except Failure Value :=
  match (Heap.get h a).own? idField with
  | some id => .ok (.dict [(.str idField, id)])
  | none => .error (.noAttribute idField)

mutual

/-- The raw form of a value: with `byId` an entity becomes its identifier, else `visit` tells its
raw data. -/
def encodeWith (byId : Bool) : Value → Except Failure Value
  | .object a =>
    if Heap.isEntity h a then (if byId then identifierOnly h a else visit a) else .ok (.object a)
  | .date d => .ok (.str d.isoText)
  | .moment m => .ok (.str m.isoText)
  | .stamp m => .ok (.str m.isoText)
  | .list xs => do .ok (.list (← encodeItems byId xs))
  | .tuple xs => do .ok (.list (← encodeItems byId xs))
  | .dict es => do .ok (.dict (← encodeEntries byId es))
  | .ordered es => do .ok (.dict (← encodeEntries byId es))
  | v => .ok v
termination_by structural v => v

/-- The raw forms of the items of a list. -/
def encodeItems (byId : Bool) : List Value → Except Failure (List Value)
  | [] => .ok []
  | x :: xs => do
    let y ← encodeWith byId x
    .ok (y :: (← encodeItems byId xs))
termination_by structural xs => xs

/-- The raw forms of the values of a mapping, under the same keys. -/
def encodeEntries (byId : Bool) : Entries → Except Failure Entries
  | [] => .ok []
  | (k, v) :: es => do
    let w ← encodeWith byId v
    .ok ((k, w) :: (← encodeEntries byId es))
termination_by structural es => es

end

end

/-! ### Raw data of an object -/

/-- Whether a text is a part of another. -/
def isPart (part : List Char) : List Char → Bool
  | [] => part.isEmpty
  | c :: cs => part.isPrefixOf (c :: cs) || isPart part cs

/-- What is put aside for a field, if anything is.  What is no dictionary can be searched for the
name, but nothing can be taken out of it. -/
def pendingAt (pending : Value) (name : String) : Except Failure (Option Value) :=
  match pending with
  | .dict es | .ordered es => .ok (Entries.getStr? es name)
  | .list xs | .tuple xs | .set xs =>
    if xs.any (Value.isText name) then .error (.misuse .notATable) else .ok none
  | .str s => if isPart name.toList s.toList then .error (.misuse .notATable) else .ok none
  | _ => .error (.misuse .notATable)

/-- Whether what a schema has for a field is deferred. -/
def byId : Heap.Rule → Bool
  | .checker c => c.deferred
  | .other _ => false

variable (g : Catalog) (h : Heap) (visit : Address → Except Failure Value)

/-- The raw value put aside for a field, where the field is absent. -/
def unloaded (a : Address) (name : String) (v : Value) : Except Failure (Option Value) :=
  if v.isNull then
    match Heap.objectAttribute? g h a pendingField with
    | some pending => pendingAt pending name
    | none => .error (.noAttribute pendingField)
  else .ok none

/-- The raw form of one field of an object. -/
def encodeField (a : Address) (r : Value × Heap.Rule) : Except Failure (Value × Value) :=
  match r.1 with
  | .str name => do
    let v := Heap.field g h a name
    match ← unloaded g h a name v with
    | some raw => .ok (.str name, raw)
    | none => .ok (.str name, ← encodeWith h visit (byId r.2) v)
  | _ => .error (.misuse .notAName)

/-- The entry for the identifier of an object, if it has one. -/
def idEntry (a : Address) : Except Failure Entries :=
  match Heap.objectAttribute? g h a idField with
  | some id => .ok (if id.isNull then [] else [(.str idField, id)])
  | none => .error (.noAttribute idField)

/-- The raw data of an object. -/
def rawWith (a : Address) : Except Failure Value := do
  let id ← idEntry g h a
  let rules ← Heap.rules g h a
  let fields ← rules.mapM (encodeField g h visit a)
  .ok (.dict (Entries.insertAll id fields))

end Encoding

end EntitySchema
