/-
**Classes of entities and the names they are registered under.**

A class has a name, a kind under which its records are stored, a schema, and possibly a store of its
own or a lookup of its own that answers instead of the store.  Classes are numbered in the order of
definition; the first is the base of all others.  The *lineage* of a class is the class itself, its
base, the base of that, and so on; an entity is an instance of every class of its lineage.

A name may be registered again, which keeps its place among the names, or be given up.

Main definitions:

* `EntityClass`, `Catalog` — classes and names;
* `Catalog.define` — the definition of a class;
* `Catalog.register`, `Catalog.unregister`, `Catalog.lookupName?`, `Catalog.resolve` — the names;
* `Catalog.isInstance` — whether an entity is one of a class.

Main results:

* `Catalog.define_ok_iff` — **a definition fails exactly if its name cannot be one or a field has a
  reserved name.**
-/

import EntitySchema.Checker
import EntitySchema.Value.Equality

set_option autoImplicit false

namespace EntitySchema

/-- The name of the field that holds the identifier of an entity in raw data. -/
def idField : String := "_id"

/-- The names that every entity has already, which no field may take. -/
def reservedNames : List String :=
  ["__annotations__", "__class__", "__delattr__", "__dict__", "__dir__", "__doc__", "__eq__",
   "__format__", "__ge__", "__getattribute__", "__getstate__", "__gt__", "__hash__", "__init__",
   "__init_subclass__", "__le__", "__lt__", "__module__", "__ne__", "__new__", "__reduce__",
   "__reduce_ex__", "__repr__", "__setattr__", "__sizeof__", "__str__", "__subclasshook__",
   "__weakref__", "_id", "_pending", "_resolve_store", "check", "delete", "find", "id", "kind",
   "load", "save", "schema", "store", "to_raw", "validate"]

/-- What a lookup answers with: raw data that an entity is to be constructed from, or an entity that
is there. -/
inductive Finding where
  | raw (data : Value)
  | entity (a : Address)

/-- A lookup that answers an identifier, or not. -/
abbrev Lookup := Value → Option Finding

/-- Whether two identifiers are of one type and equal.  A "not a number" equals none. -/
def sameIdentifier (a b : Value) : Bool :=
  let typeOf := Value.typeName fun _ => "object"
  match a with
  | .nan _ => false
  | _ => typeOf a == typeOf b && Value.sameKey a b

/-- The lookup in a list of records: the first whose identifier is of the same type and equal
answers. -/
def Lookup.ofRecords (records : List (Value × Value)) : Lookup := fun id =>
  match (records.find? fun r => sameIdentifier r.1 id) with
  | some (_, .null) | none => none
  | some (_, raw) => some (.raw raw)

/-- A class of entities. -/
structure EntityClass where
  name : String
  kind : String
  lineage : List ClassId
  schema : Schema
  /-- The lookup of the class itself, if it has one. -/
  lookup? : Option Lookup
  /-- The store that the class was assigned, which may be none; a class without an assignment has
  that of its base. -/
  store? : Option (Option Nat)

/-- The classes defined so far and the names they are registered under. -/
structure Catalog where
  classes : List EntityClass
  names : Table ClassId

namespace Catalog

/-- The class that is the base of all others. -/
def base : ClassId := 0

/-- The catalog at the start: the base class, under no name. -/
def initial : Catalog :=
  { classes := [{ name := "Entity", kind := "Entity", lineage := [base], schema := [],
                  lookup? := none, store? := none }]
    names := [] }

variable (g : Catalog)

/-! ### Classes -/

/-- The name of a class. -/
def nameOf (c : ClassId) : String := (g.classes[c]?.map EntityClass.name).getD ""

/-- The kind of a class. -/
def kindOf (c : ClassId) : String := (g.classes[c]?.map EntityClass.kind).getD ""

/-- The schema of a class. -/
def schemaOf (c : ClassId) : Schema := (g.classes[c]?.map EntityClass.schema).getD []

/-- The lineage of a class, the class itself first. -/
def lineageOf (c : ClassId) : List ClassId :=
  (g.classes[c]?.map EntityClass.lineage).getD [c]

/-- The class nearest in the lineage that has a lookup of its own, and that lookup. -/
def lookupOf? (c : ClassId) : Option (ClassId × Lookup) :=
  (g.lineageOf c).findSome? fun b => (g.classes[b]?.bind EntityClass.lookup?).map fun f => (b, f)

/-- What is assigned to the class nearest in the lineage that has an assignment. -/
def assignedStore? (c : ClassId) : Option Nat :=
  ((g.lineageOf c).findSome? fun b => g.classes[b]?.bind EntityClass.store?).join

/-- Assigns a store to a class, or none. -/
def assign (c : ClassId) (st : Option Nat) : Catalog :=
  { g with classes := g.classes.modify c fun cls => { cls with store? := some st } }

/-- Whether an entity of class `c` is an instance of class `target`. -/
def isInstance (c target : ClassId) : Bool := (g.lineageOf c).contains target

/-! ### Names -/

/-- The class registered under a name. -/
def lookupName? (name : String) : Option ClassId := Table.get? g.names name

/-- Registers a class under a name, or under its own name if that is empty. -/
def register (c : ClassId) (name : String) : Catalog :=
  { g with names := Table.put g.names (if name = "" then g.nameOf c else name) c }

/-- Gives up a name, and tells whether it was registered. -/
def unregister (name : String) : Bool × Catalog :=
  (Table.has g.names name, { g with names := Table.erase g.names name })

/-- The class that a reference is to. -/
def resolve : Target → Except Failure ClassId
  | .cls c => .ok c
  | .named name =>
    match g.lookupName? name with
    | some c => .ok c
    | none => .error (.unknownEntity name)

/-! ### Definition -/

/-- A text's place in a sorted list of texts. -/
def insertSorted (s : String) : List String → List String
  | [] => [s]
  | t :: ts => if s ≤ t then s :: t :: ts else t :: insertSorted s ts

/-- The fields of a schema with reserved names, sorted. -/
def reservedIn (schema : Schema) : List String :=
  ((Table.names schema).filter fun f => reservedNames.contains f).foldr insertSorted []

/-- Whether a text can be the name of a class. -/
def isClassName (name : String) : Bool := !name.toList.contains '\x00'

/-- The definition of a class.  Without a schema it has that of its base, without a kind its name
is its kind; it is registered under its kind. -/
def define (name kind : String) (parent : ClassId) (schema? : Option Schema)
    (lookup? : Option Lookup) : Except Failure (ClassId × Catalog) :=
  let schema := schema?.getD (g.schemaOf parent)
  let shadowed := reservedIn schema
  if !isClassName name then .error .badCharacter
  else if shadowed.isEmpty then
    let c := g.classes.length
    let kind := if kind = "" then name else kind
    let cls : EntityClass := ⟨name, kind, c :: g.lineageOf parent, schema, lookup?, none⟩
    .ok (c, register { g with classes := g.classes ++ [cls] } c kind)
  else .error (.reservedFields name shadowed)

theorem insertSorted_ne_nil (s : String) (ts : List String) : insertSorted s ts ≠ [] := by
  cases ts with
  | nil => simp [insertSorted]
  | cons t ts =>
    simp only [insertSorted]
    split <;> simp

/-- No field is reserved exactly if none has a reserved name. -/
theorem reservedIn_eq_nil_iff (schema : Schema) :
    reservedIn schema = [] ↔ ∀ f ∈ Table.names schema, f ∉ reservedNames := by
  rw [reservedIn]
  generalize hl : (Table.names schema).filter (fun f => reservedNames.contains f) = l
  have hmem : l = [] ↔ ∀ f ∈ Table.names schema, f ∉ reservedNames := by
    rw [← hl, List.filter_eq_nil_iff]
    simp
  rw [← hmem]
  cases l with
  | nil => simp
  | cons s l => simp [insertSorted_ne_nil]

/-- A definition fails exactly if its name cannot be one or a field has a reserved name. -/
theorem define_ok_iff (name kind : String) (parent : ClassId) (schema? : Option Schema)
    (lookup? : Option Lookup) :
    (∃ r, g.define name kind parent schema? lookup? = .ok r) ↔
      isClassName name = true ∧
        ∀ f ∈ Table.names (schema?.getD (g.schemaOf parent)), f ∉ reservedNames := by
  rw [← reservedIn_eq_nil_iff]
  simp only [define, List.isEmpty_iff]
  cases isClassName name with
  | false => simp
  | true =>
    by_cases h : reservedIn (schema?.getD (g.schemaOf parent)) = []
    · simp [h]
    · simp [h]

end Catalog

end EntitySchema
