/-
**The heap: the state of objects.**

An object is a cell of the heap.  It has a class, and attributes under names, in the order in which
they came.  An entity is an object whose class is one of the catalog.  Among its attributes are its
identifier, which may be absent, the raw values of the deferred fields that have not been loaded,
and a value for each of its fields.  A cell is changed in place, so a change shows wherever the
object is held; objects may hold each other in circles.

An attribute that an object has itself hides what its class gives it under the same name, such as a
method or the schema.  A few names cannot be hidden: those of the identifier, of the class, and of
the dictionary of attributes.

A copy of a value copies every object it reaches, each once, so that what was shared among them is
shared among the copies.  Functions and numbers, a "not a number" included, are not copied.  An
object that has one of the methods that copying goes by itself cannot be copied.

Main definitions:

* `Species`, `Cell`, `Heap` — the state of an object, and of all;
* `Heap.get`, `Heap.write`, `Heap.alloc` — reading, writing and adding a cell;
* `Heap.isInstance`, `Heap.typeName` — the class of an object;
* `Heap.attribute?`, `Heap.assign` — attributes by name, those of classes and methods included;
* `Heap.rules` — the schema that an object goes by;
* `Heap.copyable`, `Heap.copy` — whether a value can be copied, and its copy.

Main results:

* `Heap.get_write_self`, `Heap.get_write_of_ne`, `Heap.get_alloc_of_lt` — **what a write changes**;
* `Heap.get_alloc_self` — the new cell holds what it was given;
* `Heap.rules_of_unhidden` — an entity goes by the schema of its class unless it has one itself.
-/

import EntitySchema.Catalog
import EntitySchema.Value.Attribute

set_option autoImplicit false

namespace EntitySchema

/-- What an object is: an entity of a class, or a plain object. -/
inductive Species where
  | plain
  | entity (c : ClassId)
  deriving DecidableEq, Repr, Inhabited

/-- The class of an object, as a value. -/
def Species.cls : Species → ClassValue
  | .entity c => .entity c
  | .plain => .plain

/-- The name of the attribute that holds the raw values of deferred fields. -/
def pendingField : String := "_pending"

/-- The state of an object. -/
structure Cell where
  species : Species
  attributes : Table Value
  deriving Inhabited

namespace Cell

/-- A new entity: its identifier, the raw values of deferred fields, and its fields. -/
def entity (c : ClassId) (id : Value) (pending fields : Table Value) : Cell :=
  { species := .entity c
    attributes :=
      (idField, id) :: (pendingField, .dict (pending.map fun p => (.str p.1, p.2))) :: fields }

/-- A new plain object. -/
def plain (attributes : Table Value) : Cell := { species := .plain, attributes := attributes }

/-- The attribute that an object has itself. -/
def own? (c : Cell) (name : String) : Option Value := Table.get? c.attributes name

/-- The object with an attribute of its own. -/
def put (c : Cell) (name : String) (v : Value) : Cell :=
  { c with attributes := Table.put c.attributes name v }

end Cell

/-- The state of all objects. -/
abbrev Heap := List Cell

namespace Heap

/-- The cell at an address; an empty one where there is none. -/
def get (h : Heap) (a : Address) : Cell := (h[a]?).getD ⟨.plain, []⟩

/-- The heap with another cell at an address. -/
def write (h : Heap) (a : Address) (c : Cell) : Heap := List.set h a c

/-- The heap with one more cell, and its address. -/
def alloc (h : Heap) (c : Cell) : Address × Heap := (h.length, h ++ [c])

/-- The heap with an attribute of an object changed. -/
def put (h : Heap) (a : Address) (name : String) (v : Value) : Heap :=
  write h a ((get h a).put name v)

@[simp] theorem get_write_self (h : Heap) {a : Address} (ha : a < h.length) (c : Cell) :
    get (write h a c) a = c := by
  simp [get, write, ha]

/-- A write leaves the other cells as they are. -/
theorem get_write_of_ne (h : Heap) {a b : Address} (hab : a ≠ b) (c : Cell) :
    get (write h a c) b = get h b := by
  simp [get, write, hab]

/-- A new cell leaves the cells before it as they are. -/
theorem get_alloc_of_lt (h : Heap) {a : Address} (ha : a < h.length) (c : Cell) :
    get (alloc h c).2 a = get h a := by
  simp [get, alloc, List.getElem?_append, ha]

@[simp] theorem get_alloc_self (h : Heap) (c : Cell) : get (alloc h c).2 (alloc h c).1 = c := by
  simp [get, alloc]

/-! ### Classes -/

/-- Whether an object is an entity. -/
def isEntity (h : Heap) (a : Address) : Bool :=
  match (get h a).species with
  | .entity _ => true
  | .plain => false

variable (g : Catalog) (h : Heap)

/-- Whether an object is an instance of a class of entities. -/
def isInstance (a : Address) (target : ClassId) : Bool :=
  match (get h a).species with
  | .entity c => g.isInstance c target
  | .plain => false

variable {g h} in
/-- An instance of a class is an entity. -/
theorem isEntity_of_isInstance {a : Address} {cls : ClassId} (is : isInstance g h a cls = true) :
    isEntity h a = true := by
  unfold isInstance at is
  unfold isEntity
  cases hs : (get h a).species with
  | entity d => rfl
  | plain =>
    rw [hs] at is
    cases is

/-- The name of the class of an object. -/
def objectName (a : Address) : String :=
  match (get h a).species with
  | .entity c => g.nameOf c
  | .plain => "Obj"

/-- The name of a value's type. -/
def typeName (v : Value) : String := v.typeName (objectName g h)

/-! ### Attributes -/

/-- The checkers of a class, under the names of their fields. -/
def schemaValue (c : ClassId) : Value :=
  .dict ((Table.names (g.schemaOf c)).map fun f => (.str f, .checker c f))

/-- What a store that may be missing is as a value. -/
def storeValue : Option Nat → Value
  | some i => .store i
  | none => .null

/-- The methods that an entity has through its class as a whole. -/
def classMethods : List String :=
  ["__init_subclass__", "__subclasshook__", "_resolve_store", "find", "load"]

/-- What the base of all classes says about itself. -/
def baseDescription : String :=
  "Base class for constructible, self-validating, id-addressable records."

/-- What a class of entities gives its instances and itself alike. -/
def sharedAttribute? (c : ClassId) (name : String) : Option Value :=
  if name = "kind" then some (.str (g.kindOf c))
  else if name = "schema" then some (schemaValue g c)
  else if name = "store" then some (storeValue (g.assignedStore? c))
  else if name = "__hash__" then some .null
  else if name = "__doc__" then some (if c = Catalog.base then .str baseDescription else .null)
  else if name = "__module__" then some (.str "__main__")
  else if name = "__annotations__" then
    some (.dict (["schema", "store", "kind"].map fun f => (.str f, .thing "_GenericAlias")))
  else if classMethods.contains name then some (.method (.cls c) name)
  else if name = "__new__" then some (.method (.constant "object") name)
  else none

/-- What its class gives an entity. -/
def givenAttribute? (a : Address) (c : ClassId) (name : String) : Option Value :=
  match sharedAttribute? g c name with
  | some v => some v
  | none =>
    if methodsOfAll.contains name || Value.entityMethods.contains name then
      some (.method (.object a) name)
    else none

/-- What the class of plain objects gives them. -/
def plainAttribute? (a : Address) (name : String) : Option Value :=
  if name = "__module__" then some (.str "__main__")
  else if name = "__doc__" then some .null
  else if name = "__new__" then some (.method (.constant "object") name)
  else if methodsOfAll.contains name then some (.method (.object a) name)
  else none

/-- The attribute of an object of a given name: its class, its attributes as a whole, its
identifier, what it has itself, and what its class gives it. -/
def objectAttribute? (a : Address) (name : String) : Option Value :=
  let c := get h a
  if name = "__class__" then some (.cls c.species.cls)
  else if name = "__dict__" then some (.dict (c.attributes.map fun p => (.str p.1, p.2)))
  else if name = "__weakref__" then some .null
  else match c.species with
    | .entity k =>
      if name = "id" then c.own? idField
      else (c.own? name).or (givenAttribute? g a k name)
    | .plain => (c.own? name).or (plainAttribute? a name)

/-- The classes that a class is built on, itself first. -/
def ancestry : ClassValue → List ClassValue
  | .entity k => (g.lineageOf k).map ClassValue.entity ++ [.builtin "object"]
  | .plain => [.plain, .builtin "object"]
  | .builtin "bool" => [.builtin "bool", .builtin "int", .builtin "object"]
  | .builtin "datetime" => [.builtin "datetime", .builtin "date", .builtin "object"]
  | .builtin "OrderedDict" => [.builtin "OrderedDict", .builtin "dict", .builtin "object"]
  | .builtin "Stamp" =>
    [.builtin "Stamp", .builtin "datetime", .builtin "date", .builtin "object"]
  | .builtin "object" => [.builtin "object"]
  | .builtin name => [.builtin name, .builtin "object"]

/-- The names of the methods that classes have because they are classes. -/
def methodsOfClasses : List String :=
  ["__call__", "__instancecheck__", "__or__", "__prepare__", "__ror__", "__subclasscheck__",
   "__subclasses__", "mro"]

/-- What a class tells about its place among the classes. -/
def placeAttribute? (c : ClassValue) (name : String) : Option Value :=
  let bases := (ancestry g c).drop 1
  if name = "__mro__" then some (.tuple ((ancestry g c).map Value.cls))
  else if name = "__bases__" then some (.tuple ((bases.take 1).map Value.cls))
  else if name = "__base__" then some ((bases.head?.map Value.cls).getD .null)
  else if name = "__text_signature__" then some .null
  else if methodsOfClasses.contains name then some (.method (.constant "type") name)
  else none

/-- The name of a class. -/
def className : ClassValue → String
  | .entity k => g.nameOf k
  | .plain => "Obj"
  | .builtin name => name

/-- What a class gives under a name by itself. -/
def ownClassAttribute? (c : ClassValue) (name : String) : Option Value :=
  match c with
  | .entity k =>
    match sharedAttribute? g k name with
    | some v => some v
    | none =>
      if name = "id" then some (.thing "property")
      else if Value.entityMethods.contains name then some (.method (.constant "Entity") name)
      else none
  | .plain =>
    if name = "__module__" then some (.str "__main__")
    else if name = "__doc__" then some .null
    else none
  | .builtin _ => none

/-- The name of the class that gives a class the methods that all values have. -/
def definer : ClassValue → String
  | .builtin name => name
  | _ => "object"

/-- The attribute of a class of a given name. -/
def classAttribute? (c : ClassValue) (name : String) : Option Value :=
  if name = "__class__" then some (.cls (.builtin "type"))
  else if name = "__dict__" then some (.thing "mappingproxy")
  else if name = "__name__" ∨ name = "__qualname__" then some (.str (className g c))
  else match ownClassAttribute? g c name with
    | some v => some v
    | none =>
      if methodsOfAll.contains name then some (.method (.constant (definer c)) name)
      else placeAttribute? g c name

/-- The attribute of a method of a given name: what it belongs to, its name, the name with that of
the class that defines it, and the method apart from what it belongs to. -/
def methodAttribute? (owner : Owner) (method name : String) : Option Value :=
  let defined := Value.entityMethods.contains method
  if name = "__name__" then some (.str method)
  else match owner with
    | .object _ | .cls _ =>
      if name = "__self__" then
        some (match owner with
          | .cls c => .cls (.entity c)
          | .object a => .object a
          | _ => .null)
      else if name = "__qualname__" then
        some (.str ((if defined then "Entity." else "object.") ++ method))
      else if name = "__func__" ∧ defined then some (.method (.constant "Entity") method)
      else none
    | _ => none

/-- The attribute of a value of a given name.  The token tells the value from others of the same
content. -/
def attribute? (token : Nat) (v : Value) (name : String) : Option Value :=
  match v with
  | .object a => objectAttribute? g h a name
  | .cls c => classAttribute? g c name
  | .method owner method =>
    (methodAttribute? owner method name).or (v.attribute? token name)
  | .function a =>
    if name = "__dict__" then
      some (.dict ((get h a).attributes.map fun p => (.str p.1, p.2)))
    else ((get h a).own? name).or (v.attribute? token name)
  | v => v.attribute? token name

/-- The value of a field of an object; absent if it has none of that name. -/
def field (a : Address) (name : String) : Value := (objectAttribute? g h a name).getD .null

/-- Gives an object another class. -/
def assignClass (a : Address) (v : Value) : Except Failure Heap :=
  match v with
  | .cls (.entity c) => .ok (write h a { get h a with species := .entity c })
  | .cls .plain => .ok (write h a { get h a with species := .plain })
  | _ => .error (.misuse .notAClass)

/-- The attributes that a dictionary holds under names. -/
def namedAttributes (v : Value) : Except Failure (Table Value) :=
  match v.entries? with
  | some es => .ok (es.filterMap fun e =>
      match e.1 with
      | .str name => some (name, e.2)
      | _ => none)
  | none => .error (.misuse .notAttributes)

/-- Gives an object other attributes as a whole. -/
def assignAttributes (a : Address) (v : Value) : Except Failure Heap := do
  let attributes ← namedAttributes v
  .ok (write h a { get h a with attributes := attributes })

/-- Gives an attribute of an object a value.  The identifier of an entity can be changed under the
name of its field in raw data only. -/
def assign (a : Address) (name : String) (v : Value) : Except Failure Heap :=
  if name = "__class__" then assignClass h a v
  else if name = "__dict__" then assignAttributes h a v
  else if name = "__weakref__" then .error (.readOnly name)
  else if name = "id" ∧ isEntity h a then .error (.readOnly name)
  else .ok (put h a name v)

/-- Gives an attribute of an object or a function a value. -/
def setAttribute (target : Value) (name : String) (v : Value) : Except Failure Heap :=
  match target with
  | .object a => assign h a name v
  | .function a => .ok (put h a name v)
  | _ => .error (.noAttribute name)

/-! ### The schema of an object -/

/-- What stands in a schema for a field: a checker, or something else that was put there. -/
inductive Rule where
  | checker (c : Checker)
  | other (v : Value)

/-- What a value of a schema stands for. -/
def ruleOf (v : Value) : Rule :=
  match v with
  | .checker c f =>
    match Table.get? (g.schemaOf c) f with
    | some k => .checker k
    | none => .other v
  | v => .other v

/-- The rules of the schema of a class. -/
def classRules (c : ClassId) : List (Value × Rule) :=
  (g.schemaOf c).map fun f => (.str f.1, .checker f.2)

/-- The schema that an object goes by: one of its own, or that of its class. -/
def rules (a : Address) : Except Failure (List (Value × Rule)) :=
  let c := get h a
  match c.own? "schema", c.species with
  | none, .entity k => .ok (classRules g k)
  | none, .plain => .error (.noAttribute "schema")
  | some v, _ =>
    match v.entries? with
    | some es => .ok (es.map fun e => (e.1, ruleOf g e.2))
    | none =>
      .error (if (attribute? g h 0 v "items").isSome then .misuse .notCallable
        else .noAttribute "items")

/-- An entity goes by the schema of its class unless it has one itself. -/
theorem rules_of_unhidden {a : Address} {c : ClassId} (hs : (get h a).species = .entity c)
    (hn : (get h a).own? "schema" = none) : rules g h a = .ok (classRules g c) := by
  simp [rules, hs, hn]

/-! ### Reachability -/

mutual

/-- The cells that a value refers to. -/
def refs : Value → List Address
  | .object a => [a]
  | .method (.object a) _ => [a]
  | .list xs => refsItems xs
  | .tuple xs => refsItems xs
  | .set xs => refsItems xs
  | .dict es => refsEntries es
  | .ordered es => refsEntries es
  | _ => []
termination_by structural v => v

/-- The cells that the values of a list refer to. -/
def refsItems : List Value → List Address
  | [] => []
  | x :: xs => refs x ++ refsItems xs
termination_by structural xs => xs

/-- The cells that the entries of a dictionary refer to. -/
def refsEntries : Entries → List Address
  | [] => []
  | (k, v) :: es => refs k ++ refs v ++ refsEntries es
termination_by structural es => es

end

/-- The cells that a cell refers to. -/
def cellRefs (c : Cell) : List Address := c.attributes.flatMap fun p => refs p.2

/-- The addresses of a list that are not among `seen`, each once. -/
def newAmong (seen : List Address) (as : List Address) : List Address :=
  (as.filter fun a => !seen.contains a).eraseDups

/-- The cells in reach of `seen`, of which the cells of `front` have not been visited.  Each round
visits at least one more cell, so as many rounds as there are cells reach everything. -/
def grow : Nat → List Address → List Address → List Address
  | 0, seen, _ => seen
  | fuel + 1, seen, front =>
    let next := newAmong seen (front.flatMap fun a => cellRefs (get h a))
    if next.isEmpty then seen else grow fuel (seen ++ next) next

/-- The cells that a value reaches. -/
def reach (v : Value) : List Address :=
  let roots := newAmong [] (refs v)
  grow h h.length roots roots

/-! ### Copies -/

/-- The types of the values that cannot be copied: work that is waited for, and the attributes of a
class as a whole. -/
def uncopyableTypes : List String := ["coroutine", "mappingproxy"]

mutual

/-- Whether a value can be copied, apart from the objects that it refers to. -/
def copyableValue : Value → Bool
  | .thing type => !uncopyableTypes.contains type
  | .list xs => copyableItems xs
  | .tuple xs => copyableItems xs
  | .set xs => copyableItems xs
  | .dict es => copyableEntries es
  | .ordered es => copyableEntries es
  | _ => true
termination_by structural v => v

/-- Whether the values of a list can be copied. -/
def copyableItems : List Value → Bool
  | [] => true
  | x :: xs => copyableValue x && copyableItems xs
termination_by structural xs => xs

/-- Whether the entries of a dictionary can be copied. -/
def copyableEntries : Entries → Bool
  | [] => true
  | (k, v) :: es => copyableValue k && copyableValue v && copyableEntries es
termination_by structural es => es

end

/-- Whether an object can be copied: it has itself none of the methods that it is asked for then,
and what it has can be copied.  An absent value under such a name is passed over; in place of the
second, an older way is gone, which asks for another method and does without slots. -/
def copyableCell (c : Cell) : Bool :=
  ((c.own? "__deepcopy__").getD .null).isNull &&
  (match c.own? "__reduce_ex__" with
    | none => true
    | some .null =>
      (c.own? "__reduce__").isNone && !((c.own? "__slots__").getD .null).truthy
    | some _ => false) &&
  (c.own? "__getstate__").isNone &&
  c.attributes.all fun p => copyableValue p.2

/-- Whether a value can be copied: it can itself, and so can every object that it reaches. -/
def copyable (v : Value) : Bool :=
  copyableValue v && (reach h v).all fun a => copyableCell (get h a)

mutual

/-- A value with other addresses. -/
def rename (addr : Address → Address) : Value → Value
  | .object a => .object (addr a)
  | .method (.object a) name => .method (.object (addr a)) name
  | .list xs => .list (renameItems addr xs)
  | .tuple xs => .tuple (renameItems addr xs)
  | .set xs => .set (renameItems addr xs)
  | .dict es => .dict (renameEntries addr es)
  | .ordered es => .ordered (renameEntries addr es)
  | v => v
termination_by structural v => v

/-- The values of a list, renamed. -/
def renameItems (addr : Address → Address) : List Value → List Value
  | [] => []
  | x :: xs => rename addr x :: renameItems addr xs
termination_by structural xs => xs

/-- The entries of a dictionary, renamed. -/
def renameEntries (addr : Address → Address) : Entries → Entries
  | [] => []
  | (k, v) :: es => (rename addr k, rename addr v) :: renameEntries addr es
termination_by structural es => es

end

/-- A cell, renamed. -/
def renameCell (addr : Address → Address) (c : Cell) : Cell :=
  { c with attributes := c.attributes.map fun p => (p.1, rename addr p.2) }

/-- The renaming of the members of `old` to fresh addresses from `start` on. -/
def freshFrom (start : Address) (old : List Address) (a : Address) : Address :=
  match old.findIdx? (· == a) with
  | some i => start + i
  | none => a

/-- A copy of a value, and the heap with the copied cells. -/
def copy (v : Value) : Value × Heap :=
  let cells := reach h v
  let addr := freshFrom h.length cells
  (rename addr v, h ++ cells.map fun a => renameCell addr (get h a))

end Heap

end EntitySchema
