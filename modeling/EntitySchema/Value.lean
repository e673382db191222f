/-
**Dynamic values.**

What a field of an entity holds, what an entity is built from and what a store keeps are all
`Value`s.  Data are compared by what they hold; a floating point "not a number" has an identity
instead and carries a token for it.  Objects, entities among them, are kept in the heap, where they
can change: the value is the address of a cell.

Some values stand for parts of the library itself: a class, a method with the thing it belongs to, a
checker of a schema, and a store.

Main definitions:

* `Address`, `Owner`, `ClassValue`, `Value` — the values;
* `Value.truthy` — whether a value counts as true;
* `Value.hashable` — whether a value can be a key of a dictionary;
* `Value.entries?`, `Value.elements?`, `Value.items?` — the entries of a mapping, the elements of
  an array, and the items of anything that can be walked through;
* `Value.typeName` — the name of a value's type.
-/

import EntitySchema.Calendar.Moment
import EntitySchema.Number.Binary64

set_option autoImplicit false

namespace EntitySchema

/-- A class of entities, as its position in the order of definition. -/
abbrev ClassId := Nat

/-- Where the state of an object is kept: a cell of the heap. -/
abbrev Address := Nat

/-- What a method belongs to: an object, a class of entities, a value that can be told from others
of the same content by a token, or a value that is the same wherever it is met. -/
inductive Owner where
  | object (a : Address)
  | cls (c : ClassId)
  | value (token : Nat)
  | constant (text : String)
  deriving DecidableEq, Repr

/-- A class as a value: a class of entities, the class of plain objects, or the type of other
values. -/
inductive ClassValue where
  | entity (c : ClassId)
  | plain
  | builtin (name : String)
  deriving DecidableEq, Repr

/-- A dynamic value.  A dictionary is the list of its entries in the order of insertion; an ordered
dictionary is a mapping that is not a plain dictionary; a stamp is a moment of a type of its
own.  A thing is a value of which nothing is known but the name of its type. -/
inductive Value where
  | null
  | bool (b : Bool)
  | int (n : Int)
  | float (x : Binary64)
  | nan (token : Nat)
  | str (s : String)
  | bytes (bs : List UInt8)
  | list (items : List Value)
  | tuple (items : List Value)
  | set (items : List Value)
  | dict (entries : List (Value × Value))
  | ordered (entries : List (Value × Value))
  | date (d : Date)
  | moment (m : Moment)
  | stamp (m : Moment)
  | zone (offset : Int)
  | object (a : Address)
  | function (a : Address)
  | method (owner : Owner) (name : String)
  | cls (c : ClassValue)
  | checker (c : ClassId) (field : String)
  | store (i : Nat)
  | thing (typeName : String)
  deriving Inhabited

/-- The entries of a mapping, in order. -/
abbrev Entries := List (Value × Value)

namespace Value

/-- Whether a value is absent. -/
def isNull : Value → Bool
  | .null => true
  | _ => false

/-- Empty and zero values, false and the absent value count as false, everything else as true. -/
def truthy : Value → Bool
  | .null => false
  | .bool b => b
  | .int n => n != 0
  | .float x => !x.isZero
  | .str s => s != ""
  | .bytes bs => !bs.isEmpty
  | .list xs | .tuple xs | .set xs => !xs.isEmpty
  | .dict es | .ordered es => !es.isEmpty
  | _ => true

/-- The entries of a mapping. -/
def entries? : Value → Option Entries
  | .dict es | .ordered es => some es
  | _ => none

/-- The elements of an array: a list or a tuple. -/
def elements? : Value → Option (List Value)
  | .list xs | .tuple xs => some xs
  | _ => none

/-- The items of a value that can be walked through: of a mapping its keys, of a text its
characters, of bytes their numbers. -/
def items? : Value → Option (List Value)
  | .list xs | .tuple xs | .set xs => some xs
  | .dict es | .ordered es => some (es.map Prod.fst)
  | .str s => some (s.toList.map fun c => .str (String.singleton c))
  | .bytes bs => some (bs.map fun b => .int b.toNat)
  | _ => none

/-- Whether a value can be a key of a dictionary.  What can change cannot, except for plain objects,
which are keys by their identity; `isEntity` tells entities from these. -/
def hashable (isEntity : Address → Bool) : Value → Bool
  | .list _ | .set _ | .dict _ | .ordered _ => false
  | .object a => !isEntity a
  | .tuple xs => hashableItems isEntity xs
  | _ => true
where
  /-- Whether all values of a list can be keys. -/
  hashableItems (isEntity : Address → Bool) : List Value → Bool
    | [] => true
    | x :: xs => hashable isEntity x && hashableItems isEntity xs

/-- Whether a value can be called. -/
def callable : Value → Bool
  | .function _ | .method _ _ | .cls _ | .checker _ _ => true
  | _ => false

/-- The names of the methods that entities have of their own. -/
def entityMethods : List String :=
  ["__eq__", "__init__", "__init_subclass__", "__repr__", "_resolve_store", "check", "delete",
   "find", "load", "save", "to_raw", "validate"]

/-- The methods with underscores around their names that are functions and no operators. -/
def plainDunders : List String :=
  ["__bytes__", "__ceil__", "__class_getitem__", "__contains__", "__dir__", "__floor__",
   "__format__", "__getformat__", "__getitem__", "__getnewargs__", "__getstate__",
   "__init_subclass__", "__new__", "__reduce__", "__reduce_ex__", "__reversed__", "__round__",
   "__sizeof__", "__subclasshook__", "__trunc__"]

/-- The name of the type of a method. -/
def methodTypeName (owner : Owner) (name : String) : String :=
  let builtin :=
    if name.startsWith "__" && !plainDunders.contains name then "method-wrapper"
    else "builtin_function_or_method"
  match owner with
  | .object _ | .cls _ => if entityMethods.contains name then "method" else builtin
  | .constant "Entity" => "function"
  | _ => builtin

/-- The name of a value's type; `objectName` names the classes of objects. -/
def typeName (objectName : Address → String) : Value → String
  | .null => "NoneType"
  | .bool _ => "bool"
  | .int _ => "int"
  | .float _ | .nan _ => "float"
  | .str _ => "str"
  | .bytes _ => "bytes"
  | .list _ => "list"
  | .tuple _ => "tuple"
  | .set _ => "set"
  | .dict _ => "dict"
  | .ordered _ => "OrderedDict"
  | .date _ => "date"
  | .moment _ => "datetime"
  | .stamp _ => "Stamp"
  | .zone _ => "timezone"
  | .object a => objectName a
  | .function _ => "function"
  | .method owner name => methodTypeName owner name
  | .cls _ => "type"
  | .checker _ _ => "Checker"
  | .store _ => "Store"
  | .thing name => name

end Value

end EntitySchema
