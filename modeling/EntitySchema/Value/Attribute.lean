/-
**Attributes of values that are no objects.**

A day, a moment and a number have attributes that tell their parts.  Beyond that a value has its
type, and the methods of that type, each of which belongs to the value.

Main definitions:

* `methodsOfAll`, `Value.methods` — the names of methods;
* `Value.dataAttribute?` — the parts of a value;
* `Value.attribute?` — the attribute of a name.

Main results:

* `Value.attribute?_type` — every value has its type.
-/

import EntitySchema.Value

set_option autoImplicit false

namespace EntitySchema

/-! ### Methods -/

/-- The names of the methods that values of every type have. -/
def methodsOfAll : List String :=
  ["__delattr__", "__dir__", "__eq__", "__format__", "__ge__", "__getattribute__", "__getstate__",
   "__gt__", "__hash__", "__init__", "__init_subclass__", "__le__", "__lt__", "__ne__", "__new__",
   "__reduce__", "__reduce_ex__", "__repr__", "__setattr__", "__sizeof__", "__str__",
   "__subclasshook__"]

/-- The names of the methods of numbers. -/
def numberMethods : List String :=
  ["__abs__", "__add__", "__bool__", "__ceil__", "__divmod__", "__float__", "__floor__",
   "__floordiv__", "__getnewargs__", "__int__", "__mod__", "__mul__", "__neg__", "__pos__",
   "__pow__", "__radd__", "__rdivmod__", "__rfloordiv__", "__rmod__", "__rmul__", "__round__",
   "__rpow__", "__rsub__", "__rtruediv__", "__sub__", "__truediv__", "__trunc__",
   "as_integer_ratio", "conjugate"]

/-- The names of the methods that only integers have. -/
def integerMethods : List String :=
  ["__and__", "__index__", "__invert__", "__lshift__", "__or__", "__rand__", "__rlshift__",
   "__ror__", "__rrshift__", "__rshift__", "__rxor__", "__xor__", "bit_count", "bit_length",
   "from_bytes", "to_bytes"]

/-- The names of the methods of texts and of bytes. -/
def textMethods : List String :=
  ["__add__", "__contains__", "__getitem__", "__getnewargs__", "__iter__", "__len__", "__mod__",
   "__mul__", "__rmod__", "__rmul__", "capitalize", "center", "count", "endswith", "expandtabs",
   "find", "index", "isalnum", "isalpha", "isascii", "isdigit", "islower", "isspace", "istitle",
   "isupper", "join", "ljust", "lower", "lstrip", "maketrans", "partition", "removeprefix",
   "removesuffix", "replace", "rfind", "rindex", "rjust", "rpartition", "rsplit", "rstrip", "split",
   "splitlines", "startswith", "strip", "swapcase", "title", "translate", "upper", "zfill"]

/-- The names of the methods of mappings. -/
def mappingMethods : List String :=
  ["__class_getitem__", "__contains__", "__delitem__", "__getitem__", "__ior__", "__iter__",
   "__len__", "__or__", "__reversed__", "__ror__", "__setitem__", "clear", "copy", "fromkeys",
   "get", "items", "keys", "pop", "popitem", "setdefault", "update", "values"]

/-- The names of the methods of days. -/
def dateMethods : List String :=
  ["__add__", "__radd__", "__rsub__", "__sub__", "ctime", "fromisocalendar", "fromisoformat",
   "fromordinal", "fromtimestamp", "isocalendar", "isoformat", "isoweekday", "replace", "strftime",
   "timetuple", "today", "toordinal", "weekday"]

/-- The names of the methods that only moments have. -/
def momentMethods : List String :=
  ["astimezone", "combine", "date", "dst", "now", "strptime", "time", "timestamp", "timetz",
   "tzname", "utcfromtimestamp", "utcnow", "utcoffset", "utctimetuple"]

namespace Value

/-- The names of the methods that a value has beyond those of every value. -/
def methods : Value → List String
  | .null => ["__bool__"]
  | .bool _ | .int _ => numberMethods ++ integerMethods
  | .float _ | .nan _ => "__getformat__" :: "fromhex" :: "hex" :: "is_integer" :: numberMethods
  | .str _ =>
    "casefold" :: "encode" :: "format" :: "format_map" :: "isdecimal" :: "isidentifier" ::
      "isnumeric" :: "isprintable" :: textMethods
  | .bytes _ => "__bytes__" :: "decode" :: "fromhex" :: "hex" :: textMethods
  | .list _ =>
    ["__add__", "__class_getitem__", "__contains__", "__delitem__", "__getitem__", "__iadd__",
     "__imul__", "__iter__", "__len__", "__mul__", "__reversed__", "__rmul__", "__setitem__",
     "append", "clear", "copy", "count", "extend", "index", "insert", "pop", "remove", "reverse",
     "sort"]
  | .tuple _ =>
    ["__add__", "__class_getitem__", "__contains__", "__getitem__", "__getnewargs__", "__iter__",
     "__len__", "__mul__", "__rmul__", "count", "index"]
  | .set _ =>
    ["__and__", "__class_getitem__", "__contains__", "__iand__", "__ior__", "__isub__", "__iter__",
     "__ixor__", "__len__", "__or__", "__rand__", "__ror__", "__rsub__", "__rxor__", "__sub__",
     "__xor__", "add", "clear", "copy", "difference", "difference_update", "discard",
     "intersection", "intersection_update", "isdisjoint", "issubset", "issuperset", "pop", "remove",
     "symmetric_difference", "symmetric_difference_update", "union", "update"]
  | .dict _ => mappingMethods
  | .ordered _ => "move_to_end" :: mappingMethods
  | .date _ => dateMethods
  | .moment _ | .stamp _ => dateMethods ++ momentMethods
  | .zone _ => ["__getinitargs__", "dst", "fromutc", "tzname", "utcoffset"]
  | .function _ => ["__call__", "__get__"]
  | .method _ _ => ["__call__"]
  | _ => []

/-! ### Parts -/

/-- The parts of a day, and the bounds of all days. -/
def dateAttribute? (d : Date) (name : String) : Option Value :=
  if name = "year" then some (.int d.year)
  else if name = "month" then some (.int d.month)
  else if name = "day" then some (.int d.day)
  else if name = "min" then some (.date .first)
  else if name = "max" then some (.date .last)
  else if name = "resolution" then some (.thing "timedelta")
  else none

/-- The parts of a moment: those of its day and those of its time; and the bounds of all moments. -/
def momentAttribute? (m : Moment) (name : String) : Option Value :=
  if name = "hour" then some (.int m.hour)
  else if name = "minute" then some (.int m.minute)
  else if name = "second" then some (.int m.second)
  else if name = "microsecond" then some (.int m.micro)
  else if name = "fold" then some (.int 0)
  else if name = "tzinfo" then
    some (match m.offset with
      | none => .null
      | some o => .zone o)
  else if name = "min" then some (.moment (.midnight .first))
  else if name = "max" then some (.moment .last)
  else dateAttribute? m.date name

/-- The parts of an integer, as those of a fraction and of a complex number. -/
def integerAttribute? (n : Int) (name : String) : Option Value :=
  if name = "real" ∨ name = "numerator" then some (.int n)
  else if name = "imag" then some (.int 0)
  else if name = "denominator" then some (.int 1)
  else none

/-- The part of a value that a name tells, if there is one. -/
def dataAttribute? (v : Value) (name : String) : Option Value :=
  match v with
  | .bool b => integerAttribute? (if b then 1 else 0) name
  | .int n => integerAttribute? n name
  | .float _ | .nan _ =>
    if name = "real" then some v
    else if name = "imag" then some (.float (.zero false)) else none
  | .list _ | .set _ | .dict _ => if name = "__hash__" then some .null else none
  | .ordered _ =>
    if name = "__hash__" then some .null
    else if name = "__dict__" then some (.dict []) else none
  | .date d => dateAttribute? d name
  | .moment m => momentAttribute? m name
  | .stamp m =>
    if name = "__dict__" then some (.dict [])
    else if name = "__weakref__" then some .null else momentAttribute? m name
  | _ => none

/-! ### Attributes -/

/-- What a method of a value belongs to.  A value that is kept only once is the same wherever it is
met; others are told apart by the token. -/
def owner (token : Nat) (v : Value) : Owner :=
  match v with
  | .null => .constant "null"
  | .bool b => .constant (if b then "true" else "false")
  | .int n => if -5 ≤ n ∧ n ≤ 256 then .constant (toString n) else .value token
  | .str s =>
    match s.toList with
    | [] => .constant "text"
    | [c] => if c.toNat < 256 then .constant ("text " ++ s) else .value token
    | _ => .value token
  | .bytes [] => .constant "bytes"
  | .bytes [b] => .constant ("bytes " ++ toString b.toNat)
  | .tuple [] => .constant "tuple"
  | _ => .value token

/-- The attribute of a value that is no object and no class. -/
def attribute? (token : Nat) (v : Value) (name : String) : Option Value :=
  if name = "__class__" then some (.cls (.builtin (v.typeName fun _ => "")))
  else match v.dataAttribute? name with
    | some x => some x
    | none =>
      if methodsOfAll.contains name || v.methods.contains name then
        some (.method (v.owner token) name)
      else if name = "__doc__" then
        some (match v with
          | .null | .stamp _ | .function _ => .null
          | v => .str (v.typeName fun _ => ""))
      else none

/-- Every value has its type. -/
@[simp] theorem attribute?_type (token : Nat) (v : Value) :
    attribute? token v "__class__" = some (.cls (.builtin (v.typeName fun _ => ""))) := rfl

end Value

end EntitySchema
