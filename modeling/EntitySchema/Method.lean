/-
**Methods of objects.**

An entity can be asked to validate itself, to report on its fields, and to tell its raw data.  Each
of these is the call of a method, which the entity has from its class or under the same name itself;
in the latter case anything may be there, and what cannot be called without arguments fails, as a
function does.  Saving, deleting and looking up do not answer at once: a call of these yields
something to wait for.

Entities may hold each other in circles, so a walk through entities has a bound on its depth.  A
walk through more methods than the objects of the heap have comes back to one of them, so their
number bounds every walk that ends.

Two entities are equal if they are of the same class and their raw data are equal.  The written form
of an entity is that of its raw data after the name of its class.

Main definitions:

* `Answer`, `Method.call` — what a call without arguments yields;
* `Method.validate`, `Method.report`, `Method.toRaw` — the methods of an entity at work;
* `Method.check` — the check of a value by a checker;
* `Method.same`, `Method.equal` — equality inside containers and outside;
* `Method.write`, `Method.toText` — values as text, objects included.

Main results:

* `Method.call_function` — a function asks for an argument.
-/

import EntitySchema.Encoding
import EntitySchema.Validation
import EntitySchema.Value.Text

set_option autoImplicit false

namespace EntitySchema

/-- What a call yields: a value, a report on the fields of an entity, a new object of a class, or
the work of a method that is still to be waited for. -/
inductive Answer where
  | value (v : Value)
  | report (r : CheckReport)
  | created (c : ClassValue)
  | pending (owner : Owner) (name : String)

/-- The answer as a value. -/
def Answer.toValue : Answer → Value
  | .value v => v
  | .report _ => .thing "ValidationResult"
  | .created _ => .thing "object"
  | .pending _ _ => .thing "coroutine"

namespace Method

variable (g : Catalog) (h : Heap)

/-! ### Calls -/

/-- A method of an object, by its name, for a given way to call a value. -/
def ask (call : Value → Except Failure Answer) (name : String) (a : Address) :
    Except Failure Answer :=
  match Heap.objectAttribute? g h a name with
  | some m => call m
  | none => .error (.noAttribute name)

/-- What is to be waited for when a method of a class or an object is called without arguments. -/
def deferredCall (owner : Owner) (name : String) : Except Failure Answer :=
  match owner with
  | .object _ =>
    if name = "save" ∨ name = "delete" then .ok (.pending owner name)
    else .error (.misuse .notCallable)
  | .cls _ =>
    if name = "load" ∨ name = "_resolve_store" then .ok (.pending owner name)
    else .error (.misuse .notCallable)
  | _ => .error (.misuse .notCallable)

/-- What a type that is no class of objects makes of nothing, if it makes anything. -/
def blank? (type : String) : Option Value :=
  match type with
  | "NoneType" => some .null
  | "bool" => some (.bool false)
  | "int" => some (.int 0)
  | "float" => some (.float (.zero false))
  | "str" => some (.str "")
  | "bytes" => some (.bytes [])
  | "list" => some (.list [])
  | "tuple" => some (.tuple [])
  | "set" => some (.set [])
  | "dict" => some (.dict [])
  | "OrderedDict" => some (.ordered [])
  | "object" => some (.thing "object")
  | _ => none

/-- What a class yields when it is called without arguments. -/
def make : ClassValue → Except Failure Answer
  | .builtin type =>
    match blank? type with
    | some v => .ok (.value v)
    | none => .error (.misuse .notCallable)
  | c => .ok (.created c)

/-- The call of a value without arguments, through at most `fuel` methods one inside the other. -/
def call : Nat → Value → Except Failure Answer
  | 0, _ => .error .endless
  | fuel + 1, v =>
    let visit := ask g h (call fuel)
    match v with
    | .method (.object a) name =>
      if name = "validate" then do
        Validation.validateWith g h (fun b => discard (visit "validate" b)) a
        .ok (.value .null)
      else if name = "check" then do
        let errors ← Validation.failuresWith g h (fun b => discard (visit "validate" b)) a
        .ok (.report { valid := errors.isEmpty, errors := errors })
      else if name = "to_raw" then do
        .ok (.value (← Encoding.rawWith g h
          (fun b => do .ok (← visit "to_raw" b).toValue) a))
      else deferredCall (.object a) name
    | .method owner name => deferredCall owner name
    | .cls c => make c
    | _ => .error (.misuse .notCallable)

/-- The depth that suffices for every walk through methods that ends: each object has three that
lead to others. -/
def depth : Nat := 3 * List.length h + 2

/-- A function asks for an argument. -/
theorem call_function (fuel : Nat) (a : Address) :
    call g h (fuel + 1) (.function a) = .error (.misuse .notCallable) := rfl

/-- What a value yields when it is called without arguments. -/
def invoke (v : Value) : Except Failure Answer := call g h (depth h) v

/-- What a method of a value yields, by its name. -/
def send (v : Value) (name : String) : Except Failure Answer :=
  match Heap.attribute? g h 0 v name with
  | some m => invoke g h m
  | none => .error (.noAttribute name)

/-! ### Validation and raw data -/

/-- The validation of an entity, up to the first failure. -/
def validate (a : Address) : Except Failure Unit := discard (send g h (.object a) "validate")

/-- The raw data of an entity. -/
def toRaw (a : Address) : Except Failure Value := do
  .ok (← send g h (.object a) "to_raw").toValue

/-- The report of a value on its fields. -/
def report (v : Value) : Except Failure CheckReport := do
  match ← send g h v "check" with
  | .report r => .ok r
  | _ => .error (.noAttribute "valid")

/-- The check of a value under a name. -/
def check (required : Bool) (c : Checker) (v : Value) (name : String) : Except Failure Unit :=
  Checker.checkWith g h (validate g h) required c v name

/-! ### Equality -/

/-- Equality of two objects that are not the same, through at most `fuel` pairs one inside the
other. -/
def sameObjects : Nat → Address → Address → Except Failure Bool
  | 0, _, _ => .error .endless
  | fuel + 1, a, b =>
    match (Heap.get h a).species, (Heap.get h b).species with
    | .entity c, .entity d =>
      if c = d then do
        let x ← toRaw g h a
        let y ← toRaw g h b
        Value.sameWith (sameObjects fuel) x y
      else .ok false
    | _, _ => .ok false

/-- Equality as it holds inside containers. -/
def same (a b : Value) : Except Failure Bool :=
  Value.sameWith (sameObjects g h (depth h)) a b

/-- Equality of two values on their own: a "not a number" equals nothing, and an entity is compared
even with itself by its raw data. -/
def equal (x y : Value) : Except Failure Bool :=
  match x, y with
  | .nan _, _ => .ok false
  | .object a, .object b =>
    if Heap.isEntity h a then sameObjects g h (depth h) a b else .ok (a == b)
  | x, y => same g h x y

/-! ### Text -/

/-- The written form of an object, through at most `fuel` entities in a row.  A plain object is told
by its address. -/
def writeObject : Nat → Address → Except Failure String
  | 0, _ => .error .endless
  | fuel + 1, a =>
    match (Heap.get h a).species with
    | .entity c => do
      let raw ← toRaw g h a
      let body ← Value.writeWith (writeObject fuel) raw
      .ok (g.nameOf c ++ "(" ++ body ++ ")")
    | .plain => .ok ("<Obj object at " ++ toString a ++ ">")

/-- The written form of a value. -/
def write (v : Value) : Except Failure String :=
  Value.writeWith (writeObject g h (depth h)) v

/-- The shown form of a value. -/
def toText (v : Value) : Except Failure String :=
  Value.showWith (writeObject g h (depth h)) v

/-! ### An entity as it is -/

/-- What an entity shows of itself: its class, its kind, its identifier, its fields, and what is put
aside. -/
structure View where
  cls : String
  kind : Value
  id : Value
  fields : List (Value × Value)
  pending : Entries

/-- An attribute that an object needs to have. -/
def needed (a : Address) (name : String) : Except Failure Value :=
  match Heap.objectAttribute? g h a name with
  | some v => .ok v
  | none => .error (.noAttribute name)

/-- One field of an entity as it is, by what stands for it in the schema. -/
def viewField (a : Address) : Value → Except Failure (Value × Value)
  | .str name => .ok (.str name, Heap.field g h a name)
  | _ => .error (.misuse .notAName)

/-- The fields of an entity as they are: one for each item of its schema. -/
def viewFields (a : Address) : Except Failure (List (Value × Value)) := do
  match (← needed g h a "schema").items? with
  | some names => names.mapM (viewField g h a)
  | none => .error (.misuse .notIterable)

/-- An entity as it is. -/
def view (a : Address) : Except Failure View := do
  let kind ← needed g h a "kind"
  let id ← needed g h a idField
  let fields ← viewFields g h a
  match (← needed g h a pendingField).entries? with
  | some pending => .ok ⟨Heap.objectName g h a, kind, id, fields, pending⟩
  | none => .error (.noAttribute "items")

end Method

end EntitySchema
