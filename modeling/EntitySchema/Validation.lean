/-
**Validation.**

A checker is applied to a value under a name.  The first failure ends the check and is the answer;
array elements are visited by index, dictionary entries in order, the fields of a shape and of an
entity in the order of the schema, and each failure carries the path that leads to it.

A reference checks the class of an entity and then has the entity validate itself; if that fails,
the failure is wrapped once.  How an entity validates itself is a parameter here, since it may have
a method of its own for that.

Main definitions:

* `Checker.presentWith` — the check of a value that is there, for a given way to visit entities;
* `Checker.checkWith` — the check of any value, with the absent one a failure or not;
* `Validation.validateWith`, `Validation.failuresWith` — the fields of an object up to the first
  failure, and all of them each on its own.

Main results:

* `Checker.checkWith_null` — **the absent value fails exactly where it is required**;
* `Checker.checkWith_require_of_present` — the flag is not heeded for a value that is there.
-/

import EntitySchema.Heap
import EntitySchema.Value.Text

set_option autoImplicit false

namespace EntitySchema

/-! ### Failures and their paths -/

/-- The failure of a check. -/
def failCheck (e : CheckError) : Except Failure Unit := .error (.check e)

/-- The path of the element of an array. -/
def elementPath (name : String) (i : Nat) : String := name ++ "[" ++ toString i ++ "]"

/-- The path of the entry of a dictionary. -/
def entryPath (name : String) (key : Value) : String := name ++ "[" ++ key.toText ++ "]"

/-- The path of the field of a shape. -/
def fieldPath (name field : String) : String := name ++ "." ++ field

/-- The check of a value that may be absent. -/
def checkPresence (required : Bool) (v : Value) (name : String)
    (present : Except Failure Unit) : Except Failure Unit :=
  if v.isNull then (if required then failCheck (.missing name) else .ok ()) else present

/-- The outcome of an entity's own validation, as the check of the field that refers to it. -/
def atBoundary (name : String) : Except Failure Unit → Except Failure Unit
  | .error (.check e) => failCheck (.nested name e)
  | r => r

namespace Checker

section

variable (g : Catalog) (h : Heap) (visit : Address → Except Failure Unit)

/-- What a shape looks up in a value for a field: a mapping's entry, or else an attribute. -/
def shapeItem (v : Value) (field : String) : Value :=
  match v.entries? with
  | some es => Entries.getStr es field
  | none => (Heap.attribute? g h 0 v field).getD .null

/-- The check of the class of an entity, and then of the entity. -/
def presentEntity (target : Target) (v : Value) (name : String) : Except Failure Unit := do
  let cls ← g.resolve target
  match v with
  | .object a =>
    if Heap.isInstance g h a cls then atBoundary name (visit a)
    else failCheck (.mismatch name (.insteadOf (g.nameOf cls) (Heap.typeName g h v)))
  | v => failCheck (.mismatch name (.insteadOf (g.nameOf cls) (Heap.typeName g h v)))

mutual

/-- The check of a value that is there; `visit` validates an entity. -/
def presentWith : Checker → Value → String → Except Failure Unit
  | .scalar label accepts _, v, name =>
    if accepts v then .ok () else failCheck (.mismatch name (.isNot label))
  | .date _, v, name =>
    match v with
    | .date _ | .moment _ => .ok ()
    | v => failCheck (.mismatch name (.insteadOf "a date" (Heap.typeName g h v)))
  | .arrayOf e _, v, name =>
    match v.elements? with
    | some xs => xs.zipIdx.forM fun p =>
        checkPresence false p.1 (elementPath name p.2)
          (presentWith e p.1 (elementPath name p.2))
    | none => failCheck (.notArray name)
  | .dictOf e _, v, name =>
    match v with
    | .dict es => es.forM fun p =>
        checkPresence false p.2 (entryPath name p.1) (presentWith e p.2 (entryPath name p.1))
    | v => failCheck (.notDictionary name (Heap.typeName g h v))
  | .shape fs _, v, name =>
    if isPrimitive v then failCheck (.mismatch name (.isNot "a shape"))
    else presentFields fs v name
  | .reference t _ _, v, name => presentEntity g h visit t v name
termination_by structural c => c

/-- The checks of the fields of a shape, each with its own flag. -/
def presentFields : List (String × Checker) → Value → String → Except Failure Unit
  | [], _, _ => .ok ()
  | (field, c) :: fs, v, name => do
    let item := shapeItem g h v field
    let path := fieldPath name field
    checkPresence c.required item path (presentWith c item path)
    presentFields fs v name
termination_by structural fs => fs

end

/-- The check of a value, the absent one being a failure if `required`. -/
def checkWith (required : Bool) (c : Checker) (v : Value) (name : String) :
    Except Failure Unit :=
  checkPresence required v name (presentWith g h visit c v name)

/-- The absent value fails exactly where it is required. -/
theorem checkWith_null (required : Bool) (c : Checker) (name : String) :
    checkWith g h visit required c .null name =
      if required then failCheck (.missing name) else .ok () := rfl

/-- A value that is there is checked alike with and without the flag. -/
theorem presentWith_require (c : Checker) : presentWith g h visit c.require =
    presentWith g h visit c := by
  funext v name
  cases c <;> rfl

/-- For a value that is there the flag is not heeded. -/
theorem checkWith_require_of_present {v : Value} (hv : v.isNull = false) (c : Checker)
    (name : String) : checkWith g h visit c.require.required c.require v name =
      checkWith g h visit c.required c v name := by
  simp [checkWith, checkPresence, hv, presentWith_require]

end

end Checker

/-! ### The fields of an object -/

namespace Validation

variable (g : Catalog) (h : Heap) (visit : Address → Except Failure Unit)

/-- The check of one field of an object by what its schema has for it. -/
def checkField (a : Address) (r : Value × Heap.Rule) : Except Failure Unit :=
  match r with
  | (.str name, .checker c) =>
    Checker.checkWith g h visit c.required c (Heap.field g h a name) name
  | (_, .checker _) => .error (.misuse .notAName)
  | (_, .other v) =>
    .error (if (Heap.attribute? g h 0 v "validate").isSome then .misuse .notCallable
      else .noAttribute "validate")

/-- The validation of an object up to the first failure: each field of its schema is checked with
its own flag. -/
def validateWith (a : Address) : Except Failure Unit := do
  let rules ← Heap.rules g h a
  rules.forM (checkField g h visit a)

/-- The failures of the fields of an object, each checked on its own. -/
def fieldFailures (a : Address) : List (Value × Heap.Rule) → Except Failure (List CheckError)
  | [] => .ok []
  | r :: rs => do
    let first ← match checkField g h visit a r with
      | .ok () => .ok []
      | .error (.check e) => .ok [e]
      | .error f => .error f
    let rest ← fieldFailures a rs
    .ok (first ++ rest)

/-- The failures of all fields of the schema of an object. -/
def failuresWith (a : Address) : Except Failure (List CheckError) := do
  fieldFailures g h visit a (← Heap.rules g h a)

end Validation

end EntitySchema
