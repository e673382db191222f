/-
**Checkers: what a field of an entity may hold.**

A checker says what values a field may hold and, if it *decodes*, how a raw value becomes what the
field holds.  A date decodes; so does a reference to an entity, and so does any nesting of arrays
and dictionaries over a reference.  Of these, references and the nestings over them *produce
entities*.  A reference is *eager* if it decodes by looking the entity up under its identifier;
such a reference and the nestings over it are *deferred*, since a lookup does not answer at once.

Every checker has a flag that says whether the absent value is a failure.  It is heeded where the
checker stands on its own, in a schema or in a shape, and not where it is the element of an array
or dictionary.

Main definitions:

* `Target`, `Checker` — the checkers;
* `Checker.required`, `Checker.require` — the flag;
* `Checker.producesEntity`, `Checker.decodes`, `Checker.deferred`, `Checker.target?` — capabilities;
* `Checker.array`, …, `Checker.referenceTo` — the ways to build one;
* `Checker.sameWith` — equality of checkers.

Main results:

* `Checker.require_require` — requiring twice is requiring once;
* `Checker.decodes_require`, `Checker.deferred_require` — **the flag takes no part in the
  capabilities**;
* `Checker.producesEntity_of_deferred` — what is deferred produces entities.
-/

import EntitySchema.Failure
import EntitySchema.Table
import EntitySchema.Text.Utf8
import EntitySchema.Value.Equality

set_option autoImplicit false

namespace EntitySchema

/-- The class that a reference is to: by the name under which it is registered when it is needed,
or the class itself. -/
inductive Target where
  | named (name : String)
  | cls (c : ClassId)
  deriving DecidableEq, Repr

/-- What a field may hold.  The eagerness of a reference is kept as the value that was given for
it; what counts is whether it counts as true. -/
inductive Checker where
  | scalar (label : String) (accepts : Value → Bool) (required : Bool)
  | date (required : Bool)
  | arrayOf (element : Checker) (required : Bool)
  | dictOf (element : Checker) (required : Bool)
  | shape (fields : List (String × Checker)) (required : Bool)
  | reference (target : Target) (eager : Value) (required : Bool)
  deriving Inhabited

/-- A schema: a checker for each field. -/
abbrev Schema := Table Checker

namespace Checker

/-! ### The flag -/

/-- Whether the absent value is a failure. -/
def required : Checker → Bool
  | .scalar _ _ r | .date r | .arrayOf _ r | .dictOf _ r | .shape _ r | .reference _ _ r => r

/-- The same checker, with the absent value as a failure. -/
def require : Checker → Checker
  | .scalar l p _ => .scalar l p true
  | .date _ => .date true
  | .arrayOf e _ => .arrayOf e true
  | .dictOf e _ => .dictOf e true
  | .shape fs _ => .shape fs true
  | .reference t e _ => .reference t e true

@[simp] theorem required_require (c : Checker) : c.require.required = true := by
  cases c <;> rfl

@[simp] theorem require_require (c : Checker) : c.require.require = c.require := by
  cases c <;> rfl

/-! ### Capabilities -/

/-- Whether decoding yields entities: a reference, or arrays and dictionaries over one. -/
def producesEntity : Checker → Bool
  | .reference _ _ _ => true
  | .arrayOf e _ | .dictOf e _ => e.producesEntity
  | _ => false

/-- Whether a raw value is decoded at all. -/
def decodes : Checker → Bool
  | .date _ => true
  | c => c.producesEntity

/-- Whether decoding has to wait for a lookup. -/
def deferred : Checker → Bool
  | .reference _ eager _ => eager.truthy
  | .arrayOf e _ | .dictOf e _ => e.deferred
  | _ => false

/-- The target of the reference that the checker is, or is built over. -/
def target? : Checker → Option Target
  | .reference t _ _ => some t
  | .arrayOf e _ | .dictOf e _ => e.target?
  | _ => none

@[simp] theorem producesEntity_require (c : Checker) :
    c.require.producesEntity = c.producesEntity := by
  cases c <;> rfl

@[simp] theorem decodes_require (c : Checker) : c.require.decodes = c.decodes := by
  cases c <;> rfl

@[simp] theorem deferred_require (c : Checker) : c.require.deferred = c.deferred := by
  cases c <;> rfl

@[simp] theorem target?_require (c : Checker) : c.require.target? = c.target? := by
  cases c <;> rfl

/-- What is deferred produces entities. -/
theorem producesEntity_of_deferred : (c : Checker) → c.deferred = true → c.producesEntity = true
  | .reference _ _ _, _ => rfl
  | .arrayOf e _, h => producesEntity_of_deferred e h
  | .dictOf e _, h => producesEntity_of_deferred e h

/-! ### Building checkers -/

/-- Accepts lists and tuples. -/
def isArray : Value → Bool
  | .list _ | .tuple _ => true
  | _ => false

/-- Accepts truth values. -/
def isBool : Value → Bool
  | .bool _ => true
  | _ => false

/-- Accepts numbers; a truth value is none. -/
def isNumber : Value → Bool
  | .int _ | .float _ | .nan _ => true
  | _ => false

/-- Accepts texts. -/
def isString : Value → Bool
  | .str _ => true
  | _ => false

/-- Whether a value is a text, bytes, a truth value or a number. -/
def isPrimitive : Value → Bool
  | .str _ | .bytes _ | .bool _ | .int _ | .float _ | .nan _ => true
  | _ => false

/-- Accepts whatever is neither primitive nor callable, arrays included. -/
def isObject (v : Value) : Bool := !isPrimitive v && !v.callable

/-- Arrays of anything. -/
def array : Checker := .scalar "array" isArray false

/-- Truth values. -/
def bool : Checker := .scalar "bool" isBool false

/-- Numbers. -/
def number : Checker := .scalar "number" isNumber false

/-- Objects of any kind. -/
def object : Checker := .scalar "object" isObject false

/-- Texts. -/
def string : Checker := .scalar "string" isString false

/-- A shape with the given fields; of fields of one name the last counts, in the first place. -/
def ofFields (fields : List (String × Checker)) : Checker :=
  .shape (Table.ofList fields) false

/-- A reference.  An eagerness that is given overrides the one among the options. -/
def referenceTo (target : Target) (option : Bool) (eager : Value) : Checker :=
  .reference target (if eager.isNull then .bool option else eager) false

/-- The truth value that a word stands for, in any letter case. -/
def optionOfWord (s : String) : Except Fault Bool :=
  let w := String.ofList (s.toList.map Char.toLower)
  if w ∈ ["0", "off", "f", "false", "n", "no"] then .ok false
  else if w ∈ ["1", "on", "t", "true", "y", "yes"] then .ok true
  else .error .unreadableTruthValue

/-- The truth value that an integer stands for. -/
def optionOfInt (n : Int) : Except Fault Bool :=
  if n = 0 then .ok false else if n = 1 then .ok true else .error .unreadableTruthValue

/-- The truth value that an option stands for: a truth value, a number that is 0 or 1, or one of a
few words, which may be given as bytes.  A number that is no integer of 64 bits is none that could
be read. -/
def option? : Value → Except Fault Bool
  | .bool b => .ok b
  | .int n =>
    if -9223372036854775808 ≤ n ∧ n < 9223372036854775808 then optionOfInt n
    else .error .notTruthValue
  | .float x =>
    match x.nearestInt? with
    | none => .error .notTruthValue
    | some n =>
      if x.eqInt n ∧ -9223372036854775808 < n ∧ n < 9223372036854775808 then optionOfInt n
      else .error .notTruthValue
  | .str s => optionOfWord s
  | .bytes bs => match utf8Text? bs with
    | some s => optionOfWord s
    | none => .error .unreadableTruthValue
  | _ => .error .notTruthValue

/-- The eagerness among the options of a reference; no eagerness is none, and other options are
passed over. -/
def eagerOption (options : Table Value) : Except Failure Bool :=
  match Table.get? options "eager" with
  | none => .ok false
  | some v => match option? v with
    | .ok b => .ok b
    | .error fault => .error (.invalid [⟨["eager"], fault⟩])

/-! ### Equality -/

section

variable {m : Type → Type} [Monad m]

mutual

/-- Equality of checkers: the same kind with equal parts.  Tests of scalars are compared by their
labels, the fields of shapes in any order, eagerness by the values that were given. -/
def sameWith (ask : Address → Address → m Bool) : Checker → Checker → m Bool
  | .scalar l _ r, .scalar l' _ r' => pure (l == l' && r == r')
  | .date r, .date r' => pure (r == r')
  | .arrayOf e r, .arrayOf e' r' => if r = r' then sameWith ask e e' else pure false
  | .dictOf e r, .dictOf e' r' => if r = r' then sameWith ask e e' else pure false
  | .shape fs r, .shape fs' r' =>
    if r = r' ∧ fs.length = fs'.length then sameFields ask fs fs' else pure false
  | .reference t e r, .reference t' e' r' =>
    if r = r' ∧ t = t' ∧ e.truthy = e'.truthy then e.sameWith ask e' else pure false
  | _, _ => pure false
termination_by structural c => c

/-- Each of the first fields is among the second. -/
def sameFields (ask : Address → Address → m Bool) :
    List (String × Checker) → List (String × Checker) → m Bool
  | [], _ => pure true
  | (name, c) :: fs, fs' => do
    match Table.get? fs' name with
    | none => pure false
    | some c' => if ← sameWith ask c c' then sameFields ask fs fs' else pure false
termination_by structural fs => fs

end

end

end Checker

end EntitySchema
