/-
**What can go wrong.**

A check fails with a `CheckError`, which names the field that failed and why.  A failure inside a
referenced entity is reported once for each entity boundary that it crosses, with the inner error
as its cause.  Everything else that an operation refuses is a `Failure`.

The texts of errors are given by `CheckError.message` and `Failure.message?` alone.

Main definitions:

* `CheckError`, with `field`, `message`, `code` and `write`;
* `CheckReport` — the outcome of checking several fields independently;
* `Problem` — what is wrong with one part of a record or of the settings;
* `Blockage` — why a file cannot be connected to;
* `Failure` — every way an operation can fail.

Main results:

* `bind_eq_ok`, `bind_eq_error` — **how computations that may fail follow each other.**
-/

import EntitySchema.Text.Quoted

set_option autoImplicit false

namespace EntitySchema

/-! ### Failed checks -/

/-- Why a value is not what the checker of its field asks for. -/
inductive Mismatch where
  /-- It does not belong to what the label names. -/
  | isNot (label : String)
  /-- It should be one thing and is of another type. -/
  | insteadOf (expected actual : String)
  /-- The reason is given in words. -/
  | worded (message : String)
  deriving DecidableEq, Repr

/-- Why no moment can be made of a raw value. -/
inductive Undecodable where
  | truthValue (shown : String)
  | outOfRange (shown : String)
  | badFormat (text : String)
  | ofType (typeName : String)
  /-- The reason is given in words. -/
  | worded (message : String)
  deriving DecidableEq, Repr

/-- The failure of a single check, for a field named by its path. -/
inductive CheckError where
  | plain (field message : String)
  | missing (field : String)
  | mismatch (field : String) (why : Mismatch)
  | notArray (field : String)
  | notDictionary (field actual : String)
  | nested (field : String) (cause : CheckError)
  | undecodable (field : String) (why : Undecodable)
  deriving DecidableEq, Repr, Inhabited

/-- The reason in words. -/
def Mismatch.message (field : String) : Mismatch → String
  | .isNot label => field ++ " is not " ++ label
  | .insteadOf expected actual =>
    field ++ " is supposed to be " ++ expected ++ ", but got " ++ actual
  | .worded message => message

/-- The reason in words. -/
def Undecodable.message : Undecodable → String
  | .truthValue shown => "Cannot decode a date from bool: " ++ shown
  | .outOfRange shown => "Timestamp out of range: " ++ shown
  | .badFormat text => "Invalid date format: " ++ text
  | .ofType typeName => "Cannot decode a date from " ++ typeName
  | .worded message => message

namespace CheckError

/-- The path of the field whose check failed. -/
def field : CheckError → String
  | .plain f _ | .missing f | .mismatch f _ | .notArray f | .notDictionary f _ | .nested f _
  | .undecodable f _ => f

/-- The failure in words. -/
def message : CheckError → String
  | .plain _ message => message
  | .missing f => f ++ " is marked as required"
  | .mismatch f why => why.message f
  | .notArray f => f ++ " is not an array"
  | .notDictionary f actual => f ++ " is supposed to be a dictionary but " ++ actual
  | .nested f cause => f ++ " is invalid: " ++ cause.message
  | .undecodable _ why => why.message

/-- The stable code of the kind of failure. -/
def code : CheckError → String
  | .plain _ _ => "INVALID"
  | .missing _ => "MISSING_FIELD"
  | .mismatch _ _ => "INVALID_TYPE"
  | .notArray _ => "NOT_AN_ARRAY"
  | .notDictionary _ _ => "NOT_A_DICTIONARY"
  | .nested _ _ => "NESTED_INVALID"
  | .undecodable _ _ => "DECODE_FAILED"

/-- The name of the kind of failure. -/
def kind : CheckError → String
  | .plain _ _ => "CheckError"
  | .missing _ => "RequiredMissing"
  | .mismatch _ _ => "TypeMismatch"
  | .notArray _ => "NotAnArray"
  | .notDictionary _ _ => "NotADictionary"
  | .nested _ _ => "NestedValidationFailure"
  | .undecodable _ _ => "DecodeFailure"

/-- The failure with its kind, field and message. -/
def write (e : CheckError) : String :=
  e.kind ++ "(field=" ++ Text.quoted e.field ++ ", message=" ++ Text.quoted e.message ++ ")"

/-- A nested failure tells its cause in full. -/
theorem message_nested (f : String) (cause : CheckError) :
    (nested f cause).message = f ++ " is invalid: " ++ cause.message := rfl

end CheckError

/-- The outcome of checking several fields independently. -/
structure CheckReport where
  valid : Bool
  errors : List CheckError

/-- The messages of the errors, in order. -/
def CheckReport.messages (r : CheckReport) : List String :=
  r.errors.map CheckError.message

/-! ### Malformed records and settings -/

/-- What is wrong with one part of a record or of the settings. -/
inductive Fault where
  | notText
  | badEncoding
  | notDictionary
  | notAmongLiterals
  | notTruthValue
  | unreadableTruthValue
  deriving DecidableEq, Repr

/-- The stable code of a fault. -/
def Fault.code : Fault → String
  | .notText => "string_type"
  | .badEncoding => "string_unicode"
  | .notDictionary => "dict_type"
  | .notAmongLiterals => "literal_error"
  | .notTruthValue => "bool_type"
  | .unreadableTruthValue => "bool_parsing"

/-- A fault with the path of the part that has it. -/
structure Problem where
  location : List String
  fault : Fault
  deriving DecidableEq, Repr

/-! ### Failures -/

/-- Why a value does not serve in its place. -/
inductive Misuse where
  /-- It cannot be walked through. -/
  | notIterable
  /-- It cannot be a key. -/
  | unhashable
  /-- A pair was expected. -/
  | notAPair
  /-- An argument of this name cannot be given by name. -/
  | argumentClash (name : String)
  /-- A bound of a listing is no integer. -/
  | notAnIndex
  /-- It cannot be called, or not in this way. -/
  | notCallable
  /-- There is nothing to wait for. -/
  | notAwaitable
  /-- It is no text, and an attribute has to be named by one. -/
  | notAName
  /-- It is no class that an object can have. -/
  | notAClass
  /-- It is no dictionary, and the attributes of an object have to be in one. -/
  | notAttributes
  /-- It cannot be searched for a name, or what was found there cannot be taken out. -/
  | notATable
  /-- It has no parts under keys or at positions. -/
  | noParts
  /-- It is a number of more digits than can be told. -/
  | tooManyDigits
  deriving DecidableEq, Repr

/-- Why a file cannot be connected to. -/
inductive Blockage where
  /-- There is nothing where a directory is needed. -/
  | missing
  /-- There is something else where a directory is to be made. -/
  | occupied
  /-- The path leads through a file. -/
  | notDirectory
  | nameTooLong
  /-- The path holds a character that no path can hold. -/
  | badCharacter
  /-- What the path names cannot be opened as a file of records, or has no table of them. -/
  | cannotOpen
  deriving DecidableEq, Repr

/-- Every way an operation can fail. -/
inductive Failure where
  | check (e : CheckError)
  /-- No class is registered under the name. -/
  | unknownEntity (name : String)
  /-- The schema of a class uses names that every entity has already. -/
  | reservedFields (cls : String) (fields : List String)
  | notConnected
  | blocked (b : Blockage)
  | invalid (problems : List Problem)
  | misuse (m : Misuse)
  | noAttribute (name : String)
  | readOnly (name : String)
  /-- Nothing is under the key. -/
  | missingKey
  /-- Nothing is at the position. -/
  | outOfRange
  /-- A name or a text holds a character that it must not hold. -/
  | badCharacter
  | emptyName
  /-- An integer does not fit into the 64 bits that the store has for it. -/
  | tooLarge
  /-- A value of a type that the store has no place for. -/
  | unstorableKey
  /-- A record that has no written form. -/
  | unserialisable
  /-- A bound of a listing that the store cannot read as an integer. -/
  | unreadableBound
  /-- A level that no one has named. -/
  | unknownLevel (name : String)
  /-- The work has no end: an entity holds itself, or looking up a record leads back to it. -/
  | endless
  deriving DecidableEq, Repr

/-- The failure in words, where its words are fixed. -/
def Failure.message? : Failure → Option String
  | .check e => some e.message
  | .unknownEntity name => some ("No entity registered under " ++ Text.quoted name)
  | .reservedFields cls fields =>
    some (cls ++ ".schema fields [" ++ ", ".intercalate (fields.map Text.quoted) ++
      "] collide with Entity attributes")
  | .notConnected => some "Database not connected"
  | _ => none

/-! ### Computations that may fail -/

section

variable {α β : Type}

theorem ok_bind (a : α) (f : α → Except Failure β) : (Except.ok a >>= f) = f a := rfl

/-- What follows a computation has a result exactly if both have. -/
theorem bind_eq_ok {x : Except Failure α} {f : α → Except Failure β} {b : β} :
    (x >>= f) = .ok b ↔ ∃ a, x = .ok a ∧ f a = .ok b := by
  cases x with
  | error e =>
    constructor
    · nofun
    · rintro ⟨a, ⟨⟩, -⟩
  | ok a =>
    constructor
    · intro h
      exact ⟨a, rfl, h⟩
    · rintro ⟨a', ha, h⟩
      cases ha
      exact h

/-- What follows a computation fails if one of the two does. -/
theorem bind_eq_error {x : Except Failure α} {f : α → Except Failure β} {e : Failure} :
    (x >>= f) = .error e ↔ x = .error e ∨ ∃ a, x = .ok a ∧ f a = .error e := by
  cases x with
  | error e' =>
    constructor
    · intro h
      cases h
      exact .inl rfl
    · rintro (h | ⟨a, ⟨⟩, -⟩)
      cases h
      rfl
  | ok a =>
    constructor
    · intro h
      exact .inr ⟨a, rfl, h⟩
    · rintro (⟨⟨⟩⟩ | ⟨a', ha, h⟩)
      cases ha
      exact h

end

end EntitySchema
