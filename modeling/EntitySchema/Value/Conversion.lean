/-
**Making lists, dictionaries and moments of values.**

Anything that can be walked through makes a list.  A mapping makes the dictionary of its entries;
anything else makes one if its items can be walked through and have two items each, of which the
first can be a key.  A moment is made of a day or moment, which stays as it is, of a number, which
counts milliseconds from the start of 1970, and of a text.

Main definitions:

* `Value.toItems`, `Value.toEntries` — lists and dictionaries;
* `Value.toMoment` — moments.

Main results:

* `Value.toItems_eq_ok_iff`, `Value.toEntry_eq_ok_iff` — what lists and entries are made of;
* `Value.toEntries_dict` — a dictionary makes its own entries.
-/

import EntitySchema.Calendar.Epoch
import EntitySchema.Calendar.IsoReading
import EntitySchema.Failure
import EntitySchema.Text.Blank
import EntitySchema.Value.Equality
import EntitySchema.Value.Text

set_option autoImplicit false

namespace EntitySchema

namespace Value

/-! ### Lists and dictionaries -/

/-- The list that a value makes. -/
def toItems (v : Value) : Except Failure (List Value) :=
  match v.items? with
  | some xs => .ok xs
  | none => .error (.misuse .notIterable)

/-- A value makes the list of its items. -/
theorem toItems_eq_ok_iff {v : Value} {xs : List Value} :
    v.toItems = .ok xs ↔ v.items? = some xs := by
  unfold toItems
  cases v.items? <;> simp

/-- A value as an entry: it has two items, and the first can be a key. -/
def toEntry (isEntity : Address → Bool) (v : Value) : Except Failure (Value × Value) := do
  match ← v.toItems with
  | [key, value] =>
    if key.hashable isEntity then .ok (key, value) else .error (.misuse .unhashable)
  | _ => .error (.misuse .notAPair)

/-- A value makes an entry exactly if it has two items, of which the first can be a key. -/
theorem toEntry_eq_ok_iff {isEntity : Address → Bool} {v : Value} {e : Value × Value} :
    v.toEntry isEntity = .ok e ↔ v.items? = some [e.1, e.2] ∧ e.1.hashable isEntity = true := by
  obtain ⟨key, value⟩ := e
  constructor
  · intro h
    obtain ⟨xs, hxs, h⟩ := bind_eq_ok.1 h
    rw [toItems_eq_ok_iff] at hxs
    match xs, hxs, h with
    | [k, w], hxs, h =>
      dsimp only at h
      split at h
      · next can =>
        cases h
        exact ⟨hxs, can⟩
      · cases h
  · rintro ⟨hxs, can⟩
    refine bind_eq_ok.2 ⟨_, toItems_eq_ok_iff.2 hxs, ?_⟩
    dsimp only
    rw [if_pos can]

/-- The dictionary that a value makes. -/
def toEntries (isEntity : Address → Bool) (v : Value) : Except Failure Entries :=
  match v.entries? with
  | some es => .ok es
  | none => do
    let items ← v.toItems
    let pairs ← items.mapM (toEntry isEntity)
    .ok (Entries.ofPairs pairs)

@[simp] theorem toEntries_dict (isEntity : Address → Bool) (es : Entries) :
    (dict es).toEntries isEntity = .ok es := rfl

@[simp] theorem toItems_list (xs : List Value) : (list xs).toItems = .ok xs := rfl

/-! ### Moments -/

/-- The failure to make a moment. -/
def undecodable (why : Undecodable) : Failure := .check (.undecodable "date" why)

/-- The number of digits that can be told of an integer. -/
def mostDigits : Nat := 4300

/-- The failure to make a moment of an integer that is out of range.  It tells the integer, unless
that has too many digits. -/
def outOfRange (n : Int) : Failure :=
  if n.natAbs < Nat.pow 10 mostDigits then undecodable (.outOfRange (Value.int n).toText)
  else .misuse .tooManyDigits

/-- A text without the blanks around it, a `Z` at its end written as an offset of zero. -/
def momentText (s : String) : String :=
  let cs := Text.trimChars s.toList
  match cs.reverse with
  | 'Z' :: rest => String.ofList (rest.reverse ++ ['+', '0', '0', ':', '0', '0'])
  | _ => String.ofList cs

/-- The day or moment that a raw value stands for; nothing stands for nothing. -/
def toMoment (objectName : Address → String) (v : Value) : Except Failure Value :=
  match v with
  | .null | .date _ | .moment _ | .stamp _ => .ok v
  | .bool b => .error (undecodable (.truthValue (boolText b)))
  | .int n =>
    match Moment.ofTimestamp? (Binary64.ofRatio (decide (n < 0)) n.natAbs 1000) with
    | some m => .ok (.moment m)
    | none => .error (outOfRange n)
  | .float x =>
    match Moment.ofTimestamp? (x.scaleDown 1000) with
    | some m => .ok (.moment m)
    | none => .error (undecodable (.outOfRange v.toText))
  | .nan _ => .error (undecodable (.outOfRange v.toText))
  | .str s =>
    match Moment.ofIsoText? (momentText s) with
    | some m => .ok (.moment m)
    | none => .error (undecodable (.badFormat s))
  | _ => .error (undecodable (.ofType (v.typeName objectName)))

end Value

end EntitySchema
