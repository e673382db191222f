/-
**Equality of values.**

Numbers are equal if they are equal as numbers, whichever of truth value, integer and floating
point number they are.  Lists and tuples are equal element by element to their own kind, mappings
entry by entry in any order, two ordered ones in the same order, and what carries an identity only
to itself.  How two objects compare
depends on their state, so it is a parameter.

Inside a container a value always equals itself, a "not a number" too; outside, a "not a number"
equals nothing.

Main definitions:

* `Value.sameWith` — equality as it holds inside containers, for a comparison of objects;
* `Value.sameKey` — equality of values that hold no entity, such as keys;
* `Entries.get?`, `Entries.getStr?`, `Entries.insert`, `Entries.ofPairs` — dictionaries as lists of
  entries.

Main results:

* `Value.sameKey_str_right` — only a text equals a text;
* `Entries.getStr?_insert_self`, `Entries.getStr?_insert_of_ne` — **what a write changes**;
* `Entries.getStr_of_forall` — what holds of what is under a text.
-/

import EntitySchema.Value

set_option autoImplicit false

namespace EntitySchema

/-! ### Numbers -/

/-- A value as a number. -/
inductive Quantity where
  | whole (n : Int)
  | float (x : Binary64)

/-- Equality as numbers, exactly. -/
def Quantity.same : Quantity → Quantity → Bool
  | .whole a, .whole b => a == b
  | .whole a, .float y => y.eqInt a
  | .float x, .whole b => x.eqInt b
  | .float x, .float y => x.eqNumber y

namespace Value

/-- The number that a value is, if it is one. -/
def quantity? : Value → Option Quantity
  | .bool b => some (.whole (if b then 1 else 0))
  | .int n => some (.whole n)
  | .float x => some (.float x)
  | _ => none

/-- Whether a value is the number `q`. -/
def isQuantity (q : Quantity) (v : Value) : Bool :=
  match v.quantity? with
  | some k => q.same k
  | none => false

/-- Whether a value is a moment the same as `m`, of either type. -/
def isMoment (m : Moment) : Value → Bool
  | .moment w | .stamp w => m.same w
  | _ => false

/-! ### Equality -/

section

variable {m : Type → Type} [Monad m]

mutual

/-- Equality as it holds inside containers; `ask` compares two objects. -/
def sameWith (ask : Address → Address → m Bool) : Value → Value → m Bool
  | .null, .null => pure true
  | .bool a, w => pure (isQuantity (.whole (if a then 1 else 0)) w)
  | .int a, w => pure (isQuantity (.whole a) w)
  | .float a, w => pure (isQuantity (.float a) w)
  | .nan a, .nan b => pure (a == b)
  | .str a, .str b => pure (a == b)
  | .bytes a, .bytes b => pure (a == b)
  | .list xs, .list ys => sameItems ask xs ys
  | .tuple xs, .tuple ys => sameItems ask xs ys
  | .set xs, .set ys => sameItems ask xs ys
  | .dict xs, w => match w.entries? with
    | some ys => if xs.length = ys.length then sameEntries ask xs ys else pure false
    | none => pure false
  | .ordered xs, w => match w with
    | .dict ys => if xs.length = ys.length then sameEntries ask xs ys else pure false
    | .ordered ys => do
      if xs.length = ys.length then
        if ← sameEntries ask xs ys then sameKeys ask xs ys else pure false
      else pure false
    | _ => pure false
  | .date a, .date b => pure (a == b)
  | .moment a, w => pure (isMoment a w)
  | .stamp a, w => pure (isMoment a w)
  | .zone a, .zone b => pure (a == b)
  | .object a, .object b => if a = b then pure true else ask a b
  | .function a, .function b => pure (a == b)
  | .method a f, .method b g => pure (a == b && f == g)
  | .cls a, .cls b => pure (a == b)
  | .checker a f, .checker b g => pure (a == b && f == g)
  | .store a, .store b => pure (a == b)
  | .thing a, .thing b => pure (a == b)
  | _, _ => pure false
termination_by structural v => v

/-- Equality element by element. -/
def sameItems (ask : Address → Address → m Bool) : List Value → List Value → m Bool
  | [], [] => pure true
  | x :: xs, y :: ys => do
    if ← sameWith ask x y then sameItems ask xs ys else pure false
  | _, _ => pure false
termination_by structural xs => xs

/-- Each entry of the first list is among those of the second. -/
def sameEntries (ask : Address → Address → m Bool) : Entries → Entries → m Bool
  | [], _ => pure true
  | (k, v) :: xs, ys => do
    match ← ys.findM? fun e => sameWith ask k e.1 with
    | none => pure false
    | some e => if ← sameWith ask v e.2 then sameEntries ask xs ys else pure false
termination_by structural xs => xs

/-- The keys of two dictionaries are the same, one by one. -/
def sameKeys (ask : Address → Address → m Bool) : Entries → Entries → m Bool
  | [], [] => pure true
  | (k, _) :: xs, (l, _) :: ys => do
    if ← sameWith ask k l then sameKeys ask xs ys else pure false
  | _, _ => pure false
termination_by structural xs => xs

end

end

/-- Equality of values that hold no entity. -/
def sameKey (a b : Value) : Bool :=
  Id.run (sameWith (fun r s => pure (r == s)) a b)

/-- Whether a value is the given text. -/
def isText (name : String) : Value → Bool
  | .str s => s == name
  | _ => false

/-- Only a text equals a text. -/
@[simp] theorem sameKey_str_right (v : Value) (name : String) :
    sameKey v (.str name) = isText name v := by
  cases v <;> rfl

theorem isText_iff {name : String} {v : Value} : isText name v = true ↔ v = .str name := by
  cases v <;> simp [isText]

end Value

/-! ### Dictionaries -/

namespace Entries

/-- The value under a key. -/
def get? (es : Entries) (key : Value) : Option Value :=
  (es.find? fun e => Value.sameKey e.1 key).map Prod.snd

/-- The value under a text. -/
def getStr? (es : Entries) (name : String) : Option Value :=
  (es.find? fun e => Value.isText name e.1).map Prod.snd

/-- The value under a text, or the absent value. -/
def getStr (es : Entries) (name : String) : Value :=
  (getStr? es name).getD .null

/-- A write: an equal key keeps its place and takes the new value, another key is added at the
end. -/
def insert : Entries → Value → Value → Entries
  | [], key, v => [(key, v)]
  | (k, w) :: es, key, v =>
    if Value.sameKey k key then (k, v) :: es else (k, w) :: insert es key v

/-- The dictionary that a sequence of writes to a dictionary leaves. -/
def insertAll (es : Entries) (ps : List (Value × Value)) : Entries :=
  ps.foldl (fun es p => insert es p.1 p.2) es

/-- The dictionary that a sequence of writes leaves. -/
def ofPairs (ps : List (Value × Value)) : Entries := insertAll [] ps

theorem get?_str (es : Entries) (name : String) : get? es (.str name) = getStr? es name := by
  simp [get?, getStr?]

@[simp] theorem getStr?_nil (name : String) : getStr? [] name = none := rfl

theorem getStr?_cons (k v : Value) (es : Entries) (name : String) :
    getStr? ((k, v) :: es) name = if Value.isText name k then some v else getStr? es name := by
  by_cases h : Value.isText name k = true
  · simp [getStr?, List.find?, h]
  · simp [getStr?, List.find?, h]

/-- After a write the key holds the value written. -/
theorem getStr?_insert_self (es : Entries) (name : String) (v : Value) :
    getStr? (insert es (.str name) v) name = some v := by
  induction es with
  | nil => simp [insert, getStr?_cons, Value.isText]
  | cons e es ih =>
    obtain ⟨k, w⟩ := e
    by_cases h : Value.isText name k = true
    · simp [insert, getStr?_cons, h]
    · simp [insert, getStr?_cons, h, ih]

/-- A write under another key leaves what is under a text. -/
theorem getStr?_insert_of_ne (es : Entries) {k : Value} {name : String} (hk : k ≠ .str name)
    (v : Value) : getStr? (insert es k v) name = getStr? es name := by
  have other : Value.isText name k = false := eq_false_of_ne_true (hk ∘ Value.isText_iff.1)
  induction es with
  | nil => simp [insert, getStr?_cons, other]
  | cons e es ih =>
    obtain ⟨l, w⟩ := e
    rw [insert]
    split
    · next same =>
      have fresh : Value.isText name l ≠ true := by
        intro hl
        rw [Value.isText_iff.1 hl] at same
        cases k with
        | str s => exact hk (congrArg Value.str (beq_iff_eq.1 same).symm)
        | _ => cases same
      simp [getStr?_cons, fresh]
    · simp [getStr?_cons, ih]

/-- What holds of the absent value and of all values of a dictionary holds of what is under
a text. -/
theorem getStr_of_forall {es : Entries} {P : Value → Prop} (absent : P .null)
    (values : ∀ e ∈ es, P e.2) (name : String) : P (getStr es name) := by
  unfold getStr getStr?
  cases found : es.find? fun e => Value.isText name e.1 with
  | none => exact absent
  | some e => exact values e (List.mem_of_find?_eq_some found)

end Entries

end EntitySchema
