/-
**Changes inside a value.**

A value that is made of others has parts: a list and a tuple at positions, a mapping under keys, a
text and bytes at positions, too.  Positions count from the start, negative ones from the end.  A
path of keys and positions leads from a value to a part of a part of it.  To change what is there is
to put another part in its place all along the path.

Main definitions:

* `Value.position?` — the position that an index means;
* `Value.part`, `Value.withPart` — a part of a value, and the value with another part;
* `Value.appendAt` — one more element for the list that a path leads to.

Main results:

* `Value.position?_lt` — a position is within the length;
* `Value.part_withPart_list` — **the part that was put in place is there.**
-/

import EntitySchema.Failure
import EntitySchema.Value.Equality

set_option autoImplicit false

namespace EntitySchema

namespace Value

/-! ### Parts -/

/-- The position that an index means among so many: from the start, or from the end if it is
negative. -/
def position? (length : Nat) (i : Int) : Option Nat :=
  let k := if 0 ≤ i then i.toNat else (i + length).toNat
  if -length ≤ i ∧ k < length then some k else none

/-- A position is within the length. -/
theorem position?_lt {length k : Nat} {i : Int} (h : position? length i = some k) :
    k < length := by
  simp only [position?, Option.ite_none_right_eq_some, Option.some.injEq] at h
  exact h.2 ▸ h.1.2

/-- The position that a value means as an index. -/
def positionOf (length : Nat) (key : Value) : Except Failure Nat :=
  let at? := fun i => match position? length i with
    | some k => .ok k
    | none => .error .outOfRange
  match key with
  | .int n => at? n
  | .bool b => at? (if b then 1 else 0)
  | _ => .error (.misuse .notAnIndex)

/-- The item at the position that a value means. -/
def itemAt (xs : List Value) (key : Value) : Except Failure Value := do
  .ok ((xs[← positionOf xs.length key]?).getD .null)

/-- The value under a key of a mapping. -/
def entryAt (isEntity : Address → Bool) (es : Entries) (key : Value) : Except Failure Value :=
  if key.hashable isEntity then
    match Entries.get? es key with
    | some v => .ok v
    | none => .error .missingKey
  else .error (.misuse .unhashable)

/-- The part of a value under a key or at a position. -/
def part (isEntity : Address → Bool) (v key : Value) : Except Failure Value :=
  match v with
  | .dict es | .ordered es => entryAt isEntity es key
  | .set _ => .error (.misuse .noParts)
  | v =>
    match v.items? with
    | some xs => itemAt xs key
    | none => .error (.misuse .noParts)

/-- The items with another one at the position that a value means. -/
def withItem (xs : List Value) (key x : Value) : List Value :=
  match positionOf xs.length key with
  | .ok k => xs.set k x
  | .error _ => xs

/-- The value with another part under a key or at a position. -/
def withPart (v key x : Value) : Value :=
  match v with
  | .list xs => .list (withItem xs key x)
  | .tuple xs => .tuple (withItem xs key x)
  | .dict es => .dict (Entries.insert es key x)
  | .ordered es => .ordered (Entries.insert es key x)
  | v => v

/-- The part of a list that was put in place is there. -/
theorem part_withPart_list (isEntity : Address → Bool) (xs : List Value) (i : Int) (x : Value)
    (h : (position? xs.length i).isSome) :
    part isEntity (withPart (.list xs) (.int i) x) (.int i) = .ok x := by
  obtain ⟨k, hk⟩ := Option.isSome_iff_exists.1 h
  have hp : positionOf xs.length (.int i) = .ok k := by simp [positionOf, hk]
  have hl := position?_lt hk
  have hw : withItem xs (.int i) x = xs.set k x := by simp [withItem, hp]
  have hq : positionOf (xs.set k x).length (.int i) = .ok k := by simpa using hp
  simp only [withPart, hw, part, items?, itemAt, hq]
  show Except.ok _ = _
  simp [hl]

/-! ### Paths -/

/-- The value with one more element for the list that a path leads to. -/
def appendAt (isEntity : Address → Bool) : List Value → Value → Value → Except Failure Value
  | [], x, .list xs => .ok (.list (xs ++ [x]))
  | [], _, _ => .error (.noAttribute "append")
  | key :: path, x, v => do
    let p ← part isEntity v key
    .ok (withPart v key (← appendAt isEntity path x p))

end Value

end EntitySchema
