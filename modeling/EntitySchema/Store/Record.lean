/-
**Records of a store.**

A record is filed under a kind and an identifier and holds a dictionary whose keys are texts.  What
is offered as a record is examined as a whole before anything is stored, and every fault is
reported with the path of the part that has it.  Bytes that are UTF-8 serve as text.  A kind given
as bytes is filed as bytes, and is another kind than the text.

Main definitions:

* `Kind`, `Record`, `RecordKey` — records and what they are filed under;
* `Record.examine` — what is offered as a record, or its faults;
* `window` — the part of a listing between two positions.

Main results:

* `window_nat` — **between two positions from the start a window is what is left after dropping
  and taking.**
-/

import EntitySchema.Failure
import EntitySchema.Text.Utf8
import EntitySchema.Value.Equality
import EntitySchema.Value.Text

set_option autoImplicit false

namespace EntitySchema

/-- The kind that a record is filed under. -/
inductive Kind where
  | text (s : String)
  | bytes (bs : List UInt8)
  deriving DecidableEq, Repr

/-- What a record is filed under. -/
structure RecordKey where
  kind : Kind
  id : String
  deriving DecidableEq, Repr

/-- A record: what it is filed under, and its data. -/
structure Record where
  key : RecordKey
  data : Entries

/-- A value as text: a text, or bytes that are UTF-8. -/
def Value.asText (v : Value) : Except Fault String :=
  match v with
  | .str s => .ok s
  | .bytes bs =>
    match utf8Text? bs with
    | some s => .ok s
    | none => .error .badEncoding
  | _ => .error .notText

/-- A value as a kind: a text or bytes that are UTF-8. -/
def Kind.ofValue (v : Value) : Except Fault Kind :=
  match v with
  | .str s => .ok (.text s)
  | .bytes bs =>
    match utf8Text? bs with
    | some _ => .ok (.bytes bs)
    | none => .error .badEncoding
  | _ => .error .notText

/-- The kind that a value is, if it is one that a record may have been filed under. -/
def Kind.ofValue? : Value → Option Kind
  | .str s => some (.text s)
  | .bytes bs => some (.bytes bs)
  | _ => none

namespace Record

/-- The path of a key: truth values are told as numbers, other keys as they are written. -/
def keyLocation : Value → String
  | .str s => s
  | .bool b => if b then "1" else "0"
  | v => v.write

/-- The faults of the keys of a dictionary. -/
def keyProblems (es : Entries) : List Problem :=
  es.filterMap fun e =>
    match e.1.asText with
    | .ok _ => none
    | .error fault => some ⟨["data", keyLocation e.1, "[key]"], fault⟩

/-- A dictionary with its keys as texts; of entries whose keys are one text the last counts. -/
def withTextKeys (es : Entries) : Entries :=
  Entries.ofPairs (es.map fun e =>
    match e.1.asText with
    | .ok s => (.str s, e.2)
    | .error _ => e)

/-- The faults of what is offered as a record. -/
def problems (kind data : Value) : List Problem :=
  (match Kind.ofValue kind with
    | .ok _ => []
    | .error fault => [⟨["kind"], fault⟩]) ++
  (match data.entries? with
    | some es => keyProblems es
    | none => [⟨["data"], .notDictionary⟩])

/-- What is offered as a record, if it has no fault. -/
def examine (kind : Value) (id : String) (data : Value) : Except Failure Record :=
  match problems kind data, Kind.ofValue kind, data.entries? with
  | [], .ok k, some es => .ok ⟨⟨k, id⟩, withTextKeys es⟩
  | ps, _, _ => .error (.invalid ps)

end Record

/-! ### Windows -/

/-- A position in a listing of `n` items; a negative one counts from the end. -/
def position (n : Nat) (i : Int) : Nat :=
  if i < 0 then (i + n).toNat else min i.toNat n

/-- The items from one position up to another. -/
def window {α : Type} (xs : List α) (start stop : Int) : List α :=
  (xs.take (position xs.length stop)).drop (position xs.length start)

/-- A window between two positions from the start. -/
theorem window_nat {α : Type} (xs : List α) (offset limit : Nat) :
    window xs offset (offset + limit : Nat) = (xs.drop offset).take limit := by
  have pos : ∀ k : Nat, position xs.length (k : Int) = min k xs.length := by
    intro k
    have hk : ¬ ((k : Int) < 0) := by omega
    simp [position, hk]
  have dropped : (xs.drop offset).length = xs.length - offset := List.length_drop
  rw [window, pos, pos]
  by_cases h : offset ≤ xs.length
  · rw [Nat.min_eq_left h, List.drop_take]
    by_cases hl : offset + limit ≤ xs.length
    · rw [Nat.min_eq_left hl, Nat.add_sub_cancel_left]
    · rw [Nat.min_eq_right (by omega), List.take_of_length_le (by omega),
        List.take_of_length_le (by omega)]
  · rw [Nat.min_eq_right (by omega), Nat.min_eq_right (by omega), List.take_length,
      List.drop_length, List.drop_eq_nil_of_le (by omega), List.take_nil]

end EntitySchema
