/-
**The written form of records.**

A record that goes to a file is written down, and only part of what a value holds survives that.
Days and moments become text, bytes the text that they are in UTF-8, arrays and sets lists, mappings
dictionaries whose keys are texts, and a number that is not finite is left out; as a key it has the
text of the absent value.  Entities, plain objects and functions have no written form.

Main definitions:

* `Moment.recordText` — a moment as records have it;
* `Value.written`, `Value.writtenKey` — what is left of a value, and of a key;
* `Record.written` — a record as it is written.

Main results:

* `Value.written_of_plain` — **plain data are what is left of them.**
-/

import EntitySchema.Store.Record
import EntitySchema.Value.Plain

set_option autoImplicit false

namespace EntitySchema

/-! ### Moments -/

namespace Moment

/-- An offset as records have it: `Z` for none at all, else hours and minutes. -/
def recordOffset (o : Int) : List Char :=
  let seconds := roundHalfUp o.natAbs
  if seconds = 0 then ['Z']
  else (if o < 0 then '-' else '+') ::
    (fixedDigits 2 (seconds / 3600) ++ ':' :: fixedDigits 2 (seconds / 60 % 60))
where
  /-- Microseconds as whole seconds, a half counting as a whole. -/
  roundHalfUp (micros : Nat) : Nat := (micros + 500000) / 1000000

/-- A moment as records have it. -/
def recordText (m : Moment) : String :=
  String.ofList (m.date.isoChars ++ 'T' :: clockChars m.hour m.minute m.second ++
    fractionChars m.micro ++
    match m.offset with
    | none => []
    | some o => recordOffset o)

end Moment

/-! ### Keys and values -/

namespace Value

/-- The text of bytes in a record. -/
def writtenBytes (bs : List UInt8) : Except Failure String :=
  match utf8Text? bs with
  | some s => .ok s
  | none => .error .unserialisable

mutual

/-- A key as a text of a record. -/
def writtenKey : Value → Except Failure String
  | .str s => .ok s
  | .null => .ok "None"
  | .bool b => .ok (if b then "true" else "false")
  | .int n => .ok (toString n)
  | .float x => .ok (if x.isFinite then x.text else "None")
  | .nan _ => .ok "None"
  | .bytes bs => writtenBytes bs
  | .date d => .ok d.isoText
  | .moment m => .ok m.recordText
  | .stamp m => .ok m.recordText
  | .tuple xs => do .ok (",".intercalate (← writtenKeys xs))
  | _ => .error .unserialisable
termination_by structural v => v

/-- The keys of a list, each as a text of a record. -/
def writtenKeys : List Value → Except Failure (List String)
  | [] => .ok []
  | x :: xs => do
    let t ← writtenKey x
    .ok (t :: (← writtenKeys xs))
termination_by structural xs => xs

end

mutual

/-- What is left of a value in a written record: texts, integers, finite numbers, truth values, the
absent value, lists, and dictionaries whose keys are texts. -/
def written : Value → Except Failure Value
  | .null => .ok .null
  | .bool b => .ok (.bool b)
  | .int n => .ok (.int n)
  | .float x => .ok (if x.isFinite then .float x else .null)
  | .nan _ => .ok .null
  | .str s => .ok (.str s)
  | .bytes bs => do .ok (.str (← writtenBytes bs))
  | .date d => .ok (.str d.isoText)
  | .moment m => .ok (.str m.recordText)
  | .stamp m => .ok (.str m.recordText)
  | .list xs => do .ok (.list (← writtenItems xs))
  | .tuple xs => do .ok (.list (← writtenItems xs))
  | .set xs => do .ok (.list (← writtenItems xs))
  | .dict es => do .ok (.dict (Entries.ofPairs (← writtenEntries es)))
  | .ordered es => do .ok (.dict (Entries.ofPairs (← writtenEntries es)))
  | _ => .error .unserialisable
termination_by structural v => v

/-- What is left of the items of a list. -/
def writtenItems : List Value → Except Failure (List Value)
  | [] => .ok []
  | x :: xs => do
    let y ← written x
    .ok (y :: (← writtenItems xs))
termination_by structural xs => xs

/-- What is left of the entries of a dictionary. -/
def writtenEntries : Entries → Except Failure Entries
  | [] => .ok []
  | (k, v) :: es => do
    let t ← writtenKey k
    let w ← written v
    .ok ((.str t, w) :: (← writtenEntries es))
termination_by structural es => es

end

/-! ### Plain data -/

mutual

/-- Plain data are what is left of them. -/
theorem written_of_plain : (v : Value) → v.isPlain = true → v.written = .ok v
  | .null, _ => rfl
  | .bool _, _ => rfl
  | .int _, _ => rfl
  | .float x, h => by
    have hx : x.isFinite = true := h
    simp [written, hx]
  | .str _, _ => rfl
  | .list xs, h => by
    have hxs : plainItems xs = true := h
    rw [written, writtenItems_of_plain xs hxs]
    rfl
  | .dict es, h => by
    have hes : Entries.textKeyed es = true ∧ plainEntries es = true := by
      simpa [isPlain] using h
    rw [written, writtenEntries_of_plain es hes.1 hes.2]
    exact congrArg (fun es => Except.ok (Value.dict es)) (Entries.ofPairs_of_textKeyed hes.1)

/-- Items that are plain data are what is left of them. -/
theorem writtenItems_of_plain :
    (xs : List Value) → plainItems xs = true → writtenItems xs = .ok xs
  | [], _ => rfl
  | x :: xs, h => by
    have hx : isPlain x = true ∧ plainItems xs = true := by simpa [plainItems] using h
    rw [writtenItems, written_of_plain x hx.1, writtenItems_of_plain xs hx.2]
    rfl

/-- Entries of plain data under texts are what is left of them. -/
theorem writtenEntries_of_plain : (es : Entries) → Entries.textKeyed es = true →
    plainEntries es = true → writtenEntries es = .ok es
  | [], _, _ => rfl
  | (.str s, v) :: es, hk, h => by
    have hv : isPlain v = true ∧ plainEntries es = true := by simpa [plainEntries] using h
    have hes : Entries.textKeyed es = true := by
      simp only [Entries.textKeyed, Bool.and_eq_true] at hk
      exact hk.2
    rw [writtenEntries, writtenKey, written_of_plain v hv.1,
      writtenEntries_of_plain es hes hv.2]
    rfl

end

end Value

/-! ### Records -/

/-- A record as it is written. -/
def Record.written (r : Record) : Except Failure Record := do
  .ok { r with data := Entries.ofPairs (← Value.writtenEntries r.data) }

end EntitySchema
