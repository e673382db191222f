/-
**The written form of days and moments.**

A day is `YYYY-MM-DD`.  A moment is a day and a time `HH:MM:SS` with a character between them; a
fraction of six digits follows unless it is zero, and then the offset, if there is one, as a sign
with `HH:MM`, its seconds unless they and their fraction are zero, and that fraction unless it is
zero.

Main definitions:

* `fixedDigits` — a number by a fixed number of decimal digits;
* `Date.isoChars`, `Moment.isoChars` — the written forms;
* `Date.isoText`, `Moment.isoText` — the same as texts, with a `T` between day and time.
-/

import EntitySchema.Calendar.Moment

set_option autoImplicit false

namespace EntitySchema

/-- The last `width` decimal digits of a number. -/
def fixedDigits : Nat → Nat → List Char
  | 0, _ => []
  | width + 1, n => Nat.digitChar (n / Nat.pow 10 width % 10) :: fixedDigits width n

@[simp] theorem length_fixedDigits (width n : Nat) : (fixedDigits width n).length = width := by
  induction width with
  | zero => rfl
  | succ width ih => simp [fixedDigits, ih]

/-- Year, month and day with a hyphen between them. -/
def Date.isoChars (d : Date) : List Char :=
  fixedDigits 4 d.year ++ '-' :: fixedDigits 2 d.month ++ '-' :: fixedDigits 2 d.day

/-- The written form of a day. -/
def Date.isoText (d : Date) : String := String.ofList d.isoChars

namespace Moment

/-- Hours, minutes and seconds with a colon between them. -/
def clockChars (hour minute second : Nat) : List Char :=
  fixedDigits 2 hour ++ ':' :: fixedDigits 2 minute ++ ':' :: fixedDigits 2 second

/-- A fraction of a second: nothing if it is zero, else a point and six digits. -/
def fractionChars (micro : Nat) : List Char :=
  if micro = 0 then [] else '.' :: fixedDigits 6 micro

/-- An offset from UTC: a sign, hours and minutes, and what is not zero below them. -/
def offsetChars (offset : Int) : List Char :=
  let a := offset.natAbs
  let micro := a % 1000000
  let total := a / 1000000
  let hour := total / 3600
  let minute := total / 60 % 60
  let second := total % 60
  let body := if second = 0 ∧ micro = 0 then
      fixedDigits 2 hour ++ ':' :: fixedDigits 2 minute
    else clockChars hour minute second ++ fractionChars micro
  (if offset < 0 then '-' else '+') :: body

/-- The written form of a moment with `separator` between day and time. -/
def isoChars (separator : Char) (m : Moment) : List Char :=
  m.date.isoChars ++ separator :: clockChars m.hour m.minute m.second ++ fractionChars m.micro ++
    match m.offset with
    | none => []
    | some o => offsetChars o

/-- The written form of a moment. -/
def isoText (m : Moment) : String := String.ofList (m.isoChars 'T')

/-- The written form of a moment with a blank between day and time. -/
def plainText (m : Moment) : String := String.ofList (m.isoChars ' ')

end Moment

end EntitySchema
