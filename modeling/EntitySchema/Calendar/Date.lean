/-
**Days of the Gregorian calendar, years 1 to 9999.**

A `Date` carries the proof that its year, month and day name a day.  Days are counted by their
*ordinal*, which is 1 for the first of January of year 1.

Main definitions:

* `Date`, `Date.ofFields?` — a day, and the day with given year, month and day if there is one;
* `Date.first`, `Date.last` — the first and the last day;
* `Date.ordinal`, `Date.ofOrdinal?` — the count of days and its inverse;
* `Date.ofWeek?` — the day with given week-numbering year, week and weekday.

Main results:

* `Date.ofFields?_self` — the fields of a day name that day.
-/

set_option autoImplicit false

namespace EntitySchema

/-! ### Months and years -/

/-- Every fourth year has 366 days, except those of the centuries that 400 does not divide. -/
def isLeapYear (year : Nat) : Bool :=
  year % 4 == 0 && (year % 100 != 0 || year % 400 == 0)

/-- The number of days of a month. -/
def daysInMonth (year month : Nat) : Nat :=
  if month = 2 then (if isLeapYear year then 29 else 28)
  else if month = 4 ∨ month = 6 ∨ month = 9 ∨ month = 11 then 30
  else 31

/-- The number of days before the first of January of a year, which is at least 1. -/
def daysBeforeYear (year : Nat) : Nat :=
  let y := year - 1
  y * 365 + y / 4 - y / 100 + y / 400

/-- The number of days of a year before the first of a month. -/
def daysBeforeMonth (year month : Nat) : Nat :=
  (List.range (month - 1)).foldl (fun days i => days + daysInMonth year (i + 1)) 0

/-! ### Days -/

/-- A day of the years 1 to 9999. -/
structure Date where
  year : Nat
  month : Nat
  day : Nat
  valid : (1 ≤ year ∧ year ≤ 9999) ∧ (1 ≤ month ∧ month ≤ 12) ∧
    (1 ≤ day ∧ day ≤ daysInMonth year month)
  deriving DecidableEq

namespace Date

/-- The day with the given year, month and day, if there is one. -/
def ofFields? (year month day : Nat) : Option Date :=
  if h : (1 ≤ year ∧ year ≤ 9999) ∧ (1 ≤ month ∧ month ≤ 12) ∧
      (1 ≤ day ∧ day ≤ daysInMonth year month) then
    some ⟨year, month, day, h⟩
  else none

/-- The first day. -/
def first : Date := ⟨1, 1, 1, by decide⟩

/-- The last day. -/
def last : Date := ⟨9999, 12, 31, by decide⟩

/-- The fields of a day name that day. -/
@[simp] theorem ofFields?_self (d : Date) : ofFields? d.year d.month d.day = some d := by
  simp [ofFields?, d.valid]

/-- The count of days up to and including this one. -/
def ordinal (d : Date) : Nat :=
  daysBeforeYear d.year + daysBeforeMonth d.year d.month + d.day

/-- The month of the `n`-th day (from 0) of a span of months that starts at `month`, and the day
in it. -/
def locate (month : Nat) : List Nat → Nat → Nat × Nat
  | [], n => (month, n + 1)
  | len :: rest, n => if n < len then (month, n + 1) else locate (month + 1) rest (n - len)

/-- The day with the given ordinal, if it lies in the years 1 to 9999.  The year is found through
the spans of 400, 100, 4 and 1 years, the last of each kind being allowed one day more. -/
def ofOrdinal? (n : Int) : Option Date :=
  if n < 1 then none
  else
    let n := (n - 1).toNat
    let n400 := n / 146097
    let r := n % 146097
    let n100 := min 3 (r / 36524)
    let r := r - n100 * 36524
    let n4 := r / 1461
    let r := r % 1461
    let n1 := min 3 (r / 365)
    let r := r - n1 * 365
    let year := n400 * 400 + n100 * 100 + n4 * 4 + n1 + 1
    let lengths := (List.range 12).map fun i => daysInMonth year (i + 1)
    let (month, day) := locate 1 lengths r
    ofFields? year month day

/-! ### Weeks -/

/-- The weekday of an ordinal, from 0 for Monday to 6 for Sunday. -/
def weekday (ordinal : Nat) : Nat :=
  (ordinal + 6) % 7

/-- A year has 53 weeks if it starts on a Thursday, or on a Wednesday and is a leap year. -/
def hasLongWeeks (year : Nat) : Bool :=
  let first := weekday (daysBeforeYear year + 1)
  first == 3 || (first == 2 && isLeapYear year)

/-- The ordinal of the Monday of week 1, the week that holds the first Thursday of the year. -/
def firstMonday (year : Nat) : Int :=
  let first := daysBeforeYear year + 1
  let wd := weekday first
  let monday : Int := (first : Int) - wd
  if 3 < wd then monday + 7 else monday

/-- The day with the given week-numbering year, week and weekday (from 1 for Monday), if there is
one. -/
def ofWeek? (year week day : Nat) : Option Date :=
  if year < 1 ∨ 9999 < year then none
  else if week < 1 ∨ 53 < week ∨ (week = 53 ∧ hasLongWeeks year = false) then none
  else if day < 1 ∨ 7 < day then none
  else ofOrdinal? (firstMonday year + ((week - 1) * 7 + (day - 1) : Nat))

end Date

end EntitySchema
