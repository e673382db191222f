/-
**Moments: a day with a time of day, and possibly a distance from UTC.**

A moment without an offset is *naive*: it names a place in some local calendar and no instant.
Two moments are the same if both are naive and agree in their fields, or both have offsets and
name the same instant.

Main definitions:

* `Moment`, `Moment.ofFields?` — a moment, and the moment with given fields if there is one;
* `Moment.instant?` — the instant, in microseconds after the start of year 1 in UTC;
* `Moment.same` — sameness.
-/

import EntitySchema.Calendar.Date

set_option autoImplicit false

namespace EntitySchema

/-- The number of microseconds of a day. -/
def microsPerDay : Nat := 86400000000

/-- The time of day and the distance from UTC are in range. -/
def Moment.InRange (hour minute second micro : Nat) (offset : Option Int) : Prop :=
  (hour < 24 ∧ minute < 60 ∧ second < 60 ∧ micro < 1000000) ∧
    ∀ o ∈ offset, -(microsPerDay : Int) < o ∧ o < (microsPerDay : Int)

instance (hour minute second micro : Nat) (offset : Option Int) :
    Decidable (Moment.InRange hour minute second micro offset) := by
  unfold Moment.InRange
  cases offset <;> simp only [Option.mem_def, reduceCtorEq, false_implies, implies_true,
    Option.some.injEq, forall_eq'] <;> infer_instance

/-- A day with a time of day in microseconds and an optional offset from UTC, also in microseconds
and less than a day either way. -/
structure Moment where
  date : Date
  hour : Nat
  minute : Nat
  second : Nat
  micro : Nat
  offset : Option Int
  inRange : Moment.InRange hour minute second micro offset
  deriving DecidableEq

namespace Moment

/-- The moment with the given fields, if they are in range. -/
def ofFields? (date : Date) (hour minute second micro : Nat) (offset : Option Int) :
    Option Moment :=
  if h : InRange hour minute second micro offset then
    some ⟨date, hour, minute, second, micro, offset, h⟩
  else none

/-- The fields of a moment name that moment. -/
@[simp] theorem ofFields?_self (m : Moment) :
    ofFields? m.date m.hour m.minute m.second m.micro m.offset = some m := by
  simp [ofFields?, m.inRange]

/-- The first moment of a day, naive. -/
def midnight (d : Date) : Moment :=
  ⟨d, 0, 0, 0, 0, none, by simp [InRange]⟩

/-- The last moment, naive. -/
def last : Moment :=
  ⟨.last, 23, 59, 59, 999999, none, by simp [InRange]⟩

/-- Microseconds from the start of the day. -/
def timeOfDay (m : Moment) : Nat :=
  ((m.hour * 60 + m.minute) * 60 + m.second) * 1000000 + m.micro

/-- Microseconds after the day before year 1, in the moment's own calendar. -/
def wallClock (m : Moment) : Int :=
  (m.date.ordinal * microsPerDay + m.timeOfDay : Nat)

/-- The instant that a moment with an offset names. -/
def instant? (m : Moment) : Option Int :=
  m.offset.map fun o => m.wallClock - o

/-- Sameness: the same fields if both are naive, the same instant if neither is. -/
def same (a b : Moment) : Bool :=
  match a.instant?, b.instant? with
  | none, none => a.wallClock == b.wallClock
  | some i, some j => i == j
  | _, _ => false

theorem same_self (m : Moment) : m.same m = true := by
  unfold same
  cases m.instant? <;> simp

end Moment

end EntitySchema
