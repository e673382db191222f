/-
**Moments from a count of seconds.**

A time stamp counts seconds from the start of 1970 in UTC, as a floating point number.  Its whole
part is taken exactly; its fractional part is multiplied by a million and rounded to the nearest
microsecond, a tie to the even one.  A result outside the years 1 to 9999 has no moment.

Main definitions:

* `Moment.ofMicros?` — the moment a number of microseconds after the start of 1970;
* `Binary64.micros?` — a number of seconds in microseconds;
* `Moment.ofTimestamp?` — the moment of a time stamp.
-/

import EntitySchema.Calendar.Moment
import EntitySchema.Number.Binary64

set_option autoImplicit false

namespace EntitySchema

/-- The ordinal of the first of January 1970. -/
def epochOrdinal : Int := 719163

/-- The moment, in UTC, a number of microseconds after the start of 1970. -/
def Moment.ofMicros? (n : Int) : Option Moment := do
  let date ← Date.ofOrdinal? (epochOrdinal + n.fdiv microsPerDay)
  let t := (n.fmod microsPerDay).toNat
  Moment.ofFields? date (t / 3600000000) (t / 60000000 % 60) (t / 1000000 % 60) (t % 1000000)
    (some 0)

/-- A number of seconds in whole microseconds. -/
def Binary64.micros? (x : Binary64) : Option Int := do
  let (whole, part) ← x.split?
  let micros ← (part.scaleUp 1000000).nearestInt?
  some (whole * 1000000 + micros)

/-- The moment of a time stamp. -/
def Moment.ofTimestamp? (x : Binary64) : Option Moment :=
  x.micros?.bind Moment.ofMicros?

end EntitySchema
