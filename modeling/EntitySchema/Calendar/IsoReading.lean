/-
**Reading moments.**

The reader takes more than the written form of `Moment.isoText`.  The day may be written with or
without hyphens, by year, month and day or by year, week and weekday (which may be missing and is
then Monday).  Any one character may stand between day and time.  The time may be written with or
without colons, down to hours, minutes, seconds or a fraction of any number of digits, of which
six count.  The offset is written like a time, or is a `Z`.

Texts are read as UTF-8 bytes, and where the time starts is decided from the form of the first
bytes alone (`timeStart?`).

Main definitions:

* `IsoReading.timeStart?` — the position after the day;
* `IsoReading.clock?` — hours, minutes, seconds and fraction between two positions;
* `Moment.ofIsoText?` — the moment that a text stands for.
-/

import EntitySchema.Calendar.Moment

set_option autoImplicit false

namespace EntitySchema

namespace IsoReading

/-- The bytes of a text. -/
abbrev Bytes := List UInt8

/-- The bytes of a text in UTF-8. -/
def bytesOf (s : String) : Bytes := s.toList.flatMap String.utf8EncodeChar

/-- The byte of an ASCII character. -/
abbrev byte (c : Char) : UInt8 := c.toNat.toUInt8

/-- The byte at a position, or 0 past the end. -/
def byteAt (s : Bytes) (p : Nat) : UInt8 := (s[p]?).getD 0

/-- Whether a byte is a decimal digit. -/
def isDigit (b : UInt8) : Bool := byte '0' ≤ b && b ≤ byte '9'

/-- The number written with exactly `count` digits at a position. -/
def number? (s : Bytes) (p count : Nat) : Option Nat :=
  let ds := (s.drop p).take count
  if ds.length = count ∧ ds.all isDigit = true then
    some (ds.foldl (fun acc b => acc * 10 + (b.toNat - 48)) 0)
  else none

/-! ### The day -/

/-- The position after the day, judged by the length of the text, the byte after the year, and for
a week date by what follows it. -/
def timeStart? (s : Bytes) : Option Nat :=
  let n := s.length
  if n = 7 then some 7
  else if byteAt s 4 = byte '-' then
    if byteAt s 5 = byte 'W' then
      if n < 8 then none
      else if 8 < n ∧ byteAt s 8 = byte '-' then
        if n = 9 then none
        else if 10 < n ∧ isDigit (byteAt s 10) = true then some 8
        else some 10
      else some 8
    else some 10
  else if byteAt s 4 = byte 'W' then
    let p := 7 + ((s.drop 7).takeWhile isDigit).length
    if p < 9 then some p
    else if p % 2 = 0 then some 7
    else some 8
  else some 8

/-- The day written by year, week and weekday; `p` is the position after the `W`. -/
def weekDay? (s : Bytes) (year p stop : Nat) (hyphens : Bool) : Option Date := do
  let week ← number? s p 2
  let p := p + 2
  if p < stop then
    if hyphens && byteAt s p != byte '-' then none
    else
      let day ← number? s (if hyphens then p + 1 else p) 1
      Date.ofWeek? year week day
  else Date.ofWeek? year week 1

/-- The day written by year, month and day; `p` is the position of the month. -/
def monthDay? (s : Bytes) (year p : Nat) (hyphens : Bool) : Option Date := do
  let month ← number? s p 2
  let p := p + 2
  if hyphens && byteAt s p != byte '-' then none
  else
    let day ← number? s (if hyphens then p + 1 else p) 2
    Date.ofFields? year month day

/-- The day at the start of a text, before the position `stop`. -/
def day? (s : Bytes) (stop : Nat) : Option Date := do
  let year ← number? s 0 4
  let hyphens := byteAt s 4 == byte '-'
  let p := if hyphens then 5 else 4
  if byteAt s p = byte 'W' then weekDay? s year (p + 1) stop hyphens
  else monthDay? s year p hyphens

/-! ### The time -/

/-- What is read of a time: its parts from the hour on, the fraction in microseconds, and whether
something follows. -/
structure Clock where
  parts : List Nat
  micro : Nat
  more : Bool

namespace Clock

/-- The hour. -/
def hour (c : Clock) : Nat := (c.parts[0]?).getD 0

/-- The minute, 0 if it is not written. -/
def minute (c : Clock) : Nat := (c.parts[1]?).getD 0

/-- The second, 0 if it is not written. -/
def second (c : Clock) : Nat := (c.parts[2]?).getD 0

end Clock

/-- A fraction of a second at a position: up to six digits count, the digits after them are passed
over. -/
def fraction? (s : Bytes) (stop p : Nat) (parts : List Nat) : Option Clock := do
  let count := min 6 (stop - p)
  let digits ← number? s p count
  let p := p + count
  let p := p + ((s.drop p).takeWhile isDigit).length
  some ⟨parts, digits * Nat.pow 10 (6 - count), byteAt s p != 0⟩

/-- The time from a position up to `stop`, of which `left` parts may still come.  The byte after the
hour decides whether there are colons; after the last part a fraction is expected. -/
def clockFrom? (s : Bytes) (stop : Nat) : Nat → Bool → Nat → List Nat → Option Clock
  | 0, _, p, parts => fraction? s stop p parts
  | left + 1, colons, p, parts => do
    let part ← number? s p 2
    let parts := parts ++ [part]
    let c := byteAt s (p + 2)
    let colons := if left = 2 then c == byte ':' else colons
    if stop ≤ p + 3 then some ⟨parts, 0, c != 0⟩
    else if colons && c == byte ':' then clockFrom? s stop left colons (p + 3) parts
    else if c = byte '.' ∨ c = byte ',' then fraction? s stop (p + 3) parts
    else if colons then none
    else clockFrom? s stop left colons (p + 2) parts

/-- Hours, minutes, seconds and fraction from a position up to `stop`. -/
def clock? (s : Bytes) (p stop : Nat) : Option Clock :=
  clockFrom? s stop 3 true p []

/-- The offset written at a position, where a sign or a `Z` stands.  After a `Z` the text has to
end, or to have a NUL, which is taken for its end.  A distance of less than a second is none. -/
def offset? (s : Bytes) (p : Nat) : Option Int :=
  if byteAt s p = byte 'Z' then
    if byteAt s (p + 1) = 0 then some 0 else none
  else do
    let c ← clock? s (p + 1) s.length
    if c.more then none
    else
      let seconds := (c.hour * 60 + c.minute) * 60 + c.second
      let distance : Int := if seconds = 0 then 0 else (seconds * 1000000 + c.micro : Nat)
      some (if byteAt s p = byte '-' then -distance else distance)

/-- The number of bytes of the character that starts with a byte. -/
def width (b : UInt8) : Nat :=
  if b < 0x80 then 1
  else if b &&& 0xF0 = 0xE0 then 3
  else if b &&& 0xF0 = 0xF0 then 4
  else 2

/-- Whether an offset starts at a byte. -/
def startsOffset (b : UInt8) : Bool := b == byte '+' || b == byte '-' || b == byte 'Z'

/-- The moment with a given day whose time starts after the separator at position `n`. -/
def timed? (s : Bytes) (date : Date) (n : Nat) : Option Moment := do
  let p := n + width (byteAt s n)
  if s.length ≤ p then none
  else
    let z := p + ((s.drop p).takeWhile fun b => !startsOffset b).length
    let c ← clock? s p z
    if z = s.length then
      if c.more then none
      else Moment.ofFields? date c.hour c.minute c.second c.micro none
    else
      let o ← offset? s z
      Moment.ofFields? date c.hour c.minute c.second c.micro (some o)

/-- The moment that a sequence of bytes stands for. -/
def moment? (s : Bytes) : Option Moment := do
  if s.length < 7 then none
  else
    let n ← timeStart? s
    let date ← day? s n
    if s.length ≤ n then some (Moment.midnight date) else timed? s date n

end IsoReading

/-- The moment that a text stands for, if it is one. -/
def Moment.ofIsoText? (s : String) : Option Moment :=
  IsoReading.moment? (IsoReading.bytesOf s)

end EntitySchema
