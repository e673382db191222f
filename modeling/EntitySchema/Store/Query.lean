/-
**Arguments of a query.**

A kind that is searched for in a file, and the bounds of a listing, are bound to a query.  A text
column compares a number by its text, which has fifteen significant digits, and bytes as bytes; the
absent value equals nothing.  Values of other types cannot be bound, and an integer has to fit in 64
bits with its sign.

A bound is an integer, or something that stands for one: a truth value, a number without a
fraction, or a text that reads as one of these.

Main definitions:

* `Kind.bind` — a kind that is searched for;
* `Binary64.columnText` — a number as a text column has it;
* `Bound.ofText?`, `bindBound` — a bound of a listing.
-/

import EntitySchema.Store.Record

set_option autoImplicit false

namespace EntitySchema

/-! ### Kinds -/

/-- Whether an integer has a place in 64 bits with a sign. -/
def fitsWord (n : Int) : Bool :=
  decide (-9223372036854775808 ≤ n) && decide (n < 9223372036854775808)

/-- An integer as the argument of a query. -/
def bindInt (n : Int) : Except Failure Int :=
  if fitsWord n then .ok n else .error .tooLarge

namespace Binary64

/-- A text column has numbers by position below `10 ^ 15`, and always with a point. -/
def columnLayout : Decimal.Layout := { positionalBelow := 15, pointAlways := true }

/-- A number as a text column has it, with fifteen significant digits at most; the two zeros are
one text. -/
def columnText : Binary64 → String
  | .infinite s => if s then "-Inf" else "Inf"
  | .finite s m e =>
    if m = 0 then "0.0"
    else
      let (n, d) := ratio m e
      let body := (Decimal.rounded n d 15).text columnLayout
      String.ofList (if s then '-' :: body else body)

end Binary64

/-- A kind as the argument of a query: what the column is compared with, if anything. -/
def Kind.bind : Value → Except Failure (Option Kind)
  | .null | .nan _ => .ok none
  | .str s => .ok (some (.text s))
  | .bytes bs => .ok (some (.bytes bs))
  | .bool b => .ok (some (.text (if b then "1" else "0")))
  | .int n => do .ok (some (.text (toString (← bindInt n))))
  | .float x => .ok (some (.text x.columnText))
  | .date d => .ok (some (.text d.isoText))
  | .moment m => .ok (some (.text m.plainText))
  | _ => .error .unstorableKey

/-! ### Bounds of a listing -/

namespace Bound

/-- The blanks that may stand around a number. -/
def isSpace (c : Char) : Bool :=
  c = ' ' || c = '\t' || c = '\n' || c = '\x0b' || c = '\x0c' || c = '\r'

/-- The integer that a number without a fraction is, if it lies strictly within 64 bits. -/
def ofNumber? (x : Binary64) : Option Int :=
  match x.nearestInt? with
  | none => none
  | some n =>
    if x.eqInt n && decide (-9223372036854775808 < n) && decide (n < 9223372036854775807) then
      some n
    else none

/-- The exponent after the mark for one, if that is followed by digits; and the rest. -/
def exponent? : List Char → Option (Int × List Char)
  | [] => none
  | cs =>
    let (negative, cs) := Numeral.takeSign cs
    match cs.takeWhile Char.isDigit with
    | [] => none
    | ds => some (if negative then -(ofDigits ds : Int) else ofDigits ds, cs.dropWhile Char.isDigit)

/-- The bound that a text reads as: digits with a sign, a fraction and an exponent, all of them but
some digits optional, and blanks around them.  A text of digits alone is an integer as it stands. -/
def ofText? (s : String) : Option Int :=
  let (negative, cs) := Numeral.takeSign (s.toList.dropWhile isSpace)
  let whole := cs.takeWhile Char.isDigit
  let rest := cs.dropWhile Char.isDigit
  let (point, fraction, rest) := match rest with
    | '.' :: rest => (true, rest.takeWhile Char.isDigit, rest.dropWhile Char.isDigit)
    | rest => (false, [], rest)
  let (exponent, rest) := match rest with
    | c :: cs =>
      if c = 'e' || c = 'E' then
        match exponent? cs with
        | some (e, rest) => (some e, rest)
        | none => (none, c :: cs)
      else (none, c :: cs)
    | [] => (none, [])
  if (whole.isEmpty && fraction.isEmpty) || !rest.all isSpace then none
  else if !point && exponent.isNone then
    let n : Int := ofDigits whole
    let n := if negative then -n else n
    if fitsWord n then some n else none
  else ofNumber? (Numeral.assemble negative whole fraction (exponent.getD 0))

end Bound

/-- A limit or an offset as the argument of a query: an integer, or nothing that can be one. -/
def bindBound : Value → Except Failure (Option Int)
  | .int n => do .ok (some (← bindInt n))
  | .bool b => .ok (some (if b then 1 else 0))
  | .float x => .ok (Bound.ofNumber? x)
  | .str s => .ok (Bound.ofText? s)
  | .null | .nan _ | .bytes _ | .date _ | .moment _ => .ok none
  | _ => .error .unstorableKey

end EntitySchema
