/-
**Decimal texts of binary floating point numbers.**

A number is written with the fewest significant digits that read back as the same number; of the
texts with that many digits that do, the nearest to the number is taken, and of two equally near
ones the one that ends in an even digit.  Digits are placed by position from `0.0001` up to below
a power of ten that the layout names, with at least one digit after the point; elsewhere the text
has an exponent with a sign and at least two digits.

A text is read by its exact decimal value, rounded once.

Main definitions:

* `Decimal` — a sequence of digits with the position of the point;
* `Decimal.shortest`, `Decimal.rounded` — the digits of a number, as few as read back or a fixed
  count of them;
* `Decimal.Layout` — where digits are placed by position;
* `Binary64.text` — the text of a number;
* `Numeral.ofText?` — the number that a text stands for.

Main results:

* `Decimal.readsBack_of_candidate?` — **what is written reads back** as the number written.
-/

import EntitySchema.Number.Binary64
import EntitySchema.Text.Blank

set_option autoImplicit false

namespace EntitySchema

/-! ### Digits -/

/-- The decimal digits of a natural number; none for zero. -/
def digitsOf (n : Nat) : List Char :=
  if n = 0 then [] else Nat.toDigits 10 n

/-- The natural number that a sequence of decimal digits stands for. -/
def ofDigits (cs : List Char) : Nat :=
  cs.foldl (fun acc c => acc * 10 + (c.toNat - '0'.toNat)) 0

/-- The decimal number `digits / 10 ^ places`. -/
structure Decimal where
  digits : Nat
  places : Int
  deriving DecidableEq, Repr

namespace Decimal

/-- The number nearest to a decimal. -/
def toBinary64 (negative : Bool) (d : Decimal) : Binary64 :=
  if 0 ≤ d.places then Binary64.ofRatio negative d.digits (Nat.pow 10 d.places.toNat)
  else Binary64.ofRatio negative (d.digits * Nat.pow 10 (-d.places).toNat) 1

/-- The position of the first digit of `num / den`, which is positive: the least `k` with
`num / den < 10 ^ k`. -/
def leadingPlace (num den : Nat) : Int :=
  if den ≤ num then (digitsOf (num / den)).length
  else 1 - ((digitsOf ((den + num - 1) / num - 1)).length : Int)

/-- `num / den` on the grid of multiples of `10 ^ (-places)`, as an exact quotient. -/
def onGrid (num den : Nat) (places : Int) : Nat × Nat :=
  if 0 ≤ places then (num * Nat.pow 10 places.toNat, den)
  else (num, den * Nat.pow 10 (-places).toNat)

/-- Whether a decimal reads back as the magnitude `x`. -/
def readsBack (x : Binary64) (d : Decimal) : Bool :=
  d.toBinary64 false == x

/-- Of the two neighbours of `num / den` with `count` digits, the one that reads back as `x`; the
nearer if both do, and the even one if both are equally near. -/
def candidate? (x : Binary64) (num den count : Nat) : Option Decimal :=
  let places := (count : Int) - leadingPlace num den
  let (n, d) := onGrid num den places
  let below : Decimal := ⟨n / d, places⟩
  let above : Decimal := ⟨n / d + 1, places⟩
  let r := n % d
  let belowFirst := decide (2 * r < d) || (decide (2 * r = d) && decide (n / d % 2 = 0))
  (if belowFirst then [below, above] else [above, below]).find? (readsBack x)

/-- What is written reads back. -/
theorem readsBack_of_candidate? {x : Binary64} {num den count : Nat} {d : Decimal}
    (h : candidate? x num den count = some d) : d.toBinary64 false = x := by
  have key : readsBack x d = true := List.find?_some h
  simpa [readsBack] using key

/-- The decimal with the fewest digits that reads back as the positive number `num / den`, which is
`x`.  Seventeen digits always do. -/
def shortest (x : Binary64) (num den : Nat) : Decimal :=
  ((List.range 17).findSome? fun i => candidate? x num den (i + 1)).getD ⟨0, 0⟩

/-- The decimal with `count` digits that is nearest to the positive number `num / den`; half a unit
is rounded up. -/
def rounded (num den count : Nat) : Decimal :=
  let places := (count : Int) - leadingPlace num den
  let (n, d) := onGrid num den places
  ⟨(2 * n + d) / (2 * d), places⟩

/-- The same decimal without zeros at the end of its digits. -/
def trimZeros : Nat → Decimal → Decimal
  | 0, d => d
  | fuel + 1, d =>
    if d.digits % 10 = 0 ∧ d.digits ≠ 0 then trimZeros fuel ⟨d.digits / 10, d.places - 1⟩ else d

/-- How a decimal is laid out. -/
structure Layout where
  /-- From this power of ten on the text has an exponent. -/
  positionalBelow : Int
  /-- Whether a single digit before an exponent is followed by a point and a zero. -/
  pointAlways : Bool
  deriving DecidableEq, Repr

/-- The text of a positive decimal. -/
def text (layout : Layout) (d : Decimal) : List Char :=
  let d := trimZeros 18 d
  let ds := digitsOf d.digits
  let point : Int := ds.length - d.places
  if -4 < point ∧ point ≤ layout.positionalBelow then
    if point ≤ 0 then '0' :: '.' :: List.replicate (-point).toNat '0' ++ ds
    else
      let k := point.toNat
      if ds.length ≤ k then ds ++ List.replicate (k - ds.length) '0' ++ ['.', '0']
      else ds.take k ++ '.' :: ds.drop k
  else
    let e := point - 1
    let es := Nat.toDigits 10 e.natAbs
    let mantissa :=
      if ds.length ≤ 1 then (if layout.pointAlways then ds ++ ['.', '0'] else ds)
      else ds.take 1 ++ '.' :: ds.drop 1
    mantissa ++ 'e' :: (if e < 0 then '-' else '+') ::
      (List.replicate (2 - es.length) '0' ++ es)

end Decimal

namespace Binary64

/-- The magnitude of a number. -/
def abs : Binary64 → Binary64
  | .finite _ m e => .finite false m e
  | .infinite _ => .infinite false

/-- Numbers are written by position below `10 ^ 16`, and a single digit stands alone before an
exponent. -/
def layout : Decimal.Layout := { positionalBelow := 16, pointAlways := false }

/-- The text of a number. -/
def text (x : Binary64) : String :=
  match x with
  | .infinite s => if s then "-inf" else "inf"
  | .finite s m e =>
    let body :=
      if m = 0 then ['0', '.', '0']
      else
        let (n, d) := ratio m e
        (Decimal.shortest x.abs n d).text layout
    String.ofList (if s then '-' :: body else body)

end Binary64

/-! ### Reading -/

/-- What the text of a floating point number stands for. -/
inductive Numeral where
  | number (x : Binary64)
  | nan
  deriving DecidableEq, Repr

namespace Numeral

/-- Digits with at most one underscore between two of them; what follows is the rest. -/
def takeDigits : List Char → List Char × List Char
  | [] => ([], [])
  | c :: cs =>
    if c.isDigit then
      match cs with
      | '_' :: d :: rest =>
        if d.isDigit then let (ds, rest) := takeDigits (d :: rest); (c :: ds, rest)
        else ([c], '_' :: d :: rest)
      | cs => let (ds, rest) := takeDigits cs; (c :: ds, rest)
    else ([], c :: cs)

/-- A sign, if there is one: whether it is a minus, and the rest. -/
def takeSign : List Char → Bool × List Char
  | '-' :: cs => (true, cs)
  | '+' :: cs => (false, cs)
  | cs => (false, cs)

/-- The exponent part of a text, if it is one as a whole. -/
def exponent? : List Char → Option Int
  | [] => some 0
  | c :: cs =>
    if c = 'e' ∨ c = 'E' then
      let (negative, cs) := takeSign cs
      match takeDigits cs with
      | ([], _) => none
      | (ds, []) => some (if negative then -(ofDigits ds : Int) else ofDigits ds)
      | (_, _ :: _) => none
    else none

/-- The number with the given digits before and after the point and the given exponent.  Far
beyond the range of the format the exponent alone decides. -/
def assemble (negative : Bool) (whole fraction : List Char) (e : Int) : Binary64 :=
  let digits := ofDigits (whole ++ fraction)
  let places : Int := fraction.length - e
  let size : Int := (digitsOf digits).length - places
  if digits = 0 ∨ size < -400 then .zero negative
  else if 400 < size then .infinite negative
  else Decimal.toBinary64 negative ⟨digits, places⟩

/-- The number that a decimal text stands for; blanks around it do not count. -/
def ofText? (s : String) : Option Numeral :=
  let (negative, cs) := takeSign (Text.trimChars s.toList)
  let word := String.ofList (cs.map Char.toLower)
  if word = "inf" ∨ word = "infinity" then some (.number (.infinite negative))
  else if word = "nan" then some .nan
  else
    let (whole, rest) := takeDigits cs
    let (fraction, rest) := match rest with
      | '.' :: rest => takeDigits rest
      | rest => ([], rest)
    if whole.isEmpty && fraction.isEmpty then none
    else (exponent? rest).map fun e => .number (assemble negative whole fraction e)

end Numeral

end EntitySchema
