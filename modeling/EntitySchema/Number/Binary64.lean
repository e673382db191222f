/-
**Binary floating point numbers of 64 bits, exactly.**

A number is a sign with a significand and a power of two, or an infinity.  There is no value for
"not a number" here: such a value equals nothing but itself, so it belongs to the values that carry
an identity, and no arithmetic of this library makes one.

All rounding goes through `Binary64.ofRatio`, which takes an exact quotient of natural numbers to
the nearest number of the format, a tie to the even significand.  Comparison with integers is
exact: no operand is rounded first.

Main definitions:

* `roundHalfEven` — the natural number nearest to a quotient, ties to even;
* `Binary64`, `Binary64.ofRatio` — the numbers, and correct rounding;
* `Binary64.scaleDown`, `Binary64.scaleUp` — division and multiplication by a natural number;
* `Binary64.eqInt`, `Binary64.eqNumber` — equality as numbers.

Main results:

* `roundHalfEven_exact` — a quotient without remainder is not changed;
* `two_mul_roundHalfEven_le`, `le_two_mul_roundHalfEven` — **the result lies within half a unit**.
-/

set_option autoImplicit false

namespace EntitySchema

/-! ### Rounding a quotient -/

/-- The natural number nearest to `num / den`; of two that are equally near, the even one. -/
def roundHalfEven (num den : Nat) : Nat :=
  let q := num / den
  let r := num % den
  if 2 * r < den then q
  else if den < 2 * r then q + 1
  else if q % 2 = 0 then q
  else q + 1

theorem roundHalfEven_exact {den : Nat} (h : 0 < den) (q : Nat) :
    roundHalfEven (q * den) den = q := by
  simp [roundHalfEven, Nat.mul_div_cancel q h, h]

/-- The result is at most half a unit above the quotient. -/
theorem two_mul_roundHalfEven_le (num den : Nat) :
    2 * (roundHalfEven num den * den) ≤ 2 * num + den := by
  have hq : num / den * den + num % den = num := Nat.div_add_mod' num den
  simp only [roundHalfEven]
  split
  · omega
  · split
    · rw [Nat.add_mul, Nat.one_mul]; omega
    · split
      · omega
      · rw [Nat.add_mul, Nat.one_mul]; omega

/-- The result is at most half a unit below the quotient. -/
theorem le_two_mul_roundHalfEven {den : Nat} (h : 0 < den) (num : Nat) :
    2 * num ≤ 2 * (roundHalfEven num den * den) + den := by
  have hq : num / den * den + num % den = num := Nat.div_add_mod' num den
  have hr : num % den < den := Nat.mod_lt num h
  simp only [roundHalfEven]
  split
  · omega
  · split
    · rw [Nat.add_mul, Nat.one_mul]; omega
    · split
      · omega
      · rw [Nat.add_mul, Nat.one_mul]; omega

/-! ### The numbers -/

/-- A binary floating point number of 64 bits other than "not a number".  The finite number is
`± significand · 2 ^ exponent`; in canonical form its significand is below `2 ^ 53`, and below
`2 ^ 52` only where the exponent is the least one, `-1074`. -/
inductive Binary64 where
  | finite (negative : Bool) (significand : Nat) (exponent : Int)
  | infinite (negative : Bool)
  deriving DecidableEq, Repr

namespace Binary64

/-- The least exponent of the format. -/
def minExponent : Int := -1074

/-- The greatest exponent of the format. -/
def maxExponent : Int := 971

/-- Zero with a sign. -/
def zero (negative : Bool) : Binary64 := .finite negative 0 minExponent

/-- `num / den` divided by `2 ^ e`, as a quotient of natural numbers. -/
def shifted (num den : Nat) (e : Int) : Nat × Nat :=
  if 0 ≤ e then (num, den * Nat.pow 2 e.toNat) else (num * Nat.pow 2 (-e).toNat, den)

/-- The exponent at which the significand of `num / den` has 53 bits, or the least one. -/
def exponentOf (num den : Nat) : Int :=
  let k : Int := (Nat.log2 num : Int) - (Nat.log2 den : Int)
  let (n, d) := shifted num den k
  max (if n < d then k - 53 else k - 52) minExponent

/-- Correct rounding: the number nearest to `± num / den`, a tie to the even significand, and
an infinity beyond the greatest finite number. -/
def ofRatio (negative : Bool) (num den : Nat) : Binary64 :=
  if num = 0 then zero negative
  else
    let e := exponentOf num den
    let (n, d) := shifted num den e
    let q := roundHalfEven n d
    let (q, e) := if q = Nat.pow 2 53 then (Nat.pow 2 52, e + 1) else (q, e)
    if maxExponent < e then .infinite negative else .finite negative q e

/-- The number nearest to an integer. -/
def ofInt (n : Int) : Binary64 :=
  ofRatio (decide (n < 0)) n.natAbs 1

/-- The magnitude `significand · 2 ^ exponent` as an exact quotient. -/
def ratio (significand : Nat) (exponent : Int) : Nat × Nat :=
  if 0 ≤ exponent then (significand * Nat.pow 2 exponent.toNat, 1)
  else (significand, Nat.pow 2 (-exponent).toNat)

/-- Division by a natural number, correctly rounded. -/
def scaleDown (x : Binary64) (k : Nat) : Binary64 :=
  match x with
  | .finite s m e => let (n, d) := ratio m e; ofRatio s n (d * k)
  | .infinite s => .infinite s

/-- Multiplication by a natural number, correctly rounded. -/
def scaleUp (x : Binary64) (k : Nat) : Binary64 :=
  match x with
  | .finite s m e => let (n, d) := ratio m e; ofRatio s (n * k) d
  | .infinite s => .infinite s

/-- The integer nearest to a finite number, a tie to the even one. -/
def nearestInt? : Binary64 → Option Int
  | .finite s m e =>
    let (n, d) := ratio m e
    let k : Int := roundHalfEven n d
    some (if s then -k else k)
  | .infinite _ => none

/-- Whole and fractional part of a finite number, both with its sign.  The fractional part has no
more bits than the number, so it is exact. -/
def split? : Binary64 → Option (Int × Binary64)
  | .finite s m e =>
    let (n, d) := ratio m e
    let whole : Int := (n / d : Nat)
    some (if s then -whole else whole, ofRatio s (n % d) d)
  | .infinite _ => none

/-- Whether a number is zero, of either sign. -/
def isZero : Binary64 → Bool
  | .finite _ m _ => m == 0
  | .infinite _ => false

/-- Whether a number is finite. -/
def isFinite : Binary64 → Bool
  | .finite _ _ _ => true
  | .infinite _ => false

/-- Exact comparison with an integer: neither side is rounded. -/
def eqInt (x : Binary64) (n : Int) : Bool :=
  match x with
  | .finite s m e =>
    let (p, q) := ratio m e
    let k : Int := p
    (if s then -k else k) == n * (q : Int)
  | .infinite _ => false

/-- Equality as numbers: the two zeros are equal. -/
def eqNumber (x y : Binary64) : Bool :=
  (x.isZero && y.isZero) || x == y

@[simp] theorem eqNumber_self (x : Binary64) : x.eqNumber x = true := by
  simp [eqNumber]

theorem eqNumber_comm (x y : Binary64) : x.eqNumber y = y.eqNumber x := by
  simp [eqNumber, Bool.and_comm, BEq.comm]

end Binary64

end EntitySchema
