/-
**Quoted texts.**

A text is written between single quotation marks, or between double ones if it holds a single one
and no double one.  The quotation mark in use and the backslash are written with a backslash
before them, tabulators and line ends by their letters, and every other character that is not
printable by its code point in hexadecimal digits.

Main definitions:

* `Text.hex` — a number in hexadecimal digits of a least width;
* `Text.quoteMark` — which of the two marks a text is written with;
* `Text.quoted` — the written form of a text;
* `Text.quotedBytes` — the written form of a sequence of bytes, which has the mark `b` in front.
-/

import EntitySchema.Text.Printable

set_option autoImplicit false

namespace EntitySchema

namespace Text

/-- A number in lower-case hexadecimal digits, filled with zeros to at least `width` of them. -/
def hex (width n : Nat) : List Char :=
  let digits := Nat.toDigits 16 n
  List.replicate (width - digits.length) '0' ++ digits

/-- Double quotation marks serve only a text that holds a single one and no double one. -/
def quoteMark (cs : List Char) : Char :=
  if cs.contains '\'' && !cs.contains '"' then '"' else '\''

/-- The escapes that every quoted form shares: the mark in use, the backslash and line control. -/
def escapeCommon? (mark c : Char) : Option (List Char) :=
  if c = mark ∨ c = '\\' then some ['\\', c]
  else if c = '\t' then some ['\\', 't']
  else if c = '\n' then some ['\\', 'n']
  else if c = '\r' then some ['\\', 'r']
  else none

/-- A character that is not printable is written by the shortest of the three widths that holds
its code point. -/
def escapeCode (n : Nat) : List Char :=
  if n < 0x100 then '\\' :: 'x' :: hex 2 n
  else if n < 0x10000 then '\\' :: 'u' :: hex 4 n
  else '\\' :: 'U' :: hex 8 n

/-- One character of a text as it is written between the marks. -/
def escape (mark c : Char) : List Char :=
  (escapeCommon? mark c).getD (if isPrintable c then [c] else escapeCode c.toNat)

/-- The written form of a text. -/
def quoted (s : String) : String :=
  let cs := s.toList
  let mark := quoteMark cs
  String.ofList (mark :: cs.flatMap (escape mark) ++ [mark])

/-- The written form of a sequence of bytes: those of printable ASCII stand for themselves. -/
def quotedBytes (bytes : List UInt8) : String :=
  let cs := bytes.map fun b => Char.ofNat b.toNat
  let mark := quoteMark cs
  let body := cs.flatMap fun c =>
    (escapeCommon? mark c).getD
      (if 0x20 ≤ c.toNat ∧ c.toNat < 0x7F then [c] else '\\' :: 'x' :: hex 2 c.toNat)
  String.ofList ('b' :: mark :: body ++ [mark])

end Text

end EntitySchema
