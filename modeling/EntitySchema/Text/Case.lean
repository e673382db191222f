/-
**Letter case, as far as names in ASCII can tell.**

Names of settings are compared in lower case and names of levels in upper case.  Both sides of a
comparison that can succeed are ASCII, so of the two case maps of Unicode only what they send
into ASCII matters: the ASCII letters themselves, the Kelvin sign, which is a `k` in lower case,
and the dotless i and the long s, which are an `I` and an `S` in upper case.  Every other character
is kept, which leaves it outside ASCII.

Main definitions:

* `Text.lower`, `Text.upper` — the two maps on texts.
-/

set_option autoImplicit false

namespace EntitySchema

namespace Text

/-- The lower case of a character, as far as it is ASCII. -/
def lowerChar (c : Char) : Char :=
  if c = '\u212A' then 'k' else c.toLower

/-- The upper case of a character, as far as it is ASCII. -/
def upperChar (c : Char) : Char :=
  if c = '\u0131' then 'I' else if c = '\u017F' then 'S' else c.toUpper

/-- A text in lower case, as far as it is ASCII. -/
def lower (s : String) : String :=
  String.ofList (s.toList.map lowerChar)

/-- A text in upper case, as far as it is ASCII. -/
def upper (s : String) : String :=
  String.ofList (s.toList.map upperChar)

end Text

end EntitySchema
