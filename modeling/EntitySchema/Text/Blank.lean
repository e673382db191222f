/-
**Blank characters and the trimming of texts.**

A character is *blank* if it separates words or lines: the white space of Unicode together with the
four information separators U+001C to U+001F.  The class is wider than that of
`Char.isWhitespace`, and it leaves out the zero-width characters U+180E, U+200B and U+FEFF.

Main definitions:

* `Text.isBlank` — the class;
* `Text.trim` — a text without the blanks at its two ends.

Main results:

* `Text.isBlank_of_isWhitespace` — the class contains that of `Char.isWhitespace`;
* `Text.trimStart_eq_self`, `Text.trim_eq_self` — a text that neither starts nor ends with a blank
  is kept as it is.
-/

set_option autoImplicit false

namespace EntitySchema

namespace Text

/-- The ranges of code points that are blank, both ends included. -/
def blankRanges : List (Nat × Nat) :=
  [(0x09, 0x0D), (0x1C, 0x20), (0x85, 0x85), (0xA0, 0xA0), (0x1680, 0x1680), (0x2000, 0x200A),
   (0x2028, 0x2029), (0x202F, 0x202F), (0x205F, 0x205F), (0x3000, 0x3000)]

/-- Whether a character is blank. -/
def isBlank (c : Char) : Bool :=
  blankRanges.any fun r => decide (r.1 ≤ c.toNat) && decide (c.toNat ≤ r.2)

/-- The class contains the white space of ASCII. -/
theorem isBlank_of_isWhitespace (c : Char) (h : c.isWhitespace = true) : isBlank c = true := by
  simp only [Char.isWhitespace, Bool.or_eq_true, decide_eq_true_eq] at h
  rcases h with ((rfl | rfl) | rfl) | rfl <;> decide

/-- The characters from the first that is not blank on. -/
def trimStart (cs : List Char) : List Char :=
  cs.dropWhile isBlank

/-- The characters between the first and the last that is not blank. -/
def trimChars (cs : List Char) : List Char :=
  (trimStart (trimStart cs).reverse).reverse

/-- A text without the blanks at its two ends. -/
def trim (s : String) : String :=
  String.ofList (trimChars s.toList)

theorem trimStart_eq_self {c : Char} {cs : List Char} (h : isBlank c = false) :
    trimStart (c :: cs) = c :: cs := by
  simp [trimStart, h]

/-- A text between two characters that are not blank is kept as it is. -/
theorem trim_eq_self {c d : Char} {cs : List Char} (hc : isBlank c = false)
    (hd : isBlank d = false) : trimChars (c :: (cs ++ [d])) = c :: (cs ++ [d]) := by
  simp [trimChars, trimStart_eq_self hc, trimStart_eq_self hd]

end Text

end EntitySchema
