/-
**Texts in bytes.**

Bytes stand for a text if they are its form in UTF-8.

Main definitions:

* `utf8Text?` — the text that bytes stand for.
-/

set_option autoImplicit false

namespace EntitySchema

/-- The text that a sequence of bytes is in UTF-8, if it is. -/
def utf8Text? (bs : List UInt8) : Option String := String.fromUTF8? ⟨bs.toArray⟩

end EntitySchema
