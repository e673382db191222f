/-
**Attributes of the values of a session.**

Objects and functions keep their attributes in the heap.  An ordered dictionary and a stamp can be
given attributes as well, though their types are not of a session's making; each keeps its own, told
by its token.  What belongs to the type in a way that cannot be hidden stays: the type itself, and
the parts of a moment.

Main definitions:

* `Session.attribute?` — the attribute of a value of a given name;
* `Session.setAttribute` — gives an attribute a value.

Main results:

* `Session.attribute?_of_not_open` — other values have the attributes that the heap tells;
* `Session.givenTo_setGiven_self`, `Session.givenTo_setGiven_of_ne` — **what a value is given is its
  own.**
-/

import EntitySchema.Session

set_option autoImplicit false

namespace EntitySchema

namespace Session

/-- Whether a value that is no object and no function can be given attributes. -/
def isOpen : Value → Bool
  | .ordered _ | .stamp _ => true
  | _ => false

/-- Whether a name tells a part of the value, which cannot be hidden. -/
def isPart (v : Value) (name : String) : Bool :=
  match v with
  | .stamp m => (Value.momentAttribute? m name).isSome && name != "min" && name != "max" &&
      name != "resolution"
  | _ => false

/-- The attributes that a value of a token was given. -/
def givenTo (s : Session) (token : Nat) : Table Value :=
  ((s.given.find? fun e => e.1 == token).map Prod.snd).getD []

/-- The attribute of a value of a given name. -/
def attribute? (s : Session) (token : Nat) (v : Value) (name : String) : Option Value :=
  let told := Heap.attribute? s.catalog s.heap token v name
  if isOpen v then
    if name = "__dict__" then some (.dict ((s.givenTo token).map fun p => (.str p.1, p.2)))
    else if name = "__class__" ∨ name = "__weakref__" ∨ isPart v name then told
    else (Table.get? (s.givenTo token) name).or told
  else told

/-- Other values have the attributes that the heap tells. -/
theorem attribute?_of_not_open (s : Session) (token : Nat) {v : Value} (hv : isOpen v = false)
    (name : String) :
    attribute? s token v name = Heap.attribute? s.catalog s.heap token v name := by
  simp [attribute?, hv]

/-- The session with other attributes for a value of a token. -/
def setGiven (s : Session) (token : Nat) (attributes : Table Value) : Session :=
  { s with given := (token, attributes) :: s.given.filter fun e => e.1 != token }

@[simp] theorem givenTo_setGiven_self (s : Session) (token : Nat) (attributes : Table Value) :
    (s.setGiven token attributes).givenTo token = attributes := by
  simp [givenTo, setGiven]

/-- What a value is given leaves the others as they are. -/
theorem givenTo_setGiven_of_ne (s : Session) {token other : Nat} (h : other ≠ token)
    (attributes : Table Value) :
    (s.setGiven token attributes).givenTo other = s.givenTo other := by
  have skip : (token == other) = false := by simpa using h.symm
  simp only [givenTo, setGiven, List.find?_cons, skip, List.find?_filter]
  congr 3
  funext e
  by_cases he : e.1 = other <;> simp [he, h]

/-- Gives an attribute of a value a value. -/
def setAttribute (token : Nat) (target : Value) (name : String) (v : Value) : Action Unit := do
  let s ← get
  if isOpen target then
    if name = "__class__" then throw (.misuse .notAClass)
    else if name = "__weakref__" ∨ isPart target name then throw (.readOnly name)
    else if name = "__dict__" then
      set (s.setGiven token (← ofExcept (Heap.namedAttributes v)))
    else set (s.setGiven token (Table.put (s.givenTo token) name v))
  else
    let h ← ofExcept (s.heap.setAttribute target name v)
    set { s with heap := h }

end Session

end EntitySchema
