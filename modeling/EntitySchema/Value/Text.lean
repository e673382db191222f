/-
**Values as text.**

A value has a *shown* form, which is what a message or a record's name holds, and a *written* form,
which is what stands inside containers.  They differ for texts, days and moments, which are shown
bare.  How an object is written depends on its state, so it is a parameter.

Main definitions:

* `Value.writeWith` — the written form, for a given form of objects;
* `Value.showWith` — the shown form, likewise;
* `Value.write`, `Value.toText` — the two forms of values that hold no object.
-/

import EntitySchema.Number.Decimal
import EntitySchema.Calendar.IsoText
import EntitySchema.Text.Quoted
import EntitySchema.Value

set_option autoImplicit false

namespace EntitySchema

/-! ### The written form of days and moments -/

namespace Moment

/-- A span of time in microseconds: whole days, then seconds and microseconds of the rest that are
not zero. -/
def writeSpan (span : Int) : String :=
  let days := span.fdiv microsPerDay
  let rest := (span.fmod microsPerDay).toNat
  let parts := [("days", days), ("seconds", (rest / 1000000 : Nat)),
    ("microseconds", (rest % 1000000 : Nat))].filter fun p => p.2 != 0
  let body := if parts.isEmpty then "0"
    else ", ".intercalate (parts.map fun p => p.1 ++ "=" ++ toString p.2)
  "datetime.timedelta(" ++ body ++ ")"

/-- An offset from UTC; that of UTC itself has a name. -/
def writeZone (offset : Int) : String :=
  if offset = 0 then "datetime.timezone.utc"
  else "datetime.timezone(" ++ writeSpan offset ++ ")"

/-- A moment as a call of its type: the seconds only if something below the minutes is not zero,
the microseconds only if they are not. -/
def write (typeName : String) (m : Moment) : String :=
  let below := if m.micro ≠ 0 then [m.second, m.micro]
    else if m.second ≠ 0 then [m.second] else []
  let fields := [m.date.year, m.date.month, m.date.day, m.hour, m.minute] ++ below
  let zone := match m.offset with
    | none => []
    | some o => ["tzinfo=" ++ writeZone o]
  typeName ++ "(" ++ ", ".intercalate (fields.map toString ++ zone) ++ ")"

end Moment

/-- A day as a call of its type. -/
def Date.write (d : Date) : String :=
  "datetime.date(" ++ ", ".intercalate ([d.year, d.month, d.day].map toString) ++ ")"

namespace Value

/-- A truth value by its name. -/
def boolText (b : Bool) : String := if b then "True" else "False"

/-- A tuple between parentheses; a single element is followed by a comma. -/
def tupleText : List String → String
  | [x] => "(" ++ x ++ ",)"
  | xs => "(" ++ ", ".intercalate xs ++ ")"

section

variable {m : Type → Type} [Monad m]

/-- A class between angle brackets. -/
def writeClass : ClassValue → String
  | .entity c => "<class of entities " ++ toString c ++ ">"
  | .plain => "<class 'Obj'>"
  | .builtin name => "<class " ++ Text.quoted name ++ ">"

/-- A method between angle brackets, with what it belongs to; `object` writes objects. -/
def writeMethod (object : Address → m String) (owner : Owner) (name : String) : m String :=
  match owner with
  | .object a => do
    let receiver ← object a
    pure ("<bound method Entity." ++ name ++ " of " ++ receiver ++ ">")
  | .cls c => pure ("<bound method Entity." ++ name ++ " of " ++ writeClass (.entity c) ++ ">")
  | .value token => pure ("<built-in method " ++ name ++ " at " ++ toString token ++ ">")
  | .constant text => pure ("<built-in method " ++ name ++ " of " ++ text ++ ">")

mutual

/-- The written form of a value; `object` writes objects. -/
def writeWith (object : Address → m String) : Value → m String
  | .null => pure "None"
  | .bool b => pure (boolText b)
  | .int n => pure (toString n)
  | .float x => pure x.text
  | .nan _ => pure "nan"
  | .str s => pure (Text.quoted s)
  | .bytes bs => pure (Text.quotedBytes bs)
  | .list xs => do pure ("[" ++ ", ".intercalate (← writeItems object xs) ++ "]")
  | .tuple xs => do pure (tupleText (← writeItems object xs))
  | .set [] => pure "set()"
  | .set (x :: xs) => do
    pure ("\x7b" ++ ", ".intercalate (← writeItems object (x :: xs)) ++ "\x7d")
  | .dict es => do pure ("\x7b" ++ ", ".intercalate (← writeEntries object es) ++ "\x7d")
  | .ordered [] => pure "OrderedDict()"
  | .ordered (e :: es) => do
    pure ("OrderedDict([" ++ ", ".intercalate (← writePairs object (e :: es)) ++ "])")
  | .date d => pure d.write
  | .moment t => pure (t.write "datetime.datetime")
  | .stamp t => pure (t.write "Stamp")
  | .zone o => pure (Moment.writeZone o)
  | .object a => object a
  | .function a => pure ("<function at " ++ toString a ++ ">")
  | .method owner name => writeMethod object owner name
  | .cls c => pure (writeClass c)
  | .checker c f => pure ("<checker " ++ f ++ " of class " ++ toString c ++ ">")
  | .store i => pure ("<store " ++ toString i ++ ">")
  | .thing name => pure ("<" ++ name ++ " object>")
termination_by structural v => v

/-- The written forms of the items of a list. -/
def writeItems (object : Address → m String) : List Value → m (List String)
  | [] => pure []
  | x :: xs => do
    let t ← writeWith object x
    pure (t :: (← writeItems object xs))
termination_by structural xs => xs

/-- The entries of a dictionary, each with a colon between key and value. -/
def writeEntries (object : Address → m String) : Entries → m (List String)
  | [] => pure []
  | (k, v) :: es => do
    let t ← writeWith object k
    let u ← writeWith object v
    pure ((t ++ ": " ++ u) :: (← writeEntries object es))
termination_by structural es => es

/-- The entries of a dictionary as pairs. -/
def writePairs (object : Address → m String) : Entries → m (List String)
  | [] => pure []
  | (k, v) :: es => do
    let t ← writeWith object k
    let u ← writeWith object v
    pure (tupleText [t, u] :: (← writePairs object es))
termination_by structural es => es

end

/-- The shown form of a value: texts, days and moments bare, all else as written. -/
def showWith (object : Address → m String) : Value → m String
  | .str s => pure s
  | .date d => pure d.isoText
  | .moment t | .stamp t => pure t.plainText
  | .zone o => pure (if o = 0 then "UTC" else "UTC" ++ String.ofList (Moment.offsetChars o))
  | v => writeWith object v

end

/-- The written form of a value that holds no object. -/
def write (v : Value) : String :=
  Id.run (writeWith (fun _ => pure "<object>") v)

/-- The shown form of a value that holds no object. -/
def toText (v : Value) : String :=
  Id.run (showWith (fun _ => pure "<object>") v)

@[simp] theorem toText_str (s : String) : toText (.str s) = s := rfl

end Value

end EntitySchema
