/-
**Settings.**

There are three settings: which kind of store the library opens by itself, where its database is,
and the level of its log.  Each is taken from the first place that has it: an argument, the
environment, the lines of a file of variables, its default.  The names of the variables begin alike
and are told apart without regard to letter case.

Main definitions:

* `Settings`, `Settings.read` — the settings, and where they come from;
* `Settings.databasePath` — the path in the address of the database;
* `Settings.setVariable`, `Settings.setAll` — variables of the environment;
* `Settings.readLines` — the lines of a file of variables;
* `Settings.level?` — the level that a name stands for.
-/

import EntitySchema.Failure
import EntitySchema.Store.Record
import EntitySchema.Table
import EntitySchema.Text.Blank
import EntitySchema.Text.Case

set_option autoImplicit false

namespace EntitySchema

/-- The kinds of store that the library opens by itself. -/
inductive Backend where
  | memory
  | sqlite
  deriving DecidableEq, Repr

/-- The name of a kind of store. -/
def Backend.name : Backend → String
  | .memory => "memory"
  | .sqlite => "sqlite"

/-- The settings of the library. -/
structure Settings where
  backend : Backend
  databaseUrl : String
  logLevel : Option String
  deriving DecidableEq, Repr

namespace Settings

/-- The settings where nothing is set. -/
def default : Settings :=
  { backend := .memory, databaseUrl := "sqlite+aiosqlite:///./shapeguard.db", logLevel := none }

/-! ### Where a setting comes from -/

/-- What the names of all variables begin with, in lower case. -/
def commonStart : String := "shapeguard_"

/-- The value of the variable for a setting; of several names that differ in case only, the last
counts. -/
def setIn? (vars : Table String) (setting : String) : Option String :=
  (vars.reverse.find? fun e => Text.lower e.1 == commonStart ++ setting).map Prod.snd

/-- The value given for a setting: as an argument, in the environment or in the file. -/
def given? (args : Table Value) (env file : Table String) (setting : String) : Option Value :=
  match Table.get? args setting with
  | some v => some v
  | none => ((setIn? env setting).or (setIn? file setting)).map Value.str

/-- The kind of store that a value names. -/
def backendOf : Option Value → Except Fault Backend
  | none => .ok default.backend
  | some (.str s) =>
    if s = Backend.memory.name then .ok .memory
    else if s = Backend.sqlite.name then .ok .sqlite
    else .error .notAmongLiterals
  | some _ => .error .notAmongLiterals

/-- The address that a value is. -/
def urlOf : Option Value → Except Fault String
  | none => .ok default.databaseUrl
  | some v => v.asText

/-- The level that a value names; the absent value leaves the level alone. -/
def levelOf : Option Value → Except Fault (Option String)
  | none | some .null => .ok none
  | some v => v.asText.map some

/-- The fault of a setting, if it has one. -/
def problem {α : Type} (setting : String) : Except Fault α → List Problem
  | .ok _ => []
  | .error fault => [⟨[setting], fault⟩]

/-- The settings, or everything that is wrong with them. -/
def read (args : Table Value) (env file : Table String) : Except Failure Settings :=
  let given := given? args env file
  let backend := backendOf (given "store_backend")
  let url := urlOf (given "database_url")
  let level := levelOf (given "log_level")
  match backend, url, level with
  | .ok b, .ok u, .ok l => .ok ⟨b, u, l⟩
  | _, _, _ => .error (.invalid (problem "store_backend" backend ++ problem "database_url" url ++
      problem "log_level" level))

/-! ### The database -/

/-- The path in the address of the database: what follows the last three slashes, if the address is
of the kind that has one. -/
def databasePath (s : Settings) : String :=
  if s.databaseUrl.startsWith "sqlite" then
    ((s.databaseUrl.splitOn "///").getLast?).getD ""
  else "./shapeguard.db"

/-! ### The environment -/

/-- The environment with a variable set.  Names and values hold no zero character, and a name is not
empty and holds no `=`. -/
def setVariable (env : Table String) (name value : String) : Except Failure (Table String) :=
  let held := name.toList ++ value.toList
  if held.contains '\x00' || name.toList.contains '=' then .error .badCharacter
  else if name = "" then .error .emptyName
  else .ok (Table.put env name value)

/-- The environment with variables set one after the other. -/
def setAll (env : Table String) (vars : List (String × String)) : Except Failure (Table String) :=
  vars.foldlM (fun env v => setVariable env v.1 v.2) env

/-! ### Files of variables -/

/-- The lines of a text.  A line ends at a line feed, at a carriage return, or at a carriage return
and a line feed together. -/
def lines : List Char → List (List Char)
  | [] => [[]]
  | '\r' :: '\n' :: cs => [] :: lines cs
  | c :: cs =>
    if c = '\r' ∨ c = '\n' then [] :: lines cs
    else match lines cs with
      | line :: rest => (c :: line) :: rest
      | [] => [[c]]

/-- A text without the mark of byte order that it may start with. -/
def withoutMark : List Char → List Char
  | '\ufeff' :: cs => cs
  | cs => cs

/-- A line up to a remark, which starts with a `#` after a blank. -/
def beforeRemark : List Char → List Char
  | c :: '#' :: cs => if Text.isBlank c then [] else c :: beforeRemark ('#' :: cs)
  | c :: cs => c :: beforeRemark cs
  | [] => []

/-- The variable that a line sets, if it sets one: a name and a value with a `=` between them. -/
def variableOf? (line : List Char) : Option (String × String) :=
  match Text.trimChars line with
  | [] => none
  | '#' :: _ => none
  | cs =>
    match cs.dropWhile (· != '=') with
    | [] => none
    | _ :: value =>
      some (String.ofList (Text.trimChars (cs.takeWhile (· != '='))),
        String.ofList (Text.trimChars (beforeRemark value)))

/-- The variables that a file sets, in order. -/
def readLines (text : String) : Table String :=
  Table.ofList ((lines (withoutMark text.toList)).filterMap variableOf?)

/-! ### Levels of the log -/

/-- The levels that have names. -/
def levels : Table Nat :=
  [("NOTSET", 0), ("DEBUG", 10), ("INFO", 20), ("WARN", 30), ("WARNING", 30), ("ERROR", 40),
   ("CRITICAL", 50), ("FATAL", 50)]

/-- The level that a name stands for, in any letter case. -/
def level? (name : String) : Option Nat := Table.get? levels (Text.upper name)

/-- The level of the log under the settings; none or an empty one leaves it as it is. -/
def applyLevel (s : Settings) (level : Nat) : Except Failure Nat :=
  match s.logLevel with
  | none => .ok level
  | some name =>
    if name = "" then .ok level
    else match level? name with
      | some n => .ok n
      | none => .error (.unknownLevel name)

end Settings

end EntitySchema
