/-
**The tree of files.**

A place in the tree is the list of steps that lead to it from the root, and holds a directory or a
file with a database.  A path starts at the root or at the working directory, and `..` goes back one
step.  Directories on the way to a file are made when a store connects to it; a file that is not
there is made, too.

A file is worked on beside another whose name is eight bytes longer.  A name that leaves no room
for that can be opened and then not be used.  The name `:memory:` stands for no file: every
connection to it has a file of its own, which is lost with the connection.

Main definitions:

* `Place`, `Node`, `Disk` — the tree;
* `normalPath`, `Path.ofText` — paths without idle steps;
* `Disk.walk`, `Disk.make`, `Disk.ensure` — following a path, and making directories;
* `Link`, `Disk.connect` — what a store is connected to;
* `Disk.migrate` — bringing the file of a connection up to date.

Main results:

* `Disk.node?_put_self`, `Disk.node?_put_of_ne` — **what a write changes.**
-/

import EntitySchema.Store.Database

set_option autoImplicit false

namespace EntitySchema

/-! ### Places -/

/-- A place in the tree of files: the steps that lead to it from the root. -/
abbrev Place := List String

/-- What stands in a place. -/
inductive Node where
  | directory
  | file (db : Database)

/-- The tree of files: what stands in the places that hold something. -/
abbrev Disk := List (Place × Node)

namespace Disk

/-- The place of the working directory. -/
def working : Place := ["tmp", "00000000000"]

/-- The tree at the start: the working directory is empty. -/
def initial : Disk := [([], .directory), (["tmp"], .directory), (working, .directory)]

/-- What stands in a place. -/
def node? : Disk → Place → Option Node
  | [], _ => none
  | (q, n) :: d, p => if q = p then some n else node? d p

/-- The tree with something else in a place. -/
def put (d : Disk) (p : Place) (n : Node) : Disk := (p, n) :: d.filter fun e => e.1 != p

/-- What the file in a place holds. -/
def database (d : Disk) (p : Place) : Database :=
  match d.node? p with
  | some (.file db) => db
  | _ => .blank

/-- The rows of the file in a place. -/
def table (d : Disk) (p : Place) : FileTable := (d.database p).rows

/-- The place holds what was put there. -/
@[simp] theorem node?_put_self (d : Disk) (p : Place) (n : Node) :
    node? (put d p n) p = some n := by
  simp [put, node?]

/-- Taking one place away leaves the others. -/
theorem node?_filter_of_ne (d : Disk) {p q : Place} (h : q ≠ p) :
    node? (d.filter fun e => e.1 != p) q = node? d q := by
  induction d with
  | nil => rfl
  | cons e d ih =>
    obtain ⟨r, n⟩ := e
    by_cases hr : r = p
    · subst hr
      simp [node?, h.symm, ih]
    · simp [node?, hr, ih]

/-- A write leaves the other places as they are. -/
theorem node?_put_of_ne (d : Disk) {p q : Place} (h : q ≠ p) (n : Node) :
    node? (put d p n) q = node? d q := by
  simp [put, node?, h.symm, node?_filter_of_ne d h]

/-- The tables of all files. -/
def tables (d : Disk) : List FileTable :=
  d.filterMap fun e =>
    match e.2 with
    | .file db => db.records?
    | .directory => none

end Disk

/-! ### Paths -/

/-- The path of a file without empty and `.` steps; the empty path is `.`. -/
def normalPath (path : String) : String :=
  let steps := (path.splitOn "/").filter fun s => s != "" && s != "."
  let root := if path.startsWith "///" then "/"
    else if path.startsWith "//" then "//"
    else if path.startsWith "/" then "/" else ""
  let body := root ++ "/".intercalate steps
  if body = "" then "." else body

/-- A path: the place where it starts, and its steps. -/
structure Path where
  base : Place
  steps : List String
  deriving DecidableEq, Repr

namespace Path

/-- The path that a text is. -/
def ofText (text : String) : Path :=
  { base := if text.startsWith "/" then [] else Disk.working
    steps := (text.splitOn "/").filter fun s => s != "" && s != "." }

/-- The path without its last step. -/
def parent (p : Path) : Path := { p with steps := p.steps.dropLast }

/-- The number of bytes of a sequence of steps, each after a slash. -/
def size (steps : List String) : Nat := steps.foldl (fun n s => n + (s.utf8ByteSize + 1)) 0

/-- The longest name of a file or directory, in bytes. -/
def longestName : Nat := 255

/-- The longest text of a path, in bytes. -/
def longest : Nat := 4095

/-- The longest place, in bytes, that a store can work in. -/
def longestPlace : Nat := 504

/-- The number of bytes that the name of the file beside a file is longer. -/
def beside : Nat := 8

/-- The place that a path names if every step on the way is a directory. -/
def place (p : Path) : Place :=
  p.steps.foldl (fun q s => if s = ".." then q.dropLast else q ++ [s]) p.base

/-- Whether all texts of a path are free of the character that ends a text. -/
def clean (p : Path) : Bool := p.steps.all fun s => s.toList.all (· != '\x00')

end Path

/-! ### Following a path -/

namespace Disk

/-- The place that steps lead to from a place.  All places on the way have to be directories. -/
def walk (d : Disk) : Place → List String → Except Blockage Place
  | p, [] => .ok p
  | p, s :: ss =>
    match d.node? p with
    | none => .error .missing
    | some (.file _) => .error .notDirectory
    | some .directory =>
      if s = ".." then walk d p.dropLast ss
      else if Path.longestName < s.utf8ByteSize then .error .nameTooLong
      else walk d (p ++ [s]) ss

/-- Makes the directory that a path names. -/
def make (d : Disk) (base : Place) (steps : List String) : Except Blockage Disk :=
  if Path.longest < Path.size steps then .error .nameTooLong
  else do
    let p ← d.walk base steps
    match d.node? p with
    | some _ => .error .occupied
    | none => .ok (d.put p .directory)

/-- Lets pass that a directory could not be made because there is one. -/
def allow (d : Disk) (base : Place) (steps : List String) (b : Blockage) : Except Blockage Unit :=
  if b = .missing then .error b
  else match d.walk base steps with
    | .ok p =>
      match d.node? p with
      | some .directory => .ok ()
      | _ => .error b
    | .error _ => .error b

/-- Makes the directory that a path names and those above it, where they are not there.  The last
step comes first. -/
def ensure (d : Disk) (base : Place) : List String → Except Blockage Unit × Disk
  | [] => (.ok (), d)
  | s :: above =>
    let steps := (s :: above).reverse
    match d.make base steps with
    | .ok made => (.ok (), made)
    | .error .missing =>
      match ensure d base above with
      | (.ok (), d) =>
        match d.make base steps with
        | .ok made => (.ok (), made)
        | .error b => (d.allow base steps b, d)
      | r => r
    | .error b => (d.allow base steps b, d)

end Disk

/-! ### Connections -/

/-- What a store is connected to: nothing, the file in a place, a file of its own that stands in no
place, or a file that cannot be used. -/
inductive Link where
  | closed
  | file (p : Place)
  | own (db : Database)
  | unusable
  deriving Inhabited

namespace Disk

/-- Opens the file in a place; one that is not there is made. -/
def openPlace (d : Disk) (p : Place) : Except Blockage Link × Disk :=
  let name := p.getLast?.getD ""
  let link := if Path.longestName < name.utf8ByteSize + Path.beside then Link.unusable else .file p
  if Path.longestPlace < Path.size p ∨ Path.longestName < name.utf8ByteSize then
    (.error .cannotOpen, d)
  else match d.node? p, d.node? p.dropLast with
    | some (.file _), _ => (.ok link, d)
    | none, some .directory => (.ok link, d.put p (.file .blank))
    | _, _ => (.error .cannotOpen, d)

/-- Brings the file of a connection up to date. -/
def migrate (d : Disk) : Link → Disk
  | .file p => d.put p (.file (d.database p).migrate)
  | _ => d

/-- Connects to what a path names: makes the directories above it, opens it and brings it up to
date. -/
def connect (d : Disk) (path : String) : Except Blockage Link × Disk :=
  if path = ":memory:" then (.ok (.own Database.blank.migrate), d)
  else
    let p := Path.ofText path
    if !p.parent.clean then (.error .badCharacter, d)
    else match d.ensure p.base p.parent.steps.reverse with
      | (.error b, d) => (.error b, d)
      | (.ok (), d) =>
        if p.clean then
          match d.openPlace p.place with
          | (.ok link, d) => (.ok link, d.migrate link)
          | (.error b, d) => (.error b, d)
        else (.error .badCharacter, d)

end Disk

end EntitySchema
