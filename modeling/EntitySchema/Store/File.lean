/-
**Stores in files.**

A file holds a table of rows in the order in which they were inserted.  A write deletes the row
under the key and inserts another at the end, as one transaction: if the record has no written form
the table stays as it was.  A listing takes the rows of a kind from the last to the first; a
negative limit is no limit, and a negative offset is none.

Main definitions:

* `FileTable`, with `get?`, `put`, `delete`, `list` and `count`;
* `FileTable.transaction` — a change that is made as a whole or not at all.

Main results:

* `FileTable.transaction_error` — **a transaction that fails leaves the table as it was.**
-/

import EntitySchema.Store.Query
import EntitySchema.Store.Written

set_option autoImplicit false

namespace EntitySchema

/-! ### Tables -/

/-- The rows of a file, in the order in which they were inserted. -/
abbrev FileTable := List Record

namespace FileTable

/-- A change of a table as a whole: if it fails, the table stays as it was. -/
def transaction (t : FileTable) (change : FileTable → Except Failure FileTable) :
    Except Failure Unit × FileTable :=
  match change t with
  | .ok t' => (.ok (), t')
  | .error e => (.error e, t)

/-- A transaction that fails leaves the table as it was. -/
theorem transaction_error (t : FileTable) (change : FileTable → Except Failure FileTable)
    (e : Failure) (h : (transaction t change).1 = .error e) : (transaction t change).2 = t := by
  simp only [transaction] at h ⊢
  split at h
  · cases h
  · rfl

/-- The row under a key. -/
def row? (t : FileTable) (kind : Option Kind) (id : String) : Option Record :=
  t.find? fun r => some r.key.kind == kind && r.key.id == id

/-- The rows that are not under a key. -/
def deleting (t : FileTable) (kind : Option Kind) (id : String) : FileTable :=
  t.filter fun r => !(some r.key.kind == kind && r.key.id == id)

/-- The data of the row under a key. -/
def get? (t : FileTable) (kind : Option Kind) (id : String) : Option Entries :=
  (row? t kind id).map Record.data

/-- Deletes the row under the key of a record and inserts the record as written. -/
def put (t : FileTable) (r : Record) : Except Failure Unit × FileTable :=
  transaction t fun t => do
    let t := deleting t (some r.key.kind) r.key.id
    .ok (t ++ [← r.written])

/-- Whether a row is under a key, and the table without it. -/
def delete (t : FileTable) (kind : Option Kind) (id : String) : Bool × FileTable :=
  ((row? t kind id).isSome, deleting t kind id)

/-- The rows of a kind, from the last to the first. -/
def ofKind (t : FileTable) (kind : Option Kind) : List Record :=
  (t.filter fun r => some r.key.kind == kind).reverse

/-- The listing of a kind: a negative limit is no limit, a negative offset is none. -/
def list (t : FileTable) (kind : Option Kind) (limit offset : Int) : List Entries :=
  let rows := (ofKind t kind).drop offset.toNat
  (if limit < 0 then rows else rows.take limit.toNat).map Record.data

/-- The number of rows of a kind. -/
def count (t : FileTable) (kind : Option Kind) : Nat :=
  (t.filter fun r => some r.key.kind == kind).length

end FileTable

end EntitySchema
