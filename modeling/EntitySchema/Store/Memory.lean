/-
**Stores in memory.**

A store in memory keeps its records in the order in which they were last written.  Under a key that
is there already a write takes the old record away first, so the new one comes last.  A listing
tells the newest first and cuts a window out of that, whose bounds may count from the end.

What serves as a kind in a search may be any value.  One that no record can be filed under finds
nothing; one that cannot be a key at all is refused where a single record is searched for.

Main definitions:

* `MemoryStore`, with `get?`, `put`, `delete`, `list` and `count`.

Main results:

* `MemoryStore.get?_put_self`, `MemoryStore.get?_put_of_ne` — **what a write changes.**
-/

import EntitySchema.Store.Record

set_option autoImplicit false

namespace EntitySchema

/-- The records of a store in memory, those written last at the end. -/
abbrev MemoryStore := List Record

namespace MemoryStore

/-- The data of the record under a key. -/
def get? (s : MemoryStore) (key : RecordKey) : Option Entries :=
  (s.find? fun r => r.key == key).map Record.data

/-- The store without the record under a key. -/
def without (s : MemoryStore) (key : RecordKey) : MemoryStore :=
  s.filter fun r => r.key != key

/-- The store with a record as the newest. -/
def put (s : MemoryStore) (r : Record) : MemoryStore := without s r.key ++ [r]

/-- Whether there is a record under a key, and the store without it. -/
def delete (s : MemoryStore) (key : RecordKey) : Bool × MemoryStore :=
  ((get? s key).isSome, without s key)

/-- The data of all records of a kind, the newest first. -/
def ofKind (s : MemoryStore) (kind : Kind) : List Entries :=
  (s.reverse.filter fun r => r.key.kind == kind).map Record.data

/-- The window of a listing that starts at `offset` and is `limit` long. -/
def list (s : MemoryStore) (kind : Kind) (limit offset : Int) : List Entries :=
  window (ofKind s kind) offset (offset + limit)

/-- The number of records of a kind. -/
def count (s : MemoryStore) (kind : Kind) : Nat :=
  (s.filter fun r => r.key.kind == kind).length

/-! ### What a write changes -/

/-- Taking one record away leaves the others. -/
theorem get?_without_of_ne (s : MemoryStore) {key other : RecordKey} (h : other ≠ key) :
    get? (without s key) other = get? s other := by
  have same : (fun r : Record => decide ((r.key != key) = true ∧ (r.key == other) = true)) =
      fun r => r.key == other := by
    funext r
    by_cases hr : r.key = other
    · simp [hr, h]
    · simp [hr]
  simp only [get?, without, List.find?_filter, same]

/-- A record taken away is not found. -/
@[simp] theorem get?_without_self (s : MemoryStore) (key : RecordKey) :
    get? (without s key) key = none := by
  simp [get?, without, List.find?_eq_none]

/-- After a write the key holds the data written. -/
@[simp] theorem get?_put_self (s : MemoryStore) (r : Record) :
    get? (put s r) r.key = some r.data := by
  have h := get?_without_self s r.key
  simp only [get?, Option.map_eq_none_iff] at h
  simp [get?, put, List.find?_append, h]

/-- A write leaves the other keys as they are. -/
theorem get?_put_of_ne (s : MemoryStore) {r : Record} {key : RecordKey} (hk : key ≠ r.key) :
    get? (put s r) key = get? s key := by
  have h := get?_without_of_ne s hk
  simp only [get?] at h ⊢
  simp only [put, List.find?_append, List.find?_cons, List.find?_nil]
  have : (r.key == key) = false := by simpa using hk.symm
  simp [this, h]

end MemoryStore

end EntitySchema
