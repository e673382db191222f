/-
**Tables: things under names, in the order in which the names came.**

A write under a name that is there keeps the place of the name; a write under a new name adds it at
the end.  Schemas, the fields of an entity, the registry and the environment are tables.

Main definitions:

* `Table`, `Table.get?`, `Table.put`, `Table.erase`, `Table.names`, `Table.ofList`.

Main results:

* `Table.get?_put_self`, `Table.get?_put_of_ne` — **what a write changes**;
* `Table.get?_erase_of_ne` — erasing leaves the other names as they are;
* `Table.mem_names_put` — the names after a write.
-/

set_option autoImplicit false

namespace EntitySchema

universe u

/-- Things under names, in the order in which the names came. -/
abbrev Table (α : Type u) := List (String × α)

namespace Table

variable {α : Type u}

/-- The names, in order. -/
def names (t : Table α) : List String := t.map Prod.fst

/-- What stands under a name. -/
def get? : Table α → String → Option α
  | [], _ => none
  | (k, v) :: t, name => if k = name then some v else get? t name

/-- Whether a name is there. -/
def has (t : Table α) (name : String) : Bool := (get? t name).isSome

/-- A write: a name that is there keeps its place. -/
def put : Table α → String → α → Table α
  | [], name, x => [(name, x)]
  | (k, v) :: t, name, x => if k = name then (k, x) :: t else (k, v) :: put t name x

/-- The table without a name. -/
def erase (t : Table α) (name : String) : Table α := t.filter fun e => e.1 != name

/-- The table that a sequence of writes leaves. -/
def ofList (es : List (String × α)) : Table α :=
  es.foldl (fun t e => put t e.1 e.2) []

@[simp] theorem get?_nil (name : String) : get? ([] : Table α) name = none := rfl

/-- After a write the name holds what was written. -/
@[simp] theorem get?_put_self (t : Table α) (name : String) (x : α) :
    get? (put t name x) name = some x := by
  induction t with
  | nil => simp [put, get?]
  | cons e t ih =>
    obtain ⟨k, v⟩ := e
    by_cases h : k = name
    · simp [put, get?, h]
    · simp [put, get?, h, ih]

/-- A write leaves the other names as they are. -/
theorem get?_put_of_ne (t : Table α) {name other : String} (h : other ≠ name) (x : α) :
    get? (put t name x) other = get? t other := by
  induction t with
  | nil => simp [put, get?, h.symm]
  | cons e t ih =>
    obtain ⟨k, v⟩ := e
    by_cases hk : k = name
    · subst hk
      simp [put, get?, h.symm]
    · simp [put, get?, hk, ih]

/-- After erasing, the name is not there. -/
@[simp] theorem get?_erase_self (t : Table α) (name : String) :
    get? (erase t name) name = none := by
  induction t with
  | nil => rfl
  | cons e t ih =>
    obtain ⟨k, v⟩ := e
    by_cases h : k = name
    · simpa [erase, h] using ih
    · have := ih
      simp only [erase] at this
      simp [erase, get?, h, this]

/-- Erasing leaves the other names as they are. -/
theorem get?_erase_of_ne (t : Table α) {name other : String} (h : other ≠ name) :
    get? (erase t name) other = get? t other := by
  induction t with
  | nil => rfl
  | cons e t ih =>
    obtain ⟨k, v⟩ := e
    simp only [erase] at ih
    by_cases hk : k = name
    · subst hk
      simp [erase, get?, h.symm, ih]
    · simp [erase, get?, hk, ih]

/-- A table holds after a write what it held, or what was written. -/
theorem mem_put {t : Table α} {name : String} {x : α} {p : String × α} (hp : p ∈ put t name x) :
    p ∈ t ∨ p = (name, x) := by
  induction t with
  | nil => exact .inr (List.mem_singleton.1 hp)
  | cons q t ih =>
    rw [put] at hp
    split at hp
    · next heq =>
      rcases List.mem_cons.1 hp with rfl | hp
      · exact .inr (by rw [heq])
      · exact .inl (List.mem_cons_of_mem _ hp)
    · rcases List.mem_cons.1 hp with rfl | hp
      · exact .inl (List.mem_cons_self ..)
      · exact (ih hp).imp_left (List.mem_cons_of_mem _)

/-- The names after a write are those before it and the name written. -/
theorem mem_names_put (t : Table α) (name other : String) (x : α) :
    other ∈ names (put t name x) ↔ other = name ∨ other ∈ names t := by
  induction t with
  | nil => simp [put, names]
  | cons e t ih =>
    obtain ⟨k, v⟩ := e
    by_cases hk : k = name
    · subst hk
      simp [put, names]
    · simp only [put, hk, names] at ih ⊢
      simp only [if_false, List.map_cons, List.mem_cons, ih]
      constructor
      · rintro (h | h | h)
        · exact Or.inr (Or.inl h)
        · exact Or.inl h
        · exact Or.inr (Or.inr h)
      · rintro (h | h | h)
        · exact Or.inr (Or.inl h)
        · exact Or.inl h
        · exact Or.inr (Or.inr h)

end Table

end EntitySchema
