/-
**Files and their migrations.**

A file holds a table of records, once it has been made, and the list of the migrations that were
applied to it.  The names on that list are unique.  Bringing a file up to date applies the
migrations that are not on the list, in order, and puts each of them there.  Every migration leaves
a table of records, so there is one as soon as a migration was applied.

Main definitions:

* `Database` — what a file holds;
* `Migration`, `Database.migrations` — the migrations;
* `Database.migrate` — a file brought up to date;
* `Database.Current` — a file that is up to date.

Main results:

* `Database.records?_migrate` — **a file that is brought up to date has a table, with the rows that
  it had**;
* `Database.migrate_migrate` — a file that is up to date stays as it is.
-/

import EntitySchema.Store.File

set_option autoImplicit false

namespace EntitySchema

/-- What a file holds: the names of the migrations that were applied to it, which are unique, and
the table of records, which has been made if any migration was applied. -/
structure Database where
  applied : List String
  unique : applied.Nodup
  records? : Option FileTable
  made : applied ≠ [] → records?.isSome = true

/-- A migration: its name, and the table that it makes of the table of records, if there is one. -/
structure Migration where
  name : String
  change : Option FileTable → FileTable

namespace Database

/-- A file as it is made: nothing was applied to it. -/
def blank : Database := ⟨[], List.nodup_nil, none, (absurd rfl ·)⟩

/-- The rows that a file holds; there are none before the table is made. -/
def rows (db : Database) : FileTable := db.records?.getD []

/-- The rows that a file holds are those of its table. -/
theorem rows_of_records? {db : Database} {t : FileTable} (h : db.records? = some t) :
    db.rows = t := by
  rw [rows, h]
  rfl

/-- The file with other rows in its table, if that has been made. -/
def withRows (db : Database) (t : FileTable) : Database :=
  { db with
    records? := db.records?.map fun _ => t
    made := fun h => (Option.isSome_map ..).trans (db.made h) }

/-- Makes the table of records, if there is none. -/
def createRecords : Migration := ⟨"001_create_entities", fun t => t.getD []⟩

/-- The migrations, in the order in which they are applied. -/
def migrations : List Migration := [createRecords]

/-- Applies a migration, unless that was done before. -/
def apply (db : Database) (m : Migration) : Database :=
  if h : m.name ∈ db.applied then db
  else
    { applied := db.applied ++ [m.name]
      unique := by
        refine List.nodup_append.2 ⟨db.unique, by simp, ?_⟩
        rintro a ha _ hb rfl
        exact h (List.mem_singleton.1 hb ▸ ha)
      records? := some (m.change db.records?)
      made := fun _ => rfl }

/-- The file brought up to date. -/
def migrate (db : Database) : Database := migrations.foldl apply db

/-- A file is up to date: there is nothing to be applied to it. -/
def Current (db : Database) : Prop := db.migrate = db

/-- What was applied before is not applied again. -/
theorem apply_of_mem {db : Database} {m : Migration} (h : m.name ∈ db.applied) :
    db.apply m = db := dif_pos h

/-- What is applied is on the list. -/
theorem mem_applied_apply (db : Database) (m : Migration) : m.name ∈ (db.apply m).applied := by
  by_cases h : m.name ∈ db.applied
  · rw [apply_of_mem h]
    exact h
  · rw [apply, dif_neg h]
    exact List.mem_append_right _ (List.mem_singleton_self _)

/-- Where a migration was applied there is a table. -/
theorem records?_of_applied {db : Database} (h : db.applied ≠ []) :
    db.records? = some db.rows := by
  obtain ⟨t, ht⟩ := Option.isSome_iff_exists.1 (db.made h)
  rw [rows, ht]
  rfl

/-- A file that is brought up to date has a table, with the rows that it had. -/
theorem records?_migrate (db : Database) : db.migrate.records? = some db.rows := by
  show (db.apply createRecords).records? = some db.rows
  by_cases h : createRecords.name ∈ db.applied
  · rw [apply_of_mem h]
    exact records?_of_applied (List.ne_nil_of_mem h)
  · rw [apply, dif_neg h]
    rfl

/-- No migration changes the rows of the table. -/
@[simp] theorem rows_migrate (db : Database) : db.migrate.rows = db.rows :=
  rows_of_records? db.records?_migrate

/-- A file that is up to date stays as it is. -/
theorem migrate_migrate (db : Database) : db.migrate.migrate = db.migrate :=
  apply_of_mem (mem_applied_apply db createRecords)

/-- A file that was brought up to date is. -/
theorem current_migrate (db : Database) : db.migrate.Current := migrate_migrate db

/-- A file that is up to date has a table. -/
theorem Current.records? {db : Database} (h : db.Current) : db.records? = some db.rows := by
  have made := db.records?_migrate
  rwa [h] at made

/-- A file is up to date if its list of migrations is that of one that is. -/
theorem Current.of_applied {db db' : Database} (h : db.Current)
    (applied : db'.applied = db.applied) :
    db'.Current := by
  refine apply_of_mem ?_
  rw [applied, ← h]
  exact mem_applied_apply db createRecords

/-- A file stays up to date when its rows are changed. -/
theorem Current.withRows {db : Database} (h : db.Current) (t : FileTable) :
    (db.withRows t).Current := h.of_applied rfl

/-- The table of a file holds the rows that it was given. -/
theorem records?_withRows {db : Database} {t : FileTable} (h : db.records? = some t)
    (t' : FileTable) : (db.withRows t').records? = some t' :=
  congrArg (Option.map fun _ => t') h

/-- A table that is given the rows that it has stays as it is. -/
theorem withRows_self {db : Database} {t : FileTable} (h : db.records? = some t) :
    db.withRows t = db := by
  obtain ⟨applied, unique, records?, made⟩ := db
  cases h
  rfl

end Database

end EntitySchema
