/-
**Saving and deleting entities.**

To save an entity that stands by itself is to identify it, to validate it, and to put what its store
keeps of its raw data under its kind and the text of its identifier.  If that fails only the
identifier was given.  To delete it is to delete that record; an entity without an identifier has
none.

Main definitions:

* `Entries.keptIn` — what a store keeps of data;
* `Session.identified`, `Session.identifierOf` — an entity that has been given an identifier;
* `Heap.Ordinary` — an entity that is asked through its class alone.

Main results:

* `Session.keptOf_eq` — of data a store keeps something, in memory as in a file;
* `Persistence.save_of_data` — what passes its validation and tells data is saved;
* `Persistence.save_eq` — **saving puts what is kept of the raw data, or fails**;
* `Persistence.delete_eq` — **deleting deletes what is kept, or fails.**
-/

import EntitySchema.Proofs.Finding
import EntitySchema.Proofs.Standing

set_option autoImplicit false

namespace EntitySchema

/-! ### What a store keeps of data -/

/-- What a store keeps of data: in memory the data, and in a file their plain form. -/
def Entries.keptIn (inFile : Bool) (es : Entries) : Entries :=
  if inFile then (Value.dict es).plainForm.entries?.getD [] else es

namespace Entries

variable {es : Entries} (h : (Value.dict es).IsData)

include h

theorem plainForm_eq_keptIn : (Value.dict es).plainForm = .dict (es.keptIn true) := by
  obtain ⟨ds, hds, -⟩ := Value.plainForm_dict h
  rw [keptIn, if_pos rfl, hds]
  rfl

theorem written_keptIn : (Value.dict es).written = .ok (.dict (es.keptIn true)) := by
  rw [Value.written_of_isData h, plainForm_eq_keptIn h]

/-- What is kept of data is data. -/
theorem isData_keptIn (inFile : Bool) : (Value.dict (es.keptIn inFile)).IsData := by
  cases inFile with
  | false => exact h
  | true =>
    rw [← plainForm_eq_keptIn h]
    exact Value.isData_plainForm h

/-- What is kept of raw data in normal form is in normal form. -/
theorem normal_keptIn {g : Catalog} (hg : g.WellFormed) {cls : ClassId}
    (hn : g.Normal (.entity cls) (.dict es) (.dict es)) (inFile : Bool) :
    g.Normal (.entity cls) (.dict (es.keptIn inFile)) (.dict (es.keptIn inFile)) := by
  cases inFile with
  | false => exact hn
  | true =>
    rw [← plainForm_eq_keptIn h]
    exact hn.plainForm hg h

end Entries

namespace Session

variable {s : Session} {i : StoreId}

/-- Of data a store keeps something, in memory as in a file. -/
theorem keptOf_eq (key : RecordKey) {es : Entries} (h : (Value.dict es).IsData) :
    s.keptOf i ⟨key, es⟩ = .ok ⟨key, es.keptIn (s.inFile i)⟩ := by
  unfold keptOf inFile
  cases s.store i with
  | memory rs => rfl
  | file path link =>
    have written := Entries.written_keptIn h
    rw [Value.written] at written
    show Record.written ⟨key, es⟩ = _
    rw [Record.written]
    cases hw : Value.writtenEntries es with
    | error e =>
      rw [hw] at written
      cases written
    | ok ws =>
      rw [hw] at written
      have same : Entries.ofPairs ws = es.keptIn true :=
        Value.dict.inj (Except.ok.inj written)
      exact congrArg (fun ds => Except.ok (Record.mk key ds)) same

/-! ### Identification -/

/-- The identifier of an entity once it has one. -/
def identifierOf (s : Session) (id : Value) : Value :=
  if id.isNull then .str (Persistence.identifier (s.serial + 1)) else id

/-- The session after an entity with an identifier, or none, was identified. -/
def identified (s : Session) (a : Address) (id : Value) : Session :=
  if id.isNull then
    { s with serial := s.serial + 1, heap := s.heap.put a idField (s.identifierOf id) }
  else s

theorem identifierOf_not_null (s : Session) (id : Value) : (s.identifierOf id).isNull = false := by
  unfold identifierOf
  cases h : id.isNull with
  | true => rfl
  | false => exact h

/-- An entity that has an identifier stays as it is. -/
theorem identified_of_there (s : Session) (a : Address) {id : Value} (there : id.isNull = false) :
    s.identified a id = s ∧ s.identifierOf id = id := by
  unfold identified identifierOf
  rw [there]
  exact ⟨rfl, rfl⟩

theorem identified_stores (s : Session) (a : Address) (id : Value) :
    (s.identified a id).stores = s.stores := by
  unfold identified
  split <;> rfl

theorem identified_disk (s : Session) (a : Address) (id : Value) :
    (s.identified a id).disk = s.disk := by
  unfold identified
  split <;> rfl

theorem identified_on (s : Session) (a : Address) (id : Value) :
    s.MovesOn (s.identified a id) := by
  unfold identified
  split
  · exact ⟨rfl, rfl, rfl, .refl _⟩
  · exact .refl s

end Session

namespace Heap

open Catalog

variable {g : Catalog} {parts : Heap} {s : Session} {cls : ClassId} {a : Address} {id : Value}
  {w : String → Value}

/-- What stands by itself does so with its identifier. -/
theorem Stands.identified (hs : Stands g parts s.heap cls a id w) :
    Stands g parts (s.identified a id).heap cls a (s.identifierOf id) w := by
  unfold Session.identified Session.identifierOf
  cases id.isNull with
  | true => exact hs.put_id (Value.isData_str _)
  | false => exact hs

/-- Identification leaves the other entities as they are. -/
theorem Beside.identified {classes : ClassId → Prop} {made : List Value}
    (hb : Beside g classes parts s.heap made) (hcls : classes cls)
    (hs : Stands g parts s.heap cls a id w) :
    Beside g classes parts (s.identified a id).heap made := by
  have known := hs.identified.id
  unfold Session.identified
  split
  · exact hb.identify hcls hs known
  · exact hb

/-! ### What is asked of an entity -/

/-- An entity of a class that has an identifier, and has nothing itself under the names through
which it is saved and deleted. -/
structure Ordinary (h : Heap) (a : Address) (cls : ClassId) (id : Value) : Prop where
  species : (get h a).species = .entity cls
  id : (get h a).own? idField = some id
  given : ∀ name ∈ ["_resolve_store", "delete", "kind", "save", "schema", "to_raw"],
    (get h a).own? name = none

namespace Ordinary

variable {h : Heap}

/-- An entity that has nothing itself but its identifier, what is put aside and its fields. -/
theorem of_cell (hg : g.WellFormed) {pending : Entries} {v : String → Value}
    (hc : get h a = Cell.ofFields cls id pending (Table.names (g.schemaOf cls)) v) :
    Ordinary h a cls id := by
  refine ⟨by rw [hc]; rfl, by rw [hc]; rfl, fun name hname => own?_of_reserved hg hc ?_ ?_ ?_⟩ <;>
    · revert name
      decide

theorem objectAttribute?_id (ho : Ordinary h a cls id) :
    objectAttribute? g h a idField = some id := by
  have own : (get h a).own? "_id" = some id := ho.id
  simp [objectAttribute?, ho.species, own, idField]

/-- Under these names the entity has what its class gives it. -/
theorem given_attribute (ho : Ordinary h a cls id) {name : String}
    (hname : name ∈ ["_resolve_store", "delete", "kind", "save", "schema", "to_raw"]) :
    objectAttribute? g h a name = givenAttribute? g a cls name := by
  have free : ∀ n ∈ ["_resolve_store", "delete", "kind", "save", "schema", "to_raw"],
      n ≠ "__class__" ∧ n ≠ "__dict__" ∧ n ≠ "__weakref__" ∧ n ≠ "id" := by decide
  obtain ⟨hclass, hdict, hweak, hid⟩ := free name hname
  simp only [objectAttribute?, hclass, hdict, hweak, hid, if_false, ho.species, ho.given name hname,
    Option.none_or]

theorem kind (ho : Ordinary h a cls id) :
    objectAttribute? g h a "kind" = some (.str (g.kindOf cls)) := ho.given_attribute (by decide)

theorem there (ho : Ordinary h a cls id) : a < h.length := by
  refine lt_of_isEntity ?_
  rw [isEntity, ho.species]

/-- An entity that is identified has its identifier. -/
theorem identified (ho : Ordinary s.heap a cls id) :
    Ordinary (s.identified a id).heap a cls (s.identifierOf id) := by
  have other : ∀ name ∈ ["_resolve_store", "delete", "kind", "save", "schema", "to_raw"],
      name ≠ idField := by decide
  unfold Session.identified Session.identifierOf
  cases id.isNull with
  | false => exact ho
  | true =>
    refine ⟨?_, ?_, fun name hname => ?_⟩ <;>
      rw [if_pos rfl, get_put_self _ ho.there, Cell.put]
    · exact ho.species
    · exact Table.get?_put_self _ _ _
    · exact (Table.get?_put_of_ne _ (other name hname) _).trans (ho.given name hname)

end Ordinary

/-- What stands by itself has nothing itself but its identifier and its fields. -/
theorem Stands.ordinary {h : Heap} (hg : g.WellFormed) (hs : Stands g parts h cls a id w) :
    Ordinary h a cls id := by
  obtain ⟨v, hc, -⟩ := hs.cell
  exact .of_cell hg hc

end Heap

namespace Persistence

open Session

variable {g : Catalog} {parts : Heap} {s : Session} {cls : ClassId} {a : Address} {id : Value}
  {w : String → Value} {i : StoreId} {rs : List Record}

/-! ### Calls that are waited for -/

theorem outcome_attributeOf {name : String} {v : Value}
    (h : Heap.objectAttribute? s.catalog s.heap a name = some v) :
    outcome (attributeOf a name) s = (.ok v, s) := by
  rw [attributeOf, outcome_get_bind, Method.needed, h]
  rfl

theorem invoke_save (g : Catalog) (h : Heap) (a : Address) :
    Method.invoke g h (.method (.object a) "save") = .ok (.pending (.object a) "save") := by
  rw [Method.invoke, Method.depth, Method.call]
  rfl

theorem invoke_delete (g : Catalog) (h : Heap) (a : Address) :
    Method.invoke g h (.method (.object a) "delete") = .ok (.pending (.object a) "delete") := by
  rw [Method.invoke, Method.depth, Method.call]
  rfl

theorem invoke_resolveStore (g : Catalog) (h : Heap) (cls : ClassId) :
    Method.invoke g h (.method (.cls cls) "_resolve_store") =
      .ok (.pending (.cls cls) "_resolve_store") := by
  rw [Method.invoke, Method.depth, Method.call]
  · rfl
  · intro _ h
    cases h

/-- An entity tells the store that its class uses. -/
theorem outcome_storeOf (hcat : s.catalog = g) (ho : Heap.Ordinary s.heap a cls id)
    (uses : s.Uses i cls) (fuel : Nat) (needed : String) :
    outcome (storeOf (perform (fuel + 1)) a needed) s = (.ok i, s) := by
  have method : Heap.objectAttribute? s.catalog s.heap a "_resolve_store" =
      some (.method (.cls cls) "_resolve_store") := by
    rw [hcat, ho.given_attribute (by decide)]
    rfl
  have told : outcome (perform (fuel + 1) (.method (.cls cls) "_resolve_store")) s =
      (.ok (.store i), s) := by
    rw [perform, outcome_get_bind, invoke_resolveStore]
    exact outcome_bind_ok uses.storeOf
  rw [storeOf, outcome_bind_ok (outcome_attributeOf method), outcome_bind_ok told]
  rfl

/-! ### Saving -/

/-- What saving does, step by step. -/
theorem outcome_perform_save (fuel : Nat) :
    outcome (perform (fuel + 1) (.method (.object a) "save")) s = outcome (do
      identify a
      let s ← get
      Session.ofExcept (Method.validate s.catalog s.heap a)
      let st ← storeOf (perform fuel) a "put"
      let kind ← attributeOf a "kind"
      let id ← attributeOf a idField
      let s ← get
      let raw ← Session.ofExcept (Method.toRaw s.catalog s.heap a)
      putRecord st kind id raw
      pure (.object a)) s := by
  rw [perform, outcome_get_bind, invoke_save]
  rfl

/-- What deleting does, step by step. -/
theorem outcome_perform_delete (fuel : Nat) :
    outcome (perform (fuel + 1) (.method (.object a) "delete")) s = outcome (do
      if (← attributeOf a idField).isNull then pure (.bool false)
      else
        let st ← storeOf (perform fuel) a "delete"
        pure (.bool (← removeRecord st (← attributeOf a "kind") (← attributeOf a idField)))) s := by
  rw [perform, outcome_get_bind, invoke_delete]
  rfl

/-- An object that has an identifier, or has none to be told, is identified. -/
theorem outcome_identify_of_told
    (told : Heap.objectAttribute? s.catalog s.heap a idField = some id) :
    outcome (identify a) s = (.ok ⟨⟩, s.identified a id) := by
  have known : Method.needed s.catalog s.heap a idField = .ok id := by rw [Method.needed, told]
  have told : outcome (Session.ofExcept (.ok id : Except Failure Value)) s = (.ok id, s) := rfl
  rw [identify, outcome_get_bind, known, outcome_bind_ok told, identified, identifierOf]
  by_cases hid : id.isNull = true
  · rw [if_pos hid, if_pos hid, if_pos hid]
    rfl
  · rw [if_neg hid, if_neg hid]
    rfl

/-- An entity is identified. -/
theorem outcome_identify (ho : Heap.Ordinary s.heap a cls id) :
    outcome (identify a) s = (.ok ⟨⟩, s.identified a id) :=
  outcome_identify_of_told ho.objectAttribute?_id

/-- A call of a method that entities have from their class is done. -/
theorem outcome_send (hcat : s.catalog = g) (ho : Heap.Ordinary s.heap a cls id) (name : String)
    (hname : name ∈ ["_resolve_store", "delete", "kind", "save", "schema", "to_raw"])
    (given : Heap.givenAttribute? g a cls name = some (.method (.object a) name)) :
    ∃ fuel, outcome (send (.object a) name) s =
      outcome (perform (fuel + 2) (.method (.object a) name)) s := by
  refine ⟨4 * s.heap.length + 2, ?_⟩
  have method : Heap.attribute? s.catalog s.heap 0 (.object a) name =
      some (.method (.object a) name) := by
    rw [Heap.attribute?, hcat, ho.given_attribute hname, given]
  rw [send, outcome_get_bind, method]
  rfl

/-- Saving identifies the entity, validates it, and puts its raw data under its kind and its
identifier. -/
theorem outcome_save (hcat : s.catalog = g) (ho : Heap.Ordinary s.heap a cls id)
    (uses : s.Uses i cls) : outcome (save (.object a)) s = outcome (do
      Session.ofExcept (Method.validate g (s.identified a id).heap a)
      let raw ← Session.ofExcept (Method.toRaw g (s.identified a id).heap a)
      putRecord i (.str (g.kindOf cls)) (s.identifierOf id) raw
      pure (.object a)) (s.identified a id) := by
  obtain ⟨fuel, sent⟩ := outcome_send hcat ho "save" (by decide) rfl
  rw [save, sent, outcome_perform_save, outcome_bind_ok (outcome_identify ho)]
  -- from here on all happens after the identification, be the identifier new or not
  have on := s.identified_on a id
  have ho₁ := ho.identified
  have uses₁ := uses.later on
  have cat₁ : (s.identified a id).catalog = g := on.catalog.trans hcat
  generalize s.identified a id = s₁ at *
  generalize s.identifierOf id = id₁ at *
  rw [outcome_get_bind, cat₁]
  cases Method.validate g s₁.heap a with
  | error e => rfl
  | ok u =>
    have kind : Heap.objectAttribute? s₁.catalog s₁.heap a "kind" = some (.str (g.kindOf cls)) := by
      rw [cat₁, ho₁.kind]
    have known : Heap.objectAttribute? s₁.catalog s₁.heap a idField = some id₁ :=
      ho₁.objectAttribute?_id
    rw [outcome_ofExcept_ok_bind, outcome_ofExcept_ok_bind,
      outcome_bind_ok (outcome_storeOf cat₁ ho₁ uses₁ fuel "put"),
      outcome_bind_ok (outcome_attributeOf kind), outcome_bind_ok (outcome_attributeOf known),
      outcome_get_bind, cat₁]

section

variable {classes : ClassId → Prop} {made : List Value} (hg : g.WellFormed) (hcat : s.catalog = g)
  (uses : s.Uses i cls) (h : s.Keeps i rs)

include hcat uses h

/-- **What passes its validation is saved**, if what it tells are data: the store keeps them under
the kind and the text of the identifier. -/
theorem save_of_data (ho : Heap.Ordinary s.heap a cls id)
    (valid : Method.validate g (s.identified a id).heap a = .ok ⟨⟩) {name : String}
    (text : Method.toText g (s.identified a id).heap (s.identifierOf id) = .ok name) {es : Entries}
    (told : Method.toRaw g (s.identified a id).heap a = .ok (.dict es))
    (keyed : Entries.textKeyed es = true) (data : (Value.dict es).IsData) :
    ∃ s', outcome (save (.object a)) s = (.ok (.object a), s') ∧
      (s.identified a id).Served i (MemoryStore.put rs ⟨⟨.text (g.kindOf cls), name⟩,
        es.keptIn (s.inFile i)⟩) s' := by
  rw [outcome_save hcat ho uses, valid, told]
  have on := s.identified_on a id
  have keeps₁ := h.of_stores (s.identified_stores a id) (s.identified_disk a id) on.awaited
  have place₁ := inFile_of_stores (i := i) (s.identified_stores a id)
  have cat₁ : (s.identified a id).catalog = g := on.catalog.trans hcat
  generalize s.identified a id = s₁ at *
  have examined : Record.examine (.str (g.kindOf cls)) name (.dict es) =
      .ok ⟨⟨.text (g.kindOf cls), name⟩, es⟩ := Record.examine_of_textKeyed rfl keyed
  rw [← cat₁] at text
  obtain ⟨s', hput, served⟩ := putRecord_eq (g.kindOf cls) text keeps₁ examined data
    (keptOf_eq _ data)
  rw [place₁] at served
  refine ⟨s', ?_, served⟩
  rw [outcome_ofExcept_ok_bind, outcome_ofExcept_ok_bind, outcome_bind_ok hput]
  rfl

include hg

/-- **Saving puts what is kept of the raw data** under the kind and the text of the identifier, or
it fails and the entity has its identifier all the same. -/
theorem save_eq (undeferred : ∀ f ∈ g.schemaOf cls, f.2.deferred = false)
    (hb : Heap.Beside g classes parts s.heap made) (hcls : classes cls)
    (hs : Heap.Stands g parts s.heap cls a id w) :
    (∃ e, outcome (save (.object a)) s = (.error e, s.identified a id)) ∨
    ∃ name s', Method.toText g (s.identified a id).heap (s.identifierOf id) = .ok name ∧
      outcome (save (.object a)) s = (.ok (.object a), s') ∧
      (s.identified a id).Served i (MemoryStore.put rs ⟨⟨.text (g.kindOf cls), name⟩,
        (g.rawData cls (s.identifierOf id) w).keptIn (s.inFile i)⟩) s' := by
  have ho := hs.ordinary hg
  have hs₁ := hs.identified
  have told := (hs₁.shows (hb.identified hcls hs).within undeferred).toRaw hg
  have cat₁ : (s.identified a id).catalog = g := (s.identified_on a id).catalog.trans hcat
  cases hv : Method.validate g (s.identified a id).heap a with
  | error e =>
    refine .inl ⟨e, ?_⟩
    rw [outcome_save hcat ho uses, hv]
    rfl
  | ok u =>
    cases hname : Method.toText g (s.identified a id).heap (s.identifierOf id) with
    | error e =>
      refine .inl ⟨e, ?_⟩
      rw [outcome_save hcat ho uses, hv, told, outcome_ofExcept_ok_bind, outcome_ofExcept_ok_bind]
      refine outcome_bind_error (putRecord_of_text_error ?_ _)
      rw [cat₁, hname]
    | ok name =>
      obtain ⟨s', saved, served⟩ := save_of_data hcat uses h ho hv hname told hg.textKeyed_rawData
        (hs₁.isData hg)
      exact .inr ⟨name, s', rfl, saved, served⟩

/-- **Deleting deletes what is kept** under the kind and the text of the identifier, or it fails and
nothing is changed; without an identifier there is nothing to delete. -/
theorem delete_eq (hs : Heap.Stands g parts s.heap cls a id w) :
    (id.isNull = true ∧ outcome (delete (.object a)) s = (.ok (.bool false), s)) ∨
    (∃ e, outcome (delete (.object a)) s = (.error e, s)) ∨
    ∃ name s', id.isNull = false ∧ Method.toText g s.heap id = .ok name ∧
      outcome (delete (.object a)) s =
        (.ok (.bool (MemoryStore.delete rs ⟨.text (g.kindOf cls), name⟩).1), s') ∧
      s.Served i (MemoryStore.delete rs ⟨.text (g.kindOf cls), name⟩).2 s' := by
  have ho := hs.ordinary hg
  obtain ⟨fuel, sent⟩ := outcome_send hcat ho "delete" (by decide) rfl
  have kind : Heap.objectAttribute? s.catalog s.heap a "kind" = some (.str (g.kindOf cls)) := by
    rw [hcat, ho.kind]
  have known : Heap.objectAttribute? s.catalog s.heap a idField = some id :=
    ho.objectAttribute?_id
  rw [delete, sent, outcome_perform_delete, outcome_bind_ok (outcome_attributeOf known)]
  cases hid : id.isNull with
  | true => exact .inl ⟨rfl, rfl⟩
  | false =>
    simp only [Bool.false_eq_true, if_false]
    rw [outcome_bind_ok (outcome_storeOf hcat ho uses fuel "delete"),
      outcome_bind_ok (outcome_attributeOf kind), outcome_bind_ok (outcome_attributeOf known)]
    cases hname : Method.toText g s.heap id with
    | error e =>
      refine .inr (.inl ⟨e, outcome_bind_error (removeRecord_of_text_error ?_ h)⟩)
      rw [hcat, hname]
    | ok name =>
      have text : Method.toText s.catalog s.heap id = .ok name := by rw [hcat, hname]
      obtain ⟨s', hrem, served⟩ := removeRecord_eq (g.kindOf cls) text h
      refine .inr (.inr ⟨name, s', trivial, rfl, ?_, served⟩)
      rw [outcome_bind_ok hrem]
      rfl

end

end Persistence

end EntitySchema
