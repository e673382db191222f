/-
**The normal form of raw data.**

What an entity tells as its raw data is not always what it was constructed from.  The fields come in
the order of the schema, an absent field is there as the absent value, a payload that is no mapping
but makes one has become a dictionary, and a date is written in one way only.  This module says what
the *normal form* of raw data is, without any reference to objects, and shows that it is one: normal
data are their own normal form.

A field *keeps* its raw value if its checker is deferred or does not decode.  Of the other fields, a
date is written as the moment that it is, an embedded reference has the normal form of the entity
that its payload makes, and arrays and dictionaries over one have that of their members.

Main definitions:

* `Catalog.WellFormed` — no schema has a field twice or one of a reserved name;
* `Checker.keeps` — whether the raw value of a field is kept;
* `Catalog.Normal` — **a raw value and its normal form**.

Main results:

* `Catalog.wellFormed_define` — definitions keep a catalog well-formed;
* `Catalog.Normal.isData` — the normal form of data is data;
* `Catalog.Normal.fixed` — **a normal form is its own normal form**;
* `Catalog.exists_normal` — whatever an entity is constructed from has a normal form.
-/

import EntitySchema.Proofs.Building
import EntitySchema.Proofs.IsoRoundTrip
import Mathlib.Data.List.Zip

set_option autoImplicit false

namespace EntitySchema

/-! ### Well-formed catalogs -/

namespace Catalog

/-- No schema has two fields of one name, or a field of a reserved name. -/
structure WellFormed (g : Catalog) : Prop where
  nodup : ∀ c, (Table.names (g.schemaOf c)).Nodup
  unreserved : ∀ c, ∀ f ∈ Table.names (g.schemaOf c), f ∉ reservedNames

/-- The catalog at the start is well-formed. -/
theorem wellFormed_initial : initial.WellFormed := by
  have empty : ∀ c, initial.schemaOf c = [] := by
    intro c
    cases c with
    | zero => rfl
    | succ c => rfl
  constructor
  · intro c
    rw [empty]
    exact .nil
  · intro c f hf
    rw [empty] at hf
    cases hf

variable {g : Catalog}

/-- What a name is registered for has no part in the schemas. -/
theorem WellFormed.register (hg : g.WellFormed) (c : ClassId) (name : String) :
    (g.register c name).WellFormed :=
  ⟨hg.nodup, hg.unreserved⟩

theorem WellFormed.unregister (hg : g.WellFormed) (name : String) :
    (g.unregister name).2.WellFormed :=
  ⟨hg.nodup, hg.unreserved⟩

theorem schemaOf_assign (c d : ClassId) (st : Option Nat) :
    (g.assign c st).schemaOf d = g.schemaOf d := by
  simp only [schemaOf, assign, List.getElem?_modify]
  split
  · cases g.classes[d]? <;> rfl
  · cases g.classes[d]? <;> rfl

theorem WellFormed.assign (hg : g.WellFormed) (c : ClassId) (st : Option Nat) :
    (g.assign c st).WellFormed := by
  constructor
  · intro d
    rw [schemaOf_assign]
    exact hg.nodup d
  · intro d
    rw [schemaOf_assign]
    exact hg.unreserved d

theorem schemaOf_append (cls : EntityClass) (names : Table ClassId) (d : ClassId) :
    (⟨g.classes ++ [cls], names⟩ : Catalog).schemaOf d =
      if d = g.classes.length then cls.schema else g.schemaOf d := by
  simp only [schemaOf]
  split
  · next heq =>
    subst heq
    simp
  · next hne =>
    rcases Nat.lt_or_gt_of_ne hne with hlt | hgt
    · rw [List.getElem?_append_left hlt]
    · rw [List.getElem?_eq_none (by simp; omega), List.getElem?_eq_none (by omega)]

/-- A class more whose schema has no field twice and none of a reserved name. -/
theorem WellFormed.append (hg : g.WellFormed) {cls : EntityClass} {names : Table ClassId}
    (nodup : (Table.names cls.schema).Nodup)
    (unreserved : ∀ f ∈ Table.names cls.schema, f ∉ reservedNames) :
    (⟨g.classes ++ [cls], names⟩ : Catalog).WellFormed := by
  constructor
  · intro d
    rw [schemaOf_append]
    split
    · exact nodup
    · exact hg.nodup d
  · intro d
    rw [schemaOf_append]
    split
    · exact unreserved
    · exact hg.unreserved d

/-- A definition keeps a catalog well-formed. -/
theorem wellFormed_define (hg : g.WellFormed) {name kind : String} {parent : ClassId}
    {schema? : Option Schema} {lookup? : Option Lookup}
    (hs : ∀ schema ∈ schema?, (Table.names schema).Nodup) {c : ClassId} {g' : Catalog}
    (h : g.define name kind parent schema? lookup? = .ok (c, g')) : g'.WellFormed := by
  have ok := (define_ok_iff g name kind parent schema? lookup?).1 ⟨_, h⟩
  have nodup : (Table.names (schema?.getD (g.schemaOf parent))).Nodup := by
    cases schema? with
    | none => exact hg.nodup parent
    | some schema => exact hs schema rfl
  unfold define at h
  simp only at h
  split at h
  · cases h
  split at h
  · cases h
    exact WellFormed.register (hg.append nodup ok.2) _ _
  · cases h

end Catalog

/-! ### Fields that keep their raw value -/

/-- Whether the raw value of a field is kept: put aside, or taken as it is. -/
def Checker.keeps (c : Checker) : Bool := c.deferred || !c.decodes

theorem Checker.of_keeps {c : Checker} (h : c.keeps = false) :
    c.deferred = false ∧ c.decodes = true := by
  simpa [keeps] using h

theorem Checker.decodes_of_producesEntity {c : Checker} (h : c.producesEntity = true) :
    c.decodes = true := by
  cases c <;> simp_all [decodes, producesEntity]

/-! ### The entries of raw data -/

/-- The entry of an identifier, if there is one. -/
def idEntries (id : Value) : Entries := if id.isNull then [] else [(.str idField, id)]

/-- The raw data of an entity: its identifier, if there is one, and a value for each of its
fields. -/
def rawEntries (id : Value) (names : List String) (w : String → Value) : Entries :=
  idEntries id ++ names.map fun name => (.str name, w name)

theorem idField_reserved : idField ∈ reservedNames := by decide

/-- No field has the name of the identifier. -/
theorem Catalog.WellFormed.id_not_mem {g : Catalog} (hg : g.WellFormed) (cls : ClassId) :
    idField ∉ Table.names (g.schemaOf cls) := fun h =>
  hg.unreserved cls idField h idField_reserved

theorem getStr?_map_str (names : List String) (w : String → Value) (name : String) :
    Entries.getStr? (names.map fun n => (.str n, w n)) name =
      if name ∈ names then some (w name) else none := by
  induction names with
  | nil => rfl
  | cons n names ih =>
    rw [List.map_cons, Entries.getStr?_cons, ih, Value.isText]
    by_cases hn : n = name
    · simp [hn]
    · simp [hn, Ne.symm hn]

/-- Values under names, each once, make a dictionary whose keys are texts, each once. -/
theorem textKeyed_map_str {names : List String} (hn : names.Nodup) (w : String → Value) :
    Entries.textKeyed (names.map fun n => (.str n, w n)) = true := by
  induction names with
  | nil => rfl
  | cons n names ih =>
    obtain ⟨fresh, nodup⟩ := List.nodup_cons.1 hn
    rw [List.map_cons, Entries.textKeyed, getStr?_map_str, if_neg fresh, ih nodup]
    rfl

theorem getStr?_idEntries (id : Value) (name : String) :
    Entries.getStr? (idEntries id) name =
      if name = idField ∧ id.isNull = false then some id else none := by
  unfold idEntries
  cases hid : id.isNull with
  | true => simp
  | false =>
    rw [if_neg (by simp), Entries.getStr?_cons, Value.isText]
    by_cases hn : name = idField
    · simp [hn]
    · simp [hn, Ne.symm hn]

section

variable {names : List String} {id : Value} {w : String → Value}

theorem getStr?_append (es fs : Entries) (name : String) :
    Entries.getStr? (es ++ fs) name = (Entries.getStr? es name).or (Entries.getStr? fs name) := by
  simp [Entries.getStr?, List.find?_append, Option.map_or]

/-- The identifier in raw data. -/
theorem getStr_rawEntries_id (hid : idField ∉ names) :
    Entries.getStr (rawEntries id names w) idField = id := by
  rw [Entries.getStr, rawEntries, getStr?_append, getStr?_idEntries, getStr?_map_str]
  cases hn : id.isNull with
  | true =>
    cases id <;> simp_all [Value.isNull]
  | false => simp

/-- An identifier that is there has an entry in raw data. -/
theorem getStr?_rawEntries_id (hnull : id.isNull = false) :
    Entries.getStr? (rawEntries id names w) idField = some id := by
  rw [rawEntries, getStr?_append, getStr?_idEntries, if_pos ⟨rfl, hnull⟩]
  rfl

/-- No identifier has no entry. -/
theorem getStr?_rawEntries_of_null (hid : idField ∉ names) (hnull : id.isNull = true) :
    Entries.getStr? (rawEntries id names w) idField = none := by
  rw [rawEntries, getStr?_append, getStr?_idEntries, getStr?_map_str, if_neg (by simp [hnull]),
    if_neg hid]
  rfl

/-- The value of a field in raw data. -/
theorem getStr_rawEntries_field {name : String} (hname : name ∈ names) (hid : idField ∉ names) :
    Entries.getStr (rawEntries id names w) name = w name := by
  have hne : name ≠ idField := fun heq => hid (heq ▸ hname)
  rw [Entries.getStr, rawEntries, getStr?_append, getStr?_idEntries, getStr?_map_str]
  simp [hne, hname]

/-- The keys of raw data are texts, each once. -/
theorem textKeyed_rawEntries (hn : names.Nodup) (hid : idField ∉ names) :
    Entries.textKeyed (rawEntries id names w) = true := by
  have fields := textKeyed_map_str hn w
  rw [rawEntries, idEntries]
  split
  · exact fields
  · rw [List.cons_append, List.nil_append, Entries.textKeyed, getStr?_map_str, if_neg hid, fields]
    rfl

/-- Raw data whose identifier and fields are data are data. -/
theorem isData_rawEntries (hn : names.Nodup) (hid : idField ∉ names) (hdata : id.IsData)
    (hw : ∀ name ∈ names, (w name).IsData) : (Value.dict (rawEntries id names w)).IsData := by
  have fields : ∀ name ∈ names, Value.sameKey (.str idField) (.str name) = false := by
    intro name hname
    rw [Value.sameKey_str_right, Value.isText, beq_eq_false_iff_ne]
    exact fun heq => hid (heq ▸ hname)
  refine .dict ?_ ?_ ?_
  · intro e he
    rcases List.mem_append.1 he with he | he
    · unfold idEntries at he
      split at he
      · cases he
      · cases List.mem_singleton.1 he
        rfl
    · obtain ⟨name, -, rfl⟩ := List.mem_map.1 he
      rfl
  · intro e he
    rcases List.mem_append.1 he with he | he
    · unfold idEntries at he
      split at he
      · cases he
      · cases List.mem_singleton.1 he
        exact hdata
    · obtain ⟨name, hname, rfl⟩ := List.mem_map.1 he
      exact hw name hname
  · refine List.pairwise_append.2 ⟨?_, ?_, ?_⟩
    · unfold idEntries
      split
      · exact .nil
      · exact List.pairwise_singleton _ _
    · refine List.pairwise_map.2 (hn.imp ?_)
      intro a b hab
      rw [Value.sameKey_str_right, Value.isText, beq_eq_false_iff_ne]
      exact hab
    · intro e he f hf
      obtain ⟨name, hname, rfl⟩ := List.mem_map.1 hf
      unfold idEntries at he
      split at he
      · cases he
      · cases List.mem_singleton.1 he
        exact fields name hname

end

/-! ### Normal forms -/

/-- What a raw value is for: an entity of a class, or something that a checker decodes. -/
inductive Subject where
  | entity (cls : ClassId)
  | decoded (c : Checker)

/-- A raw value and its normal form.

The normal form of the raw data of an entity holds the identifier, if there is one, and every field
of the schema.  A field keeps its raw value, the absent value if there is none, or else has the
normal form of it. -/
inductive Catalog.Normal (g : Catalog) : Subject → Value → Value → Prop
  | entity {cls : ClassId} {raw : Value} {data : Entries} {w : String → Value} :
      Construction.entriesOf [] raw = .ok data →
      (∀ f ∈ g.schemaOf cls, f.2.keeps = true → w f.1 = Entries.getStr data f.1) →
      (∀ f ∈ g.schemaOf cls, f.2.keeps = false →
        Normal g (.decoded f.2) (Entries.getStr data f.1) (w f.1)) →
      Normal g (.entity cls) raw (.dict (rawEntries (Entries.getStr data idField)
        (Table.names (g.schemaOf cls)) w))
  | noDate (r : Bool) : Normal g (.decoded (.date r)) .null .null
  | date {r : Bool} {raw : Value} {m : Moment} : raw.toMoment (fun _ => "") = .ok (.moment m) →
      Normal g (.decoded (.date r)) raw (.str m.isoText)
  | noEntity (t : Target) (e : Value) (r : Bool) :
      Normal g (.decoded (.reference t e r)) .null .null
  | embedded {t : Target} {e : Value} {r : Bool} {raw form : Value} {cls : ClassId} :
      raw.isNull = false → g.resolve t = .ok cls → Normal g (.entity cls) raw form →
      Normal g (.decoded (.reference t e r)) raw form
  | array {e : Checker} {r : Bool} {raw : Value} {xs ys : List Value} :
      Checker.itemsOf raw = .ok xs → xs.length = ys.length →
      (∀ p ∈ xs.zip ys, Normal g (.decoded e) p.1 p.2) →
      Normal g (.decoded (.arrayOf e r)) raw (.list ys)
  | dictionary {e : Checker} {r : Bool} {raw : Value} {es : Entries} {ys : List Value} :
      Checker.entriesOf [] raw = .ok es → es.length = ys.length →
      (∀ p ∈ (es.map Prod.snd).zip ys, Normal g (.decoded e) p.1 p.2) →
      Normal g (.decoded (.dictOf e r)) raw (.dict ((es.map Prod.fst).zip ys))

/-! ### The parts of data -/

namespace Checker

/-- The items that data make an array of are data. -/
theorem isData_of_itemsOf {raw : Value} (hraw : raw.IsData) {xs : List Value}
    (h : itemsOf raw = .ok xs) : ∀ x ∈ xs, x.IsData := by
  rcases itemsOf_cases h with rfl | ⟨-, hys⟩
  · exact List.forall_mem_nil _
  · exact Value.isData_of_items? hraw hys

/-- The entries that data make a dictionary of are data, whatever the heap is. -/
theorem isData_of_entriesOf {raw : Value} (hraw : raw.IsData) {h : Heap} {es : Entries}
    (hes : entriesOf h raw = .ok es) : (Value.dict es).IsData := by
  unfold entriesOf at hes
  split at hes
  · cases hes
    exact .dict (List.forall_mem_nil _) (List.forall_mem_nil _) .nil
  · exact Value.isData_of_toEntries hraw hes

end Checker

namespace Construction

theorem isData_of_entriesOf {raw : Value} (hraw : raw.IsData) {h : Heap} {es : Entries}
    (hes : entriesOf h raw = .ok es) : (Value.dict es).IsData := by
  unfold entriesOf at hes
  split at hes
  · exact Value.isData_of_toEntries hraw hes
  · cases hes
    exact .dict (List.forall_mem_nil _) (List.forall_mem_nil _) .nil

/-- An entity is constructed from a dictionary as from its entries. -/
theorem entriesOf_dict (h : Heap) (es : Entries) : entriesOf h (.dict es) = .ok es := by
  unfold entriesOf
  split
  · rfl
  · next hf =>
    cases es with
    | nil => rfl
    | cons e es => exact absurd rfl hf

end Construction

namespace Value

/-- A moment made of data was read, so it can be read again. -/
theorem readable_of_toMoment {raw : Value} (hraw : raw.IsData) {objectName : Address → String}
    {m : Moment} (h : raw.toMoment objectName = .ok (.moment m)) : m.Readable := by
  cases hraw with
  | @atom raw hatom =>
    cases raw with
    | int n =>
      simp only [toMoment] at h
      split at h
      · next hm =>
        cases h
        exact Moment.readable_of_ofTimestamp? hm
      · cases h
    | float x =>
      simp only [toMoment] at h
      split at h
      · next hm =>
        cases h
        exact Moment.readable_of_ofTimestamp? hm
      · cases h
    | str s =>
      simp only [toMoment] at h
      split at h
      · next hm =>
        cases h
        exact Moment.readable_of_ofIsoText? hm
      · cases h
    | null | bool => cases h
    | _ => simp [isAtom] at hatom
  | list _ => cases h
  | dict _ _ _ => cases h

end Value

/-! ### Members side by side -/

section

variable {α β : Type}

theorem exists_mem_zip_of_mem_right {xs : List α} {ys : List β} (hlen : xs.length = ys.length)
    {y : β} (hy : y ∈ ys) : ∃ x, (x, y) ∈ xs.zip ys := by
  induction xs generalizing ys with
  | nil =>
    cases List.length_eq_zero_iff.1 hlen.symm
    cases hy
  | cons x xs ih =>
    cases ys with
    | nil => cases hlen
    | cons y' ys =>
      rcases List.mem_cons.1 hy with rfl | hy
      · exact ⟨x, List.mem_cons_self ..⟩
      · obtain ⟨x', hx'⟩ := ih (Nat.succ.inj hlen) hy
        exact ⟨x', List.mem_cons_of_mem _ hx'⟩

theorem exists_mem_zip_of_mem_left {xs : List α} {ys : List β} (hlen : xs.length = ys.length)
    {x : α} (hx : x ∈ xs) : ∃ y, (x, y) ∈ xs.zip ys := by
  obtain ⟨y, hy⟩ := exists_mem_zip_of_mem_right hlen.symm hx
  refine ⟨y, ?_⟩
  rw [← List.zip_swap]
  exact List.mem_map.2 ⟨(y, x), hy, rfl⟩

theorem mem_zip_self {xs : List α} {p : α × α} (hp : p ∈ xs.zip xs) : ∃ x ∈ xs, p = (x, x) := by
  induction xs with
  | nil => cases hp
  | cons x xs ih =>
    rcases List.mem_cons.1 hp with rfl | hp
    · exact ⟨x, List.mem_cons_self .., rfl⟩
    · obtain ⟨y, hy, heq⟩ := ih hp
      exact ⟨y, List.mem_cons_of_mem x hy, heq⟩

end

namespace Value

/-- Data are no objects. -/
theorem IsData.ne_object {v : Value} (hv : v.IsData) (a : Address) : v ≠ .object a := by
  rintro rfl
  exact hv.inert a (.object a)

/-- The values of a dictionary of data are data. -/
theorem IsData.value {es : Entries} (hes : (Value.dict es).IsData) {e : Value × Value}
    (he : e ∈ es) : e.2.IsData := by
  cases hes with
  | atom h => cases h
  | dict _ values _ => exact values e he

/-- The keys of a dictionary of data are atoms. -/
theorem IsData.key {es : Entries} (hes : (Value.dict es).IsData) {e : Value × Value}
    (he : e ∈ es) : e.1.isAtom = true := by
  cases hes with
  | atom h => cases h
  | dict keys _ _ => exact keys e he

/-- Other data under the keys of a dictionary of data make a dictionary of data. -/
theorem IsData.with_values {es : Entries} (hes : (Value.dict es).IsData) {ys : List Value}
    (hlen : es.length = ys.length) (hys : ∀ y ∈ ys, y.IsData) :
    (Value.dict ((es.map Prod.fst).zip ys)).IsData := by
  cases hes with
  | atom h => cases h
  | dict keys _ distinct =>
    refine .dict ?_ ?_ ?_
    · intro e he
      obtain ⟨q, hq, heq⟩ := List.mem_map.1 (List.of_mem_zip he).1
      exact heq ▸ keys q hq
    · intro e he
      exact hys e.2 (List.of_mem_zip he).2
    · have old : (es.map Prod.fst).Pairwise fun a b => sameKey a b = false :=
        List.pairwise_map.2 distinct
      have same : ((es.map Prod.fst).zip ys).map Prod.fst = es.map Prod.fst :=
        List.map_fst_zip (by simp [hlen])
      rw [← same] at old
      exact List.pairwise_map.1 old

end Value

/-! ### Normal forms are normal -/

namespace Catalog

variable {g : Catalog}

/-- The values of fields are data, be they kept of data or data themselves. -/
theorem isData_fields {fs : Schema} {data : Entries} (hdata : (Value.dict data).IsData)
    {w : String → Value} (hkeeps : ∀ f ∈ fs, f.2.keeps = true → w f.1 = Entries.getStr data f.1)
    (hnot : ∀ f ∈ fs, f.2.keeps = false → (w f.1).IsData) : ∀ f ∈ fs, (w f.1).IsData := by
  intro f hf
  cases hk : f.2.keeps with
  | true =>
    rw [hkeeps f hf hk]
    exact Entries.isData_getStr hdata _
  | false => exact hnot f hf hk

/-- The normal form of data is data. -/
theorem Normal.isData (hg : g.WellFormed) {s : Subject} {raw form : Value}
    (hn : g.Normal s raw form) (hraw : raw.IsData) : form.IsData := by
  induction hn with
  | @entity cls raw data w hdata hkeeps hnot ih =>
    have entries := Construction.isData_of_entriesOf hraw hdata
    exact isData_rawEntries (hg.nodup cls) (hg.id_not_mem cls) (Entries.isData_getStr entries _)
      (List.forall_mem_map.2 (isData_fields entries hkeeps fun f hf hk =>
        ih f hf hk (Entries.isData_getStr entries _)))
  | noDate r => exact Value.isData_null
  | date _ => exact Value.isData_str _
  | noEntity t e r => exact Value.isData_null
  | embedded _ _ _ ih => exact ih hraw
  | @array e r raw xs ys hxs hlen _ ih =>
    refine .list ?_
    intro y hy
    obtain ⟨x, hxy⟩ := exists_mem_zip_of_mem_right hlen hy
    exact ih (x, y) hxy (Checker.isData_of_itemsOf hraw hxs x (List.of_mem_zip hxy).1)
  | @dictionary e r raw es ys hes hlen _ ih =>
    have entries := Checker.isData_of_entriesOf hraw hes
    have values : ∀ y ∈ ys, y.IsData := by
      intro y hy
      have size : (es.map Prod.snd).length = ys.length := by simpa using hlen
      obtain ⟨x, hxy⟩ := exists_mem_zip_of_mem_right size hy
      obtain ⟨q, hq, heq⟩ := List.mem_map.1 (List.of_mem_zip hxy).1
      exact ih (x, y) hxy (heq ▸ entries.value hq)
    exact entries.with_values hlen values

/-- Raw data of an entity are normal if those of its fields that are not kept are. -/
theorem Normal.entity_self (hg : g.WellFormed) {cls : ClassId} (id : Value) {w : String → Value}
    (hw : ∀ f ∈ g.schemaOf cls, f.2.keeps = false → g.Normal (.decoded f.2) (w f.1) (w f.1)) :
    g.Normal (.entity cls) (.dict (rawEntries id (Table.names (g.schemaOf cls)) w))
      (.dict (rawEntries id (Table.names (g.schemaOf cls)) w)) := by
  have hid := hg.id_not_mem cls
  generalize hform : rawEntries id (Table.names (g.schemaOf cls)) w = form
  have same : Entries.getStr form idField = id := by
    rw [← hform]
    exact getStr_rawEntries_id hid
  have field : ∀ f ∈ g.schemaOf cls, Entries.getStr form f.1 = w f.1 := by
    intro f hf
    rw [← hform]
    exact getStr_rawEntries_field (List.mem_map_of_mem hf) hid
  have again : g.Normal (.entity cls) (.dict form) (.dict (rawEntries (Entries.getStr form idField)
      (Table.names (g.schemaOf cls)) w)) := by
    refine .entity (Construction.entriesOf_dict [] form) ?_ ?_
    · intro f hf _
      exact (field f hf).symm
    · intro f hf hk
      rw [field f hf]
      exact hw f hf hk
  rwa [same, hform] at again

/-- A list of normal forms is normal. -/
theorem Normal.array_self {e : Checker} (r : Bool) {xs : List Value}
    (h : ∀ x ∈ xs, g.Normal (.decoded e) x x) :
    g.Normal (.decoded (.arrayOf e r)) (.list xs) (.list xs) := by
  refine .array rfl rfl ?_
  intro p hp
  obtain ⟨x, hx, rfl⟩ := mem_zip_self hp
  exact h x hx

/-- A dictionary of normal forms is normal. -/
theorem Normal.dictionary_self {e : Checker} (r : Bool) {es : Entries}
    (h : ∀ q ∈ es, g.Normal (.decoded e) q.2 q.2) :
    g.Normal (.decoded (.dictOf e r)) (.dict es) (.dict es) := by
  have again : g.Normal (.decoded (.dictOf e r)) (.dict es)
      (.dict ((es.map Prod.fst).zip (es.map Prod.snd))) := by
    refine .dictionary rfl (by simp) ?_
    intro p hp
    obtain ⟨x, hx, rfl⟩ := mem_zip_self hp
    obtain ⟨q, hq, rfl⟩ := List.mem_map.1 hx
    exact h q hq
  have same : (es.map Prod.fst).zip (es.map Prod.snd) = es := by
    rw [List.zip_map', List.map_id']
  rwa [same] at again

/-- A normal form is its own normal form. -/
theorem Normal.fixed (hg : g.WellFormed) {s : Subject} {raw form : Value}
    (hn : g.Normal s raw form) (hraw : raw.IsData) : g.Normal s form form := by
  induction hn with
  | entity hdata _ _ ih =>
    have entries := Construction.isData_of_entriesOf hraw hdata
    refine .entity_self hg _ ?_
    intro f hf hk
    exact ih f hf hk (Entries.isData_getStr entries _)
  | noDate r => exact .noDate r
  | date hm => exact .date (Value.toMoment_isoText (Value.readable_of_toMoment hraw hm) _)
  | noEntity t e r => exact .noEntity t e r
  | embedded hn hr hform ih =>
    refine .embedded ?_ hr (ih hraw)
    cases hform
    rfl
  | @array e r raw xs ys hxs hlen _ ih =>
    refine .array_self r ?_
    intro y hy
    obtain ⟨x, hxy⟩ := exists_mem_zip_of_mem_right hlen hy
    exact ih (x, y) hxy (Checker.isData_of_itemsOf hraw hxs x (List.of_mem_zip hxy).1)
  | @dictionary e r raw es ys hes hlen _ ih =>
    have entries := Checker.isData_of_entriesOf hraw hes
    have size : (es.map Prod.snd).length = ys.length := by simpa using hlen
    refine .dictionary_self r ?_
    intro q hq
    obtain ⟨x, hxy⟩ := exists_mem_zip_of_mem_right size (List.of_mem_zip hq).2
    obtain ⟨q', hq', heq⟩ := List.mem_map.1 (List.of_mem_zip hxy).1
    exact ih (x, q.2) hxy (heq ▸ entries.value hq')

/-! ### What is constructed has a normal form -/

/-- Values for the members of a list, one by one. -/
theorem exists_zip {α β : Type} {P : α → β → Prop} {xs : List α} (h : ∀ x ∈ xs, ∃ y, P x y) :
    ∃ ys, xs.length = ys.length ∧ ∀ p ∈ xs.zip ys, P p.1 p.2 := by
  induction xs with
  | nil => exact ⟨[], rfl, fun _ hp => nomatch hp⟩
  | cons x xs ih =>
    have parts := List.forall_mem_cons.1 h
    obtain ⟨y, hy⟩ := parts.1
    obtain ⟨ys, hlen, hys⟩ := ih parts.2
    refine ⟨y :: ys, by simp [hlen], ?_⟩
    rw [List.zip_cons_cons, List.forall_mem_cons]
    exact ⟨hy, hys⟩

/-- Values for the fields of a schema, by their names. -/
theorem exists_named {P : String × Checker → Value → Prop} {fs : Schema}
    (hn : (Table.names fs).Nodup) (h : ∀ f ∈ fs, ∃ v, P f v) :
    ∃ w : String → Value, ∀ f ∈ fs, P f (w f.1) := by
  induction fs with
  | nil => exact ⟨fun _ => .null, fun _ hf => nomatch hf⟩
  | cons f fs ih =>
    have parts := List.forall_mem_cons.1 h
    obtain ⟨fresh, nodup⟩ := List.nodup_cons.1 hn
    obtain ⟨v, hv⟩ := parts.1
    obtain ⟨w, hw⟩ := ih nodup parts.2
    refine ⟨fun name => if name = f.1 then v else w name, List.forall_mem_cons.2 ⟨?_, ?_⟩⟩
    · simpa using hv
    · intro f' hf'
      have other : f'.1 ≠ f.1 := fun heq => fresh (heq ▸ List.mem_map_of_mem hf')
      simpa [other] using hw f' hf'

/-- What data make a moment of is nothing or a moment, whatever objects are called. -/
theorem toMoment_of_isData {raw : Value} (hraw : raw.IsData) {objectName : Address → String}
    {v : Value} (h : raw.toMoment objectName = .ok v) : (raw = .null ∧ v = .null) ∨
      ∃ m, v = .moment m ∧ ∀ objectName', raw.toMoment objectName' = .ok (.moment m) := by
  cases hraw with
  | @atom raw hatom =>
    cases raw with
    | null =>
      cases h
      exact Or.inl ⟨rfl, rfl⟩
    | int n =>
      simp only [Value.toMoment] at h ⊢
      split at h
      · next m hm =>
        cases h
        exact Or.inr ⟨m, rfl, fun _ => rfl⟩
      · cases h
    | float x =>
      simp only [Value.toMoment] at h ⊢
      split at h
      · next m hm =>
        cases h
        exact Or.inr ⟨m, rfl, fun _ => rfl⟩
      · cases h
    | str s =>
      simp only [Value.toMoment] at h ⊢
      split at h
      · next m hm =>
        cases h
        exact Or.inr ⟨m, rfl, fun _ => rfl⟩
      · cases h
    | bool => cases h
    | _ => simp [Value.isAtom] at hatom
  | list _ => cases h
  | dict _ _ _ => cases h

/-- What is decoded has a normal form, if all that entities are constructed from and that is no
deeper has one. -/
theorem exists_normal_decoded {k : Nat} (hk : ∀ cls raw, raw.depth ≤ k → raw.IsData →
      ∀ h v h', Construction.ofRaw g cls raw h = .ok (v, h') →
        ∃ form, g.Normal (.entity cls) raw form) :
    (c : Checker) → c.decodes = true → (raw : Value) → (raw.isNull = false → raw.depth ≤ k) →
      raw.IsData → ∀ h v h', Construction.decode g c raw h = .ok (v, h') →
        ∃ form, g.Normal (.decoded c) raw form
  | .scalar _ _ _, hc, _, _, _, _, _, _, _ => nomatch hc
  | .shape _ _, hc, _, _, _, _, _, _, _ => nomatch hc
  | .date r, _, raw, _, hraw, h, v, h', hd => by
    obtain ⟨v', hv', -⟩ := bind_eq_ok.1 ((Checker.decodeWith_date r raw h).symm.trans hd)
    rcases toMoment_of_isData hraw hv' with ⟨rfl, -⟩ | ⟨m, -, hm⟩
    · exact ⟨_, .noDate r⟩
    · exact ⟨_, .date (hm _)⟩
  | .reference t e r, _, raw, hdepth, hraw, h, v, h', hd => by
    cases hn : raw.isNull with
    | true =>
      cases raw <;> simp [Value.isNull] at hn
      exact ⟨_, .noEntity t e r⟩
    | false =>
      rw [Construction.decode, Checker.decodeWith_reference t e r hn hraw.ne_object] at hd
      obtain ⟨cls, hcls, hd⟩ := bind_eq_ok.1 hd
      obtain ⟨form, hform⟩ := hk cls raw (hdepth hn) hraw h v h' hd
      exact ⟨form, .embedded hn hcls hform⟩
  | .arrayOf e r, hc, raw, hdepth, hraw, h, v, h', hd => by
    rw [Construction.decode, Checker.decodeWith_arrayOf] at hd
    obtain ⟨items, hitems, hd⟩ := bind_eq_ok.1 hd
    obtain ⟨p, hp, -⟩ := bind_eq_ok.1 hd
    have forms : ∀ x ∈ items, ∃ form, g.Normal (.decoded e) x form := by
      intro x hx
      obtain ⟨h₀, y, h₁, hy⟩ := Build.exists_of_mapM hp hx
      obtain ⟨there, deep⟩ := Checker.depth_of_itemsOf hitems hx
      exact exists_normal_decoded hk e (Checker.decodes_of_producesEntity hc) x
        (fun _ => deep.trans (hdepth there)) (Checker.isData_of_itemsOf hraw hitems x hx)
        h₀ y h₁ hy
    obtain ⟨ys, hlen, hys⟩ := exists_zip forms
    exact ⟨_, .array hitems hlen hys⟩
  | .dictOf e r, hc, raw, hdepth, hraw, h, v, h', hd => by
    rw [Construction.decode, Checker.decodeWith_dictOf] at hd
    obtain ⟨es, hes, hd⟩ := bind_eq_ok.1 hd
    obtain ⟨p, hp, -⟩ := bind_eq_ok.1 hd
    have forms : ∀ x ∈ es.map Prod.snd, ∃ form, g.Normal (.decoded e) x form := by
      intro x hx
      obtain ⟨h₀, y, h₁, hy⟩ := Build.exists_of_mapM hp hx
      obtain ⟨q, hq, rfl⟩ := List.mem_map.1 hx
      obtain ⟨there, deep⟩ := Checker.depth_of_entriesOf hes hq
      exact exists_normal_decoded hk e (Checker.decodes_of_producesEntity hc) q.2
        (fun _ => deep.le.trans (hdepth there)) ((Checker.isData_of_entriesOf hraw hes).value hq)
        h₀ y h₁ hy
    obtain ⟨ys, hlen, hys⟩ := exists_zip forms
    -- which objects of the heap are entities has no part in what data make
    rw [Checker.entriesOf_of_inert hraw.inert h []] at hes
    exact ⟨_, .dictionary hes (by simpa using hlen) hys⟩

/-- Whatever an entity is constructed from has a normal form. -/
theorem exists_normal (hg : g.WellFormed) : ∀ (k : Nat) (cls : ClassId) (raw : Value),
    raw.depth ≤ k → raw.IsData → ∀ h v h', Construction.ofRaw g cls raw h = .ok (v, h') →
      ∃ form, g.Normal (.entity cls) raw form := by
  intro k
  -- along the depths: what the fields are decoded from is less deep than the raw value
  induction k using Nat.strong_induction_on with
  | _ k ih =>
    intro cls raw hdepth hraw h v h' hv
    rw [Construction.ofRaw_apply] at hv
    obtain ⟨data, hdata, hv⟩ := bind_eq_ok.1 hv
    obtain ⟨p, hp, -⟩ := bind_eq_ok.1 hv
    have entries := Construction.isData_of_entriesOf hraw hdata
    have less := Construction.depth_of_entriesOf hdata
    have forms : ∀ f ∈ g.schemaOf cls, ∃ w,
        (f.2.keeps = true → w = Entries.getStr data f.1) ∧
        (f.2.keeps = false → g.Normal (.decoded f.2) (Entries.getStr data f.1) w) := by
      intro f hf
      obtain ⟨h₀, y, h₁, hy⟩ := Construction.exists_of_fieldsFrom hp hf
      cases hkeeps : f.2.keeps with
      | true => exact ⟨_, fun _ => rfl, nofun⟩
      | false =>
        have decodes := Checker.of_keeps hkeeps
        rw [Construction.initialValue_of_decodes decodes.1 decodes.2] at hy
        obtain ⟨form, hform⟩ := exists_normal_decoded
          (fun cls raw hle => ih (Value.depthEntries data) (by omega) cls raw hle) f.2 decodes.2 _
          Entries.depth_getStr_le (Entries.isData_getStr entries f.1) h₀ y h₁ hy
        exact ⟨form, nofun, fun _ => hform⟩
    obtain ⟨w, hw⟩ := exists_named (hg.nodup cls) forms
    rw [Construction.entriesOf_of_inert hraw.inert h []] at hdata
    exact ⟨_, .entity hdata (fun f hf => (hw f hf).1) fun f hf => (hw f hf).2⟩

end Catalog

end EntitySchema
