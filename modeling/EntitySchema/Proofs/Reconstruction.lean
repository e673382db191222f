/-
**Construction undoes raw data.**

The raw data that a valid entity tells are such that its class constructs an entity of them again,
and this tells the same raw data; so the two are equal.  Values of all kinds that a checker accepts
come through this, but for a few.  A day on its own is read as a moment.  An array or a mapping of
entities that is absent is made empty.  An entity of a class with another schema than the one
referred to is made an entity of the latter.  And what is kept as it is, and tells a raw form that
is no raw form of itself, tells another one the second time.

Main definitions:

* `Heap.Reversible` — **a value that comes through being told and made again**;
* `Heap.Remade` — a value of whose raw form a construction makes what tells the same.

Main results:

* `Heap.Reversible.of_inert` — what is kept as it is and leads to no object comes through;
* `Heap.remade_entity` — an entity is remade if the values of its fields are;
* `Heap.Reversible.remade` — what is valid and reversible is remade;
* `Construction.ofRaw_toRaw` — **construction undoes raw data.**
-/

import EntitySchema.Proofs.Agreement
import EntitySchema.Proofs.Lasting
import EntitySchema.Proofs.Validity

set_option autoImplicit false

namespace EntitySchema

namespace Value

mutual

/-- A raw form is its own raw form. -/
theorem encoded_encoded : (v : Value) → v.encoded.encoded = v.encoded
  | .list xs | .tuple xs => by rw [encoded, encoded, encodedItems_encodedItems xs]
  | .dict es | .ordered es => by rw [encoded, encoded, encodedEntries_encodedEntries es]
  | .date _ | .moment _ | .stamp _
  | .null | .bool _ | .int _ | .float _ | .nan _ | .str _ | .bytes _ | .set _ | .zone _ | .object _
  | .function _ | .method _ _ | .cls _ | .checker _ _ | .store _ | .thing _ => rfl
termination_by structural v => v

theorem encodedItems_encodedItems : (xs : List Value) →
    encodedItems (encodedItems xs) = encodedItems xs
  | [] => rfl
  | x :: xs => by
    rw [encodedItems, encodedItems, encoded_encoded x, encodedItems_encodedItems xs]
termination_by structural xs => xs

theorem encodedEntries_encodedEntries : (es : Entries) →
    encodedEntries (encodedEntries es) = encodedEntries es
  | [] => rfl
  | (k, v) :: es => by
    rw [encodedEntries, encodedEntries, encoded_encoded v, encodedEntries_encodedEntries es]
termination_by structural es => es

end

end Value

namespace Heap

open Encoding

variable {g : Catalog} {h h' : Heap} {v form : Value} {a : Address}

/-! ### What comes through -/

/-- A value that comes through being told and made again.  What is kept as it is has a raw form that
is its own raw form.  What is valid for a field of days is no day but a moment, and one that can be
read.  An entity in a reference has the schema of the class that is referred to, and its fields come
through; arrays and mappings of entities are there, and so do their members. -/
inductive Reversible (g : Catalog) (h : Heap) : Checker → Value → Prop
  | kept {c : Checker} {v : Value} : c.decodes = false →
      (∀ form, encodeWith h (Method.toRaw g h) false v = .ok form →
        encodeWith h (Method.toRaw g h) false form = .ok form) → Reversible g h c v
  | date {r : Bool} {v : Value} : (∀ d, v ≠ .date d) → (∀ m, v = .moment m → m.Readable) →
      Reversible g h (.date r) v
  | reference {t : Target} {e : Value} {r : Bool} {v : Value} :
      (∀ a target cls, v = .object a → g.resolve t = .ok target →
        (get h a).species = .entity cls → g.schemaOf cls = g.schemaOf target) →
      (∀ a target, v = .object a → g.resolve t = .ok target →
        ∀ f ∈ g.schemaOf target, Reversible g h f.2 (field g h a f.1)) →
      Reversible g h (.reference t e r) v
  | array {e : Checker} {r : Bool} {v : Value} : e.producesEntity = true → v ≠ .null →
      (∀ xs, v.elements? = some xs → ∀ x ∈ xs, Reversible g h e x) →
      Reversible g h (.arrayOf e r) v
  | dictionary {e : Checker} {r : Bool} {v : Value} : e.producesEntity = true → v ≠ .null →
      (∀ es, v = .dict es → ∀ p ∈ es, Reversible g h e p.2) → Reversible g h (.dictOf e r) v

/-- What is kept as it is comes through if it leads to no object. -/
theorem Reversible.of_inert {c : Checker} (hdec : c.decodes = false) (inert : v.Inert) :
    Reversible g h c v := by
  refine .kept hdec fun form told => ?_
  rw [encodeWith_of_inert v inert] at told
  cases told
  rw [encodeWith_of_inert _ (Value.inert_encoded v inert), Value.encoded_encoded]

/-! ### Raw forms that a value yields -/

/-- A value that goes on telling a raw form, while nothing in it comes to contain itself. -/
structure Yields (g : Catalog) (h : Heap) (v form : Value) : Prop where
  free : ∀ h', h <+: h' → SelfFree g h' v
  tells : Tells g h false v form

theorem Yields.mono (grown : h <+: h') (yields : Yields g h v form) : Yields g h' v form where
  free := fun h'' grown' => yields.free h'' (grown.trans grown')
  tells := yields.tells.mono grown

/-- What leads to no object yields its raw form. -/
theorem yields_of_inert (inert : v.Inert) : Yields g h v v.encoded where
  free := fun _ _ => .of_inert inert
  tells := fun _ _ => encodeWith_of_inert v inert

theorem yields_list {xs ys : List Value} (size : xs.length = ys.length)
    (members : ∀ p ∈ xs.zip ys, Yields g h p.1 p.2) : Yields g h (.list xs) (.list ys) where
  free := fun h' grown => selfFree_list fun x hx => by
    obtain ⟨y, hy⟩ := exists_mem_zip_of_mem_left size hx
    exact (members _ hy).free h' grown
  tells := fun h' grown => by
    rw [encodeWith, encodeItems_of_zip size fun p hp => (members p hp).tells h' grown]
    rfl

theorem yields_dict {keys xs ys : List Value} (size : xs.length = ys.length)
    (free : ∀ h', h <+: h' → ∀ k ∈ keys, SelfFree g h' k)
    (members : ∀ p ∈ xs.zip ys, Yields g h p.1 p.2) :
    Yields g h (.dict (keys.zip xs)) (.dict (keys.zip ys)) where
  free := fun h' grown => by
    refine SelfFree.of_leads fun a ha => ?_
    cases ha with
    | dictKey he ha => exact (free h' grown _ (List.of_mem_zip he).1).object (.direct ha)
    | dict he ha =>
      obtain ⟨y, hy⟩ := exists_mem_zip_of_mem_left size (List.of_mem_zip he).2
      exact ((members _ hy).free h' grown).object (.direct ha)
  tells := fun h' grown => by
    rw [encodeWith, encodeEntries_of_zip size fun p hp => (members p hp).tells h' grown]
    rfl

/-- A value is remade if a construction makes something of its raw form that yields this again. -/
def Remade (g : Catalog) (h : Heap) (make : Value → Build Value) (v : Value) : Prop :=
  ∃ form, Yields g h v form ∧ ∀ h₁, h <+: h₁ →
    ∃ x h₂, make form h₁ = .ok (x, h₂) ∧ h₁ <+: h₂ ∧ Yields g h₂ x form

/-- What is kept as it is is remade if its raw form is its own raw form. -/
theorem remade_kept (hg : g.WellFormed) (proper : Proper g h v)
    (again : ∀ form, encodeWith h (Method.toRaw g h) false v = .ok form →
      encodeWith h (Method.toRaw g h) false form = .ok form) : Remade g h pure v := by
  obtain ⟨form, tells, leads⟩ := proper.hasForm hg false
  have proper' : Proper g h form := proper.of_leads leads
  obtain ⟨form', tells', -⟩ := proper'.hasForm hg false
  obtain rfl : form' = form := Except.ok.inj
    ((tells' h List.prefix_rfl).symm.trans (again form (tells h List.prefix_rfl)))
  refine ⟨form', ⟨fun h' grown => proper.selfFree grown, tells⟩, fun h₁ grown =>
    ⟨form', h₁, rfl, List.prefix_rfl, fun h' grown' => ?_, tells'.mono grown⟩⟩
  exact proper'.selfFree (grown.trans grown')

section

variable {cls : ClassId} {id : Value} {pending : Entries} {w r : String → Value} (hg : g.WellFormed)

include hg

/-- An entity without deferred fields yields the raw forms of its fields. -/
theorem yields_of_cell
    (hc : get h a = Cell.ofFields cls id pending (Table.names (g.schemaOf cls)) w)
    (undeferred : ∀ f ∈ g.schemaOf cls, f.2.deferred = false)
    (nothing : ∀ f ∈ g.schemaOf cls, Entries.getStr? pending f.1 = none)
    (free : ∀ h', h <+: h' → SelfFree g h' (.object a))
    (fields : ∀ f ∈ g.schemaOf cls, Tells g h false (w f.1) (r f.1)) : Yields g h (.object a)
      (.dict (rawEntries id (Table.names (g.schemaOf cls)) r)) where
  free := free
  tells := tells_of_cell hg hc free fun f hf h' grown => by
    have told := fields f hf h' grown
    rw [← undeferred f hf] at told
    rw [encodeField_told hg (cell_of_extended hc grown) hf told, nothing f hf, Option.getD_none,
      ite_self]

/-- **An entity is remade if the values of its fields are**, by a class that has its schema. -/
theorem remade_entity {target : ClassId} (proper : Proper g h (.object a))
    (hc : get h a = Cell.ofFields cls id pending (Table.names (g.schemaOf cls)) w)
    (schema : g.schemaOf cls = g.schemaOf target)
    (undeferred : ∀ f ∈ g.schemaOf target, f.2.deferred = false)
    (nothing : ∀ f ∈ g.schemaOf target, Entries.getStr? pending f.1 = none)
    (fields : ∀ f ∈ g.schemaOf target,
      Remade g h (Construction.initialValue (Construction.decode g) f.2) (w f.1)) :
    ∃ es, Yields g h (.object a) (.dict es) ∧ ∀ h₁, h <+: h₁ → ∃ b h₂,
      Construction.ofRaw g target (.dict es) h₁ = .ok (.object b, h₂) ∧ h₁ <+: h₂ ∧
      (get h₂ b).species = .entity target ∧ Yields g h₂ (.object b) (.dict es) := by
  obtain ⟨r, hr⟩ := Catalog.exists_named (hg.nodup target) fields
  have hid := hg.id_not_mem target
  refine ⟨rawEntries id (Table.names (g.schemaOf target)) r, ?_, fun h₁ grown => ?_⟩
  · have yields := yields_of_cell hg hc (schema ▸ undeferred) (schema ▸ nothing)
      (fun h' grown => proper.selfFree grown) (r := r)
      (by rw [schema]; exact fun f hf => (hr f hf).1.tells)
    rwa [schema] at yields
  · -- every field is made of its raw form, in a heap that has grown
    have initial : ∀ f ∈ g.schemaOf target, ∀ h₁ : Heap, h <+: h₁ → ∃ x h₂,
        Construction.initialValue (Construction.decode g) f.2
          (Entries.getStr (rawEntries id (Table.names (g.schemaOf target)) r) f.1) h₁ =
            .ok (x, h₂) ∧
        h₁ <+: h₂ ∧ Yields g h₂ x (r f.1) := by
      intro f hf h₁ grown
      have hname : f.1 ∈ Table.names (g.schemaOf target) := List.mem_map_of_mem hf
      rw [getStr_rawEntries_field hname hid]
      exact (hr f hf).2 h₁ grown
    obtain ⟨v, h₂, hfrom, grown', made⟩ := Construction.fieldsFrom_of_forall
      (R := fun h₂ f x => Yields g h₂ x (r f.1)) (fun _ _ _ _ hle yields => yields.mono hle)
      (Q := fun h₁ => h <+: h₁) (fun _ _ hle grown => grown.trans hle) (hg.nodup target) initial h₁
      grown
    generalize hcell : Cell.ofFields target id [] (Table.names (g.schemaOf target)) v = cell
    have run : Construction.ofRaw g target
        (.dict (rawEntries id (Table.names (g.schemaOf target)) r)) h₁ =
          .ok (.object h₂.length, h₂ ++ [cell]) := by
      have aside := Construction.asideEntries_eq_nil
        (rawEntries id (Table.names (g.schemaOf target)) r) undeferred
      rw [Construction.ofRaw_apply, Construction.entriesOf_dict, ok_bind, hfrom, ok_bind,
        getStr_rawEntries_id hid, ← hcell, ← aside]
      rfl
    have hc' : get (h₂ ++ [cell]) h₂.length =
        Cell.ofFields target id [] (Table.names (g.schemaOf target)) v :=
      (get_alloc_self h₂ cell).trans hcell.symm
    have last : h₂ <+: h₂ ++ [cell] := List.prefix_append ..
    refine ⟨h₂.length, h₂ ++ [cell], run, grown'.trans last, by rw [hc']; rfl, ?_⟩
    refine yields_of_cell hg hc' undeferred (fun _ _ => rfl) (fun h' later => ?_) fun f hf =>
      ((made f hf).mono last).tells
    have identifier : SelfFree g h' id :=
      (proper.of_leads fun b hb => holds_of_id hc hb).selfFree
        (grown.trans (grown'.trans (last.trans later)))
    refine SelfFree.of_cell hg (cell_of_extended hc' later) identifier
      (.of_inert (Value.inert_dict_iff.2 (List.forall_mem_nil _))) fun name hname => ?_
    obtain ⟨f, hf, rfl⟩ := List.mem_map.1 hname
    exact (made f hf).free h' (last.trans later)

end

/-- Values that are remade are so one after the other. -/
theorem exists_of_remade {make : Value → Build Value} {xs : List Value}
    (members : ∀ x ∈ xs, Remade g h make x) : ∃ ys, xs.length = ys.length ∧
      (∀ p ∈ xs.zip ys, Yields g h p.1 p.2) ∧ ∀ h₁, h <+: h₁ → ∃ vs h₂,
        ys.mapM make h₁ = .ok (vs, h₂) ∧ h₁ <+: h₂ ∧ vs.length = ys.length ∧
        ∀ p ∈ vs.zip ys, Yields g h₂ p.1 p.2 := by
  obtain ⟨ys, size, hys⟩ := Catalog.exists_zip members
  refine ⟨ys, size, fun p hp => (hys p hp).1, ?_⟩
  refine Build.mapM_of_zip (R := fun h₂ x form => Yields g h₂ x form)
    (fun _ _ _ _ hle yields => yields.mono hle) (Q := fun h₁ => h <+: h₁)
    (fun _ _ hle grown => grown.trans hle) rfl fun p hp h₁ grown => ?_
  obtain ⟨y, hy, rfl⟩ := mem_zip_self hp
  obtain ⟨x, hxy⟩ := exists_mem_zip_of_mem_right size hy
  exact (hys _ hxy).2 h₁ grown

/-- An array is remade if its members are. -/
theorem remade_array {e : Checker} {r : Bool} {xs : List Value} (proper : Proper g h v)
    (hxs : v.elements? = some xs)
    (members : ∀ x ∈ xs, Remade g h (Construction.decode g e) x) :
    Remade g h (Construction.decode g (.arrayOf e r)) v := by
  obtain ⟨ys, size, hys, makes⟩ := exists_of_remade members
  have told : Tells g h false v (.list ys) := by
    intro h' grown
    have items := encodeItems_of_zip size fun p hp => (hys p hp).tells h' grown
    cases v <;> cases hxs <;> rw [encodeWith, items] <;> rfl
  refine ⟨.list ys, ⟨fun h' grown => proper.selfFree grown, told⟩, fun h₁ grown => ?_⟩
  obtain ⟨vs, h₂, hvs, grown', size', made⟩ := makes h₁ grown
  refine ⟨.list vs, h₂, ?_, grown', yields_list size' made⟩
  rw [Construction.decode, Checker.decodeWith_arrayOf]
  exact congrArg (· >>= fun p => .ok (Value.list p.1, p.2)) hvs

/-- A mapping is remade if its members are. -/
theorem remade_dictionary {e : Checker} {r : Bool} {es : Entries} (proper : Proper g h (.dict es))
    (members : ∀ p ∈ es, Remade g h (Construction.decode g e) p.2) :
    Remade g h (Construction.decode g (.dictOf e r)) (.dict es) := by
  have values : ∀ x ∈ es.map Prod.snd, Remade g h (Construction.decode g e) x :=
    List.forall_mem_map.2 members
  obtain ⟨ys, size, hys, makes⟩ := exists_of_remade values
  have keys : (es.map Prod.fst).length = ys.length := by simpa using size
  have told : Tells g h false (.dict es) (.dict ((es.map Prod.fst).zip ys)) := by
    intro h' grown
    have entries : encodeEntries h' (Method.toRaw g h') false
        ((es.map Prod.fst).zip (es.map Prod.snd)) = .ok ((es.map Prod.fst).zip ys) :=
      encodeEntries_of_zip size fun p hp => (hys p hp).tells h' grown
    rw [← List.zip_of_prod rfl rfl] at entries
    rw [encodeWith, entries]
    rfl
  refine ⟨_, ⟨fun h' grown => proper.selfFree grown, told⟩, fun h₁ grown => ?_⟩
  obtain ⟨vs, h₂, hvs, grown', size', made⟩ := makes h₁ grown
  refine ⟨.dict ((es.map Prod.fst).zip vs), h₂, ?_, grown', yields_dict size' ?_ made⟩
  · have entries : Checker.entriesOf h₁ (.dict ((es.map Prod.fst).zip ys)) =
        .ok ((es.map Prod.fst).zip ys) := rfl
    rw [Construction.decode, Checker.decodeWith_dictOf, entries, ok_bind,
      List.map_snd_zip keys.ge, List.map_fst_zip keys.le]
    exact congrArg (· >>= fun p => .ok (Value.dict ((es.map Prod.fst).zip p.1), p.2)) hvs
  · intro h' later k hk
    obtain ⟨p, hp, rfl⟩ := List.mem_map.1 hk
    exact (proper.of_leads fun a ha => .direct (.dictKey hp ha)).selfFree
      (grown.trans (grown'.trans later))

/-! ### What is valid and reversible -/

/-- What is valid as a day is absent, a day or a moment. -/
theorem cases_of_checkWith_date {visit : Address → Except Failure Unit} {r : Bool} {name : String}
    (ok : Checker.checkWith g h visit false (.date r) v name = .ok ⟨⟩) :
    v = .null ∨ (∃ d, v = .date d) ∨ ∃ m, v = .moment m := by
  cases v with
  | null => exact .inl rfl
  | date d => exact .inr (.inl ⟨d, rfl⟩)
  | moment m => exact .inr (.inr ⟨m, rfl⟩)
  | _ => cases ok

/-- What is valid as a reference is absent or an object. -/
theorem cases_of_checkWith_reference {visit : Address → Except Failure Unit} {t : Target}
    {e : Value}
    {r : Bool} {name : String}
    (ok : Checker.checkWith g h visit false (.reference t e r) v name = .ok ⟨⟩) :
    v = .null ∨ ∃ a, v = .object a := by
  cases v with
  | null => exact .inl rfl
  | object a => exact .inr ⟨a, rfl⟩
  | _ =>
    rw [Checker.checkWith, checkPresence_eq_ok_iff, Checker.presentWith,
      Checker.presentEntity] at ok
    cases ht : g.resolve t <;> rw [ht] at ok <;> cases ok

/-- What is valid as a mapping of entities is absent or a mapping. -/
theorem cases_of_checkWith_dictOf {visit : Address → Except Failure Unit} {e : Checker} {r : Bool}
    {name : String} (ok : Checker.checkWith g h visit false (.dictOf e r) v name = .ok ⟨⟩) :
    v = .null ∨ ∃ es, v = .dict es := by
  cases v with
  | null => exact .inl rfl
  | dict es => exact .inr ⟨es, rfl⟩
  | _ => cases ok

/-- What is valid as an array is absent or an array. -/
theorem cases_of_checkWith_arrayOf {visit : Address → Except Failure Unit} {e : Checker} {r : Bool}
    {name : String} (ok : Checker.checkWith g h visit false (.arrayOf e r) v name = .ok ⟨⟩) :
    v = .null ∨ ∃ xs, v.elements? = some xs := by
  cases v with
  | null => exact .inl rfl
  | list xs => exact .inr ⟨xs, rfl⟩
  | tuple xs => exact .inr ⟨xs, rfl⟩
  | _ => cases ok

theorem remade_null {c : Checker} (made : ∀ h, Construction.decode g c .null h = .ok (.null, h)) :
    Remade g h (Construction.decode g c) .null :=
  ⟨.null, yields_of_inert Value.inert_null, fun h₁ _ =>
    ⟨.null, h₁, made h₁, List.prefix_rfl, yields_of_inert Value.inert_null⟩⟩

/-- A valid entity is remade by a class that has its schema, if what is valid in its fields is. -/
theorem remade_valid (hg : g.WellFormed) {target cls : ClassId} (proper : Proper g h (.object a))
    (species : (get h a).species = .entity cls) (schema : g.schemaOf cls = g.schemaOf target)
    (free : g.EagerFree target) (valid : Method.validate g h a = .ok ⟨⟩)
    (fields : ∀ f ∈ g.schemaOf target, ∀ name, Proper g h (field g h a f.1) →
      Subject.EagerFree g (.decoded f.2) →
      Checker.checkWith g h (Method.validate g h) false f.2 (field g h a f.1) name = .ok ⟨⟩ →
      Remade g h (Construction.initialValue (Construction.decode g) f.2) (field g h a f.1)) :
    ∃ es, Yields g h (.object a) (.dict es) ∧ ∀ h₁, h <+: h₁ → ∃ b h₂,
      Construction.ofRaw g target (.dict es) h₁ = .ok (.object b, h₂) ∧ h₁ <+: h₂ ∧
      (get h₂ b).species = .entity target ∧ Yields g h₂ (.object b) (.dict es) := by
  have entity : isEntity h a = true := by rw [isEntity, species]
  obtain ⟨cls', id, pending, w, hc, nothing⟩ := proper.made a (.direct (.object a)) entity
  obtain rfl : cls' = cls := by
    rw [hc] at species
    exact Species.entity.inj species
  have undeferred : ∀ f ∈ g.schemaOf target, f.2.deferred = false := free target .refl
  have passed := (validate_of_cell hg hc proper.free).1 valid
  rw [schema] at passed nothing
  refine remade_entity hg proper hc schema undeferred (fun f hf => nothing f hf (undeferred f hf))
    fun f hf => ?_
  have hname : f.1 ∈ Table.names (g.schemaOf cls') := schema ▸ List.mem_map_of_mem hf
  have value : field g h a f.1 = w f.1 := field_of_cell hg hc hname
  have again := fields f hf f.1
  rw [value] at again
  exact again (proper.of_leads fun b hb => holds_of_value hc hname (.direct hb)) (free.field hf)
    (Checker.checkWith_eq_ok_iff.1 (passed f hf)).2

/-- **What is valid and reversible is remade.** -/
theorem Reversible.remade (hg : g.WellFormed) {c : Checker} (reversible : Reversible g h c v) :
    ∀ name, Proper g h v → Subject.EagerFree g (.decoded c) →
      Checker.checkWith g h (Method.validate g h) false c v name = .ok ⟨⟩ →
      Remade g h (Construction.initialValue (Construction.decode g) c) v := by
  induction reversible with
  | @kept c v hdec again =>
    intro name proper free ok
    have keeps : Construction.initialValue (Construction.decode g) c = pure := by
      funext raw
      rw [Construction.initialValue, free.1, hdec]
      rfl
    rw [keeps]
    exact remade_kept hg proper again
  | @date r v noDay readable =>
    intro name proper free ok
    rw [funext (Construction.initialValue_of_decodes rfl rfl)]
    rcases cases_of_checkWith_date ok with rfl | ⟨d, rfl⟩ | ⟨m, rfl⟩
    · exact remade_null fun _ => rfl
    · exact absurd rfl (noDay d)
    · refine ⟨_, yields_of_inert (Value.inert_moment m), fun h₁ grown =>
        ⟨.moment m, h₁, ?_, List.prefix_rfl, yields_of_inert (Value.inert_moment m)⟩⟩
      have read := Value.toMoment_isoText (readable m rfl) (objectName g h₁)
      rw [Construction.decode, Checker.decodeWith_date, Value.encoded, read]
      rfl
  | @reference t e r v schema fields ih =>
    intro name proper free ok
    rw [funext (Construction.initialValue_of_decodes free.1 rfl)]
    rcases cases_of_checkWith_reference ok with rfl | ⟨a, rfl⟩
    · exact remade_null fun _ => rfl
    · obtain ⟨target, ht, isInstance, valid⟩ := Checker.checkWith_object_eq_ok_iff.1 ok
      obtain ⟨cls, species⟩ : ∃ cls, (get h a).species = .entity cls := by
        cases hs : (get h a).species with
        | entity cls => exact ⟨cls, rfl⟩
        | plain =>
          rw [Heap.isInstance, hs] at isInstance
          cases isInstance
      -- a valid entity is told as a mapping, and a mapping is entered as one
      obtain ⟨es, yields, makes⟩ :=
        remade_valid hg proper species (schema a target cls rfl ht species)
          (free.2 t target rfl ht) valid (ih a target rfl ht)
      refine ⟨.dict es, yields, fun h₁ grown => ?_⟩
      obtain ⟨b, h₂, run, grown', -, yields'⟩ := makes h₁ grown
      refine ⟨.object b, h₂, ?_, grown', yields'⟩
      have mapping : ∀ b, Value.dict es ≠ .object b := fun _ heq => by cases heq
      rw [Construction.decode, Checker.decodeWith_reference t e r rfl mapping, ht]
      exact run
  | @array e r v hp there members ih =>
    intro name proper free ok
    have hdec : e.decodes = true := Checker.decodes_of_producesEntity hp
    rw [funext (Construction.initialValue_of_decodes (c := .arrayOf e r) free.1 hp)]
    rcases cases_of_checkWith_arrayOf ok with rfl | ⟨xs, hxs⟩
    · exact absurd rfl there
    · refine remade_array proper hxs fun x hx => ?_
      obtain ⟨path, passed⟩ := Checker.exists_of_checkWith_array hxs ok x hx
      have again := ih xs hxs x hx path (proper.of_leads fun a ha =>
        Checker.holds_of_element hxs hx (.direct ha)) free passed
      rwa [funext (Construction.initialValue_of_decodes (c := e) free.1 hdec)] at again
  | @dictionary e r v hp there members ih =>
    intro name proper free ok
    have hdec : e.decodes = true := Checker.decodes_of_producesEntity hp
    rw [funext (Construction.initialValue_of_decodes (c := .dictOf e r) free.1 hp)]
    rcases cases_of_checkWith_dictOf ok with rfl | ⟨es, rfl⟩
    · exact absurd rfl there
    · refine remade_dictionary proper fun p hmem => ?_
      obtain ⟨path, passed⟩ := Checker.exists_of_checkWith_dict ok p hmem
      have again := ih es rfl p hmem path (proper.of_leads fun a ha => .direct (.dict hmem ha)) free
        passed
      rwa [funext (Construction.initialValue_of_decodes (c := e) free.1 hdec)] at again

end Heap

/-- **Construction undoes raw data.**  Let no eager reference be reached from a class, and let one
of its entities be in order and valid, with values in its fields that come through.  Then it tells
raw data, and its class constructs of them an entity that tells the same; and the two are equal, as
far as the dictionaries in the raw data have different keys. -/
theorem Construction.ofRaw_toRaw {g : Catalog} (hg : g.WellFormed) {h : Heap} {a : Address}
    {cls : ClassId} (species : (Heap.get h a).species = .entity cls) (free : g.EagerFree cls)
    (proper : Heap.Proper g h (.object a)) (valid : Method.validate g h a = .ok ⟨⟩)
    (reversible : ∀ f ∈ g.schemaOf cls, Heap.Reversible g h f.2 (Heap.field g h a f.1)) :
    ∃ raw b h', Method.toRaw g h a = .ok raw ∧ ofRaw g cls raw h = .ok (.object b, h') ∧
      (Heap.get h' b).species = .entity cls ∧ Method.toRaw g h' b = .ok raw ∧
      (raw.WellKeyed (Heap.isEntity h) → Method.equal g h' (.object b) (.object a) = .ok true) := by
  obtain ⟨es, yields, makes⟩ := Heap.remade_valid hg proper species rfl free valid
    fun f hf => (reversible f hf).remade hg
  obtain ⟨b, h', run, grown, species', yields'⟩ := makes h List.prefix_rfl
  have toRaw_of_tells : ∀ {h : Heap} {a : Address} {cls : ClassId},
      (Heap.get h a).species = .entity cls → Heap.Tells g h false (.object a) (.dict es) →
      Method.toRaw g h a = .ok (.dict es) := by
    intro h a cls species tells
    have told := tells h List.prefix_rfl
    rwa [Encoding.encodeWith, Heap.isEntity, species] at told
  have there : a < h.length := proper.covers a (.object a)
  have kept : (Heap.get h' a).species = .entity cls := by rwa [Heap.get_of_extended grown there]
  have told := toRaw_of_tells species yields.tells
  have told' := toRaw_of_tells species' yields'.tells
  refine ⟨.dict es, b, h', told, run, species', told', fun keyed => ?_⟩
  have keyed' : (Value.dict es).WellKeyed (Heap.isEntity h') := by
    obtain ⟨form, tells, leads⟩ := proper.hasForm hg false
    obtain rfl : form = .dict es := Except.ok.inj
      ((tells h List.prefix_rfl).symm.trans (yields.tells h List.prefix_rfl))
    refine (Value.wellKeyed_congr _ fun c hc => ?_).2 keyed
    rw [Heap.isEntity, Heap.isEntity,
      Heap.get_of_extended grown ((leads c hc).lt proper.sound proper.covers)]
  rw [Method.equal, Heap.isEntity, species']
  show Method.sameObjects g h' (3 * List.length h' + 1 + 1) b a = .ok true
  rw [Method.sameObjects, species', kept, told', toRaw_of_tells kept (yields.tells.mono grown)]
  simp only [if_true, ok_bind]
  exact Value.sameWith_self (3 * List.length h') _ keyed'

/-! ### A book by a poet -/

namespace Construction

/-- The classes of authors and books, and a class of poets, who are authors. -/
def poets : Catalog where
  classes := Loading.books.classes ++ [⟨"Poet", "Poet", [3, 1, 0],
    [("name", Checker.string), ("born", .date false)], none, none⟩]
  names := Loading.books.names ++ [("Poet", 3)]

theorem wellFormed_poets : poets.WellFormed :=
  Loading.wellFormed_books.append (by decide) (by decide)

/-- What a poet holds in its fields. -/
def ann (name : String) : Value := if name = "name" then .str "Ann" else .moment .last

/-- What a book with nothing in it holds. -/
def blank (name : String) : Value := if name = "parts" then .dict [] else .null

/-- What a book by the poet holds, with the other one in one of its parts. -/
def poems (name : String) : Value :=
  if name = "title" then .str "Poems"
  else if name = "author" then .object 0
  else .dict [(.str "one", .tuple [.object 1, .null])]

/-- The poet, the book with nothing in it, and the book by the poet. -/
def shelf : Heap :=
  [Cell.ofFields 3 (.str "p1") [] ["name", "born"] ann,
   Cell.ofFields 2 .null [] ["title", "author", "parts"] blank,
   Cell.ofFields 2 (.int 7) [] ["title", "author", "parts"] poems]

theorem proper_shelf : Heap.Proper poets shelf (.object 2) where
  sound := Heap.sound_of_forall (by decide +kernel)
  covers := Heap.covers_of_forall (by decide +kernel)
  made a _ entity := by
    match a, Heap.lt_of_isEntity entity with
    | 0, _ => exact ⟨3, _, [], ann, rfl, fun _ _ _ => rfl⟩
    | 1, _ => exact ⟨2, _, [], blank, rfl, fun _ _ _ => rfl⟩
    | 2, _ => exact ⟨2, _, [], poems, rfl, fun _ _ _ => rfl⟩
  free := by
    have nothing : Heap.SelfFree poets shelf (.dict []) :=
      .of_inert (Value.inert_dict_iff.2 (List.forall_mem_nil _))
    have poet : Heap.SelfFree poets shelf (.object 0) := by
      have hc : Heap.get shelf 0 =
          Cell.ofFields 3 (.str "p1") [] (Table.names (poets.schemaOf 3)) ann := rfl
      refine .of_cell wellFormed_poets hc (.of_inert (Value.inert_str _)) nothing fun name _ => ?_
      unfold ann
      split
      · exact .of_inert (Value.inert_str _)
      · exact .of_inert (Value.inert_moment _)
    have book : Heap.SelfFree poets shelf (.object 1) := by
      have hc : Heap.get shelf 1 =
          Cell.ofFields 2 .null [] (Table.names (poets.schemaOf 2)) blank := rfl
      refine .of_cell wellFormed_poets hc (.of_inert Value.inert_null) nothing fun name _ => ?_
      unfold blank
      split
      · exact nothing
      · exact .of_inert Value.inert_null
    have hc : Heap.get shelf 2 =
        Cell.ofFields 2 (.int 7) [] (Table.names (poets.schemaOf 2)) poems := rfl
    refine .of_cell wellFormed_poets hc (.of_inert nofun) nothing fun name _ => ?_
    unfold poems
    split
    · exact .of_inert (Value.inert_str _)
    · split
      · exact poet
      · refine .of_leads fun a ha => ?_
        cases ha with
        | dictKey he ha =>
          cases List.mem_singleton.1 he
          exact absurd ha (Value.inert_str _ a)
        | dict he ha =>
          cases List.mem_singleton.1 he
          cases ha with
          | tuple hx ha =>
            rcases List.mem_pair.1 hx with rfl | rfl
            · cases ha
              exact book
            · cases ha

/-- What the book by the poet holds comes through. -/
theorem reversible_shelf : ∀ f ∈ poets.schemaOf 2,
    Heap.Reversible poets shelf f.2 (Heap.field poets shelf 2 f.1) := by
  have noEntity : ∀ t e r, Heap.Reversible poets shelf (.reference t e r) .null := fun t e r =>
    .reference (fun _ _ _ heq => nomatch heq) fun _ _ heq => nomatch heq
  have poet : ∀ f ∈ poets.schemaOf 1,
      Heap.Reversible poets shelf f.2 (Heap.field poets shelf 0 f.1) := by
    intro f hf
    rcases hf with _ | ⟨_, _ | ⟨_, hf⟩⟩
    · exact .of_inert rfl (Value.inert_str _)
    · refine .date (fun _ heq => nomatch heq) fun m heq => ?_
      cases heq
      exact nofun
    · cases hf
  have book : ∀ f ∈ poets.schemaOf 2,
      Heap.Reversible poets shelf f.2 (Heap.field poets shelf 1 f.1) := by
    intro f hf
    rcases hf with _ | ⟨_, _ | ⟨_, _ | ⟨_, hf⟩⟩⟩
    · exact .of_inert rfl Value.inert_null
    · exact noEntity _ _ _
    · refine .dictionary rfl (fun heq => nomatch heq) fun es heq => ?_
      cases heq
      exact List.forall_mem_nil _
    · cases hf
  intro f hf
  rcases hf with _ | ⟨_, _ | ⟨_, _ | ⟨_, hf⟩⟩⟩
  · exact .of_inert rfl (Value.inert_str _)
  · refine .reference (fun a target cls heq ht species => ?_) fun a target heq ht => ?_
    · cases heq
      cases ht
      cases species
      rfl
    · cases heq
      cases ht
      exact poet
  · refine .dictionary rfl (fun heq => nomatch heq) fun es heq p hp => ?_
    cases heq
    cases List.mem_singleton.1 hp
    refine .array rfl (fun heq => nomatch heq) fun xs hxs x hx => ?_
    cases hxs
    rcases List.mem_pair.1 hx with rfl | rfl
    · refine .reference (fun a target cls heq ht species => ?_) fun a target heq ht => ?_
      · cases heq
        cases ht
        cases species
        rfl
      · cases heq
        cases ht
        exact book
    · exact noEntity _ _ _
  · cases hf

/-- **The book by the poet is told and constructed again**, and the two are equal. -/
theorem ofRaw_toRaw_poems : ∃ raw b h', Method.toRaw poets shelf 2 = .ok raw ∧
    ofRaw poets 2 raw shelf = .ok (.object b, h') ∧ Method.toRaw poets h' b = .ok raw ∧
    Method.equal poets h' (.object b) (.object 2) = .ok true := by
  have free : poets.EagerFree 2 := Catalog.eagerFree_of_classes (by decide) 2
  obtain ⟨raw, b, h', told, run, -, told', equal⟩ := ofRaw_toRaw wellFormed_poets (a := 2) rfl free
    proper_shelf rfl reversible_shelf
  have known : Method.toRaw poets shelf 2 = .ok (.dict [(.str idField, .int 7),
      (.str "title", .str "Poems"), (.str "author", .dict [(.str idField, .str "p1"),
        (.str "name", .str "Ann"), (.str "born", .str Moment.last.isoText)]),
      (.str "parts",
        .dict [(.str "one", .list [.dict [(.str "title", .null), (.str "author", .null),
        (.str "parts", .dict [])], .null])])]) := rfl
  cases known.symm.trans told
  exact ⟨_, b, h', told, run, told', equal (Value.isData_of_isPlain _ (by decide)).wellKeyed⟩

end Construction

end EntitySchema
