/-
**Which trees are valid.**

Whether an entity is valid depends on what it holds and not on where that is, so it can be said of
trees: a checker accepts a tree, or it does not.  What leads to no object is accepted in every heap
or in none.

An entity that is constructed and the entity that is loaded of the same raw data differ in the
deferred fields alone.  So the one is valid if the other is, unless a deferred field is required.

Main definitions:

* `Tree.Fits` — **a tree that a checker accepts**, or the schema of a class;
* `Heap.Passes` — a value of the heap that passes a checker, or an entity that is valid;
* `Catalog.Carries` — raw data and the raw data that are embedded in them.

Main results:

* `Checker.checkWith_of_inert` — what leads to no object is checked alike in every heap;
* `Tree.Fits.passes` — **what reads as a tree that fits passes**;
* `Catalog.fits_of_loaded` — **what is constructed fits if what is loaded is valid**, unless a
  deferred field is required.
-/

import EntitySchema.Proofs.RawForm

set_option autoImplicit false

namespace EntitySchema

/-! ### Checks that pass -/

theorem forM_eq_ok_iff {α : Type} {f : α → Except Failure Unit} {xs : List α} :
    xs.forM f = .ok ⟨⟩ ↔ ∀ x ∈ xs, f x = .ok ⟨⟩ := by
  induction xs with
  | nil => exact ⟨fun _ => List.forall_mem_nil _, fun _ => rfl⟩
  | cons x xs ih =>
    have step : (x :: xs).forM f = f x >>= fun _ => xs.forM f := rfl
    rw [step, List.forall_mem_cons, ← ih]
    cases f x with
    | error e => exact ⟨nofun, fun h => nomatch h.1⟩
    | ok u => exact ⟨fun h => ⟨rfl, h⟩, And.right⟩

theorem checkPresence_eq_ok_iff {required : Bool} {v : Value} {name : String}
    {present : Except Failure Unit} : checkPresence required v name present = .ok ⟨⟩ ↔
      if v.isNull then required = false else present = .ok ⟨⟩ := by
  rw [checkPresence]
  cases v.isNull with
  | false => exact Iff.rfl
  | true => cases required <;> simp [failCheck]

namespace Checker

variable {g : Catalog} {h : Heap} {visit : Address → Except Failure Unit} {c : Checker} {v : Value}
  {name : String}

/-- A check passes with the flag if it does without and the value is there. -/
theorem checkWith_eq_ok_iff {required : Bool} :
    checkWith g h visit required c v name = .ok ⟨⟩ ↔
      (required = true → v.isNull = false) ∧ checkWith g h visit false c v name = .ok ⟨⟩ := by
  rw [checkWith, checkWith, checkPresence_eq_ok_iff, checkPresence_eq_ok_iff]
  cases v.isNull <;> simp

/-- A reference accepts an entity of the right class that is valid. -/
theorem checkWith_object_eq_ok_iff {required : Bool} {t : Target} {e : Value} {r : Bool}
    {a : Address} :
    checkWith g h visit required (.reference t e r) (.object a) name = .ok ⟨⟩ ↔
      ∃ cls, g.resolve t = .ok cls ∧ Heap.isInstance g h a cls = true ∧ visit a = .ok ⟨⟩ := by
  have present : checkWith g h visit required (.reference t e r) (.object a) name =
      presentEntity g h visit t (.object a) name := rfl
  rw [present, presentEntity]
  cases g.resolve t with
  | error e => simp [bind, Except.bind]
  | ok cls =>
    rw [ok_bind]
    dsimp only
    have boundary : atBoundary name (visit a) = .ok ⟨⟩ ↔ visit a = .ok ⟨⟩ := by
      cases visit a with
      | ok u => exact Iff.rfl
      | error e => cases e <;> simp [atBoundary, failCheck]
    cases isInstance : Heap.isInstance g h a cls with
    | false => simp [failCheck, isInstance]
    | true => simp [boundary, isInstance]

/-- The elements of an array that passes pass. -/
theorem exists_of_checkWith_array {e : Checker} {r : Bool} {xs : List Value}
    (hxs : v.elements? = some xs)
    (ok : checkWith g h visit false (.arrayOf e r) v name = .ok ⟨⟩) :
    ∀ x ∈ xs, ∃ path, checkWith g h visit false e x path = .ok ⟨⟩ := by
  have passed := (checkPresence_eq_ok_iff.1 ok)
  rw [if_neg (by cases v <;> cases hxs <;> exact Bool.false_ne_true), presentWith, hxs] at passed
  intro x hx
  obtain ⟨i, hi⟩ := List.getElem?_of_mem hx
  exact ⟨_, forM_eq_ok_iff.1 passed (x, i) (List.mk_mem_zipIdx_iff_getElem?.2 hi)⟩

/-- The values of a dictionary that passes pass. -/
theorem exists_of_checkWith_dict {e : Checker} {r : Bool} {es : Entries}
    (ok : checkWith g h visit false (.dictOf e r) (.dict es) name = .ok ⟨⟩) :
    ∀ p ∈ es, ∃ path, checkWith g h visit false e p.2 path = .ok ⟨⟩ :=
  fun p hp => ⟨_, forM_eq_ok_iff.1 ok p hp⟩

/-- An attribute of what leads to no object does not depend on the heap. -/
theorem attribute?_of_inert (hv : v.Inert) (h' : Heap) (token : Nat) (field : String) :
    Heap.attribute? g h token v field = Heap.attribute? g h' token v field := by
  cases v with
  | object a => exact absurd rfl (hv.ne_object a)
  | function a => exact absurd (.function a) (hv a)
  | _ => rfl

/-- What a shape looks up in what leads to no object leads to none. -/
theorem inert_shapeItem (hv : v.Inert) (field : String) : (shapeItem g h v field).Inert := by
  intro a ha
  have held : h.Holds v a := holds_of_shapeItem (.direct ha)
  obtain ⟨b, hb, -⟩ := held.exists_leads
  exact hv b hb

theorem shapeItem_of_inert (hv : v.Inert) (h' : Heap) (field : String) :
    shapeItem g h v field = shapeItem g h' v field := by
  rw [shapeItem, shapeItem, attribute?_of_inert hv h']

variable (h' : Heap) (visit' : Address → Except Failure Unit)

/-- A check of what leads to no object passes everywhere if it passes where it is there. -/
theorem checkPresence_of_present {required : Bool} {name' : String} {p p' : Except Failure Unit}
    (hp : p = .ok ⟨⟩ → p' = .ok ⟨⟩) (ok : checkPresence required v name p = .ok ⟨⟩) :
    checkPresence required v name' p' = .ok ⟨⟩ := by
  rw [checkPresence_eq_ok_iff] at ok ⊢
  split
  · next absent => rwa [if_pos absent] at ok
  · next there =>
    rw [if_neg there] at ok
    exact hp ok

mutual

/-- What leads to no object passes a check in every heap if it does in one. -/
theorem presentWith_of_inert : (c : Checker) → ∀ {v : Value}, v.Inert → ∀ {name : String},
    presentWith g h visit c v name = .ok ⟨⟩ → ∀ name',
      presentWith g h' visit' c v name' = .ok ⟨⟩
  | .scalar label accepts r, v, _, name, ok, name' => by
    rw [presentWith] at ok ⊢
    split at ok
    · next accepted => rw [if_pos accepted]
    · cases ok
  | .date r, v, _, name, ok, name' => by
    cases v with
    | date d => rfl
    | moment m => rfl
    | _ => cases ok
  | .arrayOf e r, v, hv, name, ok, name' => by
    rw [presentWith] at ok ⊢
    cases hxs : v.elements? with
    | none =>
      rw [hxs] at ok
      cases ok
    | some xs =>
      rw [hxs] at ok
      rw [forM_eq_ok_iff] at ok ⊢
      intro p hp
      have mem : p.1 ∈ xs := List.fst_mem_of_mem_zipIdx hp
      -- an element leads to nothing that the array does not hold
      have inert : p.1.Inert := fun a ha => by
        obtain ⟨b, hb, -⟩ := (holds_of_element (h := h) hxs mem (.direct ha)).exists_leads
        exact hv b hb
      exact checkPresence_of_present (fun ok => presentWith_of_inert e inert ok _) (ok p hp)
  | .dictOf e r, v, hv, name, ok, name' => by
    cases v with
    | dict es =>
      rw [presentWith, forM_eq_ok_iff] at ok ⊢
      intro p hp
      have inert := (Value.inert_dict_iff.1 hv p hp).2
      exact checkPresence_of_present (fun ok => presentWith_of_inert e inert ok _) (ok p hp)
    | _ => cases ok
  | .shape fs r, v, hv, name, ok, name' => by
    rw [presentWith] at ok ⊢
    split at ok
    · cases ok
    · next there =>
      rw [if_neg there]
      exact presentFields_of_inert fs hv ok _
  | .reference t e r, v, hv, name, ok, name' => by
    rw [presentWith, presentEntity] at ok
    cases ht : g.resolve t with
    | error e =>
      rw [ht] at ok
      cases ok
    | ok cls =>
      rw [ht] at ok
      cases v with
      | object a => exact absurd rfl (hv.ne_object a)
      | _ => cases ok

/-- The same of the fields of a shape. -/
theorem presentFields_of_inert : (fs : List (String × Checker)) → ∀ {v : Value}, v.Inert →
    ∀ {name : String}, presentFields g h visit fs v name = .ok ⟨⟩ → ∀ name',
      presentFields g h' visit' fs v name' = .ok ⟨⟩
  | [], _, _, _, _, _ => rfl
  | (field, c) :: fs, v, hv, name, ok, name' => by
    rw [presentFields] at ok ⊢
    obtain ⟨⟨⟩, first, rest⟩ := bind_eq_ok.1 ok
    have item := inert_shapeItem (g := g) (h := h) hv field
    rw [← shapeItem_of_inert hv h', checkPresence_of_present
      (fun ok => presentWith_of_inert c item ok _) first]
    exact presentFields_of_inert fs hv rest _

end

/-- **What leads to no object is checked alike in every heap.** -/
theorem checkWith_of_inert (hv : v.Inert) {required : Bool}
    (ok : checkWith g h visit required c v name = .ok ⟨⟩) (name' : String) :
    checkWith g h' visit' required c v name' = .ok ⟨⟩ :=
  checkPresence_of_present (fun ok => presentWith_of_inert h' visit' c hv ok _) ok

end Checker

/-! ### Trees that fit -/

/-- **A tree that a checker accepts, or the schema of a class.**  A leaf is accepted as a value; an
entity by a reference to its class, or to one that its class is built on, if the schema of its class
accepts it; and a container if its members are accepted.  A schema accepts an entity if each field
is accepted by its checker, and is there if it is required. -/
inductive Tree.Fits (g : Catalog) : Subject → Tree → Prop
  | leaf {c : Checker} {v : Value} : v.Inert →
      (∀ h visit name, Checker.checkWith g h visit false c v name = .ok ⟨⟩) →
      Fits g (.decoded c) (.leaf v)
  | reference {t : Target} {e : Value} {r : Bool} {target cls : ClassId} {id : Value}
      {pending : Entries} {fields : String → Tree} : g.resolve t = .ok target →
      g.isInstance cls target = true → Fits g (.entity cls) (.entity cls id pending fields) →
      Fits g (.decoded (.reference t e r)) (.entity cls id pending fields)
  | array {e : Checker} {r : Bool} {ts : List Tree} : (∀ t ∈ ts, Fits g (.decoded e) t) →
      Fits g (.decoded (.arrayOf e r)) (.array ts)
  | dictionary {e : Checker} {r : Bool} {keys : List Value} {ts : List Tree} :
      (∀ t ∈ ts, Fits g (.decoded e) t) → Fits g (.decoded (.dictOf e r)) (.dictionary keys ts)
  | entity {cls : ClassId} {id : Value} {pending : Entries} {fields : String → Tree} :
      (∀ f ∈ g.schemaOf cls, f.2.required = true → (fields f.1).isAbsent = false) →
      (∀ f ∈ g.schemaOf cls, Fits g (.decoded f.2) (fields f.1)) →
      Fits g (.entity cls) (.entity cls id pending fields)

/-- Whoever looks for the absent value finds it accepted. -/
theorem Tree.fits_null (g : Catalog) (c : Checker) : Tree.Fits g (.decoded c) (.leaf .null) :=
  .leaf Value.inert_null fun _ _ _ => rfl

/-- What leads to no object fits if it is accepted anywhere. -/
theorem Tree.fits_leaf {g : Catalog} {h : Heap} {visit : Address → Except Failure Unit}
    {c : Checker}
    {v : Value} {name : String} (hv : v.Inert)
    (ok : Checker.checkWith g h visit false c v name = .ok ⟨⟩) :
    Tree.Fits g (.decoded c) (.leaf v) :=
  .leaf hv fun h' visit' name' => Checker.checkWith_of_inert h' visit' hv ok name'

namespace Heap

variable {g : Catalog} {h : Heap}

/-- **An entity as it is constructed is valid** if each of its fields is, checked with its flag. -/
theorem validate_of_cell (hg : g.WellFormed) {a : Address} {cls : ClassId} {id : Value}
    {pending : Entries} {v : String → Value}
    (hc : get h a = Cell.ofFields cls id pending (Table.names (g.schemaOf cls)) v)
    (free : SelfFree g h (.object a)) : Method.validate g h a = .ok ⟨⟩ ↔ ∀ f ∈ g.schemaOf cls,
      Checker.checkWith g h (Method.validate g h) f.2.required f.2 (v f.1) f.1 = .ok ⟨⟩ := by
  have method : objectAttribute? g h a "validate" = some (.method (.object a) "validate") :=
    objectAttribute?_of_reserved hg hc (by decide) (by decide)
  have asked : Method.validate g h a = (classRules g cls).forM
      (Validation.checkField g h (Method.validate g h) a) := by
    conv_lhs => rw [Method.validate, Method.send, attribute?, method]
    simp only [Method.invoke_validate free, Validation.validateWith, rules_of_cell hg hc, ok_bind]
    cases (classRules g cls).forM (Validation.checkField g h (Method.validate g h) a) <;> rfl
  rw [asked, forM_eq_ok_iff, classRules, List.forall_mem_map]
  refine forall₂_congr fun f hf => ?_
  have hname : f.1 ∈ Table.names (g.schemaOf cls) := List.mem_map_of_mem hf
  rw [Validation.checkField, field_of_cell hg hc hname]

/-- A value of the heap that passes a checker wherever it may stand, or an entity that is valid. -/
def Passes (g : Catalog) (h : Heap) : Subject → Value → Prop
  | .entity _, v => ∀ a, v = .object a → Method.validate g h a = .ok ⟨⟩
  | .decoded c, v => ∀ name, Checker.checkWith g h (Method.validate g h) false c v name = .ok ⟨⟩

end Heap

/-- **What reads as a tree that fits passes**, if the tree tells all. -/
theorem Tree.Fits.passes {g : Catalog} (hg : g.WellFormed) {h : Heap} {s : Subject} {t : Tree}
    (fits : t.Fits g s) (whole : t.Whole g) {v : Value} (reads : Heap.Reads g h v t) :
    Heap.Passes g h s v := by
  induction fits generalizing v with
  | leaf _ accepted =>
    obtain rfl := reads.eq_of_leaf
    exact fun name => accepted h _ name
  | reference ht isInstance _ ih =>
    obtain ⟨a, _, rfl, hc, -⟩ := reads.exists_cell
    refine fun name => Checker.checkWith_object_eq_ok_iff.2 ⟨_, ht, ?_, ih whole reads a rfl⟩
    rw [Heap.isInstance, hc]
    exact isInstance
  | array _ ih =>
    cases whole with
    | array wholes =>
      cases reads with
      | array hlen hx =>
        refine fun name => forM_eq_ok_iff.2 fun p hp => ?_
        obtain ⟨t, ht⟩ := exists_mem_zip_of_mem_left hlen (List.fst_mem_of_mem_zipIdx hp)
        have mem := (List.of_mem_zip ht).2
        exact ih t mem (wholes t mem) (hx _ ht) _
  | dictionary _ ih =>
    cases whole with
    | dictionary _ wholes =>
      cases reads with
      | dictionary hlen hx =>
        refine fun name => forM_eq_ok_iff.2 fun p hp => ?_
        obtain ⟨t, ht⟩ := exists_mem_zip_of_mem_left (by simpa using hlen)
          (List.mem_map_of_mem (f := Prod.snd) hp)
        have mem := (List.of_mem_zip ht).2
        exact ih t mem (wholes t mem) (hx _ ht) _
  | entity there _ ih =>
    have free := reads.selfFree hg whole
    cases whole with
    | entity _ _ wholes =>
      rintro a rfl
      cases reads with
      | entity hc hv =>
        refine (Heap.validate_of_cell hg hc free).2 fun f hf => ?_
        have field := hv f.1 (List.mem_map_of_mem hf)
        refine Checker.checkWith_eq_ok_iff.2 ⟨fun required => ?_, ih f hf (wholes f hf) field f.1⟩
        rw [field.isNull]
        exact there f hf required

/-! ### What is constructed and what is loaded -/

/-- Raw data of a class carry themselves and the raw data that are embedded in them, each with the
class that they are for. -/
inductive Catalog.Carries (g : Catalog) : ClassId → Value → ClassId → Value → Prop
  | self (cls : ClassId) (raw : Value) : Carries g cls raw cls raw
  | embedded {cls c d : ClassId} {raw x y : Value} {data : Entries} {f : String × Checker} :
      Construction.entriesOf [] raw = .ok data → f ∈ g.schemaOf cls →
      Checker.Enters g f.2 (Entries.getStr data f.1) c x → Carries g c x d y →
      Carries g cls raw d y

section

variable {g : Catalog} {h : Heap} {enter enter' seek seek' : ClassId → Value → Option Tree}

/-- Where trees of two kinds were made of the same raw values, and the first are the trees of
values, a tree of the second has its counterparts among all three. -/
theorem exists_counterparts {α β γ δ : Type} {ys : List α} {ts : List β} {us : List γ} {xs : List δ}
    (first : ys.length = ts.length) (second : ys.length = us.length)
    (values : xs.length = ts.length)
    {u : γ} (hu : u ∈ us) :
    ∃ y t x, (y, u) ∈ ys.zip us ∧ (y, t) ∈ ys.zip ts ∧ (x, t) ∈ xs.zip ts := by
  obtain ⟨y, hyu⟩ := exists_mem_zip_of_mem_right second hu
  obtain ⟨t, hyt, -⟩ := exists_mem_zip_of_zip (second.symm.trans first) hyu
  obtain ⟨x, hxt⟩ := exists_mem_zip_of_mem_right values (List.of_mem_zip hyt).2
  exact ⟨y, t, x, hyu, hyt, hxt⟩

/-- What a checker that is not deferred makes in one way fits if what it makes in another passes,
where that holds of the entities that it enters. -/
theorem Checker.fits_of_treeWith : (c : Checker) → c.deferred = false → (raw : Value) → raw.Inert →
    (∀ cls x t u a, Enters g c raw cls x → x.Inert → enter cls x = some t → t.Whole g →
      Heap.Reads g h (.object a) t → Method.validate g h a = .ok ⟨⟩ → enter' cls x = some u →
      u.Fits g (.entity cls)) →
    (∀ cls x t, enter cls x = some t → ∃ id fields, t = .entity cls id [] fields) → ∀ {t u : Tree},
      treeWith g enter seek c raw = some t → t.Whole g → treeWith g enter' seek' c raw = some u →
      ∀ {v : Value} {name : String}, Heap.Reads g h v t →
        checkWith g h (Method.validate g h) false c v name = .ok ⟨⟩ →
        u.Fits g (.decoded c) ∧ u.isAbsent = t.isAbsent
  | .scalar _ _ _, _, raw, hraw, _, _, t, u, ht, _, hu, v, name, reads, ok
  | .shape _ _, _, raw, hraw, _, _, t, u, ht, _, hu, v, name, reads, ok => by
    cases ht
    cases hu
    obtain rfl := reads.eq_of_leaf
    exact ⟨Tree.fits_leaf hraw ok, rfl⟩
  | .date r, _, raw, hraw, _, _, t, u, ht, _, hu, v, name, reads, ok => by
    obtain ⟨w, hw, ht⟩ := Option.bind_eq_some_iff.1 ht
    obtain ⟨w', hw', hu⟩ := Option.bind_eq_some_iff.1 hu
    cases hw.symm.trans hw'
    cases ht
    cases hu
    obtain rfl := reads.eq_of_leaf
    exact ⟨Tree.fits_leaf (hraw.toMoment (toOption_eq_some_iff.1 hw)) ok, rfl⟩
  | .reference target e r, hd, raw, hraw, henter, hentity, t, u, ht, whole, hu, v, name,
    reads, ok => by
    have lazy : e.truthy = false := hd
    rw [treeWith, lazy, if_neg Bool.false_ne_true, enterTree] at ht hu
    split at ht
    · next absent =>
      rw [if_pos absent] at hu
      cases ht
      cases hu
      exact ⟨Tree.fits_null g _, rfl⟩
    · next there =>
      rw [if_neg there] at hu
      obtain ⟨cls, hcls, ht⟩ := Option.bind_eq_some_iff.1 ht
      obtain ⟨cls', hcls', hu⟩ := Option.bind_eq_some_iff.1 hu
      cases hcls.symm.trans hcls'
      have resolved := toOption_eq_some_iff.1 hcls
      have entered : Enters g (.reference target e r) raw cls raw :=
        .reference r lazy (Bool.eq_false_of_not_eq_true there) resolved
      obtain ⟨id, fields, rfl⟩ := hentity cls raw t ht
      obtain ⟨a, _, rfl, hc, -⟩ := reads.exists_cell
      -- the reference accepts an entity of its class that is valid
      obtain ⟨_, resolved', isInstance, valid⟩ := checkWith_object_eq_ok_iff.1 ok
      cases resolved.symm.trans resolved'
      rw [Heap.isInstance, hc] at isInstance
      have fits := henter cls raw _ u a entered hraw ht whole reads valid hu
      cases fits with
      | entity there fields => exact ⟨.reference resolved isInstance (.entity there fields), rfl⟩
  | .arrayOf c r, hd, raw, hraw, henter, hentity, t, u, ht, whole, hu, v, name, reads, ok => by
    rw [treeWith_arrayOf] at ht hu
    obtain ⟨items, hitems, ht⟩ := Option.bind_eq_some_iff.1 ht
    obtain ⟨ts, hts, ht⟩ := Option.bind_eq_some_iff.1 ht
    rw [hitems, Option.bind_some] at hu
    obtain ⟨us, hus, hu⟩ := Option.bind_eq_some_iff.1 hu
    cases ht
    cases hu
    obtain ⟨size, told⟩ := mapM_eq_some_iff.1 hts
    obtain ⟨size', told'⟩ := mapM_eq_some_iff.1 hus
    have inert := inert_of_itemsOf hraw (toOption_eq_some_iff.1 hitems)
    cases whole with
    | array wholes =>
      cases reads with
      | @array xs _ hlen hx =>
        refine ⟨.array fun u hu => ?_, rfl⟩
        obtain ⟨y, t, x, hyu, hyt, hxt⟩ := exists_counterparts size size' hlen hu
        have mem : t ∈ ts := (List.of_mem_zip hyt).2
        have there : y ∈ items := (List.of_mem_zip hyu).1
        obtain ⟨path, passed⟩ := exists_of_checkWith_array rfl ok x (List.of_mem_zip hxt).1
        exact (fits_of_treeWith c hd y (inert y there)
          (fun cls z t u a hz => henter cls z t u a
            (.array r (toOption_eq_some_iff.1 hitems) there hz))
          hentity (told _ hyt) (wholes t mem) (told' _ hyu) (hx (x, t) hxt) passed).1
  | .dictOf c r, hd, raw, hraw, henter, hentity, t, u, ht, whole, hu, v, name, reads, ok => by
    rw [treeWith_dictOf] at ht hu
    obtain ⟨es, hes, ht⟩ := Option.bind_eq_some_iff.1 ht
    obtain ⟨ts, hts, ht⟩ := Option.bind_eq_some_iff.1 ht
    rw [hes, Option.bind_some] at hu
    obtain ⟨us, hus, hu⟩ := Option.bind_eq_some_iff.1 hu
    cases ht
    cases hu
    obtain ⟨size, told⟩ := mapM_eq_some_iff.1 hts
    obtain ⟨size', told'⟩ := mapM_eq_some_iff.1 hus
    have inert := Value.inert_dict_iff.1 (inert_of_entriesOf hraw (toOption_eq_some_iff.1 hes))
    generalize hkeys : es.map Prod.fst = keys at reads
    cases whole with
    | dictionary _ wholes =>
      cases reads with
      | @dictionary xs _ hlen hx =>
        refine ⟨.dictionary fun u hu => ?_, rfl⟩
        have values : (xs.map Prod.snd).length = ts.length := by simpa using hlen
        obtain ⟨y, t, x, hyu, hyt, hxt⟩ := exists_counterparts size size' values hu
        have mem : t ∈ ts := (List.of_mem_zip hyt).2
        obtain ⟨p, hp, rfl⟩ := List.mem_map.1 (List.of_mem_zip hyu).1
        obtain ⟨q, hq, rfl⟩ := List.mem_map.1 (List.of_mem_zip hxt).1
        obtain ⟨path, passed⟩ := exists_of_checkWith_dict ok q hq
        exact (fits_of_treeWith c hd p.2 (inert p hp).2
          (fun cls z t u a hz => henter cls z t u a
            (.dictionary r (toOption_eq_some_iff.1 hes) hp hz))
          hentity (told _ hyt) (wholes t mem) (told' _ hyu) (hx (q.2, t) hxt) passed).1

/-- **What is constructed fits if what is loaded is valid**, unless a deferred field of an entity in
the raw data is required: the deferred fields are left absent, and the others are made alike. -/
theorem Catalog.fits_of_loaded (hg : g.WellFormed) {look : Lookups} : ∀ (fuel : Nat) (cls : ClassId)
    (raw : Value) (t u : Tree) (a : Address), raw.Inert →
      (∀ d x, g.Carries cls raw d x → ∀ f ∈ g.schemaOf d, f.2.deferred = true →
        f.2.required = false) →
      g.loaded look fuel cls raw = some t → t.Whole g → Heap.Reads g h (.object a) t →
      Method.validate g h a = .ok ⟨⟩ → g.built fuel cls raw = some u → u.Fits g (.entity cls)
  | 0, _, _, _, _, _, _, _, ht, _, _, _, _ => nomatch ht
  | fuel + 1, cls, raw, t, u, a, hraw, lenient, ht, whole, reads, valid, hu => by
    obtain ⟨data, trees, hdata, htrees, rfl⟩ := loaded_succ_eq_some.1 ht
    obtain ⟨data', trees', hdata', htrees', rfl⟩ := built_succ_eq_some.1 hu
    cases hdata.symm.trans hdata'
    have inert := Construction.inert_of_entriesOf hraw hdata
    have free := reads.selfFree hg whole
    cases whole with
    | entity _ _ wholes =>
      cases reads with
      | @entity _ _ _ _ v _ hc hv =>
        have passed := (Heap.validate_of_cell hg hc free).1 valid
        have each : ∀ f ∈ g.schemaOf cls, (trees' f.1).Fits g (.decoded f.2) ∧
            (f.2.required = true → (trees' f.1).isAbsent = false) := by
          intro f hf
          have field := hv f.1 (List.mem_map_of_mem hf)
          obtain ⟨there, ok⟩ := Checker.checkWith_eq_ok_iff.1 (passed f hf)
          rw [field.isNull] at there
          obtain ⟨-, told⟩ :=
            (loadedField_eq_some hdata).1 (eq_of_fieldTrees (hg.nodup cls) htrees f hf)
          have made := eq_of_fieldTrees (hg.nodup cls) htrees' f hf
          unfold builtField at made
          -- only a deferred field is made otherwise than it is loaded
          cases hd : f.2.deferred with
          | true =>
            rw [if_pos hd] at made
            rw [← Option.some.inj made]
            refine ⟨Tree.fits_null g _, fun required => ?_⟩
            cases required.symm.trans (lenient cls raw (.self cls raw) f hf hd)
          | false =>
            rw [hd, if_neg Bool.false_ne_true] at made
            split at made
            · next hdec =>
              rw [if_pos hdec] at told
              obtain ⟨fits, same⟩ :=
                Checker.fits_of_treeWith f.2 hd _ (Value.inert_getStr inert f.1)
                (fun c x t u a entered hx hx' whole reads valid hu =>
                  fits_of_loaded hg fuel c x t u a hx
                    (fun d y enc => lenient d y (.embedded hdata hf entered enc)) hx' whole
                    reads valid hu)
                (fun c x t ht => entity_of_loaded ht) told (wholes f hf) made field ok
              exact ⟨fits, fun required => same.trans (there required)⟩
            · next hdec =>
              rw [if_neg hdec] at told
              rw [told] at field there
              rw [← Option.some.inj made]
              have value := Value.inert_getStr inert f.1
              rw [field.eq_of_leaf] at ok
              exact ⟨Tree.fits_leaf value ok, there⟩
        exact .entity (fun f hf => (each f hf).2) fun f hf => (each f hf).1

end

end EntitySchema
