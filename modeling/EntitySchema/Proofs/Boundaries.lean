/-
**A failure is wrapped once for each entity that it comes out of.**

A check that fails names a value that is at fault.  From the root the check has come there through
parts of values, which add to the name of the field, and across entities, which it left to validate
themselves.  Each such crossing begins a new name, that of a field of the entity's schema, and what
fails behind it is told as the cause of one nested failure.  So the failure of a check is determined
by the way to the value at fault and by what is wrong there.

An entity may be given something of its own in place of its validation.  This module is about values
in which none has.

Main definitions:

* `Heap.Genuine` — no entity in a value has anything of its own in place of the methods and the
  schema that its class gives it;
* `CheckError.causes` — the failures behind a failure, from the outside in;
* `Inspection.Crossing`, `Inspection.Reaches` — **the way from a value to a place in it**, with the
  entities that are crossed;
* `Inspection.atFault?` — what is wrong with a value by itself.

Main results:

* `Heap.SelfFree.induction` — induction along what objects contain;
* `Inspection.holds_of_place` — what is at a place of a value is held by the value;
* `Inspection.exists_way` — a check that fails has come to a place where something is wrong;
* `Inspection.check_crossings` — **a check that fails tells what is wrong at the end of a way,
  wrapped once for each entity crossed.**
-/

import EntitySchema.Proofs.Inspection

set_option autoImplicit false

namespace EntitySchema

/-! ### Entities with the methods of their class -/

/-- No entity that a value holds has anything of its own under the names of the methods that check
it or of its schema. -/
def Heap.Genuine (h : Heap) (v : Value) : Prop :=
  ∀ a, h.Holds v a → h.isEntity a = true → ∀ name ∈ ["check", "schema", "validate"],
    (h.get a).own? name = none

namespace Heap

variable {g : Catalog} {h : Heap} {v : Value} {a : Address}

/-- What a genuine value holds is genuine. -/
theorem Genuine.object (genuine : h.Genuine v) (ha : h.Holds v a) : h.Genuine (.object a) :=
  fun b hb => genuine b (ha.trans hb)

theorem exists_species (entity : h.isEntity a = true) : ∃ cls, (get h a).species = .entity cls := by
  unfold isEntity at entity
  cases hs : (get h a).species with
  | plain => simp [hs] at entity
  | entity cls => exact ⟨cls, rfl⟩

/-- A genuine entity has a method that checks it from its class. -/
theorem Genuine.method (genuine : h.Genuine v) (ha : h.Holds v a) (entity : h.isEntity a = true)
    {name : String} (hname : name = "check" ∨ name = "validate") :
    objectAttribute? g h a name = some (.method (.object a) name) := by
  obtain ⟨cls, hs⟩ := exists_species entity
  have own := genuine a ha entity
  rcases hname with rfl | rfl
  · have none : (get h a).own? "check" = none := own _ (by decide)
    simp [objectAttribute?, hs, none, givenAttribute?, sharedAttribute?, classMethods,
      Value.entityMethods]
  · have none : (get h a).own? "validate" = none := own _ (by decide)
    simp [objectAttribute?, hs, none, givenAttribute?, sharedAttribute?, classMethods,
      Value.entityMethods]

/-- A genuine entity goes by the schema of its class. -/
theorem Genuine.rules (genuine : h.Genuine v) (ha : h.Holds v a) {cls : ClassId}
    (hs : (get h a).species = .entity cls) : Heap.rules g h a = .ok (classRules g cls) :=
  rules_of_unhidden g h hs (genuine a ha (by simp [isEntity, hs]) "schema" (by decide))

/-- A genuine entity validates its fields one after the other, each with its flag. -/
theorem Genuine.validate_eq (genuine : h.Genuine (.object a)) (free : SelfFree g h (.object a))
    {cls : ClassId} (hs : (get h a).species = .entity cls) : Method.validate g h a =
      (g.schemaOf cls).forM fun f => Method.check g h f.2.required f.2 (field g h a f.1) f.1 := by
  have held : h.Holds (.object a) a := .direct (.object a)
  have method : objectAttribute? g h a "validate" = some (.method (.object a) "validate") :=
    genuine.method held (by simp [isEntity, hs]) (.inr rfl)
  have asked : Method.validate g h a = (classRules g cls).forM
      (Validation.checkField g h (Method.validate g h) a) := by
    conv_lhs => rw [Method.validate, Method.send, attribute?, method]
    simp only [Method.invoke_validate free, Validation.validateWith, genuine.rules held hs, bind,
      Except.bind]
    generalize (classRules g cls).forM (Validation.checkField g h (Method.validate g h) a) = r
    cases r <;> rfl
  simp only [asked, classRules, List.forM_eq_forM, List.forM_map]
  rfl

/-- What a field of a genuine entity holds, the entity contains. -/
theorem Genuine.contains (genuine : h.Genuine (.object a)) {cls : ClassId}
    (hs : (get h a).species = .entity cls) {f : String × Checker} (hf : f ∈ g.schemaOf cls)
    {b : Address}
    (hb : h.Holds (field g h a f.1) b) : Contains g h a b :=
  ⟨_, genuine.rules (.direct (.object a)) hs, f.1, .checker f.2, List.mem_map_of_mem hf, hb⟩

/-- Induction along what objects contain: what holds of an object if it holds of all that the object
contains, holds of all objects in a value in which none contains itself. -/
theorem SelfFree.induction (free : SelfFree g h v) {P : Address → Prop}
    (step : ∀ a, h.Holds v a → (∀ b, Contains g h a b → P b) → P a) (ha : h.Holds v a) : P a := by
  generalize hk : rank g h a = k
  induction k using Nat.strong_induction_on generalizing a with
  | _ k ih =>
    refine step a ha fun b hab => ?_
    have hb : h.Holds v b := hab.holds ha
    exact ih (rank g h b) (hk ▸ rank_lt hab (free b hb)) hb rfl

end Heap

/-- A traversal that fails does so at the first member that fails. -/
theorem exists_of_forM_eq_error {α : Type} {f : α → Except Failure Unit} {xs : List α} {e : Failure}
    (failed : xs.forM f = .error e) :
    ∃ before x after, xs = before ++ x :: after ∧ (∀ y ∈ before, f y = .ok ()) ∧
      f x = .error e := by
  induction xs with
  | nil => cases failed
  | cons x xs ih =>
    have step : (x :: xs).forM f = f x >>= fun _ => xs.forM f := rfl
    rw [step] at failed
    cases hx : f x with
    | error e' =>
      rw [hx] at failed
      cases failed
      exact ⟨[], x, xs, rfl, List.forall_mem_nil _, hx⟩
    | ok u =>
      rw [hx] at failed
      obtain ⟨before, y, after, rfl, passed, hy⟩ := ih failed
      exact ⟨x :: before, y, after, rfl, List.forall_mem_cons.2 ⟨hx, passed⟩, hy⟩

/-! ### The failures behind a failure -/

namespace CheckError

/-- The failures behind a failure, each the cause of the one before it. -/
def causes : CheckError → List CheckError
  | .nested _ cause => cause :: cause.causes
  | _ => []

/-- Whether a failure tells of another. -/
def isNested : CheckError → Bool
  | .nested _ _ => true
  | _ => false

/-- Whether a failure tells that a value is missing, of another type, no array or no dictionary. -/
def isOfValue : CheckError → Bool
  | .missing _ | .mismatch _ _ | .notArray _ | .notDictionary _ _ => true
  | _ => false

/-- The failure that is told last: the one that no other is behind. -/
def innermost : CheckError → CheckError
  | .nested _ cause => cause.innermost
  | e => e

/-- The failures of a chain but the last are those that tell of another, and the first tells them
all. -/
theorem chain_eq (e : CheckError) : ∃ wrappers, e :: e.causes = wrappers ++ [e.innermost] ∧
    (∀ w ∈ wrappers, w.isNested = true) ∧
    e.message = (wrappers.map field).foldr
      (fun field message => field ++ " is invalid: " ++ message) e.innermost.message := by
  induction e with
  | nested f cause ih =>
    obtain ⟨wrappers, chain, nested, told⟩ := ih
    refine ⟨.nested f cause :: wrappers, ?_, ?_, ?_⟩
    · rw [causes, chain, innermost, List.cons_append]
    · exact List.forall_mem_cons.2 ⟨rfl, nested⟩
    · rw [message_nested, told, innermost, List.map_cons, List.foldr_cons, field]
  | _ => exact ⟨[], rfl, List.forall_mem_nil _, rfl⟩

end CheckError

namespace Inspection

variable {g : Catalog} {h : Heap}

/-! ### Places are held -/

/-- The name of a place begins with that of the root. -/
theorem nameAt_eq (root : String) (position : List Step) :
    nameAt root position = root ++ nameAt "" position := by
  induction position generalizing root with
  | nil => simp [nameAt]
  | cons s position ih =>
    have step : ∀ root, nameAt root (s :: position) = nameAt (root ++ s.text) position :=
      fun _ => rfl
    rw [step, step, ih, ih ("" ++ s.text), String.empty_append, String.append_assoc]

theorem mem_rooted {required : Bool} {c : Checker} {v : Value} {ps : List Place} {p : Place}
    (hp : p ∈ rooted required c v ps) : p.value = v ∨ p ∈ ps := by
  rw [rooted] at hp
  rcases List.mem_cons.1 hp with rfl | hp
  · exact .inl rfl
  · split at hp
    · cases hp
    · exact .inr hp

mutual

/-- What is at a place in a value is held by the value. -/
theorem holds_of_inside : (c : Checker) → (v : Value) → ∀ p ∈ inside g h c v, ∀ b,
    h.Holds p.value b → h.Holds v b
  | .arrayOf e r, v, p, hp, b, hb => by
    rw [inside] at hp
    cases hxs : v.elements? with
    | none =>
      rw [hxs] at hp
      cases hp
    | some xs =>
      rw [hxs] at hp
      obtain ⟨x, hx, hp⟩ := List.mem_flatMap.1 hp
      obtain ⟨q, hq, rfl⟩ := List.mem_map.1 hp
      have member : x.1 ∈ xs := List.mem_of_getElem? (List.mem_zipIdx_iff_getElem?.1 hx)
      refine Checker.holds_of_element hxs member ?_
      rcases mem_rooted hq with heq | hq
      · exact heq ▸ hb
      · exact holds_of_inside e x.1 q hq b hb
  | .dictOf e r, v, p, hp, b, hb => by
    cases v with
    | dict es =>
      rw [inside] at hp
      obtain ⟨x, hx, hp⟩ := List.mem_flatMap.1 hp
      obtain ⟨q, hq, rfl⟩ := List.mem_map.1 hp
      refine Checker.holds_of_entry hx ?_
      rcases mem_rooted hq with heq | hq
      · exact heq ▸ hb
      · exact holds_of_inside e x.2 q hq b hb
    | _ => cases hp
  | .shape fs r, v, p, hp, b, hb => by
    rw [inside] at hp
    split at hp
    · cases hp
    · exact holds_of_insideFields fs v p hp b hb
  | .scalar _ _ _, _, _, hp, _, _ | .date _, _, _, hp, _, _ | .reference _ _ _, _, _, hp, _, _ => by
    cases hp

/-- What is at a place in a field of a shape is held by the value. -/
theorem holds_of_insideFields : (fs : List (String × Checker)) → (v : Value) →
    ∀ p ∈ insideFields g h fs v, ∀ b, h.Holds p.value b → h.Holds v b
  | [], _, _, hp, _, _ => by cases hp
  | (field, c) :: fs, v, p, hp, b, hb => by
    rw [insideFields] at hp
    rcases List.mem_append.1 hp with hp | hp
    · obtain ⟨q, hq, rfl⟩ := List.mem_map.1 hp
      have held : h.Holds (Checker.shapeItem g h v field) b := by
        rcases mem_rooted hq with heq | hq
        · exact heq ▸ hb
        · exact holds_of_inside c _ q hq b hb
      exact Checker.holds_of_shapeItem held
    · exact holds_of_insideFields fs v p hp b hb

end

/-- What is at a place of a value is held by the value. -/
theorem holds_of_place {required : Bool} {c : Checker} {v : Value} {p : Place}
    (hp : p ∈ places g h required c v) {b : Address} (hb : h.Holds p.value b) : h.Holds v b := by
  rcases mem_rooted hp with heq | hp
  · exact heq ▸ hb
  · exact holds_of_inside c v p hp b hb

/-! ### Ways -/

/-- A crossing into an entity: the field of its schema that is entered, and the steps that are taken
behind that. -/
structure Crossing where
  field : String
  position : List Step

/-- A place where the check is left to an entity: a reference, and an instance of the class that it
is to. -/
def Place.LeftTo (g : Catalog) (h : Heap) (p : Place) (a : Address) : Prop :=
  p.value = .object a ∧ ∃ t eager r cls, p.checker = .reference t eager r ∧ g.resolve t = .ok cls ∧
    h.isInstance g a cls = true

/-- The check is left to entities only. -/
theorem Place.LeftTo.isEntity {p : Place} {a : Address} (left : p.LeftTo g h a) :
    h.isEntity a = true := by
  obtain ⟨-, _, _, _, _, -, -, isInstance⟩ := left
  unfold Heap.isInstance at isInstance
  unfold Heap.isEntity
  cases hs : (h.get a).species with
  | plain => simp [hs] at isInstance
  | entity cls => rfl

/-- **The way from a value to a place in it**: the steps from the root, and for each entity that is
crossed the field that is entered and the steps behind it. -/
inductive Reaches (g : Catalog) (h : Heap) :
    Bool → Checker → Value → List Step → List Crossing → Place → Prop
  | within {required : Bool} {c : Checker} {v : Value} {p : Place} :
      p ∈ places g h required c v → Reaches g h required c v p.position [] p
  | across {required : Bool} {c k : Checker} {v : Value} {p q : Place} {a : Address}
      {cls : ClassId} {field : String} {position : List Step} {crossings : List Crossing} :
      p ∈ places g h required c v → p.LeftTo g h a → (h.get a).species = .entity cls →
      (field, k) ∈ g.schemaOf cls →
      Reaches g h k.required k (h.field g a field) position crossings q →
      Reaches g h required c v p.position (⟨field, position⟩ :: crossings) q

/-- What is wrong with the value at a place by itself, told for a field of a name: nothing that an
entity tells of its own fields. -/
def atFault? (g : Catalog) (h : Heap) (p : Place) (field : String) : Option Failure :=
  (defect? g h (fun _ => none) p).map (Defect.failure field)

/-! ### What a failed check tells -/

/-- A failure at a place is what is wrong with the value there by itself, or the failure of an
entity that the check is left to. -/
theorem failureAt?_cases {own : Address → Option Failure} {root : String} {p : Place} {f : Failure}
    (hf : failureAt? g h own root p = some f) :
    atFault? g h p (nameAt root p.position) = some f ∨ ∃ a f', p.LeftTo g h a ∧ own a = some f' ∧
      f = (Defect.ofEntity f').failure (nameAt root p.position) := by
  obtain ⟨position, required, c, v⟩ := p
  unfold failureAt? at hf
  unfold atFault?
  unfold defect? at hf ⊢
  split at hf
  · next absent =>
    rw [if_pos absent]
    exact .inl hf
  · next there =>
    rw [if_neg there]
    dsimp only at hf there ⊢
    cases c with
    | reference t eager r =>
      simp only [presentDefect?, entityDefect?] at hf ⊢
      cases ht : g.resolve t with
      | error f' =>
        rw [ht] at hf
        exact .inl hf
      | ok cls =>
        rw [ht] at hf
        cases v with
        | object a =>
          dsimp only at hf ⊢
          split at hf
          · next isInstance =>
            obtain ⟨d, hd, rfl⟩ := Option.map_eq_some_iff.1 hf
            obtain ⟨f', hf', rfl⟩ := Option.map_eq_some_iff.1 hd
            exact .inr ⟨a, f', ⟨rfl, t, eager, r, cls, rfl, ht, isInstance⟩, hf', rfl⟩
          · next other =>
            rw [if_neg other]
            exact .inl hf
        | _ => exact .inl hf
    | _ => exact .inl hf

/-- Resolving a reference fails since no class is registered under its name. -/
theorem unknown_of_resolve {t : Target} {f : Failure} (hf : g.resolve t = .error f) :
    ∃ name, f = .unknownEntity name := by
  cases t with
  | cls c => cases hf
  | named name =>
    rw [Catalog.resolve] at hf
    split at hf <;> cases hf
    exact ⟨name, rfl⟩

/-- A defect that is not the failure of an entity. -/
def Defect.OfValue : Defect → Prop
  | .nested _ => False
  | .other f => ∃ name, f = .unknownEntity name
  | _ => True

/-- What is wrong with a value by itself is a defect of the value. -/
theorem ofValue_of_defect? {p : Place} {d : Defect} (hd : defect? g h (fun _ => none) p = some d) :
    d.OfValue := by
  obtain ⟨position, required, c, v⟩ := p
  unfold defect? at hd
  split at hd
  · split at hd <;> cases hd
    trivial
  · cases c with
    | reference t eager r =>
      simp only [presentDefect?, entityDefect?] at hd
      cases ht : g.resolve t with
      | error f =>
        rw [ht] at hd
        cases hd
        exact unknown_of_resolve ht
      | ok cls =>
        rw [ht] at hd
        dsimp only at hd
        split at hd
        · split at hd <;> cases hd
          trivial
        · cases hd
          trivial
    | _ =>
      unfold presentDefect? at hd
      dsimp only at hd
      split at hd <;> cases hd
      trivial

/-- What is wrong with a value by itself is that it is missing, of another type, no array or no
dictionary, if it is the failure of a check. -/
theorem isOfValue_of_atFault? {p : Place} {field : String} {e : CheckError}
    (he : atFault? g h p field = some (.check e)) :
    e.isOfValue = true ∧ e.field = field ∧ e.causes = [] ∧ e.innermost = e := by
  obtain ⟨d, hd, heq⟩ := Option.map_eq_some_iff.1 he
  have own := ofValue_of_defect? hd
  cases d with
  | nested cause => exact absurd own id
  | other f =>
    obtain ⟨unknown, rfl⟩ := own
    cases heq
  | _ =>
    cases heq
    exact ⟨rfl, rfl, rfl, rfl⟩

/-- The failure that is told of what is wrong at the end of a way: it is wrapped once for each
entity crossed, under the name of the place where it is crossed. -/
inductive Tells (g : Catalog) (h : Heap) (q : Place) :
    String → List Step → List Crossing → CheckError → Prop
  | here {name : String} {position : List Step} {e : CheckError} :
      atFault? g h q (nameAt name position) = some (.check e) → Tells g h q name position [] e
  | wrapped {name : String} {position : List Step} {k : Crossing} {crossings : List Crossing}
      {e : CheckError} : Tells g h q k.field k.position crossings e →
      Tells g h q name position (k :: crossings) (.nested (nameAt name position) e)

section

variable {q : Place} {name : String} {position : List Step} {crossings : List Crossing}
  {e : CheckError}

/-- As many failures are behind a failure as entities are crossed. -/
theorem Tells.length_causes (tells : Tells g h q name position crossings e) :
    e.causes.length = crossings.length := by
  induction tells with
  | here he => rw [(isOfValue_of_atFault? he).2.2.1]; rfl
  | wrapped _ ih => rw [CheckError.causes, List.length_cons, ih, List.length_cons]

/-- A failure names the place where the first entity is crossed, or else the end of the way. -/
theorem Tells.field_eq (tells : Tells g h q name position crossings e) :
    e.field = nameAt name position := by
  cases tells with
  | here he => exact (isOfValue_of_atFault? he).2.1
  | wrapped _ => rfl

/-- Each failure behind a failure names the next such place, from the field that was entered on. -/
theorem Tells.fields_causes (tells : Tells g h q name position crossings e) :
    e.causes.map CheckError.field = crossings.map fun k => nameAt k.field k.position := by
  induction tells with
  | here he => rw [(isOfValue_of_atFault? he).2.2.1]; rfl
  | wrapped inner ih => rw [CheckError.causes, List.map_cons, ih, inner.field_eq, List.map_cons]

/-- The failure told last is what is wrong with the value at the end of the way. -/
theorem Tells.innermost (tells : Tells g h q name position crossings e) :
    atFault? g h q e.innermost.field = some (.check e.innermost) ∧ e.innermost.isOfValue =
      true := by
  induction tells with
  | here he =>
    obtain ⟨ofValue, field, -, self⟩ := isOfValue_of_atFault? he
    rw [self, field]
    exact ⟨he, ofValue⟩
  | wrapped _ ih => exact ih

end

/-- The failure of a computation that fails. -/
def failureOf : Except Failure Unit → Option Failure
  | .ok _ => none
  | .error f => some f

theorem failureOf_eq_some {r : Except Failure Unit} {f : Failure} :
    failureOf r = some f ↔ r = .error f := by
  cases r <;> simp [failureOf]

theorem mem_of_first {fs : List Failure} {f : Failure} (failed : first fs = .error f) : f ∈ fs := by
  cases fs with
  | nil => cases failed
  | cons f' fs =>
    cases failed
    exact List.mem_cons_self ..

theorem first_failureOf (r : Except Failure Unit) : first (failureOf r).toList = r := by
  cases r <;> rfl

/-- What a check fails by is the failure at one of the places that it comes to. -/
theorem exists_place_of_check {v : Value} {required : Bool} {c : Checker} {name : String}
    {f : Failure}
    (failed : Method.check g h required c v name = .error f) :
    ∃ p ∈ places g h required c v,
      failureAt? g h (fun a => failureOf (Method.validate g h a)) name p = some f := by
  -- what an entity fails by is what its validation fails by
  have visited : ∀ a, h.Holds v a →
      Method.validate g h a = outcomeOf (fun b => failureOf (Method.validate g h b)) a :=
    fun a _ => (first_failureOf _).symm
  rw [Method.check, checkWith_eq_first visited] at failed
  exact List.mem_filterMap.1 (mem_of_first failed)

/-- An entity whose validation, if it fails by a failed check, has come to a place where something
is wrong, from one of the fields of its schema. -/
def Traced (g : Catalog) (h : Heap) (a : Address) : Prop :=
  h.isEntity a = true → ∀ e, Method.validate g h a = .error (.check e) →
    ∃ cls f position crossings q, (h.get a).species = .entity cls ∧ f ∈ g.schemaOf cls ∧
      Reaches g h f.2.required f.2 (h.field g a f.1) position crossings q ∧
      Tells g h q f.1 position crossings e

/-- A check that fails by a failed check has come to a place where something is wrong, if that is so
of the entities in the value. -/
theorem exists_way {v : Value} {required : Bool} {c : Checker} {name : String} {e : CheckError}
    (entities : ∀ a, h.Holds v a → Traced g h a)
    (failed : Method.check g h required c v name = .error (.check e)) :
    ∃ position crossings q, Reaches g h required c v position crossings q ∧
      Tells g h q name position crossings e := by
  obtain ⟨p, hp, hf⟩ := exists_place_of_check failed
  rcases failureAt?_cases hf with own | ⟨a, f, left, hown, heq⟩
  · exact ⟨p.position, [], p, .within hp, .here own⟩
  · have held : h.Holds v a := holds_of_place hp (left.1 ▸ .direct (.object a))
    have failedOwn : Method.validate g h a = .error f := failureOf_eq_some.1 hown
    cases f with
    | check e' =>
      cases heq
      obtain ⟨d, k, position, crossings, q, hs, hk, reaches, tells⟩ :=
        entities a held left.isEntity e' failedOwn
      exact ⟨p.position, ⟨k.1, position⟩ :: crossings, q,
        .across hp left hs hk reaches, .wrapped tells⟩
    | _ => cases heq

/-- A genuine entity that fails by a failed check does so in a field of its schema. -/
theorem traced_of_genuine {v : Value} (free : Heap.SelfFree g h v) (genuine : h.Genuine v)
    {a : Address} (ha : h.Holds v a) : Traced g h a := by
  refine free.induction (fun a ha ih entity e failed => ?_) ha
  obtain ⟨cls, hs⟩ := Heap.exists_species entity
  have own : h.Genuine (.object a) := genuine.object ha
  rw [own.validate_eq (free.object ha) hs] at failed
  obtain ⟨before, f, after, hschema, -, hf⟩ := exists_of_forM_eq_error failed
  have member : f ∈ g.schemaOf cls := by rw [hschema]; simp
  obtain ⟨position, crossings, q, reaches, tells⟩ :=
    exists_way (fun b hb => ih b (own.contains hs member hb)) hf
  exact ⟨cls, f, position, crossings, q, hs, member, reaches, tells⟩

/-- **A check that fails tells what is wrong at the end of a way, wrapped once for each entity
crossed.**  The first failure names the root and the steps behind it, each one behind it the field
that was entered and the steps behind that, and all but the last are nested failures, which tell
their field and their cause.  So the message names every place where an entity is crossed, from the
outside in, and then what is wrong with the value at the end. -/
theorem check_crossings {v : Value} (free : Heap.SelfFree g h v) (genuine : h.Genuine v)
    {required : Bool} {c : Checker} {name : String} {e : CheckError}
    (failed : Method.check g h required c v name = .error (.check e)) :
    ∃ position crossings q, Reaches g h required c v position crossings q ∧
      e.causes.length = crossings.length ∧
      (∃ wrappers, e :: e.causes = wrappers ++ [e.innermost] ∧
        (∀ w ∈ wrappers, w.isNested = true) ∧
        e.message = (wrappers.map CheckError.field).foldr
          (fun field message => field ++ " is invalid: " ++ message) e.innermost.message) ∧
      e.innermost.isOfValue = true ∧
      atFault? g h q e.innermost.field = some (.check e.innermost) ∧
      e.field = name ++ nameAt "" position ∧
      e.causes.map CheckError.field = crossings.map (fun k => k.field ++ nameAt "" k.position) ∧
      ∀ w ∈ e :: e.causes, ∀ field cause, w = .nested field cause →
        w.message = field ++ " is invalid: " ++ cause.message := by
  obtain ⟨position, crossings, q, reaches, tells⟩ :=
    exists_way (fun a ha => traced_of_genuine free genuine ha) failed
  obtain ⟨atFault, ofValue⟩ := tells.innermost
  refine ⟨position, crossings, q, reaches, tells.length_causes, e.chain_eq, ofValue,
    atFault, ?_, ?_,
    ?_⟩
  · rw [tells.field_eq, nameAt_eq]
  · rw [tells.fields_causes]
    exact List.map_congr_left fun k _ => nameAt_eq _ _
  · rintro _ - field cause rfl
    exact CheckError.message_nested field cause

/-! ### A team with a nameless friend -/

theorem genuine_twoUsers (v : Value) : Heap.Genuine twoUsers v := by
  intro a _ _ name hname
  match a with
  | 0 => revert name; decide
  | 1 => revert name; decide
  | a + 2 =>
    have absent : Heap.get twoUsers (a + 2) = ⟨.plain, []⟩ := rfl
    rw [absent]
    rfl

/-- What the check of a team with a nameless friend fails by. -/
def namelessFriend : CheckError := .nested "team[1]" (.nested "friend" (.missing "name"))

/-- Two users are crossed on the way to the name that is missing. -/
theorem check_crossings_team :
    Method.check users twoUsers true (.arrayOf (.reference (.named "User") .null false) false)
      (.list [.null, .object 1]) "team" = .error (.check namelessFriend) ∧
    ∃ position crossings q, Reaches users twoUsers true
        (.arrayOf (.reference (.named "User") .null false) false) (.list [.null, .object 1])
        position crossings q ∧
      namelessFriend.causes.length = crossings.length ∧
      (∃ wrappers, namelessFriend :: namelessFriend.causes =
          wrappers ++ [namelessFriend.innermost] ∧
        (∀ w ∈ wrappers, w.isNested = true) ∧
        namelessFriend.message = (wrappers.map CheckError.field).foldr
          (fun field message => field ++ " is invalid: " ++ message)
          namelessFriend.innermost.message) ∧
      namelessFriend.innermost.isOfValue = true ∧
      atFault? users twoUsers q namelessFriend.innermost.field =
        some (.check namelessFriend.innermost) ∧
      namelessFriend.field = "team" ++ nameAt "" position ∧
      namelessFriend.causes.map CheckError.field =
        crossings.map (fun k => k.field ++ nameAt "" k.position) ∧
      ∀ w ∈ namelessFriend :: namelessFriend.causes, ∀ field cause, w = .nested field cause →
        w.message = field ++ " is invalid: " ++ cause.message := by
  have failed : Method.check users twoUsers true
      (.arrayOf (.reference (.named "User") .null false) false) (.list [.null, .object 1]) "team" =
        .error (.check namelessFriend) := rfl
  exact ⟨failed, check_crossings selfFree_twoUsers (genuine_twoUsers _) failed⟩

end Inspection

end EntitySchema
