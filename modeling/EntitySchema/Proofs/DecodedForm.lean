/-
**What is decoded has the form that is checked.**

A checker that produces entities decodes far more than it accepts: nothing at all, tuples and lists
of pairs, texts where items are wanted, raw data where an entity is wanted.  What comes out has the
form that its check insists on: lists and dictionaries nested as the checker is, and at the ends
nothing, or an instance of the class that the reference is to.  So such a check never fails by
itself.  It fails only by the own validation of an entity that it comes to, and then either as a
nested failure or with what that validation lets through.

An entity that has something of its own in place of its validation lets through whatever comes of
that, and one that contains itself is not validated to an end.  Where what is decoded is in order in
this respect, only a reference to a class that is not registered is let through; and it is in order
where what it was made of is: the raw value and, if it is looked up, the records and the answers of
lookups.

Main definitions:

* `Heap.Suits` — **a value of the form that a checker asks for**;
* `Heap.FailsInside` — a failure of the own validation of an entity in a value;
* `Heap.RefersTo` — a value that holds an entity with a reference to a name;
* `Catalog.OwnLineage` — every class is in its own lineage;
* `Session.AnswersOwn` — a class whose own lookup answers with instances of it;
* `Heap.InOrder`, `Session.InOrder` — values, records and answers that are in order.

Main results:

* `Heap.Suits.check` — the check of what suits fails inside at most;
* `Heap.Genuine.unregistered` — what is let through by an entity in order is a reference to a class
  that is not registered;
* `Checker.leaves_suits`, `Loading.yields_suits` — decoding at once, and a look-up;
* `Checker.Forms.awaitWith` — decoding by looking up, in containers nested as the checker is;
* `Loading.check_decoded` — **what is decoded passes its check, or fails inside.**
-/

import EntitySchema.Proofs.OrderlyLoading
import EntitySchema.Proofs.Reporting

set_option autoImplicit false

namespace EntitySchema

/-! ### Classes and their own lineage -/

namespace Catalog

variable {g : Catalog}

/-- Every class is in its own lineage: its entities are instances of it. -/
def OwnLineage (g : Catalog) : Prop := ∀ cls, g.isInstance cls cls = true

theorem ownLineage_initial : initial.OwnLineage := by
  intro cls
  cases cls with
  | zero => rfl
  | succ cls => simp [isInstance, lineageOf, initial]

/-- A class that is defined is in its own lineage, and the others stay in theirs. -/
theorem OwnLineage.define (own : g.OwnLineage) {name kind : String} {parent cls : ClassId}
    {schema? : Option Schema} {lookup? : Option Lookup} {g' : Catalog}
    (defined : g.define name kind parent schema? lookup? = .ok (cls, g')) : g'.OwnLineage := by
  intro c
  unfold Catalog.define at defined
  dsimp only at defined
  split at defined
  · cases defined
  · split at defined
    · cases defined
      have before := own c
      simp only [isInstance, lineageOf, register] at before ⊢
      rcases Nat.lt_trichotomy c g.classes.length with hlt | rfl | hgt
      · rwa [List.getElem?_append_left hlt]
      · simp
      · rw [List.getElem?_eq_none (by simp; omega)]
        simp
    · cases defined

end Catalog

namespace Heap

/-- An instance of a class is one still where the entities are the same. -/
theorem isInstance_of_sameEntities {g : Catalog} {h h' : Heap} (same : h.SameEntities h')
    {a : Address} {cls : ClassId} (hinst : h.isInstance g a cls = true) :
    h'.isInstance g a cls = true := by
  unfold isInstance at hinst ⊢
  cases hs : (get h a).species with
  | plain => simp [hs] at hinst
  | entity c =>
    rw [hs] at hinst
    rw [same a c hs]
    exact hinst

/-! ### The form that is checked -/

/-- A value of the form that a checker that produces entities asks for: for a reference nothing or
an instance of the class that it is to, and for a container of entities a container of such. -/
inductive Suits (g : Catalog) (h : Heap) : Checker → Value → Prop
  | nothing (t : Target) (e : Value) (r : Bool) : Suits g h (.reference t e r) .null
  | entity {t : Target} {cls : ClassId} {a : Address} (e : Value) (r : Bool) :
      g.resolve t = .ok cls → isInstance g h a cls = true → Suits g h (.reference t e r) (.object a)
  | array {e : Checker} {xs : List Value} (r : Bool) : (∀ x ∈ xs, Suits g h e x) →
      Suits g h (.arrayOf e r) (.list xs)
  | dictionary {e : Checker} {es : Entries} (r : Bool) : (∀ p ∈ es, Suits g h e p.2) →
      Suits g h (.dictOf e r) (.dict es)

/-- A failure that comes from the own validation of an entity in a value: told as the cause of a
nested failure if it is a failed check, and let through otherwise. -/
inductive FailsInside (h : Heap) (visit : Address → Except Failure Unit) (v : Value) :
    Failure → Prop
  | nested {a : Address} {cause : CheckError} (field : String) : v.LeadsTo a →
      isEntity h a = true → visit a = .error (.check cause) →
      FailsInside h visit v (.check (.nested field cause))
  | letThrough {a : Address} {f : Failure} : v.LeadsTo a → isEntity h a = true →
      visit a = .error f → (∀ e, f ≠ .check e) → FailsInside h visit v f

section

variable {g : Catalog} {h : Heap} {v w : Value} {visit : Address → Except Failure Unit}

/-- What suits a checker still does so where the entities are the same. -/
theorem Suits.mono {h' : Heap} {c : Checker} (same : h.SameEntities h') (suits : Suits g h c v) :
    Suits g h' c v := by
  induction suits with
  | nothing t e r => exact .nothing t e r
  | entity e r resolved hinst => exact .entity e r resolved (isInstance_of_sameEntities same hinst)
  | array r _ ih => exact .array r ih
  | dictionary r _ ih => exact .dictionary r ih

theorem FailsInside.of_leads {f : Failure} (hw : ∀ a, w.LeadsTo a → v.LeadsTo a)
    (fails : FailsInside h visit w f) : FailsInside h visit v f := by
  cases fails with
  | nested field ha entity failed => exact .nested field (hw _ ha) entity failed
  | letThrough ha entity failed other => exact .letThrough (hw _ ha) entity failed other

/-- **The check of what suits a checker fails inside at most.** -/
theorem Suits.check {c : Checker} (suits : Suits g h c v) {name : String} {f : Failure}
    (failed : Checker.checkWith g h visit false c v name = .error f) : FailsInside h visit v f := by
  induction suits generalizing name with
  | nothing => cases failed
  | @entity t cls a e r resolved isInstance =>
    have crossed : atBoundary name (visit a) = .error f := by
      have asked : Checker.checkWith g h visit false (.reference t e r) (.object a) name =
          Checker.presentEntity g h visit t (.object a) name := rfl
      rw [asked, Checker.presentEntity, resolved, ok_bind] at failed
      dsimp only at failed
      rwa [if_pos isInstance] at failed
    cases hv : visit a with
    | ok u =>
      rw [hv] at crossed
      cases crossed
    | error f' =>
      rw [hv] at crossed
      cases f' with
      | check cause =>
        cases crossed
        exact .nested name (.object a) (isEntity_of_isInstance isInstance) hv
      | _ =>
        cases crossed
        exact .letThrough (.object a) (isEntity_of_isInstance isInstance) hv (by rintro _ ⟨⟩)
  | @array e xs r _ ih =>
    obtain ⟨before, p, after, split, -, failed⟩ := exists_of_forM_eq_error
      (show xs.zipIdx.forM (fun p =>
        Checker.checkWith g h visit false e p.1 (elementPath name p.2)) = .error f from failed)
    have hp : p ∈ xs.zipIdx := by rw [split]; simp
    have hx : p.1 ∈ xs := List.mem_of_getElem? (List.mem_zipIdx_iff_getElem?.1 hp)
    exact (ih p.1 hx failed).of_leads fun a ha => .list hx ha
  | @dictionary e es r _ ih =>
    obtain ⟨before, p, after, split, -, failed⟩ := exists_of_forM_eq_error
      (show es.forM (fun p =>
        Checker.checkWith g h visit false e p.2 (entryPath name p.1)) = .error f from failed)
    have hp : p ∈ es := by rw [split]; simp
    exact (ih p hp failed).of_leads fun a ha => .dict hp ha

end

end Heap

/-! ### What an entity lets through -/

section

variable {g : Catalog} {h : Heap} {v : Value} {a : Address}

/-- In a value there is an entity of whose schema a field has a place with a reference to a
name. -/
inductive Heap.RefersTo (g : Catalog) (h : Heap) (v : Value) (name : String) : Prop
  | intro {b : Address} {cls : ClassId} {k : String × Checker} {p : Inspection.Place}
      {eager : Value} {required : Bool} : h.Holds v b → (h.get b).species = .entity cls →
      k ∈ g.schemaOf cls →
      p ∈ Inspection.places g h k.2.required k.2 (h.field g b k.1) →
      p.checker = .reference (.named name) eager required → Heap.RefersTo g h v name

/-- What is wrong with a value by itself, but for failed checks, is that it is checked as a
reference to a class that is not registered. -/
theorem Inspection.exists_reference_of_atFault? {p : Inspection.Place} {field : String}
    {f : Failure}
    (hf : Inspection.atFault? g h p field = some f) (other : ∀ e, f ≠ .check e) :
    ∃ name eager required, p.checker = .reference (.named name) eager required ∧
      f = .unknownEntity name ∧ g.lookupName? name = none := by
  obtain ⟨d, hd, rfl⟩ := Option.map_eq_some_iff.1 hf
  obtain ⟨position, required, c, v⟩ := p
  unfold defect? at hd
  split at hd
  · split at hd <;> cases hd
    exact absurd rfl (other _)
  · cases c with
    | reference t eager r =>
      simp only [presentDefect?, entityDefect?] at hd
      cases ht : g.resolve t with
      | error f =>
        rw [ht] at hd
        cases hd
        cases t with
        | cls c => cases ht
        | named name =>
          rw [Catalog.resolve] at ht
          split at ht
          · cases ht
          · next absent =>
            cases ht
            exact ⟨name, eager, r, rfl, rfl, absent⟩
      | ok cls =>
        rw [ht] at hd
        dsimp only at hd
        split at hd
        · split at hd <;> cases hd
          exact absurd rfl (other _)
        · cases hd
          exact absurd rfl (other _)
    | _ =>
      unfold presentDefect? at hd
      dsimp only at hd
      split at hd <;> cases hd
      exact absurd rfl (other _)

/-- **What an entity in order lets through is that a class is not registered** to which there is a
reference in the entity, or in one that it holds. -/
theorem Heap.Genuine.unregistered (genuine : h.Genuine v) (free : h.SelfFree g v)
    (ha : h.Holds v a) : h.isEntity a = true → ∀ f, Method.validate g h a = .error f →
      (∀ e, f ≠ .check e) →
      ∃ name, f = .unknownEntity name ∧ g.lookupName? name = none ∧ h.RefersTo g v name := by
  refine free.induction (P := fun a => h.isEntity a = true → ∀ f,
    Method.validate g h a = .error f → (∀ e, f ≠ .check e) → ∃ name, f = .unknownEntity name ∧
      g.lookupName? name = none ∧ h.RefersTo g v name) (fun a ha ih entity f failed other => ?_) ha
  obtain ⟨cls, hs⟩ := exists_species entity
  have own : h.Genuine (.object a) := genuine.object ha
  rw [own.validate_eq (free.object ha) hs] at failed
  obtain ⟨before, k, after, hschema, -, hk⟩ := exists_of_forM_eq_error failed
  have member : k ∈ g.schemaOf cls := by rw [hschema]; simp
  obtain ⟨p, hp, hf⟩ := Inspection.exists_place_of_check hk
  rcases Inspection.failureAt?_cases hf with here | ⟨b, f', left, hown, rfl⟩
  · obtain ⟨name, eager, required, hc, rfl, absent⟩ :=
      Inspection.exists_reference_of_atFault? here other
    exact ⟨name, rfl, absent, ⟨ha, hs, member, hp, hc⟩⟩
  · -- the check is left to an entity in the field, which lets the failure through
    have held : h.Holds (h.field g a k.1) b :=
      Inspection.holds_of_place hp (left.1 ▸ .direct (.object b))
    have visited := Inspection.failureOf_eq_some.1 hown
    cases f' with
    | check e => exact absurd rfl (other _)
    | _ => exact ih b (own.contains hs member held) left.isEntity _ visited other

end

/-! ### Decoding at once -/

open Build in
/-- **What is decoded at once suits the checker**, if what is made for a class is an entity of
it. -/
theorem Checker.leaves_suits {g : Catalog} (own : g.OwnLineage)
    {make : ClassId → Value → Build Value}
    (hmake : ∀ cls raw h, Leaves (fun _ => True) (Heap.EntityOf cls) (make cls raw) h) :
    (c : Checker) → c.producesEntity = true → (raw : Value) → (h : Heap) →
      Leaves (fun _ => True) (fun h v => h.Suits g c v) (decodeWith g make c raw) h
  | .reference t e r, _, raw, h => by
    unfold decodeWith decodeEntity
    split
    · exact leaves_pure trivial (.nothing t e r)
    · refine (leaves_lift (K := fun _ cls => g.resolve t = .ok cls) trivial fun _ => id).bind
        fun cls h' _ _ resolved => ?_
      have made : Leaves (fun _ => True) (fun h v => h.Suits g (.reference t e r) v)
          (make cls raw) h' := by
        intro v h'' hv
        obtain ⟨grown, -, a, rfl, species⟩ := hmake cls raw h' v h'' hv
        refine ⟨grown, trivial, .entity e r resolved ?_⟩
        rw [Heap.isInstance, species]
        exact own cls
      cases raw with
      | object a =>
        intro v h'' hv
        rw [get_bind_apply] at hv
        dsimp only at hv
        split at hv
        · next isInstance =>
          exact leaves_pure (Q := fun _ => True) (K := fun h v => h.Suits g (.reference t e r) v)
            trivial (.entity e r resolved isInstance) v h'' hv
        · exact made v h'' hv
      | _ => exact made
  | .arrayOf c r, hc, raw, h => by
    have elements := fun x => leaves_suits own hmake c hc x
    refine (leaves_lift (K := fun _ _ => True) trivial fun _ _ => trivial).bind
      fun items h' _ _ _ => ?_
    refine (leaves_mapM (R := fun _ _ => True) (fun _ _ _ _ _ => trivial)
      (fun _ _ _ grown suits => suits.mono (Heap.sameEntities_of_extended grown)) trivial
      (fun x _ h _ _ => elements x h) fun _ _ => trivial).bind fun ys h'' _ _ hys => ?_
    exact leaves_pure trivial (.array r hys.2)
  | .dictOf c r, hc, raw, h => by
    have elements := fun x => leaves_suits own hmake c hc x
    intro v h'' hv
    rw [decodeWith_dictOf] at hv
    obtain ⟨es, -, hv⟩ := bind_eq_ok.1 hv
    obtain ⟨⟨ys, h'⟩, hys, hv⟩ := bind_eq_ok.1 hv
    cases hv
    obtain ⟨grown, -, -, suits⟩ := leaves_mapM (Q := fun _ => True) (R := fun _ _ => True)
      (K := fun h v => h.Suits g c v) (fun _ _ _ _ _ => trivial)
      (fun _ _ _ grown suits => suits.mono (Heap.sameEntities_of_extended grown)) trivial
      (fun x _ h _ _ => elements x h) (fun _ _ => trivial) ys h' hys
    exact ⟨grown, trivial, .dictionary r fun p hp => suits p.2 (List.of_mem_zip hp).2⟩

/-- **What construction leaves behind**, by the kinds of values that it keeps to. -/
theorem Construction.leaves_ofRaw {g : Catalog} {Q : Heap → Prop} {R K : Heap → Value → Prop}
    {I : Value → Prop} (kinds : Kinds g Q R I K) (hg : g.WellFormed) (cls : ClassId) (raw : Value)
    (h : Heap) (hQ : Q h) (hR : R h raw) : Build.Leaves Q K (ofRaw g cls raw) h := by
  intro x h' made
  obtain ⟨data, h₀, w, -, values, hid, grown, hQ₀, rfl, rfl, started⟩ :=
    exists_of_ofRaw_eq_ok kinds hg hQ hR made
  have there := fun e he => kinds.monoRaw h h₀ _ grown (values e he)
  exact ⟨grown.trans (List.prefix_append ..), kinds.cell h₀ cls data w hQ₀ there hid started⟩

/-! ### Decoding by looking up -/

/-- What a checker yields of raw values as `W` says, in sessions as `S` says that go on as `R` says,
and containers of what their elements are. -/
structure Checker.Forms (R : Session → Session → Prop) (S : Session → Prop)
    (W : Heap → Value → Prop) (P : Checker → Heap → Value → Prop) : Prop where
  kept : ∀ s s', R s s' → S s → S s'
  monoRaw : ∀ s s' v, R s s' → W s.heap v → W s'.heap v
  mono : ∀ c s s' v, R s s' → P c s.heap v → P c s'.heap v
  items : ∀ h raw xs, W h raw → itemsOf raw = .ok xs → ∀ x ∈ xs, W h x
  entries : ∀ h h' raw es, W h raw → entriesOf h' raw = .ok es → ∀ e ∈ es, W h e.1 ∧ W h e.2
  array : ∀ c r h xs, (∀ x ∈ xs, P c h x) → P (.arrayOf c r) h (.list xs)
  dictionary : ∀ c r h es, (∀ e ∈ es, W h e.1 ∧ P c h e.2) → P (.dictOf c r) h (.dict es)

/-- A checker that produces entities has a target. -/
theorem Checker.exists_target : {c : Checker} → c.producesEntity = true → ∃ t, c.target? = some t
  | .reference t _ _, _ => ⟨t, rfl⟩
  | .arrayOf c _, hc | .dictOf c _, hc => exists_target (c := c) hc

open Session in
/-- **Decoding by looking up yields what its look-ups yield**, in containers nested as the checker
is. -/
theorem Checker.Forms.awaitWith {R : Session → Session → Prop} [Onward R] {S : Session → Prop}
    {W : Heap → Value → Prop} {P : Checker → Heap → Value → Prop} (forms : Forms R S W P)
    {seek : ClassId → Value → Action Value} (target : Target)
    (leaf : ∀ e r raw s, S s → W s.heap raw →
      Yields R (P (.reference target e r)) (fetchWith seek target raw) s) :
    (c : Checker) → c.target? = some target → (raw : Value) → (h : Heap) → (a : Action Value) →
      Checker.awaitWith seek c raw h = .ok a → ∀ s, S s → W s.heap raw → Yields R (P c) a s
  | .reference t e r, ht, raw, h, a, ha, s, hs, hW => by
    cases ht
    cases ha
    exact leaf e r raw s hs hW
  | .arrayOf c r, ht, raw, h, a, ha, s, hs, hW => by
    obtain ⟨items, hitems, ha⟩ := bind_eq_ok.1 ha
    cases ha
    refine yields_get_bind ((yields_ofExcept (F := fun _ waiting => ∀ b ∈ waiting,
      ∀ s', R s s' → Yields R (P c) b s') fun waiting hwaiting b hb s' later => ?_).bind
        fun waiting s₁ later each => ?_)
    · obtain ⟨x, hx, hb⟩ := Value.exists_of_mapM hwaiting hb
      exact awaitWith forms target leaf c ht x s.heap b hb s' (forms.kept _ _ later hs)
        (forms.monoRaw _ _ x later (forms.items s.heap raw items hW hitems x hx))
    · refine (yields_gather (forms.mono c) fun b hb s₂ later' =>
        each b hb s₂ (Onward.trans later later')).bind fun vs s₂ _ hvs => ?_
      exact yields_pure (forms.array c r s₂.heap vs hvs)
  | .dictOf c r, ht, raw, h, a, ha, s, hs, hW => by
    obtain ⟨es, hes, ha⟩ := bind_eq_ok.1 ha
    cases ha
    have parts := forms.entries s.heap h raw es hW hes
    refine yields_get_bind ((yields_ofExcept (F := fun _ waiting => ∀ b ∈ waiting,
      ∀ s', R s s' → Yields R (P c) b s') fun waiting hwaiting b hb s' later => ?_).bind
        fun waiting s₁ later each => ?_)
    · obtain ⟨p, hp, hb⟩ := Value.exists_of_mapM hwaiting hb
      exact awaitWith forms target leaf c ht p.2 s.heap b hb s' (forms.kept _ _ later hs)
        (forms.monoRaw _ _ p.2 later (parts p hp).2)
    · refine (yields_gather (forms.mono c) fun b hb s₂ later' =>
        each b hb s₂ (Onward.trans later later')).bind fun vs s₂ later' hvs => ?_
      refine yields_pure (forms.dictionary c r s₂.heap _ fun p hp => ?_)
      obtain ⟨hkey, hvalue⟩ := List.of_mem_zip hp
      obtain ⟨q, hq, heq⟩ := List.mem_map.1 hkey
      exact ⟨heq ▸ forms.monoRaw _ _ q.1 (Onward.trans later later') (parts q hq).1, hvs p.2 hvalue⟩

/-! ### What is looked up -/

/-- Whatever entity the lookup of a class's own answers with is an instance of the class. -/
def Session.AnswersOwn (s : Session) (cls : ClassId) : Prop :=
  ∀ owner f id a, s.catalog.lookupOf? cls = some (owner, f) → f id = some (.entity a) →
    s.heap.isInstance s.catalog a cls = true

/-- A value that is in order, with nothing under way. -/
abbrev Heap.InOrder (g : Catalog) (h : Heap) (v : Value) : Prop := h.Orderly g (fun _ => False) v

/-- A session of which all records are in order, and whatever its lookups answer with. -/
abbrev Session.InOrder (s : Session) : Prop := s.Tidy s.catalog fun _ => False

namespace Loading

open Session Checker

variable {g : Catalog} {t : Target}

/-- A container suits a checker if its elements do, in any session that a session persists to. -/
theorem forms_suits (s : Session) : Forms Persists s.Persists Any
    (fun c h v => h.Suits s.catalog c v) where
  kept _ _ later before := before.trans later
  monoRaw _ _ _ _ _ := trivial
  mono _ _ _ _ later suits := suits.mono later.entities
  items _ _ _ _ _ _ _ := trivial
  entries _ _ _ _ _ _ _ _ := ⟨trivial, trivial⟩
  array _ r _ _ suits := .array r suits
  dictionary _ r _ _ suits := .dictionary r fun p hp => (suits p hp).2

/-- **What a look-up yields suits the reference**, whatever the stores hold, if what the class that
it is to answers with does. -/
theorem yields_suits {s s₁ : Session} (hg : s.catalog.WellFormed) (own : s.catalog.OwnLineage)
    (fuel : Nat) {t : Target} (answers : ∀ cls, s.catalog.resolve t = .ok cls → s.AnswersOwn cls)
    (e : Value) (r : Bool) (raw : Value) (before : s.Persists s₁) :
    Yields Persists (fun h v => h.Suits s.catalog (.reference t e r) v)
      (fetchWith (findWith (loadWithin fuel)) t raw) s₁ := by
  intro v s' fetched
  rcases fetchWith_cases fetched with ⟨rfl, rfl⟩ | ⟨cls, resolved, sought⟩
  · exact ⟨.refl s', .nothing t e r⟩
  · rw [before.catalog] at resolved
    obtain ⟨later, found⟩ :=
      yields_findWith hg (yields_loadWithin hg fuel) cls _ before.catalog v s' sought
    refine ⟨later, ?_⟩
    cases found with
    | nothing => exact .nothing t e r
    | made entity =>
      obtain ⟨a, rfl, species⟩ := entity
      refine .entity e r resolved ?_
      rw [Heap.isInstance, species]
      exact own cls
    | answered hown hid =>
      exact .entity e r resolved (Heap.isInstance_of_sameEntities (before.trans later).entities
        (answers cls resolved _ _ _ _ hown hid))

/-- A container is orderly if its elements are, in any session that extends. -/
theorem forms_orderly (g : Catalog) (U : Address → Prop) :
    Forms Extends (Tidy g U) (Heap.Orderly g U) (fun _ => Heap.Orderly g U) where
  kept := (keeps_orderly g U).kept
  monoRaw := (keeps_orderly g U).mono
  mono _ := (keeps_orderly g U).mono
  items _ _ _ hraw hxs := (keeps_orderly g U).itemsOf hraw hxs
  entries _ _ _ _ hraw hes := (keeps_orderly g U).entriesOf hraw hes
  array _ _ _ _ parts := Heap.orderly_list parts
  dictionary _ _ _ _ parts := Heap.orderly_dict parts

/-- **What a look-up yields is orderly**, if records and answers are. -/
theorem yields_orderly (hg : g.WellFormed) (fuel : Nat) (t : Target) (raw : Value)
    {U : Address → Prop}
    {s : Session} (tidy : s.Tidy g U) :
    Yields Extends (Heap.Orderly g U) (fetchWith (findWith (loadWithin fuel)) t raw) s := by
  intro v s' fetched
  rcases fetchWith_cases fetched with ⟨rfl, rfl⟩ | ⟨cls, -, sought⟩
  · exact ⟨.refl s', Heap.orderly_of_inert Value.inert_null⟩
  · exact yields_findWith_orderly hg (yields_loadWithin_orderly hg fuel U) cls _ tidy v s' sought

section

variable {K : Checker} {raw v : Value} {s s' : Session}

/-- What is decoded suits the checker, and the session persists. -/
theorem suits_decode (hg : s.catalog.WellFormed) (own : s.catalog.OwnLineage)
    (answers : K.deferred = true → ∀ t cls, K.target? = some t → s.catalog.resolve t = .ok cls →
      s.AnswersOwn cls)
    (hK : K.producesEntity = true) (decoded : outcome (decode K raw) s = (.ok v, s')) :
    s.Persists s' ∧ s'.heap.Suits s.catalog K v := by
  rw [decode, outcome_get_bind] at decoded
  split at decoded
  · next deferred =>
    obtain ⟨waiting, hw, decoded⟩ := outcome_ofExcept_bind_eq_ok decoded
    obtain ⟨t, ht⟩ := exists_target hK
    rw [outcome_arrange] at decoded
    have opens := (opens_arranged s (firstRequest? waiting s)).1.persists
    obtain ⟨persists, suits⟩ := (forms_suits s).awaitWith t
      (fun e r raw s₁ before _ =>
        yields_suits hg own _ (fun cls => answers deferred t cls ht) e r raw before) K ht raw s.heap
          waiting hw _ opens trivial v s' decoded
    exact ⟨opens.trans persists, suits⟩
  · obtain ⟨h', made, rfl⟩ := exists_of_outcome_build decoded
    obtain ⟨grown, -, suits⟩ :=
      leaves_suits own (Construction.leaves_entity hg) K hK raw s.heap v h' made
    exact ⟨persists_of_grown grown, suits⟩

/-- **What is decoded is in order**, if the raw value is and, where it is looked up, the records and
answers are. -/
theorem orderly_decode (hg : s.catalog.WellFormed) (orderly : s.heap.InOrder s.catalog raw)
    (looked : K.deferred = true → s.InOrder) (decoded : outcome (decode K raw) s = (.ok v, s')) :
    s'.heap.InOrder s.catalog v := by
  rw [decode, outcome_get_bind] at decoded
  split at decoded
  · next deferred =>
    obtain ⟨waiting, hw, decoded⟩ := outcome_ofExcept_bind_eq_ok decoded
    obtain ⟨t, ht⟩ := exists_target (producesEntity_of_deferred K deferred)
    rw [outcome_arrange] at decoded
    have opens := (opens_arranged s (firstRequest? waiting s)).1.extends
    exact ((forms_orderly s.catalog _).awaitWith t
      (fun e r raw s₁ tidy _ => yields_orderly hg _ t raw tidy) K ht raw s.heap waiting hw _
      ((looked deferred).extends opens) (orderly.mono opens.heap) v s' decoded).2
  · obtain ⟨h', made, rfl⟩ := exists_of_outcome_build decoded
    have kinds := Heap.kinds_orderly hg fun _ => False
    exact (leaves_decodeWith kinds (Construction.leaves_ofRaw kinds hg) K raw s.heap
      (fun _ => False.elim) orderly v h' made).2.2

/-- **What is decoded passes its check, or fails inside.**  Where a checker that produces entities
makes a value of a raw value, whatever that is and whatever is in the stores, the classes are the
same after it, and the check of the value, which may be absent, passes or fails by the own
validation of an entity in it: by a nested failure if that is a failed check, and else as the entity
does.  Then, if no entity that the value holds contains itself or has anything of its own in place
of its methods and its schema, a class is not registered to which one of these entities has a
reference.

So it is with what is decoded if it is so with the raw value and, where entities are looked up, with
every record and every answer of a lookup of a class's own. -/
theorem check_decoded (hg : s.catalog.WellFormed) (own : s.catalog.OwnLineage)
    (answers : K.deferred = true → ∀ t cls, K.target? = some t → s.catalog.resolve t = .ok cls →
      s.AnswersOwn cls)
    (hK : K.producesEntity = true) (decoded : outcome (decode K raw) s = (.ok v, s')) :
    s'.catalog = s.catalog ∧
    (∀ name f, Method.check s'.catalog s'.heap false K v name = .error f →
      Heap.FailsInside s'.heap (Method.validate s'.catalog s'.heap) v f ∧
      (s'.heap.SelfFree s'.catalog v → s'.heap.Genuine v → (∀ e, f ≠ .check e) →
        ∃ unknown, f = .unknownEntity unknown ∧ s'.catalog.lookupName? unknown = none ∧
          s'.heap.RefersTo s'.catalog v unknown)) ∧
    (s.heap.InOrder s.catalog raw → (K.deferred = true → s.InOrder) →
      s'.heap.InOrder s'.catalog v) := by
  obtain ⟨persists, suits⟩ := suits_decode hg own answers hK decoded
  rw [persists.catalog]
  refine ⟨rfl, fun name f failed => ?_, fun orderly looked =>
    orderly_decode hg orderly looked decoded⟩
  have inside := suits.check failed
  refine ⟨inside, fun free genuine other => ?_⟩
  cases inside with
  | nested => exact absurd rfl (other _)
  | letThrough ha entity failed _ =>
    exact genuine.unregistered free (.direct ha) entity f failed other

end

/-! ### Users who are hired -/

/-- A list of users. -/
def hired : Checker := .arrayOf (.reference (.named "User") .null false) false

/-- A list of users who are looked up. -/
def team : Checker := .arrayOf (.reference (.named "User") (.bool true) false) false

/-- A session with a class of users. -/
def hiring : Session := { Session.initial with catalog := Inspection.users }

/-- A user, and the record of a nameless user who is a friend of it. -/
def teamed : Session :=
  { Session.initial with
    catalog := Inspection.users.assign 1 (some 0)
    heap := [.entity 1 .null [] [("name", .str "Ann"), ("friend", .null)]]
    stores := [.memory [⟨⟨.text "User", "u"⟩,
      [(.str "_id", .str "u"), (.str "friend", .object 0)]⟩]] }

/-- The session in which the nameless user was found, with a copy of the friend. -/
def teamedFound : Session :=
  { teamed with
    heap := teamed.heap ++ [.entity 1 .null [] [("name", .str "Ann"), ("friend", .null)],
      .entity 1 (.str "u") [] [("name", .null), ("friend", .object 1)]]
    now := { teamed.now with tick := 3 } }

theorem lookupOf?_teamed (cls : ClassId) : teamed.catalog.lookupOf? cls = none :=
  Catalog.lookupOf?_eq_none (by decide) cls

theorem wellFormed_teamed : teamed.catalog.WellFormed :=
  Construction.wellFormed_users.assign 1 (some 0)

theorem ownLineage_teamed : teamed.catalog.OwnLineage := by
  intro cls
  match cls with
  | 0 => rfl
  | 1 => rfl
  | n + 2 => simp [Catalog.isInstance, Catalog.lineageOf, teamed, Catalog.assign, Inspection.users,
      Catalog.initial]

theorem inOrder_teamed : teamed.InOrder where
  catalog := rfl
  bounded _ := False.elim
  records r hr := by
    have plain : ∀ p ∈ (Heap.get teamed.heap 0).attributes, p.2.isPlain = true := by decide
    have friend : teamed.heap.InOrder teamed.catalog (.object 0) := by
      have cell : Heap.get teamed.heap 0 = Cell.ofFields 1 .null []
          (Table.names (teamed.catalog.schemaOf 1))
          fun name => if name = "name" then .str "Ann" else .null := rfl
      refine Heap.orderly_of_cell wellFormed_teamed cell (by decide) id ?_
      exact fun p hp => Heap.orderly_of_inert (Value.isData_of_isPlain _ (plain p hp)).inert
    obtain rfl := List.mem_singleton.1 (mem_of_has rfl rfl hr)
    have text (x : String) : teamed.heap.InOrder teamed.catalog (.str x) :=
      Heap.orderly_of_inert (Value.inert_str x)
    exact Heap.orderly_dict (List.forall_mem_cons.2 ⟨⟨text _, text _⟩,
      List.forall_mem_singleton.2 ⟨text _, friend⟩⟩)
  answers cls owner f id found hown := nomatch (lookupOf?_teamed cls).symm.trans hown

/-- Nobody and somebody without a name are on the team; the check comes to the latter, who was
found, and fails there, with the missing name as the cause. -/
theorem check_decoded_teamed :
    outcome (decode team (.list [.null, .dict [(.str "_id", .str "u")]])) teamed =
      (.ok (.list [.null, .object 2]), teamedFound) ∧
    Method.check teamed.catalog teamedFound.heap false team (.list [.null, .object 2])
      "team" = .error (.check (.nested "team[1]" (.missing "name"))) ∧
    teamedFound.heap.FailsInside (Method.validate teamed.catalog teamedFound.heap)
      (.list [.null, .object 2]) (.check (.nested "team[1]" (.missing "name"))) ∧
    teamedFound.heap.InOrder teamed.catalog (.list [.null, .object 2]) := by
  have decoded : outcome (decode team (.list [.null, .dict [(.str "_id", .str "u")]])) teamed =
      (.ok (.list [.null, .object 2]), teamedFound) := rfl
  have failed : Method.check teamed.catalog teamedFound.heap false team
      (.list [.null, .object 2]) "team" =
        .error (.check (.nested "team[1]" (.missing "name"))) := rfl
  have raw : (Value.list [.null, .dict [(.str "_id", .str "u")]]).Inert :=
    (Value.isData_of_isPlain _ (by decide)).inert
  obtain ⟨-, inside, inOrder⟩ := check_decoded (K := team) wellFormed_teamed
    ownLineage_teamed (fun _ _ cls _ _ owner f id a hown =>
      nomatch (lookupOf?_teamed cls).symm.trans hown) rfl decoded
  exact ⟨decoded, failed, (inside "team" _ failed).1,
    inOrder (Heap.orderly_of_inert raw) fun _ => inOrder_teamed⟩

/-- A user who has a number in place of the validation. -/
def numbered : Session :=
  { hiring with
    heap := [Cell.put (.entity 1 .null [] [("name", .str "Ann"), ("friend", .null)])
      "validate" (.int 5)] }

/-- A user who is a friend of itself, and the record of another user who is a friend of it. -/
def mirrored : Session :=
  { Session.initial with
    catalog := Inspection.users.assign 1 (some 0)
    heap := [.entity 1 .null [] [("name", .str "Ann"), ("friend", .object 0)]]
    stores := [.memory [⟨⟨.text "User", "u"⟩,
      [(.str "_id", .str "u"), (.str "name", .str "Bea"), (.str "friend", .object 0)]⟩]] }

/-- The session in which that other user was found. -/
def mirroredFound : Session :=
  { mirrored with
    heap := mirrored.heap ++ [.entity 1 .null [] [("name", .str "Ann"), ("friend", .object 1)],
      .entity 1 (.str "u") [] [("name", .str "Bea"), ("friend", .object 1)]] }

/-- **What the check of a decoded value lets through need not be that a class is not registered.**
Of a user who has a number in place of the validation it is that a number is not called, though the
raw value is in order; of a user who was found and has a friend who contains itself it is that the
validation does not end, though nothing in the raw value is an entity. -/
theorem check_decoded_other :
    (numbered.heap.SelfFree Inspection.users (.list [.object 0]) ∧
      outcome (decode hired (.list [.object 0])) numbered = (.ok (.list [.object 0]), numbered) ∧
      Method.check Inspection.users numbered.heap false hired (.list [.object 0]) "team" =
        .error (.misuse .notCallable)) ∧
    ((Value.dict [(.str "_id", .str "u")]).Inert ∧
      outcome (decode (.reference (.named "User") (.bool true) false)
        (.dict [(.str "_id", .str "u")])) mirrored = (.ok (.object 2), mirroredFound) ∧
      Method.check mirrored.catalog mirroredFound.heap false
        (.reference (.named "User") (.bool true) false) (.object 2) "best" = .error .endless) := by
  refine ⟨⟨?_, rfl, rfl⟩, (Value.isData_of_isPlain _ (by decide)).inert, rfl, rfl⟩
  have plain : ∀ p ∈ (Heap.get numbered.heap 0).attributes, p.2.isPlain = true := by decide
  refine Heap.selfFree_list (List.forall_mem_singleton.2 (.of_attributes
    (fun p hp => .of_inert (Value.isData_of_isPlain _ (plain p hp)).inert) ?_))
  rintro rs hrs name r hr
  cases hrs
  rcases List.mem_cons.1 hr with heq | hr
  · cases heq
    exact .of_inert (Value.inert_str _)
  · cases List.mem_singleton.1 hr
    exact .of_inert Value.inert_null

end Loading

end EntitySchema
