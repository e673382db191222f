/-
**Loading agrees with construction.**

What a checker makes of a raw value is computed in two ways: by decoding, in the course of a
construction, and by loading.  On raw values of the expected shape the two agree.  A deferred
checker is decoded just as its raw value is loaded.  Where no eager reference can be reached,
loading fails exactly if construction does; it looks nothing up, however looking up is done; and
what it makes is alike, and so equal to, what is constructed.

Main definitions:

* `Catalog.Shaped` — a raw value of the expected shape;
* `Loading.Agrees` — **an action that makes what is constructed, and looks nothing up.**

Main results:

* `Checker.awaitWith_eq` — a deferred checker decodes as it loads;
* `Catalog.loaded_eq_built` — without eager references the trees are the same;
* `Loading.agrees_with_construction` — **loading agrees with construction.**
-/

import EntitySchema.Proofs.Embedded
import EntitySchema.Proofs.Finding
import EntitySchema.Proofs.Keyed
import EntitySchema.Proofs.LoadingTrees

set_option autoImplicit false

namespace EntitySchema

/-! ### Raw values of the expected shape -/

/-- A raw value of the expected shape: what arrays of entities are made of is nothing, a list or a
tuple; what dictionaries of entities are made of is nothing or a mapping, and so is the payload of
an embedded reference.  The payload of an eager reference may be anything, and so may the raw value
of what does not produce entities. -/
inductive Catalog.Shaped (g : Catalog) : Subject → Value → Prop
  | nothing (c : Checker) : Shaped g (.decoded c) .null
  | plain {c : Checker} : c.producesEntity = false → (raw : Value) → Shaped g (.decoded c) raw
  | eager {t : Target} {e : Value} (r : Bool) : e.truthy = true → (raw : Value) →
      Shaped g (.decoded (.reference t e r)) raw
  | embedded {t : Target} {e : Value} {r : Bool} {raw : Value} {es : Entries} :
      raw.entries? = some es → (∀ cls, g.resolve t = .ok cls → Shaped g (.entity cls) raw) →
      Shaped g (.decoded (.reference t e r)) raw
  | array {e : Checker} {r : Bool} {raw : Value} {xs : List Value} : raw.elements? = some xs →
      (∀ x ∈ xs, Shaped g (.decoded e) x) → Shaped g (.decoded (.arrayOf e r)) raw
  | dictionary {e : Checker} {r : Bool} {raw : Value} {es : Entries} : raw.entries? = some es →
      (∀ p ∈ es, Shaped g (.decoded e) p.2) → Shaped g (.decoded (.dictOf e r)) raw
  | entity {cls : ClassId} {raw : Value} {es : Entries} : raw.entries? = some es →
      (∀ f ∈ g.schemaOf cls, Shaped g (.decoded f.2) (Entries.getStr es f.1)) →
      Shaped g (.entity cls) raw

namespace Value

/-- A mapping makes its own entries, whatever the heap is. -/
theorem entriesOf_of_entries? {raw : Value} {es : Entries} (h : raw.entries? = some es)
    (heap : Heap) : Construction.entriesOf heap raw = .ok es ∧
      Checker.entriesOf heap raw = .ok es := by
  cases raw with
  | dict fs =>
    cases h
    exact ⟨Construction.entriesOf_dict heap es, rfl⟩
  | ordered fs =>
    cases h
    refine ⟨?_, rfl⟩
    cases es <;> rfl
  | _ => cases h

theorem itemsOf_of_elements? {raw : Value} {xs : List Value} (h : raw.elements? = some xs) :
    Checker.itemsOf raw = .ok xs := by
  cases raw <;> cases h <;> rfl

end Value

namespace Catalog.Shaped

variable {g : Catalog} {raw : Value} {h : Heap} {e : Checker} {r : Bool} {cls : ClassId}

theorem exists_entries (hs : g.Shaped (.entity cls) raw) : ∃ es, raw.entries? = some es ∧
    (∀ heap, Construction.entriesOf heap raw = .ok es) ∧
    ∀ f ∈ g.schemaOf cls, g.Shaped (.decoded f.2) (Entries.getStr es f.1) := by
  cases hs with
  | entity hes fields =>
    exact ⟨_, hes, fun heap => (Value.entriesOf_of_entries? hes heap).1, fields⟩

/-- The items of an array of entities. -/
theorem exists_items (hp : e.producesEntity = true) (hs : g.Shaped (.decoded (.arrayOf e r)) raw) :
    ∃ xs, Checker.itemsOf raw = .ok xs ∧ ∀ x ∈ xs, g.Shaped (.decoded e) x := by
  cases hs with
  | nothing => exact ⟨[], rfl, fun _ hx => nomatch hx⟩
  | plain hn =>
    have no : e.producesEntity = false := hn
    rw [hp] at no
    cases no
  | array hxs items => exact ⟨_, Value.itemsOf_of_elements? hxs, items⟩

/-- The entries of a dictionary of entities. -/
theorem exists_values (hp : e.producesEntity = true) (hs : g.Shaped (.decoded (.dictOf e r)) raw) :
    ∃ es, (∀ heap, Checker.entriesOf heap raw = .ok es) ∧ ∀ p ∈ es, g.Shaped (.decoded e) p.2 := by
  cases hs with
  | nothing => exact ⟨[], fun _ => rfl, fun _ hx => nomatch hx⟩
  | plain hn =>
    have no : e.producesEntity = false := hn
    rw [hp] at no
    cases no
  | dictionary hes values => exact ⟨_, fun heap => (Value.entriesOf_of_entries? hes heap).2, values⟩

/-- The payload of an embedded reference. -/
theorem payload {t : Target} {eager : Value} (lazy : eager.truthy = false)
    (hs : g.Shaped (.decoded (.reference t eager r)) raw) :
    raw = .null ∨ (∃ es, raw.entries? = some es) ∧
      ∀ cls, g.resolve t = .ok cls → g.Shaped (.entity cls) raw := by
  cases hs with
  | nothing => exact .inl rfl
  | plain hn => cases hn
  | eager _ he =>
    rw [lazy] at he
    cases he
  | embedded hes entity => exact .inr ⟨⟨_, hes⟩, entity⟩

/-- Raw values of the expected shape are tame where no eager reference can be reached. -/
theorem tame (g : Catalog) (look : Lookups) :
    g.Tame look fun subject raw => g.Shaped subject raw ∧ subject.EagerFree g where
  data hs heap := by
    obtain ⟨es, -, hes, -⟩ := hs.1.exists_entries
    rw [hes heap, hes []]
  field hs hdata f hf := by
    obtain ⟨es, -, hes, fields⟩ := hs.1.exists_entries
    cases (hes []).symm.trans hdata
    exact ⟨fields f hf, EagerFree.field hs.2 hf⟩
  items hp hs hxs x hx := by
    obtain ⟨xs, hitems, shaped⟩ := exists_items hp hs.1
    cases hitems.symm.trans hxs
    exact ⟨shaped x hx, hs.2⟩
  mapping hp hs heap := by
    obtain ⟨es, hes, -⟩ := exists_values hp hs.1
    rw [hes heap, hes []]
  values hp hs hdata p hmem := by
    obtain ⟨es, hes, shaped⟩ := exists_values hp hs.1
    cases (hes []).symm.trans hdata
    exact ⟨shaped p hmem, hs.2⟩
  payload hs lazy a := by
    rintro rfl
    rcases hs.1.payload lazy with h | ⟨⟨es, hes⟩, -⟩
    · cases h
    · cases hes
  embedded hs lazy hn hcls := by
    rcases hs.1.payload lazy with rfl | ⟨-, entity⟩
    · cases hn
    · exact ⟨entity _ hcls, hs.2.2 _ _ rfl hcls⟩
  identifier hs he := absurd (hs.2.1.symm.trans he) Bool.false_ne_true
  written hs he := absurd (hs.2.1.symm.trans he) Bool.false_ne_true
  found hs he := absurd (hs.2.1.symm.trans he) Bool.false_ne_true

end Catalog.Shaped

/-! ### Decoding by a deferred checker -/

namespace Session

theorem gather_id {α β : Type} (f : α → Action β) (xs : List α) :
    gather id (xs.map f) = gather f xs := by
  unfold gather
  simp only [List.isEmpty_map, List.zipIdx_map, List.mapM_map]
  rfl

end Session

namespace Checker

variable {g : Catalog} (enter seek : ClassId → Value → Action Value)

/-- **A deferred checker decodes as it loads.** -/
theorem awaitWith_eq : (c : Checker) → (raw : Value) → g.Shaped (.decoded c) raw →
    c.deferred = true → (h : Heap) → awaitWith seek c raw h = .ok (loadWith enter seek c raw)
  | .reference t e r, raw, _, hd, h => by
    have eager : e.truthy = true := hd
    rw [awaitWith, loadWith, eager]
    rfl
  | .arrayOf e r, raw, hs, hd, h => by
    obtain ⟨xs, hxs, shaped⟩ := hs.exists_items (producesEntity_of_deferred e hd)
    have parts : ∀ h, (xs.mapM fun x => awaitWith seek e x h) =
        .ok (xs.map fun x => loadWith enter seek e x) := fun h =>
      Encoding.mapM_eq_map fun x hx => awaitWith_eq e x (shaped x hx) hd h
    have apart : awaitWith seek (.arrayOf e r) raw h = .ok (do
        let s ← get
        let waiting ← Session.ofExcept (xs.mapM fun x => awaitWith seek e x s.heap)
        pure (.list (← Session.gather id waiting))) := by
      rw [awaitWith, hxs]
      rfl
    rw [apart]
    refine congrArg Except.ok (funext fun s => ?_)
    show Session.outcome _ s = Session.outcome _ s
    simp only [hxs, parts, Session.outcome_bind, Session.outcome_get, Session.outcome_ofExcept,
      Session.gather_id]
  | .dictOf e r, raw, hs, hd, h => by
    obtain ⟨es, hes, shaped⟩ := hs.exists_values (producesEntity_of_deferred e hd)
    have parts : ∀ h, (es.mapM fun p => awaitWith seek e p.2 h) =
        .ok (es.map fun p => loadWith enter seek e p.2) := fun h =>
      Encoding.mapM_eq_map fun p hp => awaitWith_eq e p.2 (shaped p hp) hd h
    have apart : awaitWith seek (.dictOf e r) raw h = .ok (do
        let s ← get
        let waiting ← Session.ofExcept (es.mapM fun p => awaitWith seek e p.2 s.heap)
        pure (.dict ((es.map Prod.fst).zip (← Session.gather id waiting)))) := by
      rw [awaitWith, hes h]
      rfl
    rw [apart]
    refine congrArg Except.ok (funext fun s => ?_)
    show Session.outcome _ s = Session.outcome _ s
    simp only [hes, parts, Session.outcome_bind, Session.outcome_get, Session.outcome_ofExcept,
      Session.gather_id]

end Checker

/-! ### Trees without eager references -/

namespace Catalog

variable {g : Catalog} {look : Lookups}

/-- An entity is loaded as it is constructed, where no eager reference can be reached. -/
theorem loaded_eq_built : ∀ (fuel : Nat) (cls : ClassId) (raw : Value),
    g.Shaped (.entity cls) raw ∧ Subject.EagerFree g (.entity cls) →
      g.loaded look fuel cls raw = g.built fuel cls raw
  | 0, _, _, _ => rfl
  | fuel + 1, cls, raw, hs => by
    obtain ⟨es, hes, hdata, shaped⟩ := hs.1.exists_entries
    have undeferred : ∀ f ∈ g.schemaOf cls, f.2.deferred = false := hs.2 cls .refl
    have fields : ∀ f ∈ g.schemaOf cls,
        g.loadedField (g.loaded look fuel) (foundWith look (g.loaded look fuel)) raw es f =
          g.builtField (g.built fuel) es f := by
      intro f hf
      cases hp : f.2.producesEntity with
      | false => exact (loadedField_of_plain hp).1
      | true =>
        have raw_f : Loading.rawField raw f.1 = .ok (Entries.getStr es f.1) := by
          rw [Loading.rawField, hes]
        rw [loadedField, builtField, hp, undeferred f hf, Checker.decodes_of_producesEntity hp,
          raw_f]
        refine Checker.treeWith_congr f.2 _ (fun c x entered => ?_) fun c id named => ?_
        · exact loaded_eq_built fuel c x (Checker.kind_of_enters (Shaped.tame g look) entered
            ⟨shaped f hf, EagerFree.field hs.2 hf⟩)
        · cases named.deferred.symm.trans (undeferred f hf)
    rw [loaded, built, hdata, Except.toOption, Option.bind_eq_bind, Option.bind_some,
      Option.bind_some, fieldTrees_congr fields, Construction.asideEntries_eq_nil es undeferred]

end Catalog

/-- The tree of a construction is one of an entity. -/
theorem Catalog.entity_of_built {g : Catalog} {fuel : Nat} {cls : ClassId} {raw : Value} {t : Tree}
    (ht : g.built fuel cls raw = some t) :
    ∃ cls id pending fields, t = .entity cls id pending fields := by
  cases fuel with
  | zero => cases ht
  | succ fuel =>
    obtain ⟨data, trees, -, -, rfl⟩ := Catalog.built_succ_eq_some.1 ht
    exact ⟨_, _, _, _, rfl⟩

/-- What produces entities makes no number. -/
theorem Checker.treeWith_ne_nan {g : Catalog} {enter seek : ClassId → Value → Option Tree}
    (entity : ∀ cls raw t, enter cls raw = some t →
      ∃ cls id pending fields, t = .entity cls id pending fields) (c : Checker)
    (hp : c.producesEntity = true) (hd : c.deferred = false) (raw : Value) {t : Tree}
    (ht : treeWith g enter seek c raw = some t) (n : Nat) : t ≠ .leaf (.nan n) := by
  rintro rfl
  cases c with
  | reference target e r =>
    have lazy : e.truthy = false := hd
    rw [treeWith, lazy, if_neg Bool.false_ne_true, enterTree] at ht
    split at ht
    · cases ht
    · obtain ⟨cls, -, ht⟩ := Option.bind_eq_some_iff.1 ht
      obtain ⟨_, _, _, _, heq⟩ := entity _ _ _ ht
      cases heq
  | arrayOf e r =>
    obtain ⟨items, -, ht⟩ := Option.bind_eq_some_iff.1 ht
    obtain ⟨trees, -, ht⟩ := Option.bind_eq_some_iff.1 ht
    cases ht
  | dictOf e r =>
    obtain ⟨items, -, ht⟩ := Option.bind_eq_some_iff.1 ht
    obtain ⟨trees, -, ht⟩ := Option.bind_eq_some_iff.1 ht
    cases ht
  | _ => cases hp

/-! ### Agreement -/

/-- What is made of data has a normal form. -/
theorem Construction.exists_normal_of_make {g : Catalog} (hg : g.WellFormed) {subject : Subject}
    (decodes : ∀ c, subject = .decoded c → c.decodes = true) {raw : Value} (hraw : raw.IsData)
    {h h' : Heap} {v : Value} (hv : make g subject raw h = .ok (v, h')) :
    ∃ form, g.Normal subject raw form := by
  cases subject with
  | entity cls => exact Catalog.exists_normal hg _ cls raw le_rfl hraw h v h' hv
  | decoded c =>
    exact Catalog.exists_normal_decoded (fun cls raw hk => Catalog.exists_normal hg _ cls raw hk) c
      (decodes c rfl) raw (fun _ => le_rfl) hraw h v h' hv

namespace Loading

/-- In a session an action makes what is constructed: it fails exactly if the construction does;
whatever it does, the session only follows the one before, so that nothing was looked up; and what
it makes after the construction is alike what was constructed.  It is equal to it if the raw value
is data, or else if what was constructed has a raw form, in which the dictionaries are
well keyed. -/
structure Agrees (g : Catalog) (subject : Subject) (raw : Value) (a : Action Value) (s : Session) :
    Prop where
  follows : s.Follows (Session.outcome a s).2
  fails : (∃ e, (Session.outcome a s).1 = .error e) ↔
    ∃ e, Construction.make g subject raw s.heap = .error e
  made : ∀ w h, Construction.make g subject raw s.heap = .ok (w, h) → ∃ v s',
    Session.outcome a { s with heap := h } = (.ok v, s') ∧
    Session.Follows { s with heap := h } s' ∧ Heap.Alike g s'.heap v w ∧
    ((raw.IsData ∨ ∃ form, Encoding.encodeWith s'.heap (Method.toRaw g s'.heap) false w = .ok form ∧
      form.WellKeyed (Heap.isEntity s'.heap)) → Method.equal g s'.heap v w = .ok true)

variable {g : Catalog}

/-- What does what the tree of the construction says agrees. -/
theorem agrees_of_refines (hg : g.WellFormed) {subject : Subject} {raw : Value} {a : Action Value}
    {o : Option Tree} (decodes : ∀ c, subject = .decoded c → c.decodes = true)
    (hb : (Construction.make g subject raw).Refines (Heap.Reads g) o)
    (ha : Session.Refines (fun s => s.catalog = g) a (Heap.Reads g) o)
    (number : ∀ t, o = some t → ∀ n, t ≠ .leaf (.nan n)) {s : Session} (hs : s.catalog = g) :
    Agrees g subject raw a s := by
  obtain ⟨follows, told⟩ := ha s hs
  refine ⟨follows, ?_, ?_⟩
  · constructor
    · rintro ⟨e, he⟩
      rcases told with ⟨x, t, hx, -⟩ | ⟨-, rfl⟩
      · cases hx.symm.trans he
      · exact hb.exists_error s.heap
    · rintro ⟨e, he⟩
      rcases told with ⟨x, t, -, rfl, -⟩ | ⟨failed, -⟩
      · obtain ⟨x, h', hx, -⟩ := hb.exists_ok s.heap
        cases hx.symm.trans he
      · exact failed
  · intro w h hw
    obtain ⟨t, rfl, hle, reads⟩ := hb.of_ok hw
    obtain ⟨v, s', hv, follows', reads'⟩ := ha.exists_ok (s := { s with heap := h }) hs
    have grows : h <+: s'.heap := follows'.grows.heap
    have reads_w : Heap.Reads g s'.heap w t :=
      (reads.mono (Heap.only_within_self _ h)).mono (.of_extended grows)
    have alike : Heap.Alike g s'.heap v w := (reads'.mono (Heap.only_within_self _ _)).alike reads_w
    have equal : ∀ form, Encoding.encodeWith s'.heap (Method.toRaw g s'.heap) false w = .ok form →
        form.WellKeyed (Heap.isEntity s'.heap) → Method.equal g s'.heap v w = .ok true := by
      refine fun form hform keyed => alike.equal_of_encode hg ?_ hform keyed
      rintro n rfl
      cases reads_w
      exact number _ rfl n rfl
    refine ⟨v, s', hv, follows', alike, ?_⟩
    rintro (data | ⟨form, hform, keyed⟩)
    · obtain ⟨form, normal⟩ := Construction.exists_normal_of_make hg decodes data hw
      obtain ⟨w', h', hmade, -, shown⟩ := normal.exists_shows hg data s.heap
      cases hw.symm.trans hmade
      exact equal form ((shown.mono (.of_extended grows)).encode hg)
        (normal.isData hg data).wellKeyed
    · exact equal form hform keyed

/-- The tree of a construction is the same from some bound on. -/
theorem built_eq_of_depth_le (hg : g.WellFormed) {look : Lookups} {kind : Subject → Value → Prop}
    (tame : g.Tame look kind) {cls : ClassId} {raw : Value} (hraw : kind (.entity cls) raw)
    {fuel : Nat} (hfuel : raw.depth ≤ fuel) :
    g.built fuel cls raw = g.built raw.depth cls raw := by
  have more := Construction.refines_ofRaw tame hg hfuel hraw
  have less := Construction.refines_ofRaw tame hg le_rfl hraw
  cases ht : g.built raw.depth cls raw with
  | some t => exact Catalog.built_mono hfuel ht
  | none =>
    rw [ht] at less
    obtain ⟨e, he⟩ := less.exists_error []
    cases ht' : g.built fuel cls raw with
    | none => rfl
    | some t =>
      rw [ht'] at more
      obtain ⟨x, h, hx, -⟩ := more.exists_ok []
      cases hx.symm.trans he

section

variable (hg : g.WellFormed)

include hg

/-- Where no eager reference can be reached an entity is loaded as it is constructed, however
entities are looked up. -/
theorem refines_loadBy_of_free (seek : Nat → ClassId → Value → Action Value) (fuel : Nat)
    (cls : ClassId) (raw : Value) (hs : g.Shaped (.entity cls) raw ∧ g.EagerFree cls) :
    Session.Refines (fun s => s.catalog = g) (loadBy seek fuel cls raw) (Heap.Reads g)
      (g.built fuel cls raw) := by
  rw [← Catalog.loaded_eq_built fuel cls raw hs]
  exact refines_loadBy (Catalog.Shaped.tame g fun _ _ => none)
    (fun s s' hs follows => follows.grows.catalog.trans hs) (fun _ hs => hs) hg
    (fun _ _ t e r raw cls hs he => absurd (hs.2.1.symm.trans he) Bool.false_ne_true) fuel
      cls raw hs

/-- Where no eager reference can be reached, the tree of a construction is the same from as many
entities on as the construction makes objects. -/
theorem built_eq_of_made_le {cls : ClassId} {raw : Value} (hs : g.Shaped (.entity cls) raw)
    (free : g.EagerFree cls) {s : Session} (catalog : s.catalog = g) {fuel : Nat}
    (hfuel : made s cls raw ≤ fuel) : g.built fuel cls raw = g.built raw.depth cls raw := by
  subst catalog
  have tame := Catalog.Shaped.tame s.catalog fun _ _ => none
  have trees : ∀ n, s.catalog.loaded (fun _ _ => none) n cls raw = s.catalog.built n cls raw :=
    fun n => Catalog.loaded_eq_built n cls raw ⟨hs, free⟩
  have whole := Construction.refines_ofRaw tame hg le_rfl ⟨hs, free⟩
  cases ht : s.catalog.built raw.depth cls raw with
  | some t =>
    rw [ht] at whole
    obtain ⟨v, h, hv, -⟩ := whole.exists_ok s.heap
    have bounded : s.catalog.loaded (fun _ _ => none) (made s cls raw + 0) cls raw = some t :=
      Catalog.loaded_of_makes tame (fun _ _ _ _ _ _ none => nomatch none) ⟨hs, free⟩ (makes_made hv)
        ((trees raw.depth).trans ht)
    rw [trees] at bounded
    exact Catalog.built_mono hfuel bounded
  | none =>
    cases ht' : s.catalog.built fuel cls raw with
    | none => rfl
    | some t =>
      have more := Catalog.built_mono (le_max_left fuel raw.depth) ht'
      rw [built_eq_of_depth_le hg tame ⟨hs, free⟩ (le_max_right fuel raw.depth), ht] at more
      cases more

/-- Loading with a bound that suffices, where no eager reference can be reached. -/
theorem refines_loadWithin {cls : ClassId} {raw : Value} (hs : g.Shaped (.entity cls) raw)
    (free : g.EagerFree cls) {s : Session} (catalog : s.catalog = g) {fuel : Nat}
    (hfuel : made s cls raw ≤ fuel) :
    Session.Refines (fun s => s.catalog = g) (loadWithin fuel cls raw) (Heap.Reads g)
      (g.built raw.depth cls raw) := by
  rw [loadWithin_eq_loadBy, ← built_eq_of_made_le hg hs free catalog hfuel]
  exact refines_loadBy_of_free hg _ fuel cls raw ⟨hs, free⟩

/-- Nothing is opened beforehand for a loading that looks nothing up. -/
theorem outcome_load {cls : ClassId} {raw : Value} (hs : g.Shaped (.entity cls) raw)
    (free : g.EagerFree cls) {s : Session} (catalog : s.catalog = g) :
    Session.outcome (load cls raw) s =
      Session.outcome (loadWithin (bound s .null + made s cls raw) cls raw) s := by
  rw [load, Session.outcome_get_bind]
  refine Session.outcome_arrange_of_quiet _ ?_
  exact ((refines_loadWithin hg hs free catalog (Nat.le_add_left _ _))
    { s with survey := some [] } catalog).1.grows.survey

/-- The same of loading with the bound that it has. -/
theorem refines_load {cls : ClassId} {raw : Value} (hs : g.Shaped (.entity cls) raw)
    (free : g.EagerFree cls) : Session.Refines (fun s => s.catalog = g) (load cls raw)
      (Heap.Reads g) (g.built raw.depth cls raw) := by
  intro s catalog
  rw [outcome_load hg hs free catalog]
  exact refines_loadWithin hg hs free catalog (Nat.le_add_left _ _) s catalog

/-- What fails to be constructed fails to be loaded, in the same way. -/
theorem load_error {cls : ClassId} {raw : Value} (hs : g.Shaped (.entity cls) raw)
    (free : g.EagerFree cls) {s : Session} (catalog : s.catalog = g) {e : Failure}
    (he : Construction.ofRaw g cls raw s.heap = .error e) :
    (Session.outcome (load cls raw) s).1 = .error e := by
  rw [outcome_load hg hs free catalog]
  obtain ⟨n, hn⟩ : ∃ n, bound s .null + made s cls raw = n + 1 := by
    refine ⟨bound s .null + made s cls raw - 1, ?_⟩
    rw [bound]
    dsimp only
    omega
  have fails : Session.outcome (Session.build (Construction.ofRaw s.catalog cls raw)) s =
      (.error e, s) := by
    rw [Session.build, Session.outcome_get_bind, catalog, he]
    rfl
  rw [hn, loadWithin, Session.outcome_get_bind, Session.outcome_bind_error fails]

/-- What a checker loads agrees with what it decodes, where no eager reference can be reached. -/
theorem agrees_decode {c : Checker} (hp : c.producesEntity = true) {raw : Value}
    (hs : g.Shaped (.decoded c) raw) (free : Subject.EagerFree g (.decoded c))
    (seek : Nat → ClassId → Value → Action Value) {fuel : Nat} (hfuel : raw.depth ≤ fuel)
    {s : Session} (catalog : s.catalog = g) :
    Agrees g (.decoded c) raw (Checker.loadWith (loadBy seek fuel) (seek fuel) c raw) s := by
  have hdec : c.decodes = true := Checker.decodes_of_producesEntity hp
  have tame := Catalog.Shaped.tame g fun _ _ => none
  have decodes : (Construction.make g (.decoded c) raw).Refines (Heap.Reads g)
      (Checker.treeWith g (g.built fuel) (fun _ _ => none) c raw) :=
    Construction.refines_decode tame hg free.1 hdec hfuel ⟨hs, free⟩
  have loads : Session.Refines (fun s => s.catalog = g)
      (Checker.loadWith (loadBy seek fuel) (seek fuel) c raw) (Heap.Reads g)
      (Checker.treeWith g (g.built fuel) (fun _ _ => none) c raw) :=
    Checker.refines_loadWith tame
      (fun s s' hs follows => follows.grows.catalog.trans hs) (fun _ hs => hs)
      (refines_loadBy_of_free hg seek fuel)
      (fun t e r raw cls hs he => absurd (hs.2.1.symm.trans he) Bool.false_ne_true) c hp raw
      ⟨hs, free⟩
  have number : ∀ t, Checker.treeWith g (g.built fuel) (fun _ _ => none) c raw = some t →
      ∀ n, t ≠ .leaf (.nan n) := fun t ht =>
    Checker.treeWith_ne_nan (fun _ _ _ => Catalog.entity_of_built) c hp free.1 raw ht
  refine agrees_of_refines hg ?_ decodes loads number catalog
  rintro _ ⟨⟩
  exact hdec

/-- The construction of an entity does what its tree says, where no eager reference can
be reached. -/
theorem refines_make {cls : ClassId} {raw : Value} (hs : g.Shaped (.entity cls) raw)
    (free : g.EagerFree cls) : (Construction.make g (.entity cls) raw).Refines (Heap.Reads g)
      (g.built raw.depth cls raw) :=
  Construction.refines_ofRaw (Catalog.Shaped.tame g fun _ _ => none) hg le_rfl ⟨hs, free⟩

/-- What a class loads agrees with what it constructs, where no eager reference can be reached. -/
theorem agrees_load {cls : ClassId} {raw : Value} (hs : g.Shaped (.entity cls) raw)
    (free : g.EagerFree cls) {s : Session} (catalog : s.catalog = g) :
    Agrees g (.entity cls) raw (load cls raw) s := by
  refine agrees_of_refines hg (fun _ hc => Subject.noConfusion hc) (refines_make hg hs free)
    (refines_load hg hs free) ?_ catalog
  intro t ht n hn
  obtain ⟨_, _, _, _, rfl⟩ := Catalog.entity_of_built ht
  cases hn

/-- An entity that is loaded equals the one constructed as that equals itself. -/
theorem equal_of_load {cls : ClassId} {raw : Value} (hs : g.Shaped (.entity cls) raw)
    (free : g.EagerFree cls) {s s' : Session} (catalog : s.catalog = g) {w v : Value} {h : Heap}
    (hw : Construction.ofRaw g cls raw s.heap = .ok (w, h))
    (hv : Session.outcome (load cls raw) { s with heap := h } = (.ok v, s')) :
    Method.equal g s'.heap v w = Method.equal g s'.heap w w := by
  obtain ⟨v', s'', hv', -, alike, -⟩ := (agrees_load hg hs free catalog).made w h hw
  cases hv.symm.trans hv'
  obtain ⟨t, ht, hle, reads⟩ := (refines_make hg hs free).of_ok hw
  obtain ⟨_, _, _, _, rfl⟩ := Catalog.entity_of_built ht
  cases reads
  obtain ⟨a, rfl⟩ := alike.exists_object
  exact alike.equal hg

/-- **Loading agrees with construction.**  On raw values of the expected shape a deferred checker
decodes as it loads.  Where no eager reference can be reached, what a checker loads agrees with what
it decodes, however entities are looked up; and what a class loads agrees with what it constructs,
in its failures too, and equals it as that equals itself. -/
theorem agrees_with_construction :
    (∀ (c : Checker) (raw : Value), c.deferred = true → g.Shaped (.decoded c) raw →
      (∀ enter seek h, Checker.awaitWith seek c raw h = .ok (Checker.loadWith enter seek c raw)) ∧
      ∀ enter s, Session.outcome (decode c raw) s = Session.outcome (Session.arrange
        (Checker.loadWith enter (findWith (loadWithin (bound s .null))) c raw)) s) ∧
    (∀ (c : Checker) (raw : Value), c.producesEntity = true → Subject.EagerFree g (.decoded c) →
      g.Shaped (.decoded c) raw → ∀ seek fuel s, raw.depth ≤ fuel → s.catalog = g →
      Agrees g (.decoded c) raw (Checker.loadWith (loadBy seek fuel) (seek fuel) c raw) s) ∧
    ∀ (cls : ClassId) (raw : Value), g.EagerFree cls → g.Shaped (.entity cls) raw →
      ∀ s, s.catalog = g → Agrees g (.entity cls) raw (load cls raw) s ∧
        (∀ e, (Session.outcome (load cls raw) s).1 = .error e ↔
          Construction.ofRaw g cls raw s.heap = .error e) ∧
        ∀ w h v s', Construction.ofRaw g cls raw s.heap = .ok (w, h) →
          Session.outcome (load cls raw) { s with heap := h } = (.ok v, s') →
          Method.equal g s'.heap v w = Method.equal g s'.heap w w := by
  refine ⟨fun c raw hd hs => ⟨?_, ?_⟩, fun c raw hp free hs seek fuel s hfuel catalog => ?_,
    fun cls raw free hs s catalog => ⟨agrees_load hg hs free catalog, fun e => ?_, ?_⟩⟩
  · exact fun enter seek h => Checker.awaitWith_eq enter seek c raw hs hd h
  · intro enter s
    rw [decode, Session.outcome_get_bind, if_pos hd, Checker.awaitWith_eq enter _ c raw hs hd]
    rfl
  · exact agrees_decode hg hp hs free seek hfuel catalog
  · refine ⟨fun he => ?_, load_error hg hs free catalog⟩
    obtain ⟨e', he'⟩ := (agrees_load hg hs free catalog).fails.1 ⟨e, he⟩
    cases he.symm.trans (load_error hg hs free catalog he')
    exact he'
  · exact fun w h v s' => equal_of_load hg hs free catalog

end

/-- A class of authors, who have a name and a day of birth, and a class of books, which have a
title, an author and, under names, lists of books. -/
def books : Catalog where
  classes := (Catalog.initial.classes ++ [⟨"Author", "Author", [1, 0],
      [("name", Checker.string), ("born", .date false)], none, none⟩]) ++
    [⟨"Book", "Book", [2, 0],
      [("title", Checker.string),
        ("author", .reference (.named "Author") (.bool false) false),
        ("parts", .dictOf (.arrayOf (.reference (.cls 2) (.bool false) false) false) false)],
      none, none⟩]
  names := [("Author", 1), ("Book", 2)]

theorem wellFormed_books : books.WellFormed := by
  have authors : (⟨Catalog.initial.classes ++ [⟨"Author", "Author", [1, 0],
      [("name", Checker.string), ("born", .date false)], none, none⟩], []⟩ :
      Catalog).WellFormed := Catalog.wellFormed_initial.append (by decide) (by decide)
  exact authors.append (by decide) (by decide)

/-- A book with an author whose day of birth is a text, and with a list of parts. -/
def rawBook : Value :=
  .dict [(.str "_id", .int 7), (.str "author", .dict [(.str "born", .str "1990-01-02")]),
    (.str "parts", .dict [(.str "one", .list [.dict [(.str "title", .str "x")], .null])])]

/-- The book is loaded as it is constructed, and equals what is constructed. -/
theorem agrees_book : ∃ w h v s', Construction.ofRaw books 2 rawBook [] = .ok (w, h) ∧
    Session.outcome (load 2 rawBook) { Session.initial with catalog := books, heap := h } =
      (.ok v, s') ∧ Method.equal books s'.heap v w = .ok true := by
  have free : books.EagerFree 2 := Catalog.eagerFree_of_classes (by decide) 2
  have part : ∀ raw, (∃ es, raw = .dict es ∧ Entries.getStr es "author" = .null ∧
      Entries.getStr es "parts" = .null) → books.Shaped (.entity 2) raw := by
    rintro raw ⟨es, rfl, author, parts⟩
    refine .entity rfl fun f hf => ?_
    rcases hf with _ | ⟨_, _ | ⟨_, _ | ⟨_, hf⟩⟩⟩
    · exact .plain rfl _
    · rw [author]
      exact .nothing _
    · rw [parts]
      exact .nothing _
    · cases hf
  have shaped : books.Shaped (.entity 2) rawBook := by
    refine .entity rfl fun f hf => ?_
    rcases hf with _ | ⟨_, _ | ⟨_, _ | ⟨_, hf⟩⟩⟩
    · exact .plain rfl _
    · refine .embedded rfl fun cls hcls => ?_
      cases hcls
      refine .entity rfl fun f hf => ?_
      rcases hf with _ | ⟨_, _ | ⟨_, hf⟩⟩
      · exact .plain rfl _
      · exact .plain rfl _
      · cases hf
    · refine .dictionary rfl fun p hp => ?_
      rcases List.mem_singleton.1 hp with rfl
      refine .array rfl fun x hx => ?_
      rcases hx with _ | ⟨_, _ | ⟨_, hx⟩⟩
      · exact .embedded rfl fun cls hcls => by
          cases hcls
          exact part _ ⟨_, rfl, rfl, rfl⟩
      · exact .nothing _
      · cases hx
    · cases hf
  obtain ⟨agrees, -⟩ := (agrees_with_construction wellFormed_books).2.2 2 rawBook free shaped
    { Session.initial with catalog := books } rfl
  have made : ∃ w h, Construction.ofRaw books 2 rawBook [] = .ok (w, h) := ⟨_, _, rfl⟩
  obtain ⟨w, h, hw⟩ := made
  obtain ⟨v, s', hv, -, -, equal⟩ := agrees.made w h hw
  exact ⟨w, h, v, s', hw, hv, equal (.inl (Value.isData_of_isPlain rawBook (by decide)))⟩

end Loading

end EntitySchema
