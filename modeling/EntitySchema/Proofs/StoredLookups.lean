/-
**Loading from what a store keeps.**

A class *draws on* a store if it and every class that can be reached from it use the store, and none
of them has a lookup of its own.  Under an identifier a class then finds what the store keeps under
its kind and the text of the identifier.  These are the look-ups by which loading does what its tree
says, if no record and no raw value leads to an object.

Nothing is opened for a loading that draws on a store, so loading enters just as many entities as
its bound says.

Main definitions:

* `Catalog.lookIn` — what stands under the identifiers of classes, among the records of a store;
* `Session.DrawsOn` — **a class that draws on a store**;
* `Catalog.DrawnInert` — a raw value that leads to no object, for what is drawn on a store.

Main results:

* `Session.DrawsOn.follows` — a class goes on to draw on its store while entities are made;
* `Loading.refines_findWith` — finding does what is said, if loading does;
* `Loading.outcome_load_of_draws` — nothing is opened beforehand;
* `Loading.refines_load_of_draws`, `Loading.refines_find_of_draws` — **loading and finding do what
  their trees say**, with the bound that they have.
-/

import EntitySchema.Proofs.Finding
import EntitySchema.Proofs.LoadingTrees

set_option autoImplicit false

namespace EntitySchema

/-! ### Identifiers of inert payloads -/

namespace Checker

/-- The identifier in an inert payload is inert. -/
theorem inert_identifierIn {raw : Value} (hraw : raw.Inert) : (identifierIn raw).Inert := by
  unfold identifierIn
  cases hes : raw.entries? with
  | none => exact Value.inert_null
  | some es => exact Value.inert_getStr (hraw.entries hes) idField

/-- What is no mapping has no identifier, if it is inert. -/
theorem attribute?_id_of_inert (s : Session) {raw : Value} (hraw : raw.Inert)
    (hes : raw.entries? = none) : Heap.attribute? s.catalog s.heap 0 raw idField = none := by
  cases raw with
  | object a => exact absurd rfl (hraw.ne_object a)
  | function a => exact absurd (.function a) (hraw a)
  | dict es => cases hes
  | ordered es => cases hes
  | cls c => cases c <;> rfl
  | method o name => cases o <;> rfl
  | _ => rfl

/-- The identifier that an inert payload carries is the one in it, whatever the session. -/
theorem payloadId_of_inert (s : Session) {raw : Value} (hraw : raw.Inert) :
    payloadId s raw = identifierIn raw := by
  unfold payloadId identifierIn
  cases hes : raw.entries? with
  | some es => rfl
  | none =>
    dsimp only
    rw [attribute?_id_of_inert s hraw hes]
    rfl

/-- What counts as false carries no identifier. -/
theorem isNull_identifierIn_of_falsy {raw : Value} (h : raw.truthy = false) :
    (identifierIn raw).isNull = true := by
  cases raw with
  | dict es =>
    cases es with
    | nil => rfl
    | cons e es => cases h
  | ordered es =>
    cases es with
    | nil => rfl
    | cons e es => cases h
  | _ => rfl

variable {g : Catalog} {s : Session} {raw : Value}

/-- An eager reference looks up the identifier that is in an inert payload, if there is one. -/
theorem outcome_fetchWith (hs : s.catalog = g) (hraw : raw.Inert)
    (seek : ClassId → Value → Action Value) (t : Target) :
    Session.outcome (fetchWith seek t raw) s = Session.outcome (
      if (identifierIn raw).isNull then pure .null else
        (Session.ofExcept (g.resolve t) >>= fun cls => seek cls (identifierIn raw))) s := by
  rw [fetchWith]
  cases ht : raw.truthy with
  | false => rw [if_neg Bool.false_ne_true, if_pos (isNull_identifierIn_of_falsy ht)]
  | true =>
    rw [if_pos rfl, Session.outcome_get_bind, payloadId_of_inert s hraw, hs]
    dsimp only
    rw [Method.write_of_inert _ _ (inert_identifierIn hraw)]
    split
    · rfl
    · cases g.resolve t <;> rfl

/-- An embedded reference enters a payload that is no object, if it is there. -/
theorem outcome_enterWith (hs : s.catalog = g) (hraw : ∀ a, raw ≠ .object a)
    (enter : ClassId → Value → Action Value) (t : Target) :
    Session.outcome (enterWith enter t raw) s = Session.outcome (
      if raw.isNull then pure .null else
        (Session.ofExcept (g.resolve t) >>= fun cls => enter cls raw)) s := by
  rw [enterWith]
  split
  · rfl
  · rw [Session.outcome_get_bind, hs]
    cases raw with
    | object a => exact absurd rfl (hraw a)
    | _ => rfl

/-- An object is taken as it is if it is an instance of the class, and else entered. -/
theorem outcome_enterWith_object (hs : s.catalog = g) (enter : ClassId → Value → Action Value)
    (t : Target) (a : Address) : Session.outcome (enterWith enter t (.object a)) s = Session.outcome
      (Session.ofExcept (g.resolve t) >>= fun cls =>
        if Heap.isInstance g s.heap a cls then pure (.object a) else enter cls (.object a)) s := by
  rw [enterWith, if_neg (by simp [Value.isNull]), Session.outcome_get_bind, hs]

end Checker

/-! ### What stands in a store -/

/-- What stands under the identifiers of classes, if a store keeps these records: the data of the
record under the kind of the class and the text of the identifier. -/
def Catalog.lookIn (g : Catalog) (rs : List Record) : Lookups := fun cls id =>
  MemoryStore.get? rs ⟨.text (g.kindOf cls), id.toText⟩

/-- What stands under an identifier is a record that is kept. -/
theorem Catalog.exists_of_lookIn {g : Catalog} {rs : List Record} {cls : ClassId} {id : Value}
    {es : Entries} (h : g.lookIn rs cls id = some es) :
    ∃ r ∈ rs, r.data = es ∧ r.key = ⟨.text (g.kindOf cls), id.toText⟩ := by
  obtain ⟨r, hr, rfl⟩ := Option.map_eq_some_iff.1 h
  exact ⟨r, List.mem_of_find?_eq_some hr, rfl, by simpa using List.find?_some hr⟩

namespace Session

/-- A class draws on a store: the store keeps these records, and each class that can be reached from
the class uses the store and has no lookup of its own. -/
structure DrawsOn (s : Session) (cls : ClassId) (i : StoreId) (rs : List Record) : Prop where
  keeps : s.Keeps i rs
  uses : ∀ d, Relation.ReflTransGen s.catalog.Embeds cls d → s.Uses i d
  own : ∀ d, Relation.ReflTransGen s.catalog.Embeds cls d → s.catalog.lookupOf? d = none

variable {s s' : Session} {cls : ClassId} {i : StoreId} {rs : List Record}

/-- A class that a class embeds draws on the store that the class draws on. -/
theorem DrawsOn.of_embeds (h : s.DrawsOn cls i rs) {d : ClassId} (step : s.catalog.Embeds cls d) :
    s.DrawsOn d i rs :=
  ⟨h.keeps, fun c hc => h.uses c (.head step hc), fun c hc => h.own c (.head step hc)⟩

/-- A class goes on to draw on its store while time passes and entities are made. -/
theorem DrawsOn.follows (h : s.DrawsOn cls i rs) (follows : s.Follows s') :
    s'.DrawsOn cls i rs := by
  have on := follows.grows.on follows.now
  refine ⟨h.keeps.of_stores follows.grows.stores follows.grows.disk on.awaited, ?_, ?_⟩
  · rw [on.catalog]
    exact fun d hd => (h.uses d hd).later on
  · rw [on.catalog]
    exact h.own

/-- While it is found out whether the shared store is asked for, a class draws on its store if every
class that can be reached is assigned it. -/
theorem DrawsOn.survey (h : s.DrawsOn cls i rs)
    (assigned : ∀ d, Relation.ReflTransGen s.catalog.Embeds cls d →
      s.catalog.assignedStore? d = some i) :
    DrawsOn { s with survey := some [] } cls i rs :=
  ⟨h.keeps.of_stores rfl rfl fun ha => ha, fun d hd => .assigned (assigned d hd), h.own⟩

end Session

/-! ### Inert raw values -/

/-- A raw value leads to no object, and the classes of what it is for can be reached from
a class. -/
def Catalog.DrawnInert (g : Catalog) (cls : ClassId) : Subject → Value → Prop
  | .entity d, raw => raw.Inert ∧ Relation.ReflTransGen g.Embeds cls d
  | .decoded c, raw => raw.Inert ∧ ∀ t d, c.target? = some t → g.resolve t = .ok d →
      Relation.ReflTransGen g.Embeds cls d

/-- Raw values that lead to no object are tame, if no record does. -/
theorem Catalog.tame_drawnInert (g : Catalog) {rs : List Record} (cls : ClassId)
    (inert : ∀ r ∈ rs, (Value.dict r.data).Inert) : g.Tame (g.lookIn rs) (g.DrawnInert cls) where
  data h heap := Construction.entriesOf_of_inert h.1 heap []
  field h hdata f hf :=
    ⟨Value.inert_getStr (Construction.inert_of_entriesOf h.1 hdata) f.1,
      fun t _ ht hr => h.2.tail ⟨f, hf, t, ht, hr⟩⟩
  items _ h hxs x hx := ⟨Checker.inert_of_itemsOf h.1 hxs x hx, h.2⟩
  mapping _ h heap := Checker.entriesOf_of_inert h.1 heap []
  values _ h hes p hp :=
    ⟨(Value.inert_dict_iff.1 (Checker.inert_of_entriesOf h.1 hes) p hp).2, h.2⟩
  payload h _ := h.1.ne_object
  embedded h _ _ hcls := ⟨h.1, h.2 _ _ rfl hcls⟩
  identifier h _ s := Checker.payloadId_of_inert s h.1
  written h _ g heap := ⟨_, Method.write_of_inert g heap (Checker.inert_identifierIn h.1)⟩
  found h _ hcls hes := by
    obtain ⟨r, hr, rfl, -⟩ := exists_of_lookIn hes
    exact ⟨inert r hr, h.2 _ _ rfl hcls⟩

/-! ### Loading -/

namespace Loading

variable {g : Catalog} {cls : ClassId} {i : StoreId} {rs : List Record}

/-- Finding does what is said of the records of a store, if loading does. -/
theorem refines_findWith (inert : ∀ r ∈ rs, (Value.dict r.data).Inert)
    {load : ClassId → Value → Action Value} {loadTo : ClassId → Value → Option Tree} {d : ClassId}
    (hd : Relation.ReflTransGen g.Embeds cls d)
    (hload : ∀ r ∈ rs, Session.Refines (fun s => s.catalog = g ∧ s.DrawsOn cls i rs)
      (load d (.dict r.data)) (Heap.Reads g) (loadTo d (.dict r.data)))
    {id : Value} (hid : id.Inert) :
    Session.Refines (fun s => s.catalog = g ∧ s.DrawsOn cls i rs) (findWith load d id)
      (Heap.Reads g) (Catalog.foundWith (g.lookIn rs) loadTo d id) := by
  rintro s ⟨rfl, draws⟩
  obtain ⟨rounds, found⟩ := findWith_eq load (draws.uses d hd) (draws.own d hd) draws.keeps inert
    (Method.toText_of_inert s.catalog s.heap hid)
  have follows : s.Follows { s with now := s.now.after rounds } :=
    (Session.Follows.refl s).at_now (Instant.precedes_after s.now rounds)
  rw [found, Catalog.foundWith, Catalog.lookIn]
  cases hget : MemoryStore.get? rs ⟨.text (s.catalog.kindOf d), id.toText⟩ with
  | none => exact ⟨follows, .inl ⟨.null, .leaf .null, rfl, rfl, .leaf .null⟩⟩
  | some es =>
    obtain ⟨r, hr, rfl⟩ := Option.map_eq_some_iff.1 hget
    obtain ⟨follows', told⟩ := hload r (List.mem_of_find?_eq_some hr)
      { s with now := s.now.after rounds } ⟨rfl, draws.follows follows⟩
    exact ⟨follows.trans follows', told⟩

/-- Loading with any bound does what its tree says. -/
theorem refines_loadWithin_of_draws (hg : g.WellFormed)
    (inert : ∀ r ∈ rs, (Value.dict r.data).Inert) (fuel : Nat) {d : ClassId}
    (hd : Relation.ReflTransGen g.Embeds cls d) {raw : Value} (hraw : raw.Inert) :
    Session.Refines (fun s => s.catalog = g ∧ s.DrawsOn cls i rs) (loadWithin fuel d raw)
      (Heap.Reads g) (g.loaded (g.lookIn rs) fuel d raw) := by
  have lasting : Session.Lasting fun s => s.catalog = g ∧ s.DrawsOn cls i rs :=
    fun s s' hs follows => ⟨follows.grows.catalog.trans hs.1, hs.2.follows follows⟩
  have tame := g.tame_drawnInert cls inert
  rw [loadWithin_eq_loadBy]
  refine refines_loadBy tame lasting (fun _ hs => hs.1) hg ?_ fuel d raw ⟨hraw, hd⟩
  -- what is found is loaded with the bound that is left
  intro fuel ih t e r raw c hkind he hc
  have hc' : Relation.ReflTransGen g.Embeds cls c := hkind.2 t c rfl hc
  refine refines_findWith inert hc' ?_ (Checker.inert_identifierIn hkind.1)
  intro r hr
  rw [loadWithin_eq_loadBy]
  exact ih c (.dict r.data) ⟨inert r hr, hc'⟩

/-- Nothing is opened beforehand for a loading that draws on a store. -/
theorem outcome_arrange_of_draws {α : Type} {s : Session} (draws : s.DrawsOn cls i rs)
    (a : Action α) (quiet : Session.DrawsOn { s with survey := some [] } cls i rs →
      (Session.outcome a { s with survey := some [] }).2.survey = some []) :
    Session.outcome (Session.arrange a) s = Session.outcome a s := by
  by_cases assigned : ∀ d, Relation.ReflTransGen s.catalog.Embeds cls d →
      s.catalog.assignedStore? d = some i
  · exact Session.outcome_arrange_of_quiet a (quiet (draws.survey assigned))
  · -- a class that is not assigned the store uses it as the shared one
    obtain ⟨d, hd⟩ := Classical.not_forall.1 assigned
    obtain ⟨hd, unassigned⟩ := Classical.not_imp.1 hd
    exact (draws.uses d hd).outcome_arrange a fun hc => absurd hc unassigned

/-- The same of a loading with the bound that it has. -/
theorem outcome_load_of_draws (hg : g.WellFormed) (inert : ∀ r ∈ rs, (Value.dict r.data).Inert)
    {raw : Value} (hraw : raw.Inert) {s : Session} (catalog : s.catalog = g)
    (draws : s.DrawsOn cls i rs) :
    Session.outcome (load cls raw) s =
      Session.outcome (loadWithin (bound s .null + made s cls raw) cls raw) s := by
  rw [load, Session.outcome_get_bind]
  refine outcome_arrange_of_draws draws _ fun draws' => ?_
  exact (refines_loadWithin_of_draws hg inert _ .refl hraw { s with survey := some [] }
    ⟨catalog, draws'⟩).1.grows.survey

/-- **Loading does what its tree says**, with the bound that it has. -/
theorem refines_load_of_draws (hg : g.WellFormed) (inert : ∀ r ∈ rs, (Value.dict r.data).Inert)
    {raw : Value} (hraw : raw.Inert) {s : Session} (catalog : s.catalog = g)
    (draws : s.DrawsOn cls i rs) :
    s.Follows (Session.outcome (load cls raw) s).2 ∧
      Session.Told (Heap.Reads g ((Session.outcome (load cls raw) s).2.heap.above s.heap.length))
        (Session.outcome (load cls raw) s).1
        (g.loaded (g.lookIn rs) (bound s .null + made s cls raw) cls raw) := by
  rw [outcome_load_of_draws hg inert hraw catalog draws]
  exact refines_loadWithin_of_draws hg inert _ .refl hraw s ⟨catalog, draws⟩

/-- **Finding does what its tree says**, with the bound that it has. -/
theorem refines_find_of_draws (hg : g.WellFormed) (inert : ∀ r ∈ rs, (Value.dict r.data).Inert)
    {id : Value} (hid : id.Inert) {s : Session} (catalog : s.catalog = g)
    (draws : s.DrawsOn cls i rs) :
    s.Follows (Session.outcome (find cls id) s).2 ∧
      Session.Told (Heap.Reads g ((Session.outcome (find cls id) s).2.heap.above s.heap.length))
        (Session.outcome (find cls id) s).1
        (Catalog.foundWith (g.lookIn rs) (g.loaded (g.lookIn rs) (bound s .null)) cls id) := by
  have found : Session.Refines (fun s => s.catalog = g ∧ s.DrawsOn cls i rs)
      (findWith (loadWithin (bound s .null)) cls id) (Heap.Reads g)
      (Catalog.foundWith (g.lookIn rs) (g.loaded (g.lookIn rs) (bound s .null)) cls id) :=
    refines_findWith inert .refl
      (fun r hr => refines_loadWithin_of_draws hg inert _ .refl (inert r hr)) hid
  have quiet : Session.outcome (find cls id) s =
      Session.outcome (findWith (loadWithin (bound s .null)) cls id) s := by
    rw [find, Session.outcome_get_bind]
    exact outcome_arrange_of_draws draws _ fun draws' =>
      (found { s with survey := some [] } ⟨catalog, draws'⟩).1.grows.survey
  rw [quiet]
  exact found s ⟨catalog, draws⟩

end Loading

end EntitySchema
