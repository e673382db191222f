/-
**Values that are in order.**

A value is *orderly* if all that it holds is there, no entity in it contains itself and none has
anything of its own in place of what its class gives it.  While entities are being loaded, some
objects are still under way; what is in order then holds none of these, so it stays in order
whatever becomes of them.  Construction keeps to orderly values: it makes entities that hold what
was there before, and gives them nothing under a name that is reserved.

Main definitions:

* `Heap.Orderly` — **a value that is in order**, apart from the objects that are under way.

Main results:

* `Heap.Orderly.move` — a value stays in order as long as the cells that it holds stay what they
  are;
* `Heap.orderly_of_cell` — an entity that holds orderly values is orderly;
* `Heap.kinds_orderly` — **construction keeps to orderly values.**
-/

import EntitySchema.Proofs.Assigning
import EntitySchema.Proofs.Termination

set_option autoImplicit false

namespace EntitySchema

namespace Heap

variable {g : Catalog} {h h' : Heap} {v w : Value} {a : Address}

/-- What an object holds is the object, or held by one of its attributes. -/
theorem Holds.eq_or_exists {b : Address} (hb : h.Holds (.object a) b) :
    b = a ∨ ∃ p ∈ (get h a).attributes, h.Holds p.2 b := by
  induction hb with
  | direct hl =>
    cases hl
    exact .inl rfl
  | through _ hq hl ih =>
    rcases ih with rfl | ⟨p, hp, held⟩
    · exact .inr ⟨_, hq, .direct hl⟩
    · exact .inr ⟨p, hp, .through held hq hl⟩

/-- What leads only to what a genuine value holds is genuine. -/
theorem Genuine.of_leads (genuine : ∀ a, w.LeadsTo a → h.Genuine (.object a)) : h.Genuine w := by
  intro b hb
  obtain ⟨a, ha, held⟩ := hb.exists_leads
  exact genuine a ha b held

/-- An entity as it is constructed is genuine if what its attributes hold is. -/
theorem Genuine.of_cell (hg : g.WellFormed) {cls : ClassId} {id : Value} {pending : Entries}
    {v : String → Value}
    (hc : get h a = Cell.ofFields cls id pending (Table.names (g.schemaOf cls)) v)
    (parts : ∀ p ∈ (get h a).attributes, h.Genuine p.2) : h.Genuine (.object a) := by
  intro b hb entity name hname
  rcases hb.eq_or_exists with rfl | ⟨p, hp, held⟩
  · refine own?_of_reserved hg hc ?_ ?_ ?_ <;>
      · revert name
        decide
  · exact parts p hp b held entity name hname

/-! ### Cells that stay what they are -/

/-- What an object contains where the cells that it holds are the same. -/
theorem Agrees.contains {b : Address} (agrees : Agrees h h' (.object a))
    (hab : Contains g h' a b) : Contains g h a b := by
  obtain ⟨rs, hrs, name, r, hr, hb⟩ := hab
  rw [rules_of_agrees agrees] at hrs
  rw [field_of_get agrees.get] at hb
  have there : Agrees h h' (field g h a name) := agrees.of_leads fun c hc =>
    holds_of_field (.direct hc) (.direct (.object a))
  exact ⟨rs, hrs, name, r, hr, there.holds hb⟩

theorem SelfFree.of_agrees (agrees : Agrees h h' v) (free : SelfFree g h v) : SelfFree g h' v :=
  fun b hb hbb => free b (agrees.holds hb) ((agrees.object (agrees.holds hb)).contains hbb)

theorem Genuine.of_agrees (agrees : Agrees h h' v) (genuine : h.Genuine v) : h'.Genuine v := by
  intro b hb entity
  have held := agrees.holds hb
  rw [isEntity_of_get (agrees b held)] at entity
  rw [agrees b held]
  exact genuine b held entity

/-! ### What is orderly -/

/-- A value that is in order: the objects that it holds are there, none of them is under way and
none contains itself, and the entities among them have their methods and their schema from their
classes. -/
structure Orderly (g : Catalog) (underway : Address → Prop) (h : Heap) (v : Value) : Prop where
  there : ∀ a, h.Holds v a → a < h.length ∧ ¬ underway a
  free : SelfFree g h v
  genuine : h.Genuine v

variable {U U' : Address → Prop}

/-- **A value stays in order as long as the cells that it holds stay what they are**, and none of
them comes under way. -/
theorem Orderly.move (orderly : Orderly g U h v) (agrees : Agrees h h' v)
    (size : h.length ≤ h'.length) (begun : ∀ a < h.length, U' a → U a) : Orderly g U' h' v where
  there a ha := by
    obtain ⟨lt, apart⟩ := orderly.there a (agrees.holds ha)
    exact ⟨lt.trans_le size, fun hU => apart (begun a lt hU)⟩
  free := orderly.free.of_agrees agrees
  genuine := orderly.genuine.of_agrees agrees

/-- What is in order stays so when the heap grows, and what was added may be under way. -/
theorem Orderly.grow (orderly : Orderly g U h v) (grown : h <+: h')
    (begun : ∀ a < h.length, U' a → U a) : Orderly g U' h' v :=
  orderly.move (fun a ha => get_of_extended grown (orderly.there a ha).1) grown.length_le begun

theorem Orderly.mono (orderly : Orderly g U h v) (grown : h <+: h') : Orderly g U h' v :=
  orderly.grow grown fun _ _ => id

/-- What was added may come under way. -/
theorem Orderly.enter (orderly : Orderly g U h v) (grown : h <+: h') (added : h.length ≤ a) :
    Orderly g (fun b => U b ∨ b = a) h' v :=
  orderly.grow grown fun _ lt hU => hU.resolve_right fun heq => (heq ▸ lt).not_ge added

/-- A value is orderly if the objects that it leads to are. -/
theorem orderly_of_leads (parts : ∀ a, v.LeadsTo a → Orderly g U h (.object a)) :
    Orderly g U h v where
  there b hb := by
    obtain ⟨a, ha, held⟩ := hb.exists_leads
    exact (parts a ha).there b held
  free := .of_leads fun a ha => (parts a ha).free
  genuine := .of_leads fun a ha => (parts a ha).genuine

theorem Orderly.object (orderly : Orderly g U h v) (ha : v.LeadsTo a) :
    Orderly g U h (.object a) where
  there b hb := orderly.there b ((Holds.direct ha).trans hb)
  free := orderly.free.object (.direct ha)
  genuine := orderly.genuine.object (.direct ha)

theorem Orderly.of_leads (orderly : Orderly g U h v) (hw : ∀ a, w.LeadsTo a → v.LeadsTo a) :
    Orderly g U h w :=
  orderly_of_leads fun a ha => orderly.object (hw a ha)

theorem orderly_of_inert (hv : v.Inert) : Orderly g U h v :=
  orderly_of_leads fun a ha => absurd ha (hv a)

theorem orderly_list {xs : List Value} (parts : ∀ x ∈ xs, Orderly g U h x) :
    Orderly g U h (.list xs) :=
  orderly_of_leads fun a ha => by
    cases ha with
    | list hx ha => exact (parts _ hx).object ha

theorem orderly_dict {es : Entries} (parts : ∀ e ∈ es, Orderly g U h e.1 ∧ Orderly g U h e.2) :
    Orderly g U h (.dict es) :=
  orderly_of_leads fun a ha => by
    cases ha with
    | dictKey he ha => exact (parts _ he).1.object ha
    | dict he ha => exact (parts _ he).2.object ha

/-- The items of an orderly value are orderly. -/
theorem Orderly.items (orderly : Orderly g U h v) {xs : List Value} (hxs : v.items? = some xs)
    {x : Value} (hx : x ∈ xs) : Orderly g U h x :=
  orderly.of_leads fun _ ha => Value.leadsTo_of_items hxs hx ha

/-- The dictionary that an orderly value makes has orderly keys and values. -/
theorem Orderly.toEntries (orderly : Orderly g U h v) {isEntity : Address → Bool} {es : Entries}
    (hes : v.toEntries isEntity = .ok es) :
    ∀ e ∈ es, Orderly g U h e.1 ∧ Orderly g U h e.2 := by
  refine Value.forall_mem_toEntries hes (fun hm e he => ?_) fun xs hxs x hx k w two => ?_
  · have parts := Value.leadsTo_of_entries hm he
    exact ⟨orderly.of_leads parts.1, orderly.of_leads parts.2⟩
  · have part : ∀ y ∈ [k, w], Orderly g U h y := fun y hy => (orderly.items hxs hx).items two hy
    exact ⟨part k (by simp), part w (by simp)⟩

/-- **An entity as it is constructed is orderly if what its attributes hold is**, whether or not the
entity itself was under way for these. -/
theorem orderly_of_cell (hg : g.WellFormed) {cls : ClassId} {id : Value} {pending : Entries}
    {v : String → Value}
    (hc : get h a = Cell.ofFields cls id pending (Table.names (g.schemaOf cls)) v)
    (there : a < h.length) (apart : ¬ U a)
    (parts : ∀ p ∈ (get h a).attributes, Orderly g (fun b => U b ∨ b = a) h p.2) :
    Orderly g U h (.object a) := by
  have part : ∀ p ∈ (get h a).attributes, Orderly g U h p.2 := fun p hp =>
    (parts p hp).grow List.prefix_rfl fun _ _ hU => .inl hU
  have named : ∀ p, p = (idField, id) ∨ p = (pendingField, .dict pending) ∨
      p ∈ (Table.names (g.schemaOf cls)).map (fun name => (name, v name)) →
        SelfFree g h p.2 := by
    intro p hp
    refine (part p ?_).free
    rw [hc]
    simpa [Cell.ofFields] using hp
  refine ⟨fun b hb => ?_, .of_cell hg hc (named _ (.inl rfl)) (named _ (.inr (.inl rfl)))
    fun name hname => ?_, .of_cell hg hc fun p hp => (part p hp).genuine⟩
  · rcases hb.eq_or_exists with rfl | ⟨p, hp, held⟩
    · exact ⟨there, apart⟩
    · exact (part p hp).there b held
  · exact named _ (.inr (.inr (List.mem_map_of_mem hname)))

/-! ### Construction -/

/-- What the attributes of an entity that is constructed hold is orderly, if it is constructed of
orderly values. -/
theorem orderly_ofFields {cls : ClassId} {id : Value} {pending : Entries} {names : List String}
    {v : String → Value} (hid : Orderly g U h id) (hpending : Orderly g U h (.dict pending))
    (hv : ∀ name ∈ names, Orderly g U h (v name)) :
    ∀ p ∈ (Cell.ofFields cls id pending names v).attributes, Orderly g U h p.2 := by
  intro p hp
  rcases List.mem_cons.1 hp with rfl | hp
  · exact hid
  · rcases List.mem_cons.1 hp with rfl | hp
    · exact hpending
    · obtain ⟨name, hname, rfl⟩ := List.mem_map.1 hp
      exact hv name hname

/-- What an entity holds when it has been constructed is orderly. -/
theorem orderly_started {cls : ClassId} {data : Entries} {v : String → Value}
    (values : ∀ e ∈ data, Orderly g U h e.2)
    (started : ∀ f ∈ g.schemaOf cls, Construction.Started (Orderly g U) h data f (v f.1)) :
    ∀ p ∈ (Cell.ofFields cls (Entries.getStr data idField)
      (Construction.asideEntries data (g.schemaOf cls))
        (Table.names (g.schemaOf cls)) v).attributes,
        Orderly g U h p.2 := by
  have under : ∀ name, Orderly g U h (Entries.getStr data name) :=
    Entries.getStr_of_forall (orderly_of_inert Value.inert_null) values
  refine orderly_ofFields (under idField) (orderly_dict fun e he => ?_) fun name hname => ?_
  · obtain ⟨q, hq, rfl⟩ := List.mem_map.1 he
    rw [(Construction.name_of_mem_putAside hq).2]
    exact ⟨orderly_of_inert (Value.inert_str _), under q.1⟩
  · obtain ⟨f, hf, rfl⟩ := List.mem_map.1 hname
    exact (started f hf).2.2

/-- **Construction keeps to orderly values**, in heaps in which all that is under way is there. -/
theorem kinds_orderly (hg : g.WellFormed) (U : Address → Prop) :
    Construction.Kinds g (fun h => ∀ a, U a → a < h.length) (Orderly g U) (fun _ => True)
      (Orderly g U) where
  monoRaw _ _ _ grown orderly := orderly.mono grown
  mono _ _ _ grown orderly := orderly.mono grown
  absent _ := orderly_of_inert Value.inert_null
  kept _ _ orderly := orderly
  moment _ m := orderly_of_inert (Value.inert_moment m)
  items _ _ _ orderly hxs _ hx := orderly.items hxs hx
  entries _ _ _ _ orderly hes := orderly.toEntries hes
  identifier _ _ _ _ _ _ := trivial
  noIdentifier := trivial
  list _ _ parts := orderly_list parts
  dict _ _ parts := orderly_dict parts
  cell h cls data v bounded values _ started := by
    have fresh : ¬ U h.length := fun hU => (bounded _ hU).false
    have cell : get (h ++ [Cell.ofFields cls (Entries.getStr data idField)
        (Construction.asideEntries data (g.schemaOf cls)) (Table.names (g.schemaOf cls)) v])
          h.length = _ := get_alloc_self h _
    refine ⟨fun a ha => ?_, orderly_of_cell hg cell (by simp) fresh ?_⟩
    · rw [List.length_append]
      exact (bounded a ha).trans_le (Nat.le_add_right _ _)
    · rw [cell]
      exact fun p hp => (orderly_started values started p hp).enter (List.prefix_append h _) le_rfl

end Heap

end EntitySchema
