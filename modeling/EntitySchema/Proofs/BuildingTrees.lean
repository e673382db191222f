/-
**What is constructed reads as its tree.**

Construction of tame raw values does just what the tree of the construction says: where there is a
tree it succeeds, and by the cells that it adds what it makes reads as the tree; where there is none
it fails.  So whether construction succeeds does not depend on the heap, and neither does what it
makes, apart from addresses.

Main definitions:

* `Build.Refines` — **a construction that does what is said without a heap**;
* `Construction.within` — construction of an entity with a bound.

Main results:

* `Build.Refines.mapM` — constructions one after the other;
* `Checker.refines_decodeWith` — decoding, for a given way to construct entities;
* `Construction.refines_ofRaw` — **construction does what its tree says.**
-/

import EntitySchema.Proofs.RawTree

set_option autoImplicit false

namespace EntitySchema

/-! ### Constructions that do what is said without a heap -/

/-- A construction does in every heap what is said without a heap: it has a result just where one is
told, and the result is related to it by the cells that were added. -/
def Build.Refines {β τ : Type} (b : Build β) (R : Heap → β → τ → Prop) (o : Option τ) : Prop :=
  ∀ h, (∃ x h' t, b h = .ok (x, h') ∧ o = some t ∧ h <+: h' ∧ R (h'.above h.length) x t) ∨
    ((∃ e, b h = .error e) ∧ o = none)

namespace Build.Refines

variable {β τ : Type} {b : Build β} {R : Heap → β → τ → Prop} {o : Option τ}

/-- What is told is made. -/
theorem exists_ok {t : τ} (hb : Refines b R (some t)) (h : Heap) :
    ∃ x h', b h = .ok (x, h') ∧ h <+: h' ∧ R (h'.above h.length) x t := by
  rcases hb h with ⟨x, h', t', hx, ht, hle, hR⟩ | ⟨-, ho⟩
  · cases ht
    exact ⟨x, h', hx, hle, hR⟩
  · cases ho

/-- Where nothing is told the construction fails. -/
theorem exists_error (hb : Refines b R none) (h : Heap) : ∃ e, b h = .error e := by
  rcases hb h with ⟨x, h', t', -, ht, -⟩ | ⟨he, -⟩
  · cases ht
  · exact he

/-- What is made is told. -/
theorem of_ok (hb : Refines b R o) {h h' : Heap} {x : β} (hx : b h = .ok (x, h')) :
    ∃ t, o = some t ∧ h <+: h' ∧ R (h'.above h.length) x t := by
  rcases hb h with ⟨x', h'', t, hx', ht, hle, hR⟩ | ⟨⟨e, he⟩, -⟩
  · cases hx.symm.trans hx'
    exact ⟨t, ht, hle, hR⟩
  · cases hx.symm.trans he

/-- Constructions one after the other. -/
theorem mapM {α : Type} {f : α → Build β} {o : α → Option τ}
    (mono : ∀ h h' x t, h.Within h' → R h x t → R h' x t) {xs : List α}
    (hf : ∀ x ∈ xs, Refines (f x) R (o x)) :
    Refines (xs.mapM f) (fun h ys ts => ys.length = ts.length ∧ ∀ p ∈ ys.zip ts, R h p.1 p.2)
      (xs.mapM o) := by
  induction xs with
  | nil => exact fun h => .inl ⟨[], h, [], rfl, rfl, List.prefix_rfl, rfl, fun _ hp => nomatch hp⟩
  | cons x xs ih =>
    obtain ⟨hx, hxs⟩ := List.forall_mem_cons.1 hf
    intro h
    rw [mapM_cons_apply, mapM_option_cons]
    rcases hx h with ⟨y, h₁, t, hy, ht, le₁, hR⟩ | ⟨⟨e, he⟩, ho⟩
    · rw [hy, ok_bind, ht, Option.bind_some]
      rcases ih hxs h₁ with ⟨ys, h₂, ts, hys, hts, le₂, size, hRs⟩ | ⟨⟨e, he⟩, ho⟩
      · refine .inl ⟨y :: ys, h₂, t :: ts, ?_, ?_, le₁.trans le₂, congrArg (· + 1) size, ?_⟩
        · rw [hys]
          rfl
        · rw [hts]
          rfl
        · rw [List.zip_cons_cons, List.forall_mem_cons]
          refine ⟨mono _ _ _ _ (Heap.above_within le_rfl le₂) hR, fun p hp => ?_⟩
          exact mono _ _ _ _ (Heap.above_within le₁.length_le List.prefix_rfl) (hRs p hp)
      · rw [he, ho]
        exact .inr ⟨⟨e, rfl⟩, rfl⟩
    · rw [he, ho]
      exact .inr ⟨⟨e, rfl⟩, rfl⟩

end Build.Refines

/-- Whatever objects are called, a raw value makes the same moment or none. -/
theorem toMoment_cases (objectName objectName' : Address → String) (raw : Value) :
    (∃ v, raw.toMoment objectName = .ok v ∧ raw.toMoment objectName' = .ok v) ∨
      (∃ e, raw.toMoment objectName = .error e) ∧ ∃ e, raw.toMoment objectName' = .error e := by
  cases raw with
  | int n =>
    simp only [Value.toMoment]
    split
    · exact .inl ⟨_, rfl, rfl⟩
    · exact .inr ⟨⟨_, rfl⟩, _, rfl⟩
  | float x =>
    simp only [Value.toMoment]
    split
    · exact .inl ⟨_, rfl, rfl⟩
    · exact .inr ⟨⟨_, rfl⟩, _, rfl⟩
  | str s =>
    simp only [Value.toMoment]
    split
    · exact .inl ⟨_, rfl, rfl⟩
    · exact .inr ⟨⟨_, rfl⟩, _, rfl⟩
  | null | date | moment | stamp => exact .inl ⟨_, rfl, rfl⟩
  | _ => exact .inr ⟨⟨_, rfl⟩, _, rfl⟩

/-! ### Decoding -/

section

variable {g : Catalog} {look : Lookups} {kind : Subject → Value → Prop}
  (tame : g.Tame look kind)

include tame

/-- **Decoding does what its tree says**, if the construction of entities does. -/
theorem Checker.refines_decodeWith {make : ClassId → Value → Build Value}
    {enter : ClassId → Value → Option Tree} (seek : ClassId → Value → Option Tree)
    (hmake : ∀ cls raw, kind (.entity cls) raw →
      (make cls raw).Refines (Heap.Reads g) (enter cls raw)) : (c : Checker) →
    c.deferred = false → c.decodes = true → (raw : Value) → kind (.decoded c) raw →
      (decodeWith g make c raw).Refines (Heap.Reads g) (treeWith g enter seek c raw)
  | .date r, _, _, raw, _ => by
    intro h
    rw [decodeWith_date, treeWith]
    rcases toMoment_cases (Heap.objectName g h) (fun _ => "") raw with
      ⟨v, hv, hv'⟩ | ⟨⟨e, he⟩, e', he'⟩
    · rw [hv, hv']
      exact .inl ⟨v, h, _, rfl, rfl, List.prefix_rfl, .leaf v⟩
    · rw [he, he']
      exact .inr ⟨⟨e, rfl⟩, rfl⟩
  | .reference t e r, hd, _, raw, hraw => by
    intro h
    have lazy : e.truthy = false := hd
    cases hn : raw.isNull with
    | true =>
      cases raw <;> simp [Value.isNull] at hn
      rw [treeWith, lazy]
      exact .inl ⟨.null, h, _, rfl, rfl, List.prefix_rfl, .leaf _⟩
    | false =>
      rw [decodeWith_reference t e r hn (tame.payload hraw lazy), treeWith, lazy,
        if_neg Bool.false_ne_true, enterTree, if_neg (by simp [hn])]
      cases hcls : g.resolve t with
      | error f => exact .inr ⟨⟨f, rfl⟩, rfl⟩
      | ok cls => exact hmake cls raw (tame.embedded hraw lazy hn hcls) h
  | .arrayOf e r, hd, hdec, raw, hraw => by
    intro h
    have hp : e.producesEntity = true := hdec
    rw [decodeWith_arrayOf, treeWith_arrayOf]
    cases hitems : itemsOf raw with
    | error f => exact .inr ⟨⟨f, rfl⟩, rfl⟩
    | ok items =>
      have parts := Build.Refines.mapM (fun _ _ _ _ hle hr => hr.mono hle) fun x hx =>
        refines_decodeWith seek hmake e hd (decodes_of_producesEntity hp) x
          (tame.items hp hraw hitems x hx)
      rw [ok_bind, Except.toOption, Option.bind_some]
      -- item by item both go on alike, or there is an item at which both fail
      rcases parts h with ⟨vs, h', ts, hvs, hts, hle, size, reads⟩ | ⟨⟨f, hf⟩, ho⟩
      · rw [hvs, hts]
        exact .inl ⟨_, h', _, rfl, rfl, hle, .array size reads⟩
      · rw [hf, ho]
        exact .inr ⟨⟨f, rfl⟩, rfl⟩
  | .dictOf e r, hd, hdec, raw, hraw => by
    intro h
    have hp : e.producesEntity = true := hdec
    rw [decodeWith_dictOf, treeWith_dictOf, tame.mapping hp hraw h]
    cases hes : entriesOf [] raw with
    | error f => exact .inr ⟨⟨f, rfl⟩, rfl⟩
    | ok es =>
      have values : ∀ x ∈ es.map Prod.snd, kind (.decoded e) x := by
        intro x hx
        obtain ⟨q, hq, rfl⟩ := List.mem_map.1 hx
        exact tame.values hp hraw hes q hq
      have parts := Build.Refines.mapM (fun _ _ _ _ hle hr => hr.mono hle) fun x hx =>
        refines_decodeWith seek hmake e hd (decodes_of_producesEntity hp) x (values x hx)
      rw [ok_bind, Except.toOption, Option.bind_some]
      rcases parts h with ⟨vs, h', ts, hvs, hts, hle, size, reads⟩ | ⟨⟨f, hf⟩, ho⟩
      · rw [hvs, hts]
        have keys : (es.map Prod.fst).length = vs.length := by
          have told := (mapM_eq_some_iff.1 hts).1
          simp only [List.length_map] at told ⊢
          exact told.trans size.symm
        exact .inl ⟨_, h', _, rfl, rfl, hle, .dictionary_zip keys size reads⟩
      · rw [hf, ho]
        exact .inr ⟨⟨f, rfl⟩, rfl⟩

end

/-! ### Entities -/

namespace Construction

/-- Construction of an entity from a raw value, with at most `fuel` entities one inside
the other. -/
def within (g : Catalog) (fuel : Nat) (cls : ClassId) (raw : Value) : Build Value := do
  ofEntries g fuel cls (← entriesOf (← get) raw)

variable {g : Catalog}

theorem within_apply (fuel : Nat) (cls : ClassId) (raw : Value) (h : Heap) :
    within g fuel cls raw h = entriesOf h raw >>= fun es => ofEntries g fuel cls es h := by
  rw [within, Build.get_bind_apply, Build.lift_bind_apply]

/-- The bound does not matter where it is high enough. -/
theorem within_eq_ofRaw {fuel : Nat} {raw : Value} (hfuel : raw.depth ≤ fuel) (cls : ClassId) :
    within g fuel cls raw = ofRaw g cls raw := by
  funext h
  rw [within_apply, ofRaw, Build.get_bind_apply, Build.lift_bind_apply]
  cases hes : entriesOf h raw with
  | error e => rfl
  | ok es =>
    have deep := depth_of_entriesOf hes
    rw [ok_bind, ok_bind, ofEntries_congr _ cls es le_rfl fuel (Value.depthEntries es + 1)
      (by omega) (by omega)]

section

variable {look : Lookups} {kind : Subject → Value → Prop}
  (tame : g.Tame look kind)

include tame

/-- The value that a field starts with reads as the tree of the field. -/
theorem refines_initialValue {make : ClassId → Value → Build Value}
    {enter : ClassId → Value → Option Tree}
    (hmake : ∀ cls raw, kind (.entity cls) raw →
      (make cls raw).Refines (Heap.Reads g) (enter cls raw)) {data : Entries}
    {f : String × Checker} (hf : kind (.decoded f.2) (Entries.getStr data f.1)) :
    (initialValue (Checker.decodeWith g make) f.2 (Entries.getStr data f.1)).Refines
      (Heap.Reads g) (g.builtField enter data f) := by
  unfold initialValue Catalog.builtField
  by_cases hd : f.2.deferred = true
  · rw [if_pos hd, if_pos hd]
    exact fun h => .inl ⟨.null, h, _, rfl, rfl, List.prefix_rfl, .leaf _⟩
  · rw [if_neg hd, if_neg hd]
    by_cases hdec : f.2.decodes = true
    · rw [if_pos hdec, if_pos hdec]
      exact Checker.refines_decodeWith tame _ hmake f.2 (Bool.eq_false_of_not_eq_true hd) hdec _ hf
    · rw [if_neg hdec, if_neg hdec]
      exact fun h => .inl ⟨_, h, _, rfl, rfl, List.prefix_rfl, .leaf _⟩

/-- An entity is constructed as its tree says, with a bound. -/
theorem refines_within (hg : g.WellFormed) : ∀ (fuel : Nat) (cls : ClassId) (raw : Value),
    kind (.entity cls) raw → (within g fuel cls raw).Refines (Heap.Reads g) (g.built fuel cls raw)
  | 0, cls, raw, _ => by
    intro h
    rw [within_apply]
    cases entriesOf h raw with
    | error e => exact .inr ⟨⟨e, rfl⟩, rfl⟩
    | ok es => exact .inr ⟨⟨.endless, rfl⟩, rfl⟩
  | fuel + 1, cls, raw, hraw => by
    intro h
    rw [within_apply, tame.data hraw h, Catalog.built]
    cases hdata : entriesOf [] raw with
    | error e => exact .inr ⟨⟨e, rfl⟩, rfl⟩
    | ok data =>
      have fields := fun (f : String × Checker) (hf : f ∈ g.schemaOf cls) =>
        refines_initialValue tame (refines_within hg fuel) (tame.field hraw hdata f hf)
      rw [ok_bind, ofEntries, Build.bind_apply, Except.toOption]
      cases htrees : fieldTrees (g.builtField (g.built fuel) data) (g.schemaOf cls) with
      | none =>
        -- fields are made only where there is a tree for each
        obtain ⟨f, hf, none⟩ := exists_of_fieldTrees_eq_none htrees
        cases hfrom : fieldsFrom (Checker.decodeWith g (within g fuel)) data (g.schemaOf cls) h with
        | error e =>
          refine .inr ⟨⟨e, ?_⟩, ?_⟩
          · exact congrArg (· >>= _) hfrom
          · rw [Option.bind_eq_bind, Option.bind_some, htrees]
            rfl
        | ok p =>
          obtain ⟨h₀, v, h₁, hv⟩ := exists_of_fieldsFrom hfrom hf
          obtain ⟨t, ht, -⟩ := (fields f hf).of_ok hv
          cases none.symm.trans ht
      | some trees =>
        have each := eq_of_fieldTrees (hg.nodup cls) htrees
        obtain ⟨v, h₁, hfrom, hle, reads⟩ := fieldsFrom_of_forall
          (R := fun h' f x => Heap.Reads g (h'.above h.length) x (trees f.1))
          (fun _ _ _ _ hle hr => hr.mono (Heap.above_within le_rfl hle)) Heap.keeps_size
            (hg.nodup cls)
          (fun f hf h₀ hsize => by
            have told := fields f hf
            rw [each f hf] at told
            obtain ⟨x, h', hx, hle, hR⟩ := told.exists_ok h₀
            exact ⟨x, h', hx, hle, hR.mono (Heap.above_within hsize List.prefix_rfl)⟩) h le_rfl
        generalize hcell : Cell.ofFields cls (Entries.getStr data idField)
          (asideEntries data (g.schemaOf cls)) (Table.names (g.schemaOf cls)) v = cell
        refine .inl ⟨.object h₁.length, h₁ ++ [cell], .entity cls (Entries.getStr data idField)
          (asideEntries data (g.schemaOf cls)) trees, ?_, ?_,
          hle.trans (List.prefix_append h₁ _), ?_⟩
        · rw [← hcell]
          exact congrArg (· >>= _) hfrom
        · rw [Option.bind_eq_bind, Option.bind_some, htrees]
          rfl
        · refine .entity (v := v) ?_ ?_
          · rw [Heap.above, Heap.get_only, if_pos (by simpa using hle.length_le), hcell]
            exact Heap.get_alloc_self h₁ _
          · intro name hname
            obtain ⟨f, hf, rfl⟩ := List.mem_map.1 hname
            exact (reads f hf).mono (Heap.above_within le_rfl (List.prefix_append h₁ _))

/-- **Construction does what its tree says**, if the bound of the tree is no lower than the raw
value is deep. -/
theorem refines_ofRaw (hg : g.WellFormed) {fuel : Nat} {cls : ClassId} {raw : Value}
    (hfuel : raw.depth ≤ fuel) (hraw : kind (.entity cls) raw) :
    (ofRaw g cls raw).Refines (Heap.Reads g) (g.built fuel cls raw) := by
  rw [← within_eq_ofRaw hfuel]
  exact refines_within tame hg fuel cls raw hraw

/-- The same of what a checker that is not deferred decodes. -/
theorem refines_decode (hg : g.WellFormed) {fuel : Nat} {c : Checker} (hd : c.deferred = false)
    (hdec : c.decodes = true) {raw : Value} (hfuel : raw.depth ≤ fuel)
    (hraw : kind (.decoded c) raw) :
    (decode g c raw).Refines (Heap.Reads g) (g.builtFor fuel (.decoded c) raw) := by
  have same : decode g c raw = Checker.decodeWith g (within g fuel) c raw := by
    refine Checker.decodeWith_congr c raw fun _ cls x _ hx => ?_
    exact (within_eq_ofRaw (hx.trans hfuel) cls).symm
  rw [same]
  exact Checker.refines_decodeWith tame _ (refines_within tame hg fuel) c hd hdec raw hraw

end

end Construction

end EntitySchema
