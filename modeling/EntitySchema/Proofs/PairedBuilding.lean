/-
**Construction in two runs.**

From raw values that are alike two runs construct the same: each step succeeds in both or in
neither, and adds as many cells.  What is constructed of the same raw value is kept at once.
Otherwise the payloads that are put aside may differ, and so may those of embedded entities; but the
identifier of the entity and all its fields that do not produce entities are the same.  An entity
begun like this is filled later on.

Main definitions:

* `Pairing.Abreast` — **constructions that succeed together**;
* `Pairing.Shifted` — a value that both runs make, kept or not;
* `Pairing.Tells` — what is known of what is made of raw values, step by step;
* `Pairing.Begun` — **how far an entity has come in both runs.**

Main results:

* `Pairing.abreast_mapM` — constructions one after the other;
* `Checker.abreast_decodeWith` — decoding, for constructions of entities that go abreast;
* `Construction.abreast_ofRaw` — **construction from raw values that are alike.**
-/

import EntitySchema.Proofs.BuildingTrees
import EntitySchema.Proofs.RephrasedData

set_option autoImplicit false

namespace EntitySchema

namespace Pairing

/-! ### Constructions abreast -/

/-- In two heaps two constructions succeed together, with results that are related, and add as many
cells; or the first fails, and so does the second alike if failures are to be the same. -/
def Abreast {α α' : Type} (L : Pairing) (underway : Address → Prop)
    (R : Heap → Heap → α → α' → Prop) (b : Build α) (b' : Build α') (h h' : Heap) : Prop :=
  (∃ e, b h = .error e ∧ (L.strict → b' h' = .error e)) ∨
    ∃ x k x' k', b h = .ok (x, k) ∧ b' h' = .ok (x', k') ∧ h <+: k ∧ h' <+: k' ∧
      L.Fit underway k k' ∧ R k k' x x'

variable {L : Pairing} {U : Address → Prop} {h h' k k' : Heap}

section

variable {α β α' β' : Type} {R : Heap → Heap → α → α' → Prop} {S : Heap → Heap → β → β' → Prop}

theorem abreast_pure (fit : L.Fit U h h') {x : α} {x' : α'} (hR : R h h' x x') :
    L.Abreast U R (pure x) (pure x') h h' :=
  .inr ⟨x, h, x', h', rfl, rfl, List.prefix_rfl, List.prefix_rfl, fit, hR⟩

theorem Abreast.imp {R' : Heap → Heap → α → α' → Prop} {b : Build α} {b' : Build α'}
    (hb : L.Abreast U R b b' h h') (hR : ∀ k k' x x', R k k' x x' → R' k k' x x') :
    L.Abreast U R' b b' h h' := by
  refine hb.imp_right ?_
  rintro ⟨x, k, x', k', hx, hx', grown, grown', fit, hR'⟩
  exact ⟨x, k, x', k', hx, hx', grown, grown', fit, hR _ _ _ _ hR'⟩

theorem Abreast.bind {b : Build α} {b' : Build α'} {f : α → Build β} {f' : α' → Build β'}
    (hb : L.Abreast U R b b' h h')
    (hf : ∀ x x' k k', h <+: k → h' <+: k' → L.Fit U k k' → R k k' x x' →
      L.Abreast U S (f x) (f' x') k k') : L.Abreast U S (b >>= f) (b' >>= f') h h' := by
  unfold Abreast
  rw [Build.bind_apply, Build.bind_apply]
  rcases hb with ⟨e, he, he'⟩ | ⟨x, k, x', k', hx, hx', grown, grown', fit, hR⟩
  · rw [he]
    exact .inl ⟨e, rfl, fun strict => by rw [he' strict]; rfl⟩
  · rw [hx, hx', ok_bind, ok_bind]
    refine (hf x x' k k' grown grown' fit hR).imp_right ?_
    rintro ⟨y, l, y', l', hy, hy', more, more', rest⟩
    exact ⟨y, l, y', l', hy, hy', grown.trans more, grown'.trans more', rest⟩

/-- **Constructions one after the other** go abreast if each of them does in larger heaps. -/
theorem abreast_mapM {γ γ' : Type} {G : Heap → Heap → γ → γ' → Prop} {f : γ → Build α}
    {f' : γ' → Build α'}
    (monoG : ∀ h h' k k' x x', L.Fit U h h' → h <+: k → h' <+: k' → G h h' x x' → G k k' x x')
    (mono : ∀ h h' k k' x x', L.Fit U h h' → h <+: k → h' <+: k' → R h h' x x' → R k k' x x')
    (hf : ∀ x x' h h', L.Fit U h h' → G h h' x x' → L.Abreast U R (f x) (f' x') h h')
    {xs : List γ} {xs' : List γ'} {h h' : Heap} (fit : L.Fit U h h')
    (hx : List.Forall₂ (G h h') xs xs') :
    L.Abreast U (fun k k' => List.Forall₂ (R k k')) (xs.mapM f) (xs'.mapM f') h h' := by
  induction xs generalizing xs' h h' with
  | nil =>
    cases hx
    exact abreast_pure fit .nil
  | cons x xs ih =>
    cases hx with
    | @cons _ x' _ xs' here there =>
      rw [List.mapM_cons, List.mapM_cons]
      refine (hf x x' h h' fit here).bind fun y y' k k' grown grown' fit' hy => ?_
      have later : List.Forall₂ (G k k') xs xs' :=
        there.imp fun _ _ => monoG _ _ _ _ _ _ fit grown grown'
      refine (ih fit' later).bind fun ys ys' l l' more more' fit'' hys => ?_
      exact abreast_pure fit'' (.cons (mono _ _ _ _ _ _ fit' more more' hy) hys)

end

/-! ### What is made in both runs -/

/-- A value that is made in both runs: the second is the first where objects are in the second run
and, if that is asked for, its objects are kept. -/
structure Shifted (L : Pairing) (full : Prop) (underway : Address → Prop) (h h' : Heap)
    (v v' : Value) : Prop where
  value : v' = Heap.rename L.move v
  steady : full → L.Steady underway h h' v

theorem Moved.shifted {full : Prop} {v v' : Value} (moved : L.Moved U h h' v v') :
    L.Shifted full U h h' v v' :=
  ⟨moved.value, fun _ => moved.steady⟩

theorem Shifted.mono {full : Prop} {v v' : Value} (shifted : L.Shifted full U h h' v v')
    (fit : L.Fit U h h') (grown : h <+: k) (grown' : h' <+: k') : L.Shifted full U k k' v v' :=
  ⟨shifted.value, fun hf => (shifted.steady hf).mono fit grown grown'⟩

/-- Values that are made in both runs, one after the other. -/
theorem values_of_shifted {full : Prop} {vs vs' : List Value}
    (parts : List.Forall₂ (L.Shifted full U h h') vs vs') :
    vs' = vs.map (Heap.rename L.move) ∧ (full → ∀ v ∈ vs, L.Steady U h h' v) := by
  induction parts with
  | nil => exact ⟨rfl, fun _ => List.forall_mem_nil _⟩
  | cons hv _ ih =>
    obtain ⟨rfl, steady⟩ := ih
    exact ⟨by rw [List.map_cons, hv.value],
      fun hf => List.forall_mem_cons.2 ⟨hv.steady hf, steady hf⟩⟩

/-- What is made of raw values that are alike, one after the other. -/
theorem abreast_likes {full : Prop} {subject : Subject} {f f' : Value → Build Value}
    (hf : ∀ x x' h h', L.Fit U h h' → L.Like full U h h' subject x x' →
      L.Abreast U (L.Shifted full U) (f x) (f' x') h h')
    {xs xs' : List Value} (fit : L.Fit U h h')
    (likes : List.Forall₂ (L.Like full U h h' subject) xs xs') :
    L.Abreast U (fun k k' => List.Forall₂ (L.Shifted full U k k')) (xs.mapM f) (xs'.mapM f') h h' :=
  abreast_mapM (G := fun h h' => L.Like full U h h' subject)
    (fun _ _ _ _ _ _ fit grown grown' like => like.mono fit grown grown')
    (fun _ _ _ _ _ _ fit grown grown' made => made.mono fit grown grown') hf fit likes

theorem shifted_list {full : Prop} {vs vs' : List Value}
    (parts : List.Forall₂ (L.Shifted full U h h') vs vs') :
    L.Shifted full U h h' (.list vs) (.list vs') := by
  obtain ⟨rfl, steady⟩ := values_of_shifted parts
  exact ⟨by rw [Heap.rename, Heap.renameItems_eq_map], fun hf => steady_list (steady hf)⟩

/-- Values under the same keys. -/
theorem shifted_dict {full : Prop} {keys vs vs' : List Value}
    (known : ∀ key ∈ keys, L.Steady U h h' key)
    (parts : List.Forall₂ (L.Shifted full U h h') vs vs') :
    L.Shifted full U h h' (.dict (keys.zip vs))
      (.dict ((keys.map (Heap.rename L.move)).zip vs')) := by
  obtain ⟨rfl, steady⟩ := values_of_shifted parts
  refine ⟨?_, fun hf => steady_dict fun e he => ?_⟩
  · rw [Heap.rename, Heap.renameEntries_eq_map, List.zip_map]
    rfl
  · exact ⟨known _ (List.of_mem_zip he).1, steady hf _ (List.of_mem_zip he).2⟩

/-! ### What is known of what is made -/

/-- What is known of what is made of raw values is known step by step: it stays known as long as the
cells of what was made stay what they are; it is known of what is kept as it is, of moments and of
nothing; and of what is made of other things if it is known of these. -/
structure Tells (L : Pairing) : Prop where
  move : ∀ subject raw h k v, Heap.Agrees h k v → L.told subject raw h v → L.told subject raw k v
  kept : ∀ c raw h, c.producesEntity = false → c.decodes = false → L.told (.decoded c) raw h raw
  date : ∀ r raw h names v, raw.toMoment names = .ok v → L.told (.decoded (.date r)) raw h v
  absent : ∀ t e r h, e.truthy = false → L.told (.decoded (.reference t e r)) .null h .null
  present : ∀ t e r h a, e.truthy = false →
    L.told (.decoded (.reference t e r)) (.object a) h (.object a)
  embedded : ∀ t e r cls raw h v, e.truthy = false → L.catalog.resolve t = .ok cls →
    raw.isNull = false → L.told (.entity cls) raw h v → L.told (.decoded (.reference t e r)) raw h v
  array : ∀ c r raw xs h vs, c.producesEntity = true → Checker.itemsOf raw = .ok xs →
    List.Forall₂ (fun x v => L.told (.decoded c) x h v) xs vs →
    L.told (.decoded (.arrayOf c r)) raw h (.list vs)
  dictionary : ∀ c r raw h₀ es h vs, c.producesEntity = true → Checker.entriesOf h₀ raw = .ok es →
    List.Forall₂ (fun x v => L.told (.decoded c) x h v) (es.map Prod.snd) vs →
    L.told (.decoded (.dictOf c r)) raw h (.dict ((es.map Prod.fst).zip vs))
  entity : ∀ cls raw h₀ data h a v, Construction.entriesOf h₀ raw = .ok data →
    Heap.get h a = Cell.ofFields cls (Entries.getStr data idField) []
      (Table.names (L.catalog.schemaOf cls)) v →
    (∀ f ∈ L.catalog.schemaOf cls, L.told (.decoded f.2) (Entries.getStr data f.1) h (v f.1)) →
    L.told (.entity cls) raw h (.object a)

end Pairing

/-! ### Decoding -/

open Pairing

variable {L : Pairing} {U : Address → Prop} {full : Prop} {h h' : Heap}

theorem Pairing.Same.objectName {raw raw' : Value} (same : L.Same U h h' raw raw') (a : Address)
    (ha : raw.LeadsTo a) :
    Heap.objectName L.catalog h' (L.move a) = Heap.objectName L.catalog h a := by
  unfold Heap.objectName
  rw [Heap.species_of_renamed (same.steady a (.direct ha)).2.2]

namespace Checker

variable {make make' : ClassId → Value → Build Value}

/-- Raw values of a date that are alike make the same moment, or fail in the same way. -/
theorem toMoment_of_like {r : Bool} {raw raw' : Value}
    (like : L.Like full U h h' (.decoded (.date r)) raw raw') :
    (∃ e, raw.toMoment (Heap.objectName L.catalog h) = .error e ∧
        raw'.toMoment (Heap.objectName L.catalog h') = .error e) ∨
      ∃ v v', raw.toMoment (Heap.objectName L.catalog h) = .ok v ∧
        raw'.toMoment (Heap.objectName L.catalog h') = .ok v' ∧ L.Moved U h h' v v' := by
  rcases like.plain rfl with same | ⟨-, -, inert, inert', same⟩
  · obtain rfl := same.value
    rw [Value.toMoment_rename same.objectName]
    cases hv : raw.toMoment (Heap.objectName L.catalog h) with
    | error e => exact .inl ⟨e, rfl, rfl⟩
    | ok v =>
      refine .inr ⟨v, _, rfl, rfl, rfl, ?_⟩
      rcases Value.eq_or_exists_of_toMoment hv with rfl | ⟨m, rfl⟩
      · exact same.steady
      · exact steady_of_inert (Value.inert_moment m)
  · rw [Value.toMoment_of_inert inert' _ (Heap.objectName L.catalog h), same]
    cases hv : raw.toMoment (Heap.objectName L.catalog h) with
    | error e => exact .inl ⟨e, rfl, rfl⟩
    | ok v => exact .inr ⟨v, v, rfl, rfl, moved_of_inert (inert.toMoment hv)⟩

/-- An object is an instance of the class already, or makes an entity. -/
theorem decodeWith_object {g : Catalog} (t : Target) (e : Value) (r : Bool) (a : Address)
    (h : Heap) :
    decodeWith g make (.reference t e r) (.object a) h = (do
      let cls ← g.resolve t
      if Heap.isInstance g h a cls then .ok (.object a, h) else make cls (.object a) h) := by
  rw [decodeWith, decodeEntity, if_neg (by simp [Value.isNull]), Build.lift_bind_apply]
  congr 1
  funext cls
  rw [Build.get_bind_apply]
  dsimp only
  split <;> rfl

/-- **Decoding of raw values that are alike** goes abreast, if the construction of entities does. -/
theorem abreast_decodeWith (hmake : ∀ cls raw raw' h h', L.Fit U h h' →
      L.Like full U h h' (.entity cls) raw raw' →
      L.Abreast U (L.Shifted full U) (make cls raw) (make' cls raw') h h') :
    (c : Checker) → c.deferred = false → c.decodes = true → (raw raw' : Value) → (h h' : Heap) →
      L.Fit U h h' → L.Like full U h h' (.decoded c) raw raw' →
      L.Abreast U (L.Shifted full U) (decodeWith L.catalog make c raw)
        (decodeWith L.catalog make' c raw') h h'
  | .date r, _, _, raw, raw', h, h', fit, like => by
    unfold Abreast
    rw [decodeWith_date, decodeWith_date]
    rcases toMoment_of_like like with ⟨e, he, he'⟩ | ⟨v, v', hv, hv', moved⟩
    · rw [he, he']
      exact .inl ⟨e, rfl, fun _ => rfl⟩
    · rw [hv, hv']
      exact abreast_pure fit moved.shifted
  | .reference t e r, hd, _, raw, raw', h, h', fit, like => by
    obtain ⟨there, entity⟩ := like.entered hd
    unfold Abreast
    cases hn : raw.isNull with
    | true =>
      rw [decodeWith, decodeWith, decodeEntity, decodeEntity, ← there, hn]
      exact abreast_pure fit (moved_of_inert Value.inert_null).shifted
    | false =>
      have made := fun cls hcls => hmake cls raw raw' h h' fit (entity cls hcls)
      rcases like.object_cases with ⟨a, rfl, rfl, same⟩ | ⟨plain, plain'⟩
      · -- an instance of the class is taken as it is in both runs
        rw [decodeWith_object, decodeWith_object]
        cases hcls : L.catalog.resolve t with
        | error f => exact .inl ⟨f, rfl, fun _ => rfl⟩
        | ok cls =>
          rw [ok_bind, ok_bind, same.isInstance (.object a) cls]
          split
          · exact abreast_pure fit same.shifted
          · exact made cls hcls
      · rw [decodeWith_reference t e r hn plain, decodeWith_reference t e r (there ▸ hn) plain']
        cases hcls : L.catalog.resolve t with
        | error f => exact .inl ⟨f, rfl, fun _ => rfl⟩
        | ok cls => exact made cls hcls
  | .arrayOf c r, hd, hp, raw, raw', h, h', fit, like => by
    have decodes : c.decodes = true := decodes_of_producesEntity hp
    unfold Abreast
    rw [decodeWith_arrayOf, decodeWith_arrayOf]
    rcases like.items with ⟨f, hf, hf'⟩ | ⟨xs, xs', hxs, hxs', likes⟩
    · rw [hf, hf']
      exact .inl ⟨f, rfl, fun _ => rfl⟩
    · rw [hxs, hxs', ok_bind, ok_bind]
      have parts := abreast_likes (abreast_decodeWith hmake c hd decodes) fit likes
      exact parts.bind fun vs vs' k k' _ _ fit' made => abreast_pure fit' (shifted_list made)
  | .dictOf c r, hd, hp, raw, raw', h, h', fit, like => by
    have decodes : c.decodes = true := decodes_of_producesEntity hp
    unfold Abreast
    rw [decodeWith_dictOf, decodeWith_dictOf]
    rcases like.mapping with ⟨f, hf, hf'⟩ | ⟨es, es', hes, hes', keys, known, likes⟩
    · rw [hf, hf']
      exact .inl ⟨f, rfl, fun _ => rfl⟩
    · rw [hes, hes', ok_bind, ok_bind, keys]
      have parts := abreast_likes (abreast_decodeWith hmake c hd decodes) fit likes
      have made : L.Abreast U (L.Shifted full U)
          ((es.map Prod.snd).mapM (decodeWith L.catalog make c) >>= fun vs =>
            pure (.dict ((es.map Prod.fst).zip vs)))
          ((es'.map Prod.snd).mapM (decodeWith L.catalog make' c) >>= fun vs =>
            pure (.dict (((es.map Prod.fst).map (Heap.rename L.move)).zip vs))) h h' :=
        parts.bind fun vs vs' k k' grown grown' fit' all => abreast_pure fit' <|
          shifted_dict (fun key hkey => (known key hkey).mono fit grown grown') all
      exact made

end Checker

/-! ### Entities that are begun -/

/-- The cell of an entity at other addresses. -/
theorem Heap.renameCell_ofFields (f : Address → Address) (cls : ClassId) (id : Value)
    (pending : Entries) (names : List String) (v : String → Value) :
    renameCell f (Cell.ofFields cls id pending names v) =
      Cell.ofFields cls (rename f id) (renameEntries f pending) names fun n => rename f (v n) := by
  simp [renameCell, Cell.ofFields, rename, Function.comp_def]

theorem Cell.ofFields_congr {cls : ClassId} {id : Value} {pending : Entries} {names : List String}
    {v v' : String → Value} (same : ∀ n ∈ names, v n = v' n) :
    ofFields cls id pending names v = ofFields cls id pending names v' := by
  unfold ofFields
  rw [List.map_congr_left fun n hn => by rw [same n hn]]

namespace Pairing

/-- How far an entity has come in both runs, the second of which has it further on: it has the same
identifier in both, only fields that are still to do have something put aside, and what the other
fields hold is the same, kept, and known.  It is under way itself. -/
structure Begun (L : Pairing) (underway : Address → Prop) (cls : ClassId) (data : Entries)
    (todo : Schema) (h h' : Heap) (a : Nat) : Prop where
  there : a < List.length h
  id : L.Steady (fun b => underway b ∨ b = a) h h' (Entries.getStr data idField)
  cells : ∃ pending pending' v v',
    Heap.get h a = Cell.ofFields cls (Entries.getStr data idField) pending
      (Table.names (L.catalog.schemaOf cls)) v ∧
    Heap.get h' (L.move a) = Cell.ofFields cls (Heap.rename L.move (Entries.getStr data idField))
      pending' (Table.names (L.catalog.schemaOf cls)) v' ∧
    (∀ e, e ∈ pending ∨ e ∈ pending' →
      ∃ f ∈ todo, f.2.producesEntity = true ∧ e.1 = .str f.1) ∧
    ∀ f ∈ L.catalog.schemaOf cls, (f.2.producesEntity = true → f ∉ todo) →
      L.Moved (fun b => underway b ∨ b = a) h h' (v f.1) (v' f.1) ∧
        L.told (.decoded f.2) (Entries.getStr data f.1) h (v f.1)

/-- **An entity that holds the same in both runs is kept** if what it holds is. -/
theorem steady_of_fields {a : Nat} {cls : ClassId} {id : Value} {pending : Entries}
    {v v' : String → Value} (there : a < List.length h) (apart : ¬ U a)
    (cell : Heap.get h a = Cell.ofFields cls id pending (Table.names (L.catalog.schemaOf cls)) v)
    (cell' : Heap.get h' (L.move a) = Cell.ofFields cls (Heap.rename L.move id)
      (Heap.renameEntries L.move pending) (Table.names (L.catalog.schemaOf cls)) v')
    (values : ∀ f ∈ L.catalog.schemaOf cls, v' f.1 = Heap.rename L.move (v f.1))
    (identified : L.Steady (fun b => U b ∨ b = a) h h' id)
    (aside : L.Steady (fun b => U b ∨ b = a) h h' (.dict pending))
    (fields : ∀ f ∈ L.catalog.schemaOf cls, L.Steady (fun b => U b ∨ b = a) h h' (v f.1)) :
    L.Steady U h h' (.object a) := by
  refine steady_of_cell there apart ?_ ?_
  · rw [cell, cell', Heap.renameCell_ofFields]
    refine Cell.ofFields_congr fun n hn => ?_
    obtain ⟨f, hf, rfl⟩ := List.mem_map.1 hn
    exact values f hf
  · have attributes : (Heap.get h a).attributes = (idField, id) :: (pendingField, .dict pending) ::
        (Table.names (L.catalog.schemaOf cls)).map fun n => (n, v n) := by
      rw [cell]
      rfl
    rw [attributes]
    simp only [List.forall_mem_cons, List.forall_mem_map, Table.names]
    exact ⟨identified, aside, fields⟩

end Pairing

/-! ### Construction -/

namespace Construction

variable {make make' : ClassId → Value → Build Value}

theorem ofEntries_succ_apply (g : Catalog) (fuel : Nat) (cls : ClassId) (data : Entries)
    (h : Heap) :
    ofEntries g (fuel + 1) cls data h = (do
      let p ← fieldsFrom (Checker.decodeWith g (within g fuel)) data (g.schemaOf cls) h
      .ok (.object p.2.length,
        p.2 ++ [.entity cls (Entries.getStr data idField) p.1.2 p.1.1])) := rfl

/-- What a field starts with in both runs. -/
theorem abreast_initialValue (tells : L.Tells) (hmake : ∀ cls raw raw' h h', L.Fit U h h' →
      L.Like full U h h' (.entity cls) raw raw' →
      L.Abreast U (L.Shifted full U) (make cls raw) (make' cls raw') h h') {c : Checker}
    {raw raw' : Value} (fit : L.Fit U h h') (like : L.Like full U h h' (.decoded c) raw raw') :
    L.Abreast U (fun k k' v v' => L.Shifted full U k k' v v' ∧ (c.producesEntity = false →
        L.Moved U k k' v v' ∧ L.told (.decoded c) raw k v))
      (initialValue (Checker.decodeWith L.catalog make) c raw)
      (initialValue (Checker.decodeWith L.catalog make') c raw') h h' := by
  cases hd : c.deferred with
  | true =>
    have producing := Checker.producesEntity_of_deferred _ hd
    unfold initialValue
    rw [hd, if_pos rfl, if_pos rfl]
    exact abreast_pure fit ⟨(moved_of_inert Value.inert_null).shifted,
      fun plain => by cases producing.symm.trans plain⟩
  | false =>
    cases hdec : c.decodes with
    | true =>
      rw [initialValue_of_decodes hd hdec, initialValue_of_decodes hd hdec]
      -- of what decodes only a day produces no entity
      cases hp : c.producesEntity with
      | true =>
        refine (Checker.abreast_decodeWith hmake c hd hdec raw raw' h h' fit like).imp ?_
        exact fun _ _ _ _ shifted => ⟨shifted, nofun⟩
      | false =>
        cases c with
        | date r =>
          unfold Abreast
          rw [Checker.decodeWith_date, Checker.decodeWith_date]
          rcases Checker.toMoment_of_like like with ⟨e, he, he'⟩ | ⟨v, v', hv, hv', moved⟩
          · rw [he, he']
            exact .inl ⟨e, rfl, fun _ => rfl⟩
          · rw [hv, hv']
            exact abreast_pure fit ⟨moved.shifted, fun _ => ⟨moved, tells.date r raw h _ v hv⟩⟩
        | arrayOf | dictOf => cases hp.symm.trans hdec
        | reference => cases hp
        | scalar | shape => cases hdec
    | false =>
      have plain : c.producesEntity = false := by
        by_contra hp
        exact absurd (Checker.decodes_of_producesEntity (Bool.eq_true_of_not_eq_false hp))
          (by simp [hdec])
      unfold initialValue
      rw [hd, hdec, if_neg Bool.false_ne_true, if_neg Bool.false_ne_true, if_neg Bool.false_ne_true,
        if_neg Bool.false_ne_true]
      rcases like.plain plain with same | ⟨r, rfl, -⟩
      · exact abreast_pure fit
          ⟨same.shifted, fun _ => ⟨same.toMoved, tells.kept c raw h plain hdec⟩⟩
      · cases hdec

/-- **The fields of an entity** start with the same values in both runs, whatever is put aside. -/
theorem abreast_fieldsFrom (tells : L.Tells) (hmake : ∀ cls raw raw' h h', L.Fit U h h' →
      L.Like full U h h' (.entity cls) raw raw' →
      L.Abreast U (L.Shifted full U) (make cls raw) (make' cls raw') h h') {data data' : Entries}
    {fs : Schema} (hnames : (Table.names fs).Nodup) {h h' : Heap} (fit : L.Fit U h h')
    (likes : ∀ f ∈ fs, L.Like full U h h' (.decoded f.2) (Entries.getStr data f.1)
      (Entries.getStr data' f.1)) :
    L.Abreast U (fun k k' p p' => ∃ v v' : String → Value,
        p = ((Table.names fs).map fun n => (n, v n), putAside data fs) ∧
        p' = ((Table.names fs).map fun n => (n, v' n), putAside data' fs) ∧
        ∀ f ∈ fs, L.Shifted full U k k' (v f.1) (v' f.1) ∧ (f.2.producesEntity = false →
          L.Moved U k k' (v f.1) (v' f.1) ∧
            L.told (.decoded f.2) (Entries.getStr data f.1) k (v f.1)))
      (fieldsFrom (Checker.decodeWith L.catalog make) data fs)
      (fieldsFrom (Checker.decodeWith L.catalog make') data' fs) h h' := by
  induction fs generalizing h h' with
  | nil =>
    exact abreast_pure fit ⟨fun _ => .null, fun _ => .null, rfl, rfl, List.forall_mem_nil _⟩
  | cons f fs ih =>
    obtain ⟨name, c⟩ := f
    obtain ⟨fresh, nodup⟩ := List.nodup_cons.1 hnames
    obtain ⟨here, rest⟩ := List.forall_mem_cons.1 likes
    refine (abreast_initialValue tells hmake fit here).bind fun x x' k k' grown grown' fit' hx => ?_
    refine (ih nodup fit' fun f hf => (rest f hf).mono fit grown grown').bind ?_
    rintro _ _ l l' more more' fit'' ⟨v, v', rfl, rfl, fields⟩
    have other : ∀ n ∈ Table.names fs, n ≠ name := fun n hmem heq => fresh (heq ▸ hmem)
    have table (x : Value) (v : String → Value) : (Table.names ((name, c) :: fs)).map
        (fun n => (n, if n = name then x else v n)) =
          (name, x) :: (Table.names fs).map fun n => (n, v n) := by
      rw [Table.names, List.map_cons, List.map_cons, if_pos rfl]
      exact congrArg _ (List.map_congr_left fun n hmem => by rw [if_neg (other n hmem)])
    refine abreast_pure fit'' ⟨fun n => if n = name then x else v n,
      fun n => if n = name then x' else v' n, ?_, ?_, List.forall_mem_cons.2 ⟨?_, fun f hf => ?_⟩⟩
    · rw [table, putAside_cons]
    · rw [table, putAside_cons]
    · dsimp only
      rw [if_pos rfl, if_pos rfl]
      refine ⟨hx.1.mono fit' more more', fun plain => ?_⟩
      obtain ⟨moved, told⟩ := hx.2 plain
      exact ⟨moved.mono fit' more more', tells.move _ _ _ _ _
        (fun a ha => Heap.get_of_extended more (moved.steady a ha).1) told⟩
    · have hne : f.1 ≠ name := other f.1 (List.mem_map_of_mem hf)
      dsimp only
      rw [if_neg hne, if_neg hne]
      exact fields f hf

/-- What is put aside of data in which the fields are the same at other addresses. -/
theorem asideEntries_of_rename {f : Address → Address} {data data' : Entries} {fs : Schema}
    (same : ∀ p ∈ fs, Entries.getStr data' p.1 = Heap.rename f (Entries.getStr data p.1)) :
    asideEntries data' fs = Heap.renameEntries f (asideEntries data fs) := by
  induction fs with
  | nil => rfl
  | cons p fs ih =>
    obtain ⟨here, rest⟩ := List.forall_mem_cons.1 same
    rw [asideEntries, asideEntries, putAside_cons, putAside_cons, here, Value.isNull_rename]
    cases p.2.deferred && !(Entries.getStr data p.1).isNull with
    | false => exact ih rest
    | true =>
      rw [if_pos rfl, if_pos rfl, List.map_cons, List.map_cons, Heap.renameEntries]
      exact congrArg _ (ih rest)

/-- An entity is begun in both runs, with a bound. -/
theorem abreast_within (hg : L.catalog.WellFormed) (tells : L.Tells) :
    ∀ (fuel : Nat) (cls : ClassId)
    (raw raw' : Value) (h h' : Heap), L.Fit U h h' → L.Like full U h h' (.entity cls) raw raw' →
    L.Abreast U (fun k k' v v' => ∃ (a : Nat) (data : Entries), v = .object a ∧
        v' = .object (L.move a) ∧ List.length h ≤ a ∧ entriesOf h raw = .ok data ∧
        L.Begun U cls data (L.catalog.schemaOf cls) k k' a ∧ (full → L.Steady U k k' (.object a)))
      (within L.catalog fuel cls raw) (within L.catalog fuel cls raw') h h'
  | fuel, cls, raw, raw', h, h', fit, like => by
    unfold Abreast
    rw [within_apply, within_apply]
    rcases like.data with ⟨f, hf, hf'⟩ | ⟨data, data', hdata, hdata', id, hid, fields⟩
    · rw [hf, hf']
      exact .inl ⟨f, rfl, fun _ => rfl⟩
    · rw [hdata, hdata', ok_bind, ok_bind]
      cases fuel with
      | zero => exact .inl ⟨.endless, rfl, fun _ => rfl⟩
      | succ fuel =>
        rw [ofEntries_succ_apply, ofEntries_succ_apply]
        have parts := abreast_fieldsFrom tells
          (fun cls raw raw' h h' fit like =>
            (abreast_within hg tells fuel cls raw raw' h h' fit like).imp
            fun k k' v v' => by
              rintro ⟨a, data, rfl, rfl, -, -, -, steady⟩
              exact ⟨rfl, steady⟩) (hg.nodup cls) fit fun f hf => (fields f hf).1
        rcases parts with ⟨e, he, he'⟩ |
          ⟨_, k, _, k', hp, hp', grown, grown', fit', v, v', rfl, rfl, made⟩
        · rw [he]
          exact .inl ⟨e, rfl, fun strict => by rw [he' strict]; rfl⟩
        · rw [hp, hp', ok_bind, ok_bind]
          -- the entity is the last cell that is added, and under way for nothing that it holds
          generalize hc : Cell.ofFields cls (Entries.getStr data idField)
            (asideEntries data (L.catalog.schemaOf cls))
            (Table.names (L.catalog.schemaOf cls)) v = c
          generalize hc' : Cell.ofFields cls (Entries.getStr data' idField)
            (asideEntries data' (L.catalog.schemaOf cls))
            (Table.names (L.catalog.schemaOf cls)) v' = c'
          have le : k <+: k ++ [c] := List.prefix_append ..
          have le' : k' <+: k' ++ [c'] := List.prefix_append ..
          have here : Heap.get (k ++ [c]) (List.length k) = c := Heap.get_alloc_self k c
          have here' : Heap.get (k' ++ [c']) (L.move (List.length k)) = c' := by
            rw [fit'.move_length]
            exact Heap.get_alloc_self k' c'
          have added : List.length h ≤ List.length k := grown.length_le
          have fit'' : L.Fit U (k ++ [c]) (k' ++ [c']) := fit'.grow le (by
            have := fit'.size
            simp only [List.length_append, List.length_singleton]
            omega)
          have there : List.length k < List.length (k ++ [c]) := by simp
          have entered {x : Value} (steady : L.Steady U h h' x) :=
            steady.enter fit (grown.trans le) (grown'.trans le') added
          have begun : L.Begun U cls data (L.catalog.schemaOf cls) (k ++ [c]) (k' ++ [c'])
              (List.length k) := by
            refine ⟨there, entered id, _, _, v, v', here.trans hc.symm,
              here'.trans (by rw [← hc', hid]), fun e he => ?_, fun f hf hnot => ?_⟩
            · rcases he with he | he <;>
                obtain ⟨f, hf, hd, hkey⟩ := exists_of_mem_asideEntries he <;>
                exact ⟨f, hf, Checker.producesEntity_of_deferred _ hd, hkey⟩
            · obtain ⟨moved, told⟩ := (made f hf).2 (by
                by_contra hp
                exact hnot (Bool.eq_true_of_not_eq_false hp) hf)
              exact ⟨⟨moved.value, moved.steady.enter fit' le le' le_rfl⟩, tells.move _ _ _ _ _
                (fun a ha => Heap.get_of_extended le (moved.steady a ha).1) told⟩
          refine .inr ⟨.object (List.length k), k ++ [c], .object (List.length k'), k' ++ [c'],
            by rw [← hc]; rfl, by rw [← hc']; rfl, grown.trans le, grown'.trans le', fit'',
            List.length k, data, rfl, by rw [fit'.move_length], added, rfl, begun, fun hf => ?_⟩
          have same := fun f hf' => ((fields f hf').1.to_same hf).toMoved
          refine steady_of_fields there (fun hU => (fit'.bounded _ hU).false) (here.trans hc.symm)
            (here'.trans ?_) (fun f hf' => (made f hf').1.value) (entered id)
            (steady_dict fun e he => ?_) fun f hf' => ((made f hf').1.steady hf).enter fit' le
              le' le_rfl
          · rw [← hc', hid, asideEntries_of_rename fun f hf' => (same f hf').value]
          · obtain ⟨p, hp, rfl⟩ := List.mem_map.1 he
            obtain ⟨hname, heq⟩ := name_of_mem_putAside hp
            obtain ⟨f, hf', hfp⟩ := List.mem_map.1 hname
            rw [heq, ← hfp]
            exact ⟨steady_of_inert (Value.inert_str _), entered (same f hf').steady⟩

/-- **Construction from raw values that are alike** begins an entity in both runs, or fails. -/
theorem abreast_ofRaw (full : Prop) (hg : L.catalog.WellFormed) (tells : L.Tells) {cls : ClassId}
    {raw raw' : Value} (fit : L.Fit U h h') (like : L.Like full U h h' (.entity cls) raw raw') :
    L.Abreast U (fun k k' v v' => ∃ (a : Nat) (data : Entries), v = .object a ∧
        v' = .object (L.move a) ∧ List.length h ≤ a ∧ entriesOf h raw = .ok data ∧
        L.Begun U cls data (L.catalog.schemaOf cls) k k' a ∧ (full → L.Steady U k k' (.object a)))
      (ofRaw L.catalog cls raw) (ofRaw L.catalog cls raw') h h' := by
  rw [← within_eq_ofRaw (le_max_left raw.depth raw'.depth),
    ← within_eq_ofRaw (le_max_right raw.depth raw'.depth)]
  exact abreast_within hg tells _ cls raw raw' h h' fit like

end Construction

end EntitySchema
