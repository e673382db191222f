/-
**Raw values that are alike in two runs.**

Raw values in two runs are alike if they are the same, of objects that are kept, or if they lead to
no object and say the same in other words: part by part, and with payloads of eager references that
are only asked for the same entities.  Alike values make as many items, entries under the same keys,
and data with the same identifier and with fields that are alike, or none does.

Main definitions:

* `Catalog.Rephrased` — **raw values that say the same**, for given payloads that do;
* `Pairing.Like` — **raw values that are alike in two heaps.**

Main results:

* `Pairing.Same.itemsOf`, `Pairing.Same.entriesOf`, `Pairing.Same.data` — what the same value makes;
* `Pairing.Like.items`, `Pairing.Like.mapping`, `Pairing.Like.data` — **what alike values make is
  alike**;
* `Pairing.Like.plain`, `Pairing.Like.entered`, `Pairing.Like.fetched` — what checkers are given.
-/

import EntitySchema.Proofs.Pairing

set_option autoImplicit false

namespace EntitySchema

/-! ### What raw values make -/

namespace Checker

theorem itemsOf_rename {f : Address → Address} (raw : Value) :
    itemsOf (Heap.rename f raw) = (itemsOf raw).map (List.map (Heap.rename f)) := by
  unfold itemsOf
  rw [Value.isNull_rename, Value.toItems_rename]
  split <;> rfl

theorem entriesOf_rename {f : Address → Address} (hf : f.Injective) {h h' : Heap} {raw : Value}
    (same : ∀ a, raw.LeadsTo a → Heap.isEntity h' (f a) = Heap.isEntity h a) :
    entriesOf h' (Heap.rename f raw) = (entriesOf h raw).map (Heap.renameEntries f) := by
  unfold entriesOf
  rw [Value.isNull_rename, Value.toEntries_rename hf same]
  split <;> rfl

end Checker

theorem Construction.entriesOf_rename {f : Address → Address} (hf : f.Injective) {h h' : Heap}
    {raw : Value} (same : ∀ a, raw.LeadsTo a → Heap.isEntity h' (f a) = Heap.isEntity h a) :
    entriesOf h' (Heap.rename f raw) = (entriesOf h raw).map (Heap.renameEntries f) := by
  unfold entriesOf
  rw [Value.truthy_rename, Value.toEntries_rename hf same]
  split <;> rfl

theorem Loading.rawField_rename {f : Address → Address} (raw : Value) (name : String) :
    rawField (Heap.rename f raw) name = (rawField raw name).map (Heap.rename f) := by
  unfold rawField
  rw [Value.entries?_rename, Value.truthy_rename]
  cases raw.entries? with
  | some es => exact congrArg Except.ok (Entries.getStr_renameEntries es name)
  | none =>
    dsimp only [Option.map_none]
    split <;> rfl

/-- Raw data that are no mapping, and do not count as false, are not asked for fields. -/
theorem Loading.rawField_eq {h : Heap} {raw : Value} {es : Entries} {name : String}
    (hes : Construction.entriesOf h raw = .ok es) :
    rawField raw name = if raw.entries?.isSome = false ∧ raw.truthy = true
      then .error (.noAttribute "get") else .ok (Entries.getStr es name) := by
  cases hx : rawField raw name with
  | error f =>
    unfold rawField at hx
    split at hx
    · cases hx
    · next none =>
      split at hx
      · next ht =>
        cases hx
        rw [none, if_pos ⟨rfl, ht⟩]
      · cases hx
  | ok y =>
    rw [Catalog.eq_getStr_of_rawField hx hes, if_neg]
    rintro ⟨none, ht⟩
    rw [Option.isSome_eq_false_iff, Option.isNone_iff_eq_none] at none
    rw [rawField, none] at hx
    dsimp only at hx
    rw [if_pos ht] at hx
    cases hx

/-- Raw values that say the same of an entity or of what a checker decodes, for given payloads of
eager references that do: their parts do, one by one, and moments are the same.  If failures are to
be the same, raw values are asked for their fields in the same way; otherwise the second can be. -/
inductive Catalog.Rephrased (g : Catalog) (strict : Prop) (sought : Target → Value → Value → Prop) :
    Subject → Value → Value → Prop
  | same (subject : Subject) (raw : Value) : Rephrased g strict sought subject raw raw
  | date (r : Bool) {raw raw' : Value} :
      (∀ names, raw'.toMoment names = raw.toMoment names) →
      Rephrased g strict sought (.decoded (.date r)) raw raw'
  | payload {t : Target} {e : Value} (r : Bool) {raw raw' : Value} :
      e.truthy = true → sought t raw raw' →
      Rephrased g strict sought (.decoded (.reference t e r)) raw raw'
  | embedded {t : Target} {e : Value} (r : Bool) {raw raw' : Value} :
      e.truthy = false → raw.isNull = raw'.isNull →
      (∀ cls, g.resolve t = .ok cls → Rephrased g strict sought (.entity cls) raw raw') →
      Rephrased g strict sought (.decoded (.reference t e r)) raw raw'
  | array {c : Checker} (r : Bool) {raw raw' : Value} {xs xs' : List Value} :
      c.producesEntity = true → Checker.itemsOf raw = .ok xs → Checker.itemsOf raw' = .ok xs' →
      xs.length = xs'.length → (∀ p ∈ xs.zip xs', Rephrased g strict sought (.decoded c) p.1 p.2) →
      Rephrased g strict sought (.decoded (.arrayOf c r)) raw raw'
  | dictionary {c : Checker} (r : Bool) {raw raw' : Value} {es es' : Entries} :
      c.producesEntity = true → Checker.entriesOf [] raw = .ok es →
      Checker.entriesOf [] raw' = .ok es' → es.map Prod.fst = es'.map Prod.fst →
      (∀ p ∈ (es.map Prod.snd).zip (es'.map Prod.snd),
        Rephrased g strict sought (.decoded c) p.1 p.2) →
      Rephrased g strict sought (.decoded (.dictOf c r)) raw raw'
  | entity {cls : ClassId} {raw raw' : Value} {data data' : Entries} :
      Construction.entriesOf [] raw = .ok data → Construction.entriesOf [] raw' = .ok data' →
      (strict → raw.entries?.isSome = raw'.entries?.isSome ∧ raw.truthy = raw'.truthy) →
      (¬ strict → raw'.entries?.isSome = true) →
      Entries.getStr data idField = Entries.getStr data' idField →
      (∀ f ∈ g.schemaOf cls, Rephrased g strict sought (.decoded f.2)
        (Entries.getStr data f.1) (Entries.getStr data' f.1)) →
      Rephrased g strict sought (.entity cls) raw raw'

namespace Pairing

/-- Raw values that are alike in two runs: the same, or, unless what is made of them is to be kept
at once (`full`), leading to no object and saying the same. -/
inductive Like (L : Pairing) (full : Prop) (underway : Address → Prop) (h h' : Heap)
    (subject : Subject) (raw raw' : Value) : Prop
  | same : L.Same underway h h' raw raw' → Like L full underway h h' subject raw raw'
  | rephrased : ¬ full → raw.Inert → raw'.Inert →
      L.catalog.Rephrased L.strict L.sought subject raw raw' →
      Like L full underway h h' subject raw raw'

variable {L : Pairing} {full : Prop} {U U' : Address → Prop} {h h' k k' : Heap} {raw raw' : Value}
  {subject : Subject} {c : Checker} {t : Target} {e : Value} {r : Bool} {cls : ClassId}

theorem Like.grow (like : L.Like full U h h' subject raw raw') (fit : L.Fit U h h')
    (grown : h <+: k)
    (grown' : h' <+: k') (begun : ∀ a : Nat, a < List.length h → U' a → U a) :
    L.Like full U' k k' subject raw raw' := by
  cases like with
  | same same => exact .same (same.grow fit grown grown' begun)
  | rephrased part inert inert' re => exact .rephrased part inert inert' re

/-- If what is made is to be kept at once, only the same value is alike. -/
theorem Like.to_same (like : L.Like full U h h' subject raw raw') (hf : full) :
    L.Same U h h' raw raw' := by
  cases like with
  | same same => exact same
  | rephrased part => exact absurd hf part

theorem Like.mono (like : L.Like full U h h' subject raw raw') (fit : L.Fit U h h')
    (grown : h <+: k)
    (grown' : h' <+: k') : L.Like full U k k' subject raw raw' :=
  like.grow fit grown grown' fun _ _ => id

namespace Same

variable (same : L.Same U h h' raw raw')

include same

/-- **The same value makes the same items.** -/
theorem itemsOf : (∃ f, Checker.itemsOf raw = .error f ∧ Checker.itemsOf raw' = .error f) ∨
    ∃ xs xs', Checker.itemsOf raw = .ok xs ∧ Checker.itemsOf raw' = .ok xs' ∧
      List.Forall₂ (L.Same U h h') xs xs' := by
  obtain rfl := same.value
  rw [Checker.itemsOf_rename]
  cases hxs : Checker.itemsOf raw with
  | error f => exact .inl ⟨f, rfl, rfl⟩
  | ok xs =>
    refine .inr ⟨xs, _, rfl, rfl, List.forall₂_map_right_iff.2 (List.forall₂_same.2 fun x hx => ?_)⟩
    rcases Checker.itemsOf_cases hxs with rfl | ⟨-, hitems⟩
    · cases hx
    · exact same.item hitems hx

/-- **The same value makes the same dictionary.** -/
theorem entriesOf :
    (∃ f, Checker.entriesOf h raw = .error f ∧ Checker.entriesOf h' raw' = .error f) ∨
    ∃ es, Checker.entriesOf h raw = .ok es ∧
      Checker.entriesOf h' raw' = .ok (Heap.renameEntries L.move es) ∧
      ∀ e ∈ es, L.Steady U h h' e.1 ∧ L.Same U h h' e.2 (Heap.rename L.move e.2) := by
  obtain rfl := same.value
  rw [Checker.entriesOf_rename L.move_injective same.isEntity]
  cases hes : Checker.entriesOf h raw with
  | error f => exact .inl ⟨f, rfl, rfl⟩
  | ok es =>
    refine .inr ⟨es, rfl, rfl, ?_⟩
    unfold Checker.entriesOf at hes
    split at hes
    · cases hes
      exact List.forall_mem_nil _
    · exact same.toEntries hes

/-- **The same value makes the same data of an entity.** -/
theorem data :
    (∃ f, Construction.entriesOf h raw = .error f ∧ Construction.entriesOf h' raw' = .error f) ∨
    ∃ es, Construction.entriesOf h raw = .ok es ∧
      Construction.entriesOf h' raw' = .ok (Heap.renameEntries L.move es) ∧
      ∀ name, L.Same U h h' (Entries.getStr es name)
        (Heap.rename L.move (Entries.getStr es name)) := by
  obtain rfl := same.value
  rw [Construction.entriesOf_rename L.move_injective same.isEntity]
  have absent : L.Same U h h' .null (Heap.rename L.move .null) := same_of_inert Value.inert_null
  cases hes : Construction.entriesOf h raw with
  | error f => exact .inl ⟨f, rfl, rfl⟩
  | ok es =>
    refine .inr ⟨es, rfl, rfl, fun name => ?_⟩
    unfold Construction.entriesOf at hes
    split at hes
    · exact Entries.getStr_of_forall (P := fun v => L.Same U h h' v (Heap.rename L.move v)) absent
        (fun e he => (same.toEntries hes e he).2) name
    · cases hes
      exact absent

end Same

namespace Like

/-- **Raw values of an array that are alike** make as many items, which are alike, or none does. -/
theorem items (like : L.Like full U h h' (.decoded (.arrayOf c r)) raw raw') :
    (∃ f, Checker.itemsOf raw = .error f ∧ Checker.itemsOf raw' = .error f) ∨
      ∃ xs xs', Checker.itemsOf raw = .ok xs ∧ Checker.itemsOf raw' = .ok xs' ∧
        List.Forall₂ (L.Like full U h h' (.decoded c)) xs xs' := by
  have of_same {raw raw' : Value} (same : L.Same U h h' raw raw') :
      (∃ f, Checker.itemsOf raw = .error f ∧ Checker.itemsOf raw' = .error f) ∨
      ∃ xs xs', Checker.itemsOf raw = .ok xs ∧ Checker.itemsOf raw' = .ok xs' ∧
        List.Forall₂ (L.Like full U h h' (.decoded c)) xs xs' := by
    refine same.itemsOf.imp_right ?_
    rintro ⟨xs, xs', hxs, hxs', all⟩
    exact ⟨xs, xs', hxs, hxs', all.imp fun _ _ => .same⟩
  cases like with
  | same same => exact of_same same
  | rephrased part inert inert' re =>
    cases re with
    | same => exact of_same (same_of_inert inert)
    | array r _ hxs hxs' size all =>
      refine .inr ⟨_, _, hxs, hxs', List.forall₂_iff_zip.2 ⟨size, fun {x x'} hp => ?_⟩⟩
      exact .rephrased part (Checker.inert_of_itemsOf inert hxs x (List.of_mem_zip hp).1)
        (Checker.inert_of_itemsOf inert' hxs' x' (List.of_mem_zip hp).2) (all _ hp)

/-- **Raw values of a dictionary that are alike** make entries under the same keys, the values of
which are alike, or none does. -/
theorem mapping (like : L.Like full U h h' (.decoded (.dictOf c r)) raw raw') :
    (∃ f, Checker.entriesOf h raw = .error f ∧ Checker.entriesOf h' raw' = .error f) ∨
      ∃ es es', Checker.entriesOf h raw = .ok es ∧ Checker.entriesOf h' raw' = .ok es' ∧
        es'.map Prod.fst = (es.map Prod.fst).map (Heap.rename L.move) ∧
        (∀ key ∈ es.map Prod.fst, L.Steady U h h' key) ∧
        List.Forall₂ (L.Like full U h h' (.decoded c)) (es.map Prod.snd) (es'.map Prod.snd) := by
  have of_same {raw raw' : Value} (same : L.Same U h h' raw raw') :
      (∃ f, Checker.entriesOf h raw = .error f ∧ Checker.entriesOf h' raw' = .error f) ∨
      ∃ es es', Checker.entriesOf h raw = .ok es ∧ Checker.entriesOf h' raw' = .ok es' ∧
        es'.map Prod.fst = (es.map Prod.fst).map (Heap.rename L.move) ∧
        (∀ key ∈ es.map Prod.fst, L.Steady U h h' key) ∧
        List.Forall₂ (L.Like full U h h' (.decoded c)) (es.map Prod.snd) (es'.map Prod.snd) := by
    refine same.entriesOf.imp_right ?_
    rintro ⟨es, hes, hes', parts⟩
    refine ⟨es, _, hes, hes', ?_, List.forall_mem_map.2 fun e he => (parts e he).1, ?_⟩
    · rw [Heap.renameEntries_eq_map, List.map_map, List.map_map]
      rfl
    · rw [Heap.renameEntries_eq_map, List.map_map, List.forall₂_map_left_iff,
        List.forall₂_map_right_iff]
      exact List.forall₂_same.2 fun e he => .same (parts e he).2
  cases like with
  | same same => exact of_same same
  | rephrased part inert inert' re =>
    cases re with
    | same => exact of_same (same_of_inert inert)
    | dictionary r _ hes hes' keys all =>
      rw [Checker.entriesOf_of_inert inert [] h] at hes
      rw [Checker.entriesOf_of_inert inert' [] h'] at hes'
      have parts := Value.inert_dict_iff.1 (Checker.inert_of_entriesOf inert hes)
      have parts' := Value.inert_dict_iff.1 (Checker.inert_of_entriesOf inert' hes')
      have size := congrArg List.length keys
      rw [List.length_map, List.length_map] at size
      refine .inr ⟨_, _, hes, hes', ?_, List.forall_mem_map.2 fun e he =>
        steady_of_inert (parts e he).1,
          List.forall₂_iff_zip.2 ⟨by simpa using size, fun {x x'} hp => ?_⟩⟩
      · rw [← keys, List.map_map]
        exact List.map_congr_left fun e he => (Heap.rename_of_inert _ _ (parts e he).1).symm
      · obtain ⟨e, he, rfl⟩ := List.mem_map.1 (List.of_mem_zip hp).1
        obtain ⟨e', he', rfl⟩ := List.mem_map.1 (List.of_mem_zip hp).2
        exact .rephrased part (parts e he).2 (parts' e' he').2 (all _ hp)

/-- **Raw values of an entity that are alike** make data with the same identifier and with fields
that are alike, or none does; and both are asked for their fields in the same way. -/
theorem data (like : L.Like full U h h' (.entity cls) raw raw') :
    (∃ f, Construction.entriesOf h raw = .error f ∧ Construction.entriesOf h' raw' = .error f) ∨
      ∃ data data', Construction.entriesOf h raw = .ok data ∧
        Construction.entriesOf h' raw' = .ok data' ∧
        L.Steady U h h' (Entries.getStr data idField) ∧
        Entries.getStr data' idField = Heap.rename L.move (Entries.getStr data idField) ∧
        ∀ f ∈ L.catalog.schemaOf cls,
          L.Like full U h h' (.decoded f.2) (Entries.getStr data f.1) (Entries.getStr data' f.1) ∧
          ((∃ e, Loading.rawField raw f.1 = .error e ∧
              (L.strict → Loading.rawField raw' f.1 = .error e)) ∨
            Loading.rawField raw f.1 = .ok (Entries.getStr data f.1) ∧
            Loading.rawField raw' f.1 = .ok (Entries.getStr data' f.1)) := by
  have of_same {raw raw' : Value} (same : L.Same U h h' raw raw') :
      (∃ f, Construction.entriesOf h raw = .error f ∧ Construction.entriesOf h' raw' = .error f) ∨
      ∃ data data', Construction.entriesOf h raw = .ok data ∧
        Construction.entriesOf h' raw' = .ok data' ∧
        L.Steady U h h' (Entries.getStr data idField) ∧
        Entries.getStr data' idField = Heap.rename L.move (Entries.getStr data idField) ∧
        ∀ f ∈ L.catalog.schemaOf cls,
          L.Like full U h h' (.decoded f.2) (Entries.getStr data f.1) (Entries.getStr data' f.1) ∧
          ((∃ e, Loading.rawField raw f.1 = .error e ∧
              (L.strict → Loading.rawField raw' f.1 = .error e)) ∨
            Loading.rawField raw f.1 = .ok (Entries.getStr data f.1) ∧
            Loading.rawField raw' f.1 = .ok (Entries.getStr data' f.1)) := by
    refine same.data.imp_right ?_
    rintro ⟨es, hes, hes', parts⟩
    refine ⟨es, _, hes, hes', (parts idField).steady, Entries.getStr_renameEntries es idField,
      fun f _ => ?_⟩
    rw [Entries.getStr_renameEntries, same.value, Loading.rawField_rename]
    refine ⟨.same (parts f.1), ?_⟩
    cases hx : Loading.rawField raw f.1 with
    | error e => exact .inl ⟨e, rfl, fun _ => rfl⟩
    | ok x =>
      obtain rfl := Catalog.eq_getStr_of_rawField hx hes
      exact .inr ⟨rfl, rfl⟩
  cases like with
  | same same => exact of_same same
  | rephrased part inert inert' re =>
    cases re with
    | same => exact of_same (same_of_inert inert)
    | entity hes hes' strictly laxly same all =>
      rw [Construction.entriesOf_of_inert inert [] h] at hes
      rw [Construction.entriesOf_of_inert inert' [] h'] at hes'
      have parts := Construction.inert_of_entriesOf inert hes
      have parts' := Construction.inert_of_entriesOf inert' hes'
      have id := Value.inert_getStr parts idField
      refine .inr ⟨_, _, hes, hes', steady_of_inert id, ?_, fun f hf =>
        ⟨.rephrased part (Value.inert_getStr parts f.1) (Value.inert_getStr parts' f.1)
          (all f hf), ?_⟩⟩
      · rw [← same, Heap.rename_of_inert _ _ id]
      · rw [Loading.rawField_eq hes, Loading.rawField_eq hes']
        by_cases strict : L.strict
        · obtain ⟨some, truthy⟩ := strictly strict
          rw [some, truthy]
          split
          · exact .inl ⟨_, rfl, fun _ => rfl⟩
          · exact .inr ⟨rfl, rfl⟩
        · rw [laxly strict]
          split
          · exact .inl ⟨_, rfl, fun h => absurd h strict⟩
          · exact .inr ⟨rfl, rfl⟩

/-- **What a checker that produces no entities is given is the same**, or makes the same moment. -/
theorem plain (like : L.Like full U h h' (.decoded c) raw raw') (hc : c.producesEntity = false) :
    L.Same U h h' raw raw' ∨ ∃ r, c = .date r ∧ raw.Inert ∧ raw'.Inert ∧
      ∀ names, raw'.toMoment names = raw.toMoment names := by
  cases like with
  | same same => exact .inl same
  | rephrased _ inert inert' re =>
    cases re with
    | same => exact .inl (same_of_inert inert)
    | date r same => exact .inr ⟨r, rfl, inert, inert', same⟩
    | payload | embedded => cases hc
    | array r producing | dictionary r producing => cases producing.symm.trans hc

/-- **What an embedded reference is given** is there in both runs or in neither, and alike for
its class. -/
theorem entered (like : L.Like full U h h' (.decoded (.reference t e r)) raw raw')
    (lazy : e.truthy = false) : raw.isNull = raw'.isNull ∧
      ∀ cls, L.catalog.resolve t = .ok cls → L.Like full U h h' (.entity cls) raw raw' := by
  cases like with
  | same same => exact ⟨by rw [same.value, Value.isNull_rename], fun _ _ => .same same⟩
  | rephrased part inert inert' re =>
    cases re with
    | same => exact ⟨rfl, fun _ _ => .same (same_of_inert inert)⟩
    | payload r eager => cases eager.symm.trans lazy
    | embedded r _ there entity =>
      exact ⟨there, fun cls hcls => .rephrased part inert inert' (entity cls hcls)⟩

/-- **What an eager reference is given** is the same, or a payload for the same entity. -/
theorem fetched (like : L.Like full U h h' (.decoded (.reference t e r)) raw raw')
    (eager : e.truthy = true) :
    L.Same U h h' raw raw' ∨ raw.Inert ∧ raw'.Inert ∧ L.sought t raw raw' := by
  cases like with
  | same same => exact .inl same
  | rephrased _ inert inert' re =>
    cases re with
    | same => exact .inl (same_of_inert inert)
    | payload r _ sought => exact .inr ⟨inert, inert', sought⟩
    | embedded r lazy => cases eager.symm.trans lazy

/-- Alike values are an object that is kept, or neither is an object. -/
theorem object_cases (like : L.Like full U h h' subject raw raw') :
    (∃ a, raw = .object a ∧ raw' = .object (L.move a) ∧ L.Same U h h' raw raw') ∨
      (∀ a, raw ≠ .object a) ∧ ∀ a, raw' ≠ .object a := by
  cases like with
  | same same =>
    cases raw with
    | object a => exact .inl ⟨a, rfl, same.value, same⟩
    | method o n =>
      rw [same.value]
      cases o <;> exact .inr ⟨nofun, nofun⟩
    | _ =>
      rw [same.value]
      exact .inr ⟨nofun, nofun⟩
  | rephrased _ inert inert' _ => exact .inr ⟨inert.ne_object, inert'.ne_object⟩

end Like

end Pairing

end EntitySchema
