/-
**Loading what was told.**

What is found among records tells the identifier that it carries, and the same is found again if
that is one under which it is found.  An entity that was only constructed tells the deferred fields
as they were given, so what it tells loads to what its own raw data would have been loaded to.

Main definitions:

* `Catalog.Identified` — **what is found carries an identifier under which it is found.**

Main results:

* `Checker.treeWith_form` — what is told of what a checker makes, it makes into the same;
* `Catalog.loaded_form_of_built` — **the raw form of what is constructed loads as what it was
  constructed from.**
-/

import EntitySchema.Proofs.RawForm

set_option autoImplicit false

namespace EntitySchema

/-- What is found carries an identifier under which it is found, and which is data. -/
def Catalog.Identified (look : Lookups) : Prop := ∀ cls id es, look cls id = some es →
  (Entries.getStr es idField).isNull = false ∧ (Entries.getStr es idField).IsData ∧
    look cls (Entries.getStr es idField) = some es

/-- The raw form of a date that was read is read as the same date. -/
theorem Value.toMoment_encoded {raw v : Value} (hraw : raw.IsData)
    (h : raw.toMoment (fun _ => "") = .ok v) :
    v.encoded.IsData ∧ v.encoded.toMoment (fun _ => "") = .ok v := by
  rcases Catalog.toMoment_of_isData hraw h with ⟨-, rfl⟩ | ⟨m, rfl, -⟩
  · exact ⟨isData_null, rfl⟩
  · exact ⟨isData_str _, toMoment_isoText (readable_of_toMoment hraw h) _⟩

theorem mem_zip_swap {α β : Type} {xs : List α} {ys : List β} {p : α × β} (hp : p ∈ xs.zip ys) :
    p.swap ∈ ys.zip xs := by
  rw [← List.zip_swap]
  exact List.mem_map_of_mem hp

/-- What is made of the members of a list in two ways, member by member. -/
theorem forall_zip_of_mapM {α β γ : Type} {o : α → Option β} {o' : α → Option γ} {xs : List α}
    {ys : List β} {zs : List γ} {R : γ → β → Prop} (hys : xs.mapM o = some ys)
    (hzs : xs.mapM o' = some zs)
    (h : ∀ x ∈ xs, ∀ y z, o x = some y → o' x = some z → R z y) :
    zs.length = ys.length ∧ ∀ p ∈ zs.zip ys, R p.1 p.2 := by
  obtain ⟨size, all⟩ := mapM_eq_some_iff.1 hys
  obtain ⟨size', all'⟩ := mapM_eq_some_iff.1 hzs
  refine ⟨size'.symm.trans size, fun p hp => ?_⟩
  obtain ⟨x, hz, hy⟩ := exists_mem_zip_zip size'.symm size.symm hp
  exact h x (List.of_mem_zip hz).2 _ _ (all _ (mem_zip_swap hy)) (all' _ (mem_zip_swap hz))

/-- What is made of each of a list, if each is made of what its companion was turned into. -/
theorem mapM_map_eq_some {α β γ : Type} {o : β → Option α} {k : γ → β} {xs : List α} {ys : List γ}
    (size : ys.length = xs.length) (h : ∀ p ∈ ys.zip xs, o (k p.1) = some p.2) :
    (ys.map k).mapM o = some xs := by
  refine mapM_eq_some_iff.2 ⟨by simpa using size, fun p hp => ?_⟩
  rw [List.zip_map_left] at hp
  obtain ⟨q, hq, rfl⟩ := List.mem_map.1 hp
  exact h q hq

/-! ### Raw values -/

namespace Checker

variable {g : Catalog} {enter enter' seek seek' : ClassId → Value → Option Tree} {target : Target}
  {raw : Value} {t u : Tree}

/-- What an eager reference finds, it finds again under the identifier that is told. -/
theorem fetchTree_form
    (hseek : ∀ cls id t u, seek cls id = some t → seek' cls id = some u →
      t = .leaf .null ∧ u = .leaf .null ∨
        ∃ own : Value, u.form g true = .dict [(.str idField, own)] ∧
        own.isNull = false ∧ own.IsData ∧ seek cls own = some t)
    (ht : fetchTree g seek target raw = some t) (hu : fetchTree g seek' target raw = some u) :
    (u.form g true).IsData ∧ fetchTree g seek target (u.form g true) = some t := by
  unfold fetchTree at ht hu
  split at ht
  · next named =>
    rw [if_pos named] at hu
    obtain ⟨cls, hcls, ht⟩ := Option.bind_eq_some_iff.1 ht
    obtain ⟨cls', hcls', hu⟩ := Option.bind_eq_some_iff.1 hu
    cases hcls.symm.trans hcls'
    rcases hseek cls _ t u ht hu with ⟨rfl, rfl⟩ | ⟨own, form, there, data, found⟩
    · exact ⟨Value.isData_null, rfl⟩
    · have carried : identifierIn (.dict [(.str idField, own)]) = own := rfl
      rw [form]
      refine ⟨.dict (by simp [Value.isAtom]) (by simpa using data)
        (List.pairwise_singleton _ _), ?_⟩
      rw [fetchTree, carried, there, hcls]
      exact found
  · next unnamed =>
    rw [if_neg unnamed] at hu
    cases ht
    cases hu
    exact ⟨Value.isData_null, rfl⟩

/-- What an embedded reference enters, it enters again in the raw data that are told. -/
theorem enterTree_form
    (henter : ∀ cls x t u, x.IsData → enter cls x = some t → enter' cls x = some u →
      (u.form g false).IsData ∧ (u.form g false).isNull = false ∧
        enter cls (u.form g false) = some t) (hraw : raw.IsData)
    (ht : enterTree g enter target raw = some t) (hu : enterTree g enter' target raw = some u) :
    (u.form g false).IsData ∧ enterTree g enter target (u.form g false) = some t := by
  unfold enterTree at ht hu
  split at ht
  · next absent =>
    rw [if_pos absent] at hu
    cases ht
    cases hu
    exact ⟨Value.isData_null, rfl⟩
  · next there =>
    rw [if_neg there] at hu
    obtain ⟨cls, hcls, ht⟩ := Option.bind_eq_some_iff.1 ht
    obtain ⟨cls', hcls', hu⟩ := Option.bind_eq_some_iff.1 hu
    cases hcls.symm.trans hcls'
    obtain ⟨data, there, again⟩ := henter cls raw t u hraw ht hu
    refine ⟨data, ?_⟩
    rw [enterTree, there, if_neg Bool.false_ne_true, hcls]
    exact again

/-- **The raw form of what a checker makes of data** is data.  If entities are entered and found in
two ways, and what is told of those of the second makes those of the first, then what is told of all
that the checker makes in the second way, it makes in the first into what it made there. -/
theorem treeWith_form
    (henter : ∀ cls x t u, x.IsData → enter cls x = some t → enter' cls x = some u →
      (u.form g false).IsData ∧ (u.form g false).isNull = false ∧
        enter cls (u.form g false) = some t)
    (hseek : ∀ cls id t u, seek cls id = some t → seek' cls id = some u →
      t = .leaf .null ∧ u = .leaf .null ∨
        ∃ own : Value, u.form g true = .dict [(.str idField, own)] ∧
        own.isNull = false ∧ own.IsData ∧ seek cls own = some t) : (c : Checker) → (raw : Value) →
      raw.IsData → ∀ t u, treeWith g enter seek c raw = some t →
        treeWith g enter' seek' c raw = some u → (u.form g c.deferred).IsData ∧
          treeWith g enter seek c (u.form g c.deferred) = some t
  | .scalar _ _ _, raw, hraw, t, u, ht, hu | .shape _ _, raw, hraw, t, u, ht, hu => by
    cases ht
    cases hu
    rw [Tree.form, Value.encoded_of_isData hraw]
    exact ⟨hraw, rfl⟩
  | .date r, raw, hraw, t, u, ht, hu => by
    obtain rfl : t = u := Option.some.inj (ht.symm.trans hu)
    obtain ⟨v, hv, ht⟩ := Option.bind_eq_some_iff.1 ht
    cases ht
    -- a moment is told as text, which is read as the same moment
    obtain ⟨data, again⟩ := Value.toMoment_encoded hraw (toOption_eq_some_iff.1 hv)
    refine ⟨data, ?_⟩
    rw [Tree.form, treeWith, again]
    rfl
  | .reference target e r, raw, hraw, t, u, ht, hu => by
    rw [treeWith] at ht hu
    rw [treeWith, deferred]
    cases he : e.truthy with
    | true =>
      rw [he, if_pos rfl] at ht hu
      exact fetchTree_form hseek ht hu
    | false =>
      rw [he, if_neg Bool.false_ne_true] at ht hu
      exact enterTree_form henter hraw ht hu
  | .arrayOf c r, raw, hraw, t, u, ht, hu => by
    rw [treeWith_arrayOf] at ht hu
    obtain ⟨items, hitems, ht⟩ := Option.bind_eq_some_iff.1 ht
    obtain ⟨ts, hts, ht⟩ := Option.bind_eq_some_iff.1 ht
    rw [hitems, Option.bind_some] at hu
    obtain ⟨us, hus, hu⟩ := Option.bind_eq_some_iff.1 hu
    cases ht
    cases hu
    have data := isData_of_itemsOf hraw (toOption_eq_some_iff.1 hitems)
    obtain ⟨size, each⟩ := forall_zip_of_mapM hts hus fun x hx t u ht hu =>
      treeWith_form henter hseek c x (data x hx) t u ht hu
    rw [deferred, Tree.form, Tree.forms_eq_map]
    refine ⟨.list (List.forall_mem_map.2 fun u hu => ?_), ?_⟩
    · obtain ⟨t, ht⟩ := exists_mem_zip_of_mem_left size hu
      exact (each _ ht).1
    · rw [treeWith_arrayOf]
      exact congrArg (Option.bind · _) (mapM_map_eq_some size fun p hp => (each p hp).2)
  | .dictOf c r, raw, hraw, t, u, ht, hu => by
    rw [treeWith_dictOf] at ht hu
    obtain ⟨es, hes, ht⟩ := Option.bind_eq_some_iff.1 ht
    obtain ⟨ts, hts, ht⟩ := Option.bind_eq_some_iff.1 ht
    rw [hes, Option.bind_some] at hu
    obtain ⟨us, hus, hu⟩ := Option.bind_eq_some_iff.1 hu
    cases ht
    cases hu
    have data := isData_of_entriesOf hraw (toOption_eq_some_iff.1 hes)
    obtain ⟨size, each⟩ := forall_zip_of_mapM hts hus fun x hx t u ht hu => by
      obtain ⟨p, hp, rfl⟩ := List.mem_map.1 hx
      exact treeWith_form henter hseek c p.2 (data.value hp) t u ht hu
    have keyed : (es.map Prod.fst).length = (us.map (Tree.form g c.deferred)).length := by
      simpa using (mapM_eq_some_iff.1 hus).1
    rw [deferred, Tree.form, Tree.forms_eq_map]
    refine ⟨data.with_values (by simpa using keyed) (List.forall_mem_map.2 fun u hu => ?_), ?_⟩
    · obtain ⟨t, ht⟩ := exists_mem_zip_of_mem_left size hu
      exact (each _ ht).1
    · have entries :
        entriesOf [] (.dict ((es.map Prod.fst).zip (us.map (Tree.form g c.deferred)))) =
          .ok ((es.map Prod.fst).zip (us.map (Tree.form g c.deferred))) := rfl
      have again := mapM_map_eq_some size fun p hp => (each p hp).2
      rw [treeWith_dictOf, entries, Except.toOption, Option.bind_some, List.map_snd_zip keyed.ge,
        List.map_fst_zip keyed.le]
      exact congrArg (Option.bind · _) again

end Checker

/-! ### Entities -/

namespace Catalog

variable {g : Catalog} {look : Lookups}

/-- Raw data with an identifier and a raw value for each field load as other raw data did, if they
have the same identifier and the checkers make the same of their raw values. -/
theorem loaded_rawEntries (hg : g.WellFormed) {fuel : Nat} {cls : ClassId} {raw : Value}
    {data : Entries}
    {trees : String → Tree} (hdata : Construction.entriesOf [] raw = .ok data) (known : raw.IsData)
    (htrees :
      fieldTrees (loadedField g (g.loaded look fuel) (foundWith look (g.loaded look fuel)) raw
      data) (g.schemaOf cls) = some trees) {w : String → Value}
    (each : ∀ f ∈ g.schemaOf cls, (w f.1).IsData ∧ if f.2.decodes then
      Checker.treeWith g (g.loaded look fuel) (foundWith look (g.loaded look fuel)) f.2 (w f.1) =
        some (trees f.1) else trees f.1 = .leaf (w f.1)) :
    (Value.dict
      (rawEntries (Entries.getStr data idField) (Table.names (g.schemaOf cls)) w)).IsData ∧
      g.loaded look (fuel + 1) cls
        (.dict (rawEntries (Entries.getStr data idField) (Table.names (g.schemaOf cls)) w)) =
          some (.entity cls (Entries.getStr data idField) [] trees) := by
  have hid := hg.id_not_mem cls
  have parts := Construction.isData_of_entriesOf known hdata
  refine ⟨isData_rawEntries (hg.nodup cls) hid (Entries.isData_getStr parts idField)
    (List.forall_mem_map.2 fun f hf => (each f hf).1), ?_⟩
  have again := Construction.entriesOf_dict []
    (rawEntries (Entries.getStr data idField) (Table.names (g.schemaOf cls)) w)
  refine loaded_succ_eq_some.2 ⟨_, trees, again, ?_, ?_⟩
  · refine (fieldTrees_congr fun f hf => ?_).trans htrees
    have hname : f.1 ∈ Table.names (g.schemaOf cls) := List.mem_map_of_mem hf
    rw [eq_of_fieldTrees (hg.nodup cls) htrees f hf, loadedField_eq_some again,
      getStr_rawEntries_field hname hid]
    exact ⟨fun _ => congrArg Except.ok (getStr_rawEntries_field hname hid), (each f hf).2⟩
  · rw [getStr_rawEntries_id hid]

/-- An entity that is constructed tells a deferred field as it was given, and any other as it was
made. -/
theorem fieldForm_of_builtField {data : Entries} {fs : Schema} (hn : (Table.names fs).Nodup)
    {f : String × Checker} (hf : f ∈ fs) {enter : ClassId → Value → Option Tree} {t : Tree}
    (made : builtField g enter data f = some t) :
    Tree.fieldForm (Construction.asideEntries data fs) f.1 t (t.form g f.2.deferred) =
      if f.2.deferred then Entries.getStr data f.1 else t.form g false := by
  have aside : Entries.getStr? (Construction.asideEntries data fs) f.1 = _ :=
    Construction.getStr?_asideEntries hn hf
  unfold builtField at made
  unfold Tree.fieldForm
  rw [aside]
  cases hd : f.2.deferred with
  | true =>
    rw [if_pos hd] at made
    rw [← Option.some.inj made]
    cases Entries.getStr data f.1 <;> rfl
  | false => exact ite_self _

/-- **The raw form of an entity that is constructed from data** loads as the data do: what is put
aside is told as it was given, and the rest is told as it is made. -/
theorem loaded_form_of_built (hg : g.WellFormed) : ∀ (fuel : Nat) (cls : ClassId) (raw : Value)
    (t u : Tree), raw.IsData → g.loaded look fuel cls raw = some t → g.built fuel cls raw = some u →
      (u.form g false).IsData ∧ (u.form g false).isNull = false ∧
        g.loaded look fuel cls (u.form g false) = some t
  | 0, _, _, _, _, _, ht, _ => nomatch ht
  | fuel + 1, cls, raw, t, u, hraw, ht, hu => by
    obtain ⟨data, trees, hdata, htrees, rfl⟩ := loaded_succ_eq_some.1 ht
    obtain ⟨data', trees', hdata', htrees', rfl⟩ := built_succ_eq_some.1 hu
    cases hdata.symm.trans hdata'
    have parts := Construction.isData_of_entriesOf hraw hdata
    generalize hform :
      (fun name => Tree.fieldForm (Construction.asideEntries data (g.schemaOf cls)) name
      (trees' name) ((trees' name).form g (g.defers cls name))) = w
    have form : (Tree.entity cls (Entries.getStr data idField)
        (Construction.asideEntries data (g.schemaOf cls)) trees').form g false =
        .dict (rawEntries (Entries.getStr data idField) (Table.names (g.schemaOf cls)) w) := by
      rw [Tree.form, if_neg Bool.false_ne_true, hform]
    have each : ∀ f ∈ g.schemaOf cls, (w f.1).IsData ∧ if f.2.decodes then
        Checker.treeWith g (g.loaded look fuel) (foundWith look (g.loaded look fuel)) f.2 (w f.1) =
          some (trees f.1) else trees f.1 = .leaf (w f.1) := by
      intro f hf
      have value := Entries.isData_getStr parts f.1
      obtain ⟨-, told⟩ :=
        (loadedField_eq_some hdata).1 (eq_of_fieldTrees (hg.nodup cls) htrees f hf)
      have made := eq_of_fieldTrees (hg.nodup cls) htrees' f hf
      have field : w f.1 = if f.2.deferred then Entries.getStr data f.1
          else (trees' f.1).form g false := by
        rw [← fieldForm_of_builtField (hg.nodup cls) hf made, ← defers_of_mem hg hf, ← hform]
      rw [field]
      unfold builtField at made
      cases hd : f.2.deferred with
      | true =>
        rw [if_pos (Checker.decodes_of_producesEntity (Checker.producesEntity_of_deferred _ hd))]
          at told ⊢
        exact ⟨value, told⟩
      | false =>
        rw [hd, if_neg Bool.false_ne_true] at made
        rw [if_neg Bool.false_ne_true]
        split at told
        · next hdec =>
          rw [if_pos hdec] at made ⊢
          rw [← hd]
          refine Checker.treeWith_form ?_ ?_ f.2 _ value _ _ told made
          · exact fun c x t u hx ht hu => loaded_form_of_built hg fuel c x t u hx ht hu
          · exact fun c id t u _ hu => by cases hu
        · next hdec =>
          rw [if_neg hdec] at made ⊢
          rw [← Option.some.inj made, told, Tree.form, Value.encoded_of_isData value]
          exact ⟨value, rfl⟩
    obtain ⟨isData, again⟩ := loaded_rawEntries hg hdata hraw htrees each
    rw [form]
    exact ⟨isData, rfl, again⟩

end Catalog

end EntitySchema
