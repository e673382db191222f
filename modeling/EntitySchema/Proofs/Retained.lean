/-
**What becomes of references when a record is found and saved again.**

Finding a record looks up what its eager references refer to, and saving what was found stores the
identifiers of what was looked up.  So a reference is kept where what it refers to is there, and
where nothing is found the reference is lost: nothing is put aside for it any more.

Main definitions:

* `Catalog.Retains` — **raw data that refer, position by position, to what is there among what other
  raw data refer to.**

Main results:

* `Catalog.retains_form` — the raw form of what is loaded retains the references;
* `Loading.retained_of_find` — **a record that is found and saved again** retains its references to
  what is there.
-/

import EntitySchema.Proofs.SavedReferences

set_option autoImplicit false

namespace EntitySchema

/-- Raw data that refer, position by position, to what is there among what other raw data refer to,
for given look-ups.

In the place of an eager reference that carries no identifier there is nothing, and nothing is in
the place of one under whose identifier nothing is found.  Else there is the identifier of what is
found, which has the same text.  An array has as many items and a dictionary the same keys; and what
is embedded is gone through in turn. -/
inductive Catalog.Retains (g : Catalog) (look : Lookups) : Subject → Value → Value → Prop
  | entity {cls : ClassId} {raw raw' : Value} {data data' : Entries} :
      Construction.entriesOf [] raw = .ok data → Construction.entriesOf [] raw' = .ok data' →
      (∀ f ∈ g.schemaOf cls, f.2.producesEntity = true →
        Retains g look (.decoded f.2) (Entries.getStr data f.1) (Entries.getStr data' f.1)) →
      Retains g look (.entity cls) raw raw'
  | absent {t : Target} {e raw : Value} (r : Bool) : e.truthy = true →
      (Checker.identifierIn raw).isNull = true →
      Retains g look (.decoded (.reference t e r)) raw .null
  | missing {t : Target} {e raw : Value} {w : ClassId} (r : Bool) : e.truthy = true →
      g.resolve t = .ok w → look w (Checker.identifierIn raw) = none →
      Retains g look (.decoded (.reference t e r)) raw .null
  | found {t : Target} {e raw own : Value} {w : ClassId} {es : Entries} (r : Bool) :
      e.truthy = true → g.resolve t = .ok w → look w (Checker.identifierIn raw) = some es →
      own.toText = (Checker.identifierIn raw).toText →
      Retains g look (.decoded (.reference t e r)) raw (.dict [(.str idField, own)])
  | noEntity {t : Target} {e raw : Value} (r : Bool) : e.truthy = false → raw.isNull = true →
      Retains g look (.decoded (.reference t e r)) raw .null
  | embedded {t : Target} {e raw raw' : Value} {w : ClassId} (r : Bool) : e.truthy = false →
      g.resolve t = .ok w → Retains g look (.entity w) raw raw' →
      Retains g look (.decoded (.reference t e r)) raw raw'
  | array {c : Checker} {raw : Value} {xs ys : List Value} (r : Bool) :
      Checker.itemsOf raw = .ok xs → xs.length = ys.length →
      (∀ p ∈ xs.zip ys, Retains g look (.decoded c) p.1 p.2) →
      Retains g look (.decoded (.arrayOf c r)) raw (.list ys)
  | dictionary {c : Checker} {raw : Value} {es fs : Entries} (r : Bool) :
      Checker.entriesOf [] raw = .ok es → es.map Prod.fst = fs.map Prod.fst →
      (∀ p ∈ (es.map Prod.snd).zip (fs.map Prod.snd), Retains g look (.decoded c) p.1 p.2) →
      Retains g look (.decoded (.dictOf c r)) raw (.dict fs)

/-! ### Raw forms -/

section

variable {g : Catalog} {look : Lookups}

/-- What is found carries an identifier with the text under which it is found. -/
def Lookups.Named (look : Lookups) : Prop :=
  ∀ cls id es, look cls id = some es → (Entries.getStr es idField).toText = id.toText

/-- The members of a list and what is made of what is loaded of them, one after the other. -/
theorem exists_mem_zip_map {α β γ : Type} {o : α → Option β} {k : β → γ} {xs : List α} {ys : List β}
    (h : xs.mapM o = some ys) {p : α × γ} (hp : p ∈ xs.zip (ys.map k)) :
    ∃ y, o p.1 = some y ∧ p.2 = k y := by
  rw [List.zip_map_right] at hp
  obtain ⟨q, hq, rfl⟩ := List.mem_map.1 hp
  exact ⟨q.2, (mapM_eq_some_iff.1 h).2 q hq, rfl⟩

namespace Checker

variable {enter seek : ClassId → Value → Option Tree}

/-- **The raw form of what a checker makes** retains the references, if that holds of the entities
that it enters, and if what it finds tells the identifier in the record. -/
theorem retains_form (named : look.Named)
    (henter : ∀ cls x t, enter cls x = some t → g.Retains look (.entity cls) x (t.form g false))
    (hseek : ∀ cls id t, seek cls id = some t → look cls id = none ∧ t = .leaf .null ∨
      ∃ es, look cls id = some es ∧
        t.form g true = .dict [(.str idField, Entries.getStr es idField)]) :
    (c : Checker) → c.producesEntity = true → (raw : Value) → ∀ t,
      treeWith g enter seek c raw = some t → g.Retains look (.decoded c) raw (t.form g c.deferred)
  | .reference target e r, _, raw, t, ht => by
    rw [treeWith] at ht
    rw [deferred]
    cases he : e.truthy with
    | true =>
      rw [he, if_pos rfl] at ht
      unfold fetchTree at ht
      split at ht
      · obtain ⟨w, hw, ht⟩ := Option.bind_eq_some_iff.1 ht
        have resolved := toOption_eq_some_iff.1 hw
        -- there is an identifier, and it is looked up
        rcases hseek w _ t ht with ⟨none, rfl⟩ | ⟨es, some, form⟩
        · exact .missing r he resolved none
        · rw [form]
          exact .found r he resolved some (named _ _ _ some)
      · next given =>
        cases ht
        -- nothing is looked up just if the payload carries no identifier
        refine .absent r he ?_
        by_contra there
        refine given (Bool.and_eq_true_iff.2 ⟨?_, by simpa using there⟩)
        by_contra falsy
        exact there (isNull_identifierIn_of_falsy (Bool.eq_false_of_not_eq_true falsy))
    | false =>
      rw [he, if_neg Bool.false_ne_true] at ht
      unfold enterTree at ht
      split at ht
      · next none =>
        cases ht
        exact .noEntity r he none
      · obtain ⟨w, hw, ht⟩ := Option.bind_eq_some_iff.1 ht
        exact .embedded r he (toOption_eq_some_iff.1 hw) (henter w raw t ht)
  | .arrayOf c r, hp, raw, t, ht => by
    rw [treeWith_arrayOf] at ht
    obtain ⟨items, hitems, ht⟩ := Option.bind_eq_some_iff.1 ht
    obtain ⟨ts, hts, ht⟩ := Option.bind_eq_some_iff.1 ht
    cases ht
    rw [deferred, Tree.form, Tree.forms_eq_map]
    refine .array r (toOption_eq_some_iff.1 hitems) ?_ fun p hp' => ?_
    · rw [List.length_map]
      exact (mapM_eq_some_iff.1 hts).1
    · obtain ⟨u, hu, form⟩ := exists_mem_zip_map hts hp'
      rw [form]
      exact retains_form named henter hseek c hp p.1 u hu
  | .dictOf c r, hp, raw, t, ht => by
    rw [treeWith_dictOf] at ht
    obtain ⟨es, hes, ht⟩ := Option.bind_eq_some_iff.1 ht
    obtain ⟨ts, hts, ht⟩ := Option.bind_eq_some_iff.1 ht
    cases ht
    have size : (es.map Prod.fst).length = (ts.map (Tree.form g c.deferred)).length := by
      simpa using (mapM_eq_some_iff.1 hts).1
    rw [deferred, Tree.form, Tree.forms_eq_map]
    refine .dictionary r (toOption_eq_some_iff.1 hes) (List.map_fst_zip size.le).symm fun p hp' =>
      ?_
    rw [List.map_snd_zip size.ge] at hp'
    obtain ⟨u, hu, form⟩ := exists_mem_zip_map hts hp'
    rw [form]
    exact retains_form named henter hseek c hp p.1 u hu

end Checker

namespace Catalog

/-- What is found tells the identifier in the record. -/
theorem form_of_foundWith (hg : g.WellFormed) {fuel : Nat} {cls : ClassId} {id : Value} {t : Tree}
    (ht : foundWith look (g.loaded look fuel) cls id = some t) :
    look cls id = none ∧ t = .leaf .null ∨ ∃ es, look cls id = some es ∧
      t.form g true = .dict [(.str idField, Entries.getStr es idField)] := by
  unfold foundWith at ht
  split at ht
  · next none => exact .inl ⟨none, (Option.some.inj ht).symm⟩
  · next es hes =>
    obtain ⟨trees, _, rfl, -⟩ := exists_of_loaded_dict hg ht
    exact .inr ⟨es, hes, rfl⟩

/-- **The raw form of what is loaded retains the references** of the raw data. -/
theorem retains_form (hg : g.WellFormed) (named : look.Named) : ∀ (fuel : Nat) (cls : ClassId)
    (raw : Value) (t : Tree), g.loaded look fuel cls raw = some t →
      g.Retains look (.entity cls) raw (t.form g false)
  | 0, _, _, _, ht => nomatch ht
  | fuel + 1, cls, raw, t, ht => by
    obtain ⟨data, trees, hdata, htrees, rfl⟩ := loaded_succ_eq_some.1 ht
    have form : (Tree.entity cls (Entries.getStr data idField) [] trees).form g false =
        .dict (rawEntries (Entries.getStr data idField) (Table.names (g.schemaOf cls)) fun name =>
          (trees name).form g (g.defers cls name)) := by
      rw [Tree.form, if_neg Bool.false_ne_true]
      -- nothing is put aside
      simp only [Tree.fieldForm, Entries.getStr?_nil, Option.getD_none, ite_self]
    rw [form]
    refine .entity hdata (Construction.entriesOf_dict [] _) fun f hf hp => ?_
    have hname : f.1 ∈ Table.names (g.schemaOf cls) := List.mem_map_of_mem hf
    obtain ⟨-, told⟩ := (loadedField_eq_some hdata).1 (eq_of_fieldTrees (hg.nodup cls) htrees f hf)
    rw [if_pos (Checker.decodes_of_producesEntity hp)] at told
    rw [getStr_rawEntries_field hname (hg.id_not_mem cls), defers_of_mem hg hf]
    exact Checker.retains_form named (retains_form hg named fuel)
      (fun _ _ _ hu => form_of_foundWith hg hu) f.2 hp _ _ told

/-- Data under names that carry the fields of others retain what they do. -/
theorem Retains.of_carried {cls : ClassId} {raw : Value} {es ds : Entries}
    (h : g.Retains look (.entity cls) raw (.dict es))
    (same : ∀ f ∈ g.schemaOf cls, Entries.getStr ds f.1 = Entries.getStr es f.1) :
    g.Retains look (.entity cls) raw (.dict ds) := by
  cases h with
  | entity hdata hdata' fields =>
    cases (Construction.entriesOf_dict [] es).symm.trans hdata'
    refine .entity hdata (Construction.entriesOf_dict [] ds) fun f hf hp => ?_
    rw [same f hf]
    exact fields f hf hp

end Catalog

end

/-! ### Finding and saving -/

namespace Loading

open Session

variable {s s₁ s₂ s₃ : Session} {cls : ClassId} {i : StoreId} {rs rs₂ : List Record}

/-- **A record that is found and saved again** retains, at every position, its reference to what is
there, and none to what is not.  The store was filled only by saving; between finding and saving
nothing that was found is touched, whatever becomes of the store.  In a file the keys of what is
told have to be texts. -/
theorem retained_of_find (hg : s.catalog.WellFormed) (filled : Filled i rs s)
    (draws : s.DrawsOn cls i rs) (held : s.inFile i = false → ∀ r ∈ rs, (Value.dict r.data).Inert)
    {id : Value} (hid : id.Inert) {es : Entries}
    (there : MemoryStore.get? rs ⟨.text (s.catalog.kindOf cls), id.toText⟩ = some es) {a : Address}
    (found : outcome (find cls id) s = (.ok (.object a), s₁))
    (plain : s.inFile i = true → ∀ d, Method.toRaw s.catalog s₁.heap a = .ok d → d.isPlain = true)
    (catalog : s₂.catalog = s.catalog) (kept : s₁.heap <+: s₂.heap) (uses : s₂.Uses i cls)
    (place : s₂.inFile i = s.inFile i) (keeps₂ : s₂.Keeps i rs₂) {v : Value}
    (saved : outcome (Persistence.save (.object a)) s₂ = (.ok v, s₃)) :
    ∃ rs₃ ds, s₃.Keeps i rs₃ ∧
      MemoryStore.get? rs₃ ⟨.text (s.catalog.kindOf cls), id.toText⟩ = some ds ∧
      s.catalog.Retains (s.catalog.lookIn rs) (.entity cls) (.dict es) (.dict ds) := by
  have signed := filled.signed
  have inert := filled.inert held
  have named : Lookups.Named (s.catalog.lookIn rs) := by
    intro c own data hlook
    obtain ⟨r, hr, rfl, key⟩ := Catalog.exists_of_lookIn hlook
    rw [(signed r hr).1.key, key]
  obtain ⟨own, ownPlain, ownText⟩ : (Entries.getStr es idField).isNull = false ∧
      (Entries.getStr es idField).isPlain = true ∧ (Entries.getStr es idField).toText =
        id.toText := by
    obtain ⟨r, hr, rfl, key⟩ := Catalog.exists_of_lookIn there
    obtain ⟨there, plain, text⟩ := (signed r hr).1
    exact ⟨there, plain, text.trans (by rw [key])⟩
  generalize hcat : s.catalog = g at *
  have finds := refines_find_of_draws hg inert hid hcat draws
  rw [found, Catalog.foundWith, Catalog.lookIn, there] at finds
  obtain ⟨-, ⟨_, t, ⟨⟩, ht, reads⟩ | ⟨⟨e, ⟨⟩⟩, -⟩⟩ := finds
  replace reads := reads.mono (Heap.only_within_self _ s₁.heap)
  have found : ∀ c x data, g.lookIn rs c x = some data → (Value.dict data).Inert := by
    intro c x data hlook
    obtain ⟨r, hr, rfl, -⟩ := Catalog.exists_of_lookIn hlook
    exact inert r hr
  have whole := Catalog.whole_of_loaded hg found _ (found cls id es there) ht
  have retains := Catalog.retains_form hg named _ _ _ _ ht
  obtain ⟨trees, -, rfl, -⟩ := Catalog.exists_of_loaded_dict hg ht
  -- what was found is saved as it is, as it has an identifier
  have reads₂ := reads.mono (.of_extended kept)
  obtain ⟨_, holding, ⟨⟩, hc, -⟩ := reads₂.exists_cell
  have ordinary : Heap.Ordinary s₂.heap a cls (Entries.getStr es idField) := .of_cell hg hc
  obtain ⟨same, sameId⟩ := identified_of_there s₂ a own
  rcases Persistence.save_cases hg catalog uses keeps₂ ordinary with
    ⟨e, s', _, hrun, -⟩ | ⟨name, visit, w, ds, s', hname, -, hraw, -, hrun, carried, tended, -⟩
  · cases hrun.symm.trans saved
  · obtain rfl : s' = s₃ := congrArg Prod.snd (hrun.symm.trans saved)
    rw [same, sameId] at *
    rw [Method.toText_of_inert _ _ (Value.isData_of_isPlain _ ownPlain).inert, ownText] at hname
    cases hname
    refine ⟨_, ds, tended.keeps, MemoryStore.get?_put_self _ _, ?_⟩
    have form := Except.ok.inj (hraw.symm.trans (reads₂.toRaw hg whole))
    rw [← form] at retains
    refine retains.of_carried fun f _ => carried.same f.1 ?_
    rw [place]
    cases hplace : s.inFile i with
    | false =>
      have lasts := whole.inert_form false
      rw [← form] at lasts
      exact Value.inert_getStr lasts f.1
    | true =>
      have told := plain hplace _ (reads.toRaw hg whole)
      rw [← form] at told
      exact Value.isPlain_getStr told f.1

/-- The session after the author was found. -/
def authorFound : Session := (outcome (find 1 (.str "a")) bothSaved).2

/-- The session after the author was saved again. -/
def savedAgain : Session := (outcome (Persistence.save (.object 2)) authorFound).2

/-- What is kept of the author refers to the reader as before. -/
theorem retained_of_find_author : ∃ rs ds, savedAgain.Keeps 0 rs ∧
    MemoryStore.get? rs ⟨.text "Author", "a"⟩ = some ds ∧
    friends.Retains (friends.lookIn bothKept) (.entity 1) (.dict (friendOf "a" "b"))
      (.dict ds) := by
  have reader : Heap.Ordinary acquainted.heap 0 2 (.str "b") := .of_cell wellFormed_friends (by rfl)
  have author : Heap.Ordinary oneSaved.heap 1 1 (.str "a") := .of_cell wellFormed_friends (by rfl)
  have saved₀ : outcome (Persistence.save (.object 0)) acquainted = (.ok (.object 0), oneSaved) :=
    rfl
  have saved : outcome (Persistence.save (.object 1)) oneSaved = (.ok (.object 1), bothSaved) := rfl
  have keeps : bothSaved.Keeps 0 bothKept := .memory rfl
  have filled₀ : Filled 0 readerKept oneSaved := .save (.empty (.memory rfl)) wellFormed_friends
    (.assigned rfl) reader rfl saved₀ (.memory rfl)
  have filled : Filled 0 bothKept bothSaved := .save filled₀ wellFormed_friends (.assigned rfl)
    author rfl saved keeps
  have inert : ∀ r ∈ bothKept, (Value.dict r.data).Inert := fun r hr =>
    (Value.isData_of_isPlain _ (by revert r; decide)).inert
  have draws := drawsOn_friends (s := bothSaved) rfl keeps
  have found : outcome (find 1 (.str "a")) bothSaved = (.ok (.object 2), authorFound) :=
    outcome_eq_of_isObject (by decide +kernel)
  have again : outcome (Persistence.save (.object 2)) authorFound = (.ok (.object 2), savedAgain) :=
    outcome_eq_of_isObject (by decide +kernel)
  -- only objects and time are added by finding
  have follows : bothSaved.Follows authorFound :=
    (refines_find_of_draws wellFormed_friends inert (Value.inert_str "a") rfl draws).1
  have catalog : authorFound.catalog = friends := follows.grows.catalog
  have uses : authorFound.Uses 0 1 := .assigned (by rw [catalog]; rfl)
  have keeps₂ := (draws.follows follows).keeps
  exact retained_of_find wellFormed_friends filled draws (fun _ => inert) (Value.inert_str "a") rfl
    found (fun h => nomatch h) catalog List.prefix_rfl uses (inFile_of_stores follows.grows.stores)
    keeps₂ again

end Loading

end EntitySchema
