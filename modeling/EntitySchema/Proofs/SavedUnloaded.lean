/-
**Saving before loading.**

An entity that was constructed and not loaded has its deferred fields put aside.  Saved, it leaves a
record with the raw values as they were given, which loads to what its raw data would have been
loaded to in the first place.  So to save it before loading is as good as to save it after, but for
two things.  A validation does not look at what is put aside, so a deferred field that is required
fails it.  And if references lead from the raw data back to the record of the entity, what they lead
to is no longer there once the record is overwritten.

Main definitions:

* `Catalog.Reaches` — **the classes and identifiers that a loading looks up.**

Main results:

* `Catalog.loaded_congr` — what is loaded depends on what is looked up alone;
* `Persistence.save_of_reads` — a valid entity that tells data is saved with what it tells;
* `Loading.find_of_unloaded` — **an entity that is saved before it is loaded is found as it would
  have been loaded.**
-/

import EntitySchema.Proofs.ReadBack
import EntitySchema.Proofs.SavedReferences
import EntitySchema.Proofs.Validity

set_option autoImplicit false

namespace EntitySchema

/-! ### What is looked up -/

/-- The classes and identifiers that are looked up when raw data are loaded: those that the raw data
refer to, and those that the records under these lead to. -/
inductive Catalog.Reaches (g : Catalog) (look : Lookups) : ClassId → Value → ClassId → Value → Prop
  | refers {cls d : ClassId} {raw id : Value} : g.Refers cls raw d id → Reaches g look cls raw d id
  | through {cls c d : ClassId} {raw own id : Value} {es : Entries} : g.Refers cls raw c own →
      look c own = some es → Reaches g look c (.dict es) d id → Reaches g look cls raw d id

/-- What embedded raw data lead to the raw data lead to. -/
theorem Catalog.Reaches.embedded {g : Catalog} {look : Lookups} {cls c d : ClassId}
    {raw x id : Value}
    {data : Entries} {f : String × Checker} (hdata : Construction.entriesOf [] raw = .ok data)
    (hf : f ∈ g.schemaOf cls) (entered : Checker.Enters g f.2 (Entries.getStr data f.1) c x)
    (h : g.Reaches look c x d id) : g.Reaches look cls raw d id := by
  cases h with
  | refers h => exact .refers (.embedded hdata hf entered h)
  | through h found rest => exact .through (.embedded hdata hf entered h) found rest

/-- A field is loaded alike in two ways if its checker makes the same tree of the raw value. -/
theorem Catalog.loadedField_congr {g : Catalog}
    {enter enter' seek seek' : ClassId → Value → Option Tree}
    {raw : Value} {data : Entries} (hdata : Construction.entriesOf [] raw = .ok data)
    {f : String × Checker}
    (same : Checker.treeWith g enter seek f.2 (Entries.getStr data f.1) =
      Checker.treeWith g enter' seek' f.2 (Entries.getStr data f.1)) :
    loadedField g enter seek raw data f = loadedField g enter' seek' raw data f := by
  unfold loadedField
  rw [same]
  split
  · cases hx : Loading.rawField raw f.1 with
    | error e => rfl
    | ok x =>
      obtain rfl := eq_getStr_of_rawField hx hdata
      exact same
  · rfl

/-- **What is loaded depends on what is looked up alone.** -/
theorem Catalog.loaded_congr {g : Catalog} {look look' : Lookups} (fuel : Nat) {cls : ClassId}
    {raw : Value} (same : ∀ d id, g.Reaches look cls raw d id → look d id = look' d id) :
    g.loaded look fuel cls raw = g.loaded look' fuel cls raw := by
  induction fuel generalizing cls raw with
  | zero => rfl
  | succ fuel ih =>
    rw [loaded, loaded]
    cases hdata : Construction.entriesOf [] raw with
    | error e => simp only [Except.toOption, Option.bind_eq_bind, Option.bind_none]
    | ok data =>
      have fields : ∀ f ∈ g.schemaOf cls,
          loadedField g (g.loaded look fuel) (foundWith look (g.loaded look fuel)) raw data f =
            loadedField g (g.loaded look' fuel) (foundWith look' (g.loaded look' fuel)) raw
              data f := by
        intro f hf
        refine loadedField_congr hdata
          (Checker.treeWith_congr f.2 _ (fun c x entered => ?_) fun c id named => ?_)
        · exact ih fun d own h => same d own (.embedded hdata hf entered h)
        · have refers : g.Refers cls raw c id := .field hdata hf named
          rw [foundWith, foundWith, ← same c id (.refers refers)]
          split
          · rfl
          · next es hes => exact ih fun d own h => same d own (.through refers hes h)
      simp only [Except.toOption, Option.bind_eq_bind, Option.bind_some, fieldTrees_congr fields]

/-! ### Constructing and saving -/

/-- What is constructed of a dictionary is an entity with the identifier in it. -/
theorem Catalog.exists_of_built_dict {g : Catalog} {fuel : Nat} {cls : ClassId} {data : Entries}
    {t : Tree} (ht : g.built fuel cls (.dict data) = some t) :
    ∃ pending trees, t = .entity cls (Entries.getStr data idField) pending trees := by
  cases fuel with
  | zero => cases ht
  | succ fuel =>
    obtain ⟨data', trees, hdata, -, rfl⟩ := built_succ_eq_some.1 ht
    cases (Construction.entriesOf_dict [] data).symm.trans hdata
    exact ⟨_, trees, rfl⟩

theorem Entries.keptIn_of_plain {inFile : Bool} {es : Entries}
    (plain : inFile = true → (Value.dict es).isPlain = true) : es.keptIn inFile = es := by
  cases inFile with
  | false => rfl
  | true => simp [keptIn, Value.plainForm_of_isPlain (plain rfl), Value.entries?]

namespace Persistence

open Session

variable {g : Catalog} {s : Session} {cls : ClassId} {i : StoreId} {rs : List Record}

/-- What raw data say is constructed of them. -/
theorem construct_of_built (hg : g.WellFormed) (catalog : s.catalog = g) {raw : Value}
    (hraw : raw.Inert) {n : Nat} {t : Tree} (ht : g.built n cls raw = some t) :
    ∃ v s', outcome (construct cls (some raw) []) s = (.ok v, s') ∧ s.Follows s' ∧
      Heap.Reads g s'.heap v t := by
  have tame : g.Tame (g.lookIn []) (g.DrawnInert cls) :=
    g.tame_drawnInert cls (List.forall_mem_nil _)
  have made := Construction.refines_ofRaw tame hg (le_max_right n raw.depth) ⟨hraw, .refl⟩
  rw [Catalog.built_mono (le_max_left n raw.depth) ht] at made
  obtain ⟨v, h, hv, grown, reads⟩ := made.exists_ok s.heap
  rw [← catalog] at hv
  refine ⟨v, { s with heap := h }, ?_, ⟨⟨grown, rfl, rfl, rfl, rfl, rfl⟩, rfl, .refl _⟩,
    reads.mono (Heap.only_within_self _ h)⟩
  rw [outcome_construct]
  exact outcome_build_ok hv

/-- **A valid entity that tells data is saved with what it tells**; in a file that has to
be plain. -/
theorem save_of_reads (hg : g.WellFormed) (catalog : s.catalog = g) (draws : s.DrawsOn cls i rs)
    {a : Address} {id : Value} {pending : Entries} {fields : String → Tree}
    (reads : Heap.Reads g s.heap (.object a) (.entity cls id pending fields))
    (whole : (Tree.entity cls id pending fields).Whole g) (there : id.isNull = false)
    (valid : Method.validate g s.heap a = .ok ⟨⟩) {form : Entries}
    (told : (Tree.entity cls id pending fields).form g false = .dict form)
    (data : (Value.dict form).IsData)
    (plain : s.inFile i = true → (Value.dict form).isPlain = true) :
    ∃ s', outcome (save (.object a)) s = (.ok (.object a), s') ∧ s'.catalog = g ∧
      s'.DrawsOn cls i (MemoryStore.put rs ⟨⟨.text (g.kindOf cls), id.toText⟩, form⟩) := by
  obtain ⟨_, _, ⟨⟩, hc, -⟩ := reads.exists_cell
  have ordinary : Heap.Ordinary s.heap a cls id := .of_cell hg hc
  obtain ⟨same, sameId⟩ := identified_of_there s a there
  have inert : id.Inert := by cases whole with | entity hid _ _ => exact hid
  have raw := reads.toRaw hg whole
  rw [told] at raw
  have keyed : Entries.textKeyed form = true := by
    rw [Tree.form, if_neg Bool.false_ne_true] at told
    cases told
    exact hg.textKeyed_rawData
  obtain ⟨s', saved, served⟩ := save_of_data catalog (draws.uses cls .refl) draws.keeps ordinary
    (by rw [same]; exact valid) (Method.toText_of_inert _ _ (by rw [sameId]; exact inert))
    (by rw [same]; exact raw) keyed data
  rw [same, sameId, Entries.keptIn_of_plain plain] at served
  have catalog' : s'.catalog = s.catalog := served.on.catalog
  refine ⟨s', saved, catalog'.trans catalog, served.keeps, ?_, ?_⟩
  · rw [catalog']
    exact fun d hd => (draws.uses d hd).later served.on
  · rw [catalog']
    exact draws.own

end Persistence

/-! ### Finding what was saved -/

namespace Loading

open Session

variable {s s' s₁ : Session} {cls : ClassId} {i : StoreId} {rs rs' : List Record}

/-- **An entity that is saved before it is loaded is found as it would have been loaded.**  Raw data
with an identifier load to a valid entity.  Then, before or after that, an entity that is
constructed of them and not loaded is valid and is saved, and what is found under its identifier
holds what the loaded entity does, with entities of the same classes and identifiers at every
depth.  No entity in the raw data may have a deferred field that is required; what is looked up may
not lead to the record of the entity itself; and in a file what the entity tells has to be plain. -/
theorem find_of_unloaded (hg : s.catalog.WellFormed) (draws : s.DrawsOn cls i rs)
    (inert : ∀ r ∈ rs, (Value.dict r.data).Inert) {raw : Entries} (hraw : (Value.dict raw).IsData)
    (there : (Entries.getStr raw idField).isNull = false) {a : Address}
    (loaded : outcome (load cls (.dict raw)) s = (.ok (.object a), s₁))
    (valid : Method.validate s.catalog s₁.heap a = .ok ⟨⟩)
    (lenient : ∀ d x, s.catalog.Carries cls (.dict raw) d x → ∀ f ∈ s.catalog.schemaOf d,
      f.2.deferred = true → f.2.required = false)
    (onward : ∀ d x, s.catalog.Reaches (s.catalog.lookIn rs) cls (.dict raw) d x →
      ¬ (s.catalog.kindOf d = s.catalog.kindOf cls ∧
        x.toText = (Entries.getStr raw idField).toText))
    (catalog : s'.catalog = s.catalog) (draws' : s'.DrawsOn cls i rs')
    (inert' : ∀ r ∈ rs', (Value.dict r.data).Inert)
    (others : ∀ key : RecordKey,
      key ≠ ⟨.text (s.catalog.kindOf cls), (Entries.getStr raw idField).toText⟩ →
        MemoryStore.get? rs' key = MemoryStore.get? rs key)
    (plain : s'.inFile i = true → ∀ b s₂ d,
      outcome (Persistence.construct cls (some (.dict raw)) []) s' = (.ok (.object b), s₂) →
        Method.toRaw s.catalog s₂.heap b = .ok d → d.isPlain = true) :
    ∃ b s₂ s₃ v s₄ fields,
      outcome (Persistence.construct cls (some (.dict raw)) []) s' = (.ok (.object b), s₂) ∧
      Method.validate s.catalog s₂.heap b = .ok ⟨⟩ ∧
      outcome (Persistence.save (.object b)) s₂ = (.ok (.object b), s₃) ∧
      outcome (find cls (Entries.getStr raw idField)) s₃ = (.ok v, s₄) ∧
      (Tree.entity cls (Entries.getStr raw idField) [] fields).Whole s.catalog ∧
      Heap.Reads s.catalog s₁.heap (.object a)
        (.entity cls (Entries.getStr raw idField) [] fields) ∧
      Heap.Reads s.catalog s₄.heap v (.entity cls (Entries.getStr raw idField) [] fields) := by
  have loads := refines_load_of_draws hg inert hraw.inert rfl draws
  rw [loaded] at loads
  obtain ⟨-, ⟨_, t, ⟨⟩, ht, reads⟩ | ⟨⟨e, ⟨⟩⟩, -⟩⟩ := loads
  replace reads := reads.mono (Heap.only_within_self _ s₁.heap)
  generalize s.catalog = g at *
  generalize bound s .null + made s cls (.dict raw) = n at ht
  have inertId := Value.inert_getStr hraw.inert idField
  have found : ∀ c x es, g.lookIn rs c x = some es → (Value.dict es).Inert := by
    intro c x es hes
    obtain ⟨r, hr, rfl, -⟩ := Catalog.exists_of_lookIn hes
    exact inert r hr
  have whole := Catalog.whole_of_loaded hg found _ hraw.inert ht
  -- what is constructed is valid as what is loaded is
  obtain ⟨u, hu⟩ := Catalog.exists_built_of_loaded ht
  have wholeBuilt := Catalog.whole_of_built hg _ hraw.inert hu
  obtain ⟨w, s₂, hw, follows, readsBuilt⟩ :=
    Persistence.construct_of_built hg catalog hraw.inert hu
  have fits := Catalog.fits_of_loaded hg _ _ _ _ _ _ hraw.inert lenient ht whole reads valid hu
  have passes := fits.passes hg wholeBuilt readsBuilt
  -- what it tells is saved
  obtain ⟨data, -, -⟩ := Catalog.loaded_form_of_built hg n cls (.dict raw) t u hraw ht hu
  have tells : ∀ look, g.loaded look n cls (.dict raw) = some t →
      g.loaded look n cls (u.form g false) = some t := fun _ h =>
    (Catalog.loaded_form_of_built hg n cls (.dict raw) t u hraw h hu).2.2
  obtain ⟨aside, trees', rfl⟩ := Catalog.exists_of_built_dict hu
  obtain ⟨b, _, rfl, -⟩ := readsBuilt.exists_cell
  obtain ⟨form, hform⟩ := Tree.exists_form_entity g cls (Entries.getStr raw idField) aside trees'
  rw [hform] at data tells
  have told := readsBuilt.toRaw hg wholeBuilt
  rw [hform] at told
  have catalog₂ : s₂.catalog = g := follows.grows.catalog.trans catalog
  have place₂ : s₂.inFile i = s'.inFile i := inFile_of_stores follows.grows.stores
  obtain ⟨s₃, saved, catalog₃, draws₃⟩ := Persistence.save_of_reads hg catalog₂
    (draws'.follows follows) readsBuilt wholeBuilt there (passes b rfl) hform data
    (by rw [place₂]; exact fun inFile => plain inFile b s₂ _ hw told)
  -- nothing that was looked up is changed, so what is told loads to the same
  have same : ∀ d x, g.Reaches (g.lookIn rs) cls (.dict raw) d x → g.lookIn rs d x =
      g.lookIn (MemoryStore.put rs' ⟨⟨.text (g.kindOf cls), (Entries.getStr raw idField).toText⟩,
        form⟩) d x := by
    intro d x reaches
    have other : (⟨.text (g.kindOf d), x.toText⟩ : RecordKey) ≠
        ⟨.text (g.kindOf cls), (Entries.getStr raw idField).toText⟩ := by
      intro heq
      obtain ⟨kinds, texts⟩ := RecordKey.mk.inj heq
      exact onward d x reaches ⟨Kind.text.inj kinds, texts⟩
    rw [Catalog.lookIn, Catalog.lookIn, MemoryStore.get?_put_of_ne _ other, others _ other]
  have again := tells _ ((Catalog.loaded_congr n same).symm.trans ht)
  have inert₃ : ∀ r ∈ MemoryStore.put rs' ⟨⟨.text (g.kindOf cls),
      (Entries.getStr raw idField).toText⟩, form⟩, (Value.dict r.data).Inert := by
    intro r hr
    rcases MemoryStore.mem_put hr with hr | rfl
    · exact inert' r hr
    · exact data.inert
  obtain ⟨v, s₄, hv, readsFound⟩ := find_of_loaded hg catalog₃ draws₃ inert₃ inertId
    (MemoryStore.get?_put_self _ _) again
  obtain ⟨trees, -, rfl, -⟩ := Catalog.exists_of_loaded_dict hg ht
  exact ⟨b, s₂, s₃, v, s₄, trees, hw, passes b rfl, saved, hv, whole, reads, readsFound⟩

/-- A session with an empty store in memory, in which there is a reader without a friend. -/
def reading : Session :=
  { befriended [] with heap := [Cell.ofFields 2 (.str "b") [] ["friend"] fun _ => .null] }

/-- The session after the reader was saved. -/
def readerSaved : Session := (outcome (Persistence.save (.object 0)) reading).2

/-- An author whose friend is the reader. -/
def rawAuthor : Value := .dict (friendOf "a" "b")

/-- The session after the author was loaded. -/
def authorLoaded : Session := (outcome (load 1 rawAuthor) readerSaved).2

/-- The session after the author was saved. -/
def authorSaved : Session := (outcome (Persistence.save (.object 1)) authorLoaded).2

/-- No entity in the raw data requires a friend. -/
theorem not_required_of_friends {c : ClassId} {f : String × Checker} (hf : f ∈ friends.schemaOf c) :
    f.2.required = false := by
  obtain ⟨-, t, checker⟩ := eager_of_friends hf
  rw [checker]
  rfl

/-- The author leads to the reader, and to nobody else. -/
theorem toText_of_reaches {d : ClassId} {id : Value}
    (h : friends.Reaches (friends.lookIn readerKept) 1 rawAuthor d id) : id.toText = "b" := by
  cases h with
  | refers h =>
    obtain ⟨rfl, -⟩ := friend_of_refers h
    rfl
  | through h found rest =>
    -- the only record is that of the reader, who refers to nobody
    obtain ⟨r, hr, rfl, -⟩ := Catalog.exists_of_lookIn found
    obtain rfl := List.mem_singleton.1 hr
    cases rest with
    | refers h =>
      obtain ⟨rfl, there⟩ := friend_of_refers h
      cases there
    | through h _ _ =>
      obtain ⟨rfl, there⟩ := friend_of_refers h
      cases there

/-- Once more an author is constructed, and saved over the one that was loaded, and found
as that. -/
theorem find_of_unloaded_author : ∃ b s₂ s₃ v s₄ fields,
    outcome (Persistence.construct 1 (some rawAuthor) []) authorSaved = (.ok (.object b), s₂) ∧
    Method.validate friends s₂.heap b = .ok ⟨⟩ ∧
    outcome (Persistence.save (.object b)) s₂ = (.ok (.object b), s₃) ∧
    outcome (find 1 (.str "a")) s₃ = (.ok v, s₄) ∧
    (Tree.entity 1 (.str "a") [] fields).Whole friends ∧
    Heap.Reads friends authorLoaded.heap (.object 1) (.entity 1 (.str "a") [] fields) ∧
    Heap.Reads friends s₄.heap v (.entity 1 (.str "a") [] fields) := by
  have loaded : outcome (load 1 rawAuthor) readerSaved = (.ok (.object 1), authorLoaded) :=
    outcome_eq_of_isObject rfl
  have inert : ∀ r ∈ readerKept, (Value.dict r.data).Inert := fun r hr =>
    (Value.isData_of_isPlain _ (by revert r; decide)).inert
  have inert' : ∀ r ∈ bothKept, (Value.dict r.data).Inert := fun r hr =>
    (Value.isData_of_isPlain _ (by revert r; decide)).inert
  have catalog : readerSaved.catalog = friends := rfl
  have catalog' : authorSaved.catalog = friends := rfl
  have keeps : readerSaved.Keeps 0 readerKept := .memory rfl
  have keeps' : authorSaved.Keeps 0 bothKept := .memory rfl
  have memory : authorSaved.inFile 0 = false := rfl
  have valid : Method.validate friends authorLoaded.heap 1 = .ok ⟨⟩ := rfl
  have draws := drawsOn_friends catalog keeps
  have draws' := drawsOn_friends catalog' keeps'
  have others : ∀ key : RecordKey, key ≠ ⟨.text "Author", "a"⟩ →
      MemoryStore.get? bothKept key = MemoryStore.get? readerKept key := fun key other =>
    MemoryStore.get?_put_of_ne readerKept (r := ⟨⟨.text "Author", "a"⟩, friendOf "a" "b"⟩) other
  have onward : ∀ d x, friends.Reaches (friends.lookIn readerKept) 1 rawAuthor d x →
      ¬ (friends.kindOf d = friends.kindOf 1 ∧ x.toText = "a") := fun d x h same =>
    absurd ((toText_of_reaches h).symm.trans same.2) (by decide)
  have data : rawAuthor.IsData := Value.isData_of_isPlain _ rfl
  generalize authorSaved = s' at *
  generalize authorLoaded = s₁ at *
  generalize readerSaved = s at *
  rw [← catalog] at onward valid ⊢
  exact find_of_unloaded (catalog ▸ wellFormed_friends) draws inert data rfl loaded valid
    (fun _ _ _ f hf _ => not_required_of_friends (catalog ▸ hf)) onward
    (catalog'.trans catalog.symm) draws' inert' (catalog ▸ others)
    (fun h => nomatch memory.symm.trans h)

end Loading

end EntitySchema
