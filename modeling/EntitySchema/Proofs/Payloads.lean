/-
**Loading looks at nothing in a payload but its identifier.**

Raw data that differ at most in what is veiled are loaded side by side, in sessions that differ at
most in their objects.  The payloads get into the entities that are constructed, and into those that
are constructed for a second time when an embedded entity is loaded; but nothing is done with them
but to look their identifiers up.  So the two loadings do the same at every step: they make the same
lookups at the same instants, fail in the same way, or load entities that hold the same at every
depth.

Nothing is asked of what the stores hold: records may lead to objects, which are copied from memory,
and classes may answer with raw data of which an entity is made or with an entity itself.

Main definitions:

* `Catalog.Veiled` — **raw values that differ at most in what is veiled**;
* `Session.Twin` — sessions that differ at most in their objects;
* `Session.Supplies` — what stores and classes may supply;
* `Loading.tellWithin`, `Loading.loadTelling` — loading that calls out every lookup before it is
  made.

Main results:

* `Pairing.twin_findWith` — finding in sessions that differ at most in their objects;
* `Loading.load_of_veiled` — **what is veiled does not show in what is loaded.**
-/

import EntitySchema.Proofs.HeldForms
import EntitySchema.Proofs.PairedLoading
import EntitySchema.Proofs.Settled

set_option autoImplicit false

namespace EntitySchema

/-! ### What is veiled -/

namespace Catalog

/-- Two raw values that differ at most inside the mappings that are payloads of eager references,
such payloads carrying the same identifier.  They may do so for the elements of an array, for the
values of a dictionary, and for the fields of an entity or of one embedded in it. -/
inductive Veiled (g : Catalog) : Subject → Value → Value → Prop
  | same (subject : Subject) (raw : Value) : Veiled g subject raw raw
  | payload {t : Target} {e : Value} (r : Bool) {raw raw' : Value} {es es' : Entries} :
      e.truthy = true → raw.entries? = some es → raw'.entries? = some es' →
      Entries.getStr es idField = Entries.getStr es' idField →
      Veiled g (.decoded (.reference t e r)) raw raw'
  | embedded {t : Target} {e : Value} (r : Bool) {raw raw' : Value} :
      e.truthy = false → raw.isNull = raw'.isNull →
      (∀ cls, g.resolve t = .ok cls → Veiled g (.entity cls) raw raw') →
      Veiled g (.decoded (.reference t e r)) raw raw'
  | array {c : Checker} (r : Bool) {raw raw' : Value} {xs xs' : List Value} :
      c.producesEntity = true → Checker.itemsOf raw = .ok xs → Checker.itemsOf raw' = .ok xs' →
      xs.length = xs'.length → (∀ p ∈ xs.zip xs', Veiled g (.decoded c) p.1 p.2) →
      Veiled g (.decoded (.arrayOf c r)) raw raw'
  | dictionary {c : Checker} (r : Bool) {raw raw' : Value} {es es' : Entries} :
      c.producesEntity = true → Checker.entriesOf [] raw = .ok es →
      Checker.entriesOf [] raw' = .ok es' → es.map Prod.fst = es'.map Prod.fst →
      (∀ p ∈ (es.map Prod.snd).zip (es'.map Prod.snd), Veiled g (.decoded c) p.1 p.2) →
      Veiled g (.decoded (.dictOf c r)) raw raw'
  | entity {cls : ClassId} {raw raw' : Value} {data data' : Entries} :
      Construction.entriesOf [] raw = .ok data → Construction.entriesOf [] raw' = .ok data' →
      raw.entries?.isSome = raw'.entries?.isSome → raw.truthy = raw'.truthy →
      Entries.getStr data idField = Entries.getStr data' idField →
      (∀ f ∈ g.schemaOf cls,
        Veiled g (.decoded f.2) (Entries.getStr data f.1) (Entries.getStr data' f.1)) →
      Veiled g (.entity cls) raw raw'

/-- Payloads that differ at most in what is veiled carry the same identifier. -/
theorem Veiled.rephrased {g : Catalog} {subject : Subject} {raw raw' : Value}
    (veiled : g.Veiled subject raw raw') : g.Rephrased True
      (fun _ raw raw' => Checker.identifierIn raw = Checker.identifierIn raw') subject raw
        raw' := by
  induction veiled with
  | same subject raw => exact .same subject raw
  | payload r eager hes hes' same =>
    refine .payload r eager ?_
    rw [Checker.identifierIn, Checker.identifierIn, hes, hes']
    exact same
  | embedded r lazy there _ ih => exact .embedded r lazy there ih
  | array r producing hxs hxs' size _ ih => exact .array r producing hxs hxs' size ih
  | dictionary r producing hes hes' keys _ ih => exact .dictionary r producing hes hes' keys ih
  | entity hes hes' mapping truthy same _ ih =>
    exact .entity hes hes' (fun _ => ⟨mapping, truthy⟩) (fun h => absurd trivial h) same ih

end Catalog

/-! ### Sessions that differ at most in their objects -/

/-- Two sessions that differ at most in their objects, of which there are as many. -/
structure Session.Twin (s s' : Session) : Prop where
  size : List.length s'.heap = List.length s.heap
  rest : s' = s.withHeap s'.heap

/-- What stores and classes may supply: the data of records, and what classes with lookups of their
own answer with. -/
inductive Session.Supplies (s : Session) : Value → Prop
  | record {r : Record} : s.Has r → Supplies s (.dict r.data)
  | raw {cls owner : ClassId} {f : Lookup} {id data : Value} :
      s.catalog.lookupOf? cls = some (owner, f) → f id = some (.raw data) → Supplies s data
  | entity {cls owner : ClassId} {f : Lookup} {id : Value} {a : Address} :
      s.catalog.lookupOf? cls = some (owner, f) → f id = some (.entity a) → Supplies s (.object a)

namespace Pairing

open Session

/-- Runs in sessions that differ at most in their objects, with the records that a session has. -/
def twin (s : Session) : Pairing where
  catalog := s.catalog
  known _ := True
  base := List.length s.heap
  shift := 0
  strict := True
  together s₁ s₁' := s₁' = s₁.withHeap s₁'.heap ∧ ∀ r, s₁.Has r → s.Has r
  passes _ _ := True
  given := s.Supplies
  sought _ raw raw' := Checker.identifierIn raw = Checker.identifierIn raw'
  told _ _ _ _ := True

variable {s s₁ s₁' : Session} {U : Address → Prop}

theorem pacing_twin (s : Session) : (twin s).Pacing where
  rigid _ := rfl
  alike _ _ _ together := together.1
  heaps s₁ s₁' k k' together := by
    refine ⟨?_, fun r hr => together.2 r (hr.of_stores (fun _ _ hj => .inl hj) fun _ => rfl)⟩
    rw [together.1]
    rfl
  precedes _ _ _ := trivial
  trans _ _ _ _ _ := trivial
  clock _ _ s₁ s₁' now now' _ together _ _ same := by
    refine ⟨?_, fun r hr => together.2 r (hr.of_stores (fun _ _ hj => .inl hj) fun _ => rfl)⟩
    rw [same trivial, together.1]
    rfl

theorem tells_twin (s : Session) : (twin s).Tells := by
  constructor <;> intros <;> trivial

/-- Sessions of the two runs, if all that is supplied is there. -/
theorem paced_twin (there : ∀ v, s.Supplies v → ∀ a, s.heap.Holds v a → a < List.length s.heap)
    (opens : s.Opens s₁) : (twin s).Paced (fun _ => False) s₁ s₁ where
  catalog := opens.catalog
  catalog' := opens.catalog
  fit := by
    rw [opens.heap]
    exact ⟨rfl, le_rfl, fun _ => False.elim⟩
  together := ⟨rfl, fun _ => opens.has⟩
  given v hv := by
    rw [opens.heap]
    refine ⟨fun a ha => ⟨there v hv a ha, id, ?_⟩, fun a ha => there v hv a ha,
      fun lax => absurd trivial lax⟩
    rw [move_of_rigid rfl, Heap.renameCell_id]
    rfl

/-- The same raw value is the same. -/
theorem eq_of_twin {h h' : Heap} {v v' : Value} (moved : (twin s).Moved U h h' v v') : v' = v := by
  rw [moved.value, move_of_rigid rfl, Heap.rename_id]

/-! ### Looking up in both runs -/

section

variable (paced : (twin s).Paced U s₁ s₁')

include paced

/-- **What is apart from the entities** is done alike. -/
theorem twin_of_apart {α : Type} {a : Action α} (apart : Apart a s₁) :
    (twin s).Concur U (fun _ _ x x' => x' = x ∧ (outcome a s₁).1 = .ok x) s₁ s₁' (outcome a s₁)
      (outcome a s₁') := by
  have there : outcome a s₁' = ((outcome a s₁).1, (outcome a s₁).2.withHeap s₁'.heap) := by
    rw [← apart.heap, ← paced.together.1]
  have opens := apart.opens
  rw [there]
  rcases hrun : outcome a s₁ with ⟨result, s₂⟩
  rw [hrun] at opens
  have known : (twin s).Paced U s₂ (s₂.withHeap s₁'.heap) :=
    paced.change opens.catalog (opens.catalog.trans (paced.catalog.trans paced.catalog'.symm))
      opens.heap rfl ⟨rfl, fun r hr => paced.together.2 r (opens.has hr)⟩
  have later : (twin s).Later s₁ s₂ := ⟨opens.heap ▸ List.prefix_rfl, trivial⟩
  have later' : (twin s).Later s₁' (s₂.withHeap s₁'.heap) := ⟨List.prefix_rfl, trivial⟩
  cases result with
  | ok x => exact .ok later later' known ⟨rfl, rfl⟩
  | error e => exact .error trivial later later' known

/-- What has a text in the first run has it in the second. -/
theorem twin_textOf {β β' : Type} {R : Heap → Heap → β → β' → Prop} {id : Value}
    (steady : (twin s).Steady U s₁.heap s₁'.heap id) {k : String → Action β}
    {k' : String → Action β'}
    (hk : ∀ name, (twin s).Concur U R s₁ s₁' (outcome (k name) s₁) (outcome (k' name) s₁')) :
    (twin s).Concur U R s₁ s₁' (outcome (textOf id >>= k) s₁) (outcome (textOf id >>= k') s₁') := by
  have same : Method.toText s₁'.catalog s₁'.heap id = Method.toText s₁.catalog s₁.heap id := by
    rw [paced.catalog', paced.catalog]
    exact Method.toText_of_agrees paced.fit.size (steady.agrees rfl)
  have run (s : Session) {β : Type} (k : String → Action β) : outcome (textOf id >>= k) s =
      outcome (Session.ofExcept (Method.toText s.catalog s.heap id) >>= k) s := rfl
  rw [run, run, same]
  refine concur_ofExcept_bind (pacing_twin s) paced ?_
  cases Method.toText s₁.catalog s₁.heap id with
  | error e => exact .inr ⟨e, rfl, fun _ => rfl⟩
  | ok name => exact .inl ⟨name, name, rfl, rfl, hk name⟩

/-- A lookup is noted in both runs. -/
theorem twin_note (cls : ClassId) (id : Value) : (twin s).Concur U (fun _ _ _ _ => True) s₁ s₁'
    (outcome (note cls id) s₁) (outcome (note cls id) s₁') := by
  rw [note, outcome_modify, outcome_modify]
  refine .ok ⟨List.prefix_rfl, trivial⟩ ⟨List.prefix_rfl, trivial⟩ (paced.change rfl rfl rfl rfl
    ⟨?_, fun r hr => paced.together.2 r (hr.of_stores (fun _ _ hj => .inl hj) fun _ => rfl)⟩)
      trivial
  rw [paced.together.1]
  rfl

/-- **What a class answers itself** is the same. -/
theorem twin_answer (hg : s.catalog.WellFormed) {cls owner : ClassId} {f : Lookup}
    (own : s.catalog.lookupOf? cls = some (owner, f)) (id : Value) :
    (twin s).Concur U ((twin s).Moved U) s₁ s₁' (outcome (Loading.answer cls (f id)) s₁)
      (outcome (Loading.answer cls (f id)) s₁') := by
  cases hf : f id with
  | none => exact concur_pure (pacing_twin s) paced (moved_of_inert Value.inert_null)
  | some found =>
    cases found with
    | entity a =>
      exact concur_pure (pacing_twin s) paced (paced.given _ (.entity own hf)).same.toMoved
    | raw data =>
      have same := (paced.given _ (.raw own hf)).same
      rw [Loading.answer, outcome_get_bind, outcome_get_bind, paced.catalog, paced.catalog']
      refine (concur_build (pacing_twin s) paced (Construction.abreast_ofRaw True hg
        (tells_twin s) paced.fit (.same same))).imp ?_
      rintro k k' _ _ - ⟨a, data, rfl, rfl, -, -, -, steady⟩
      exact ⟨rfl, steady trivial⟩

/-- **What is found is the same**, if what is loaded is. -/
theorem twin_findWith (hg : s.catalog.WellFormed) {load : ClassId → Value → Action Value}
    (henter : (twin s).Enters load) (cls : ClassId) {id : Value}
    (steady : (twin s).Steady U s₁.heap s₁'.heap id) :
    (twin s).Concur U ((twin s).Moved U) s₁ s₁' (outcome (Loading.findWith load cls id) s₁)
      (outcome (Loading.findWith load cls id) s₁') := by
  have pacing := pacing_twin s
  have catalog : s₁.catalog = s.catalog := paced.catalog
  have catalog' : s₁'.catalog = s.catalog := paced.catalog'
  rw [Loading.findWith, outcome_get_bind, outcome_get_bind, catalog, catalog']
  cases hown : s.catalog.lookupOf? cls with
  | some own =>
    simp only [hown]
    exact (twin_note paced cls id).bind pacing fun _ _ s₂ s₂' _ _ paced₂ _ =>
      twin_answer paced₂ hg hown id
  | none =>
    simp only [hown]
    refine (twin_of_apart paced (apart_storeOf cls s₁)).bind pacing ?_
    rintro _ st s₂ s₂' later later' paced₂ ⟨rfl, -⟩
    refine twin_textOf paced₂ (steady.mono paced.fit later.heap later'.heap) fun name => ?_
    rw [outcome_fetchRecord_bind, outcome_fetchRecord_bind]
    have place : s₂'.inFile st = s₂.inFile st := by rw [paced₂.together.1]; rfl
    obtain ⟨apart, filed⟩ :=
      @apart_filedRecord s₂ (.str name) st (s.catalog.kindOf cls) (Value.inert_str name)
    refine (twin_of_apart paced₂ apart).bind pacing ?_
    rintro _ d? s₃ s₃' - - paced₃ ⟨rfl, told⟩
    cases d? with
    | none => exact concur_pure pacing paced₃ (moved_of_inert Value.inert_null)
    | some d =>
      obtain ⟨r, hr, -, rfl⟩ := filed d told
      dsimp only
      rw [place]
      refine (concur_loadGiven pacing paced₃ (.record (paced₂.together.2 r hr))
        (s₂.inFile st) henter
        cls trivial).imp ?_
      rintro k k' v v' - ⟨f, made⟩
      exact made.toMoved

end

/-- **Eager references are loaded alike**, if looking up does the same for the same identifier. -/
theorem twin_fetchWith {seek : ClassId → Value → Action Value}
    (hseek : ∀ (U : Address → Prop) cls id s₁ s₁', (twin s).Paced U s₁ s₁' →
      (twin s).Steady U s₁.heap s₁'.heap id →
      (twin s).Concur U ((twin s).Moved U) s₁ s₁' (outcome (seek cls id) s₁)
        (outcome (seek cls id) s₁')) : (twin s).Fetches seek := by
  intro U t e r raw raw' s₁ s₁' _ _ paced same
  have pacing := pacing_twin s
  have catalog : s₁.catalog = s.catalog := paced.catalog
  have catalog' : s₁'.catalog = s.catalog := paced.catalog'
  -- what is found for an identifier, if there is one
  have found (id : Value) (steady : (twin s).Steady U s₁.heap s₁'.heap id)
      {k k' : ClassId → Action Value} (hk : ∀ cls, (twin s).Concur U ((twin s).Moved U) s₁ s₁'
        (outcome (k cls) s₁) (outcome (k' cls) s₁')) :
      (twin s).Concur U ((twin s).Made U (.decoded (.reference t e r)) raw) s₁ s₁'
        (outcome (if id.isNull then pure .null else
          Session.ofExcept (s.catalog.resolve t) >>= k) s₁)
        (outcome (if id.isNull then pure .null else
          Session.ofExcept (s.catalog.resolve t) >>= k') s₁') := by
    split
    · exact concur_pure pacing paced ⟨moved_of_inert Value.inert_null, trivial⟩
    · refine concur_ofExcept_bind pacing paced ?_
      cases s.catalog.resolve t with
      | error f => exact .inr ⟨f, rfl, fun _ => rfl⟩
      | ok cls =>
        refine .inl ⟨cls, cls, rfl, rfl, (hk cls).imp fun _ _ _ _ _ moved => ⟨moved, trivial⟩⟩
  rcases same with same | ⟨inert, inert', same⟩
  · obtain rfl := eq_of_twin same.toMoved
    obtain ⟨moved, -⟩ := same.identifier fun _ => rfl
    have id : Checker.payloadId s₁' raw' = Checker.payloadId s₁ raw' := by
      rw [Checker.payloadId_eq, Checker.payloadId_eq, catalog, catalog']
      exact eq_of_twin moved
    have steady : (twin s).Steady U s₁.heap s₁'.heap (Checker.payloadId s₁ raw') := by
      rw [Checker.payloadId_eq, catalog]
      exact moved.steady
    rw [Checker.fetchWith]
    split
    · rw [outcome_get_bind, outcome_get_bind, id, catalog, catalog']
      dsimp only
      rw [Method.write_of_agrees paced.fit.size (steady.agrees rfl)]
      refine found _ steady fun cls => ?_
      cases Method.write s.catalog s₁.heap (Checker.payloadId s₁ raw') with
      | error f => exact concur_throw pacing paced f
      | ok text => exact hseek U cls _ s₁ s₁' paced steady
    · exact concur_pure pacing paced ⟨moved_of_inert Value.inert_null, trivial⟩
  · have same : Checker.identifierIn raw = Checker.identifierIn raw' := same
    rw [Checker.outcome_fetchWith catalog inert, Checker.outcome_fetchWith catalog' inert', ← same]
    have steady : (twin s).Steady U s₁.heap s₁'.heap (Checker.identifierIn raw) :=
      steady_of_inert (Checker.inert_identifierIn inert)
    exact found _ steady fun cls => hseek U cls _ s₁ s₁' paced steady

end Pairing

namespace Loading

open Session

/-! ### Telling the lookups -/

/-- Loads an entity from raw data, entering at most `fuel` entities one after the other, and tells
of every lookup before it is made. -/
def tellWithin (tell : ClassId → Value → Action Unit) : Nat → ClassId → Value → Action Value
  | 0, _, _ => throw .endless
  | fuel + 1, cls, raw => do
    let g := (← get).catalog
    let v ← Session.build (Construction.ofRaw g cls raw)
    match v with
    | .object a =>
      let enter := tellWithin tell fuel
      let seek := fun cls id => do
        tell cls id
        findWith enter cls id
      loadFields (Checker.loadWith enter seek) a raw (g.schemaOf cls)
      pure v
    | v => pure v

/-- Loads an entity from raw data, and tells of every lookup before it is made. -/
def loadTelling (tell : ClassId → Value → Action Unit) (cls : ClassId) (raw : Value) :
    Action Value := do
  let s ← get
  Session.arrange (tellWithin tell (bound s .null + made s cls raw) cls raw)

/-- Telling is all that is done besides loading. -/
theorem tellWithin_silent (fuel : Nat) :
    tellWithin (fun _ _ => pure ⟨⟩) fuel = loadWithin fuel := by
  induction fuel with
  | zero => rfl
  | succ fuel ih =>
    funext cls raw
    rw [tellWithin, ih]
    rfl

theorem loadTelling_silent : loadTelling (fun _ _ => pure ⟨⟩) = load := by
  funext cls raw
  rw [loadTelling, load]
  simp only [tellWithin_silent]

theorem tellWithin_eq_loadBy (tell : ClassId → Value → Action Unit) (fuel : Nat) :
    tellWithin tell fuel = loadBy (fun fuel cls id => do
      tell cls id
      findWith (tellWithin tell fuel) cls id) fuel := by
  induction fuel with
  | zero => rfl
  | succ fuel ih =>
    funext cls raw
    rw [loadBy, ← ih]
    rfl

section

variable {s : Session} {cls : ClassId} {raw raw' : Value} {tell : ClassId → Value → Action Unit}

/-- As many objects are made of raw values that differ at most in what is veiled. -/
theorem made_eq (hg : s.catalog.WellFormed) (hraw : raw.Inert) (hraw' : raw'.Inert)
    (veiled : s.catalog.Veiled (.entity cls) raw raw') : made s cls raw' = made s cls raw := by
  have fit : (Pairing.twin s).Fit (fun _ => False) s.heap s.heap :=
    ⟨rfl, le_rfl, fun _ => False.elim⟩
  unfold made
  rcases Construction.abreast_ofRaw False hg (Pairing.tells_twin s) fit
    (.rephrased id hraw hraw' veiled.rephrased) with
    ⟨e, he, he'⟩ | ⟨v, h, v', h', hv, hv', -, -, fit, -⟩
  · replace he : Construction.ofRaw s.catalog cls raw s.heap = .error e := he
    replace he' : Construction.ofRaw s.catalog cls raw' s.heap = .error e := he' trivial
    rw [he, he']
  · replace hv : Construction.ofRaw s.catalog cls raw s.heap = .ok (v, h) := hv
    replace hv' : Construction.ofRaw s.catalog cls raw' s.heap = .ok (v', h') := hv'
    rw [hv, hv']
    exact congrArg (· - List.length s.heap) fit.size

/-- Telling that keeps pace in sessions that differ at most in their objects. -/
def TellsAlike (s : Session) (tell : ClassId → Value → Action Unit) : Prop :=
  ∀ (U : Address → Prop) cls id s₁ s₁', (Pairing.twin s).Paced U s₁ s₁' →
    (Pairing.twin s).Concur U (fun _ _ _ _ => True) s₁ s₁' (outcome (tell cls id) s₁)
      (outcome (tell cls id) s₁')

/-- **Loading that tells of its lookups** keeps pace in sessions that differ at most in their
objects, if telling does. -/
theorem enters_tellWithin (hg : s.catalog.WellFormed) (htell : TellsAlike s tell) (fuel : Nat) :
    (Pairing.twin s).Enters (tellWithin tell fuel) := by
  have pacing := Pairing.pacing_twin s
  rw [tellWithin_eq_loadBy]
  refine Pairing.enters_loadBy hg pacing (Pairing.tells_twin s) (fun _ _ _ _ => trivial)
    (fun fuel henter => Pairing.twin_fetchWith fun U cls id s₁ s₁' paced steady => ?_) fuel
  rw [← tellWithin_eq_loadBy] at henter
  exact (htell U cls id s₁ s₁' paced).bind pacing fun _ _ s₂ s₂' later later' paced₂ _ =>
    Pairing.twin_findWith paced₂ hg henter cls (steady.mono paced.fit later.heap later'.heap)

/-- The same of loading for which the shared store may be opened. -/
theorem concur_loadTelling (hg : s.catalog.WellFormed)
    (there : ∀ v, s.Supplies v → ∀ a, s.heap.Holds v a → a < List.length s.heap) (hraw : raw.Inert)
    (hraw' : raw'.Inert) (veiled : s.catalog.Veiled (.entity cls) raw raw')
    (htell : TellsAlike s tell) : ∃ s₁, s.Opens s₁ ∧
      (Pairing.twin s).Concur (fun _ => False)
        ((Pairing.twin s).Made (fun _ => False) (.entity cls) raw) s₁ s₁
        (outcome (loadTelling tell cls raw) s) (outcome (loadTelling tell cls raw') s) := by
  rw [loadTelling, loadTelling, outcome_get_bind, outcome_get_bind, made_eq hg hraw hraw' veiled]
  generalize bound s .null + made s cls raw = fuel
  have within (s₁ : Session) (opens : s.Opens s₁) :=
    enters_tellWithin hg htell fuel (fun _ => False) cls raw raw' s₁ s₁ trivial
      (Pairing.paced_twin there opens) (.rephrased id hraw hraw' veiled.rephrased)
  -- who asks for the shared store first is the same
  have first : firstRequest? (tellWithin tell fuel cls raw') s =
      firstRequest? (tellWithin tell fuel cls raw) s := by
    have opens : s.Opens { s with survey := some [] } :=
      opens_of_stores rfl rfl rfl rfl fun _ => rfl
    have same := ((within _ opens).paced trivial).together.1
    have survey := congrArg Session.survey same
    exact congrArg (fun asked => earliest? (asked.getD [])) survey
  rw [outcome_arrange, outcome_arrange, first]
  exact ⟨_, (opens_arranged s _).1, within _ (opens_arranged s _).1⟩

/-- **What is veiled does not show in what is loaded.**  Raw data that differ at most inside the
payloads of eager references, which carry the same identifiers, are loaded alike, whatever the
stores hold and whatever classes answer themselves: the loadings fail in the same way, or they load
the same entity, and every object that it holds has the same cell; all of the session but the
objects is the same afterwards; and the lookups made are the same, one after the other and each at
the same instant. -/
theorem load_of_veiled (hg : s.catalog.WellFormed)
    (there : ∀ v, s.Supplies v → ∀ a, s.heap.Holds v a → a < List.length s.heap) (hraw : raw.Inert)
    (hraw' : raw'.Inert) (veiled : s.catalog.Veiled (.entity cls) raw raw') :
    (outcome (load cls raw') s).1 = (outcome (load cls raw) s).1 ∧
    (outcome (load cls raw) s).2.Twin (outcome (load cls raw') s).2 ∧
    (∀ v, (outcome (load cls raw) s).1 = .ok v →
      Heap.Agrees (outcome (load cls raw) s).2.heap (outcome (load cls raw') s).2.heap v) ∧
    (outcome (loadTelling note cls raw') s).2.lookups =
      (outcome (loadTelling note cls raw) s).2.lookups := by
  have quiet : TellsAlike s fun _ _ => pure ⟨⟩ := fun U cls id s₁ s₁' paced =>
    Pairing.concur_pure (Pairing.pacing_twin s) paced trivial
  obtain ⟨s₁, -, silent⟩ := concur_loadTelling hg there hraw hraw' veiled quiet
  have noted : TellsAlike s note := fun U cls id s₁ s₁' paced => Pairing.twin_note paced cls id
  obtain ⟨s₂, -, noting⟩ := concur_loadTelling hg there hraw hraw' veiled noted
  rw [loadTelling_silent] at silent
  have paced := silent.paced trivial
  have lookups := congrArg Session.lookups (noting.paced trivial).together.1
  refine ⟨?_, ⟨paced.fit.size, paced.together.1⟩, ?_, lookups⟩
  · generalize outcome (load cls raw) s = r at silent
    generalize outcome (load cls raw') s = r' at silent
    cases silent with
    | ok _ _ _ made =>
      rw [Pairing.eq_of_twin made.toMoved]
    | error => rfl
    | lax lax => exact absurd trivial lax
  · generalize outcome (load cls raw) s = r at silent
    generalize outcome (load cls raw') s = r' at silent
    rintro v hv
    cases silent with
    | ok _ _ _ made =>
      cases hv
      exact made.steady.agrees rfl
    | error => cases hv
    | lax lax => exact absurd trivial lax

end

/-- The raw data of the shelved book, with what else was known of the writer when they were made. -/
def rawStale : Value :=
  .dict [(.str "author", .dict [(.str "_id", .str "w"), (.str "name", .str "y")]),
    (.str "parts",
      .list [.dict [(.str "editor", .dict [(.str "name", .int 3), (.str "_id", .str "w")])],
      .dict [(.str "editor", .dict [(.str "_id", .str "u")])]])]

/-- What else was known of the writer is veiled. -/
theorem veiled_rawStale : shelves.Veiled (.entity 3) rawShelved rawStale := by
  have part : shelves.Veiled (.entity 2) (.dict [(.str "editor", .dict [(.str "_id", .str "w")])])
      (.dict [(.str "editor", .dict [(.str "name", .int 3), (.str "_id", .str "w")])]) := by
    refine .entity rfl rfl rfl rfl rfl fun f hf => ?_
    obtain rfl := List.mem_singleton.1 hf
    exact .payload false rfl rfl rfl rfl
  refine .entity rfl rfl rfl rfl rfl fun f hf => ?_
  rcases List.mem_cons.1 hf with rfl | hf
  · exact .payload true rfl rfl rfl rfl
  · obtain rfl := List.mem_singleton.1 hf
    refine .array false rfl rfl rfl rfl fun p hp => ?_
    rcases List.mem_cons.1 hp with rfl | hp
    · exact .embedded false rfl rfl fun cls hcls => by
        obtain rfl : 2 = cls := Except.ok.inj hcls
        exact part
    · obtain rfl := List.mem_singleton.1 hp
      exact .same _ _

/-- A session in which the record of the writer holds another writer in place of a name. -/
def lending : Session :=
  { shelving with
    heap := [.entity 1 (.str "u") [] [("name", .str "y")]]
    stores :=
      [.memory [⟨⟨.text "Writer", "w"⟩, [(.str "_id", .str "w"), (.str "name", .object 0)]⟩]] }

theorem there_lending (v : Value) (supplied : lending.Supplies v) (a : Address)
    (ha : lending.heap.Holds v a) : a < List.length lending.heap := by
  have none := Catalog.lookupOf?_eq_none (g := lending.catalog) (by decide)
  cases supplied with
  | record hr =>
    obtain rfl := List.mem_singleton.1 (mem_of_has rfl rfl hr)
    exact ha.lt (Heap.sound_of_forall (by decide)) (Heap.covers_of_forall (by decide))
  | raw own => cases (none _).symm.trans own
  | entity own => cases (none _).symm.trans own

/-- What else was known of the writer does not show: the book is loaded to the same, with a copy of
the writer whom the record holds. -/
theorem load_of_rawStale : ∃ v s₁ s₂, outcome (load 3 rawShelved) lending = (.ok v, s₁) ∧
    outcome (load 3 rawStale) lending = (.ok v, s₂) ∧ s₁.heap.Agrees s₂.heap v := by
  have made : (outcome (load 3 rawShelved) lending).1.toBool = true := by decide +kernel
  obtain ⟨v, s₁, hv⟩ := exists_of_toBool made
  have inert : rawShelved.Inert := (Value.isData_of_isPlain rawShelved (by decide)).inert
  have stale : rawStale.Inert := (Value.isData_of_isPlain rawStale (by decide)).inert
  obtain ⟨result, -, same, -⟩ :=
    load_of_veiled (s := lending) wellFormed_shelves there_lending inert stale
      veiled_rawStale
  rcases hrun : outcome (load 3 rawStale) lending with ⟨result', s₂⟩
  rw [hv, hrun] at result same
  obtain rfl : result' = .ok v := result
  exact ⟨v, s₁, s₂, hv, rfl, same v rfl⟩

end Loading

end EntitySchema
