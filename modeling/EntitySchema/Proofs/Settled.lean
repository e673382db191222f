/-
**Nothing is left to be loaded.**

Construction puts the payloads of eager references aside, and so does the construction of every
entity embedded in another.  Loading replaces all of them: an entity that has been loaded has
nothing put aside, and the same holds of every entity that it holds, be it embedded, in a container,
or found under an identifier.  A field that produces entities then holds what its checker asks for:
nothing or an entity of the class that the reference is to, or a container of such.

What is loaded is told by a tree again, but here nothing is known about the stores: some may be
opened on the way, and any look-up may find a record or none.

Main definitions:

* `Tree.Settled` — what is loaded for a class or a checker, with nothing left to be loaded;
* `Heap.Fills`, `Heap.Settled` — **an entity with nothing put aside and all fields filled**;
* `Session.Extends` — a session in which cells were added and no record is new;
* `Loading.Settles` — **an action that loads something whole.**

Main results:

* `Tree.Settled.of_holds` — every entity held by something that is loaded whole is settled;
* `Loading.Settles.gather`, `Loading.settles_loadWith` — containers and raw values;
* `Loading.settles_loadWithin` — entities, whatever the bound;
* `Loading.settled_of_load` — **after a loading nothing is left to be loaded, at any depth.**
-/

import EntitySchema.Proofs.StoredLookups
import EntitySchema.Proofs.StoreWork

set_option autoImplicit false

namespace EntitySchema

/-! ### Settled entities -/

/-- What is loaded for a class or a checker: an entity with nothing put aside; for a reference
nothing or an entity of the class that it is to; for arrays and dictionaries over a reference an
array and a dictionary of such; and for any other checker what leads to no object. -/
inductive Tree.Settled (g : Catalog) : Subject → Tree → Prop
  | plain {c : Checker} {v : Value} : c.producesEntity = false → v.Inert →
      Settled g (.decoded c) (.leaf v)
  | nothing (t : Target) (e : Value) (r : Bool) :
      Settled g (.decoded (.reference t e r)) (.leaf .null)
  | reference {t : Target} {cls : ClassId} {tree : Tree} (e : Value) (r : Bool) :
      g.resolve t = .ok cls → Settled g (.entity cls) tree →
      Settled g (.decoded (.reference t e r)) tree
  | array {e : Checker} {ts : List Tree} (r : Bool) : e.producesEntity = true →
      (∀ t ∈ ts, Settled g (.decoded e) t) → Settled g (.decoded (.arrayOf e r)) (.array ts)
  | dictionary {e : Checker} {keys : List Value} {ts : List Tree} (r : Bool) :
      e.producesEntity = true → (∀ k ∈ keys, k.Inert) → (∀ t ∈ ts, Settled g (.decoded e) t) →
      Settled g (.decoded (.dictOf e r)) (.dictionary keys ts)
  | entity {cls : ClassId} {id : Value} {fields : String → Tree} : id.Inert →
      (∀ f ∈ g.schemaOf cls, Settled g (.decoded f.2) (fields f.1)) →
      Settled g (.entity cls) (.entity cls id [] fields)

namespace Heap

/-- A value that a checker that produces entities asks for: for a reference nothing or an entity of
the class that it is to, and for a container of entities a container of such values. -/
inductive Fills (g : Catalog) (h : Heap) : Checker → Value → Prop
  | nothing (t : Target) (e : Value) (r : Bool) : Fills g h (.reference t e r) .null
  | entity {t : Target} {cls : ClassId} {a : Address} (e : Value) (r : Bool) :
      g.resolve t = .ok cls → (get h a).species = .entity cls →
      Fills g h (.reference t e r) (.object a)
  | array {e : Checker} {xs : List Value} (r : Bool) : (∀ x ∈ xs, Fills g h e x) →
      Fills g h (.arrayOf e r) (.list xs)
  | dictionary {e : Checker} {es : Entries} (r : Bool) : (∀ p ∈ es, Fills g h e p.2) →
      Fills g h (.dictOf e r) (.dict es)

/-- An entity of which nothing is left to be loaded: nothing is put aside, and every field that
produces entities holds what its checker asks for. -/
structure Settled (g : Catalog) (h : Heap) (a : Address) (cls : ClassId) : Prop where
  species : (get h a).species = .entity cls
  pending : objectAttribute? g h a pendingField = some (.dict [])
  fields : ∀ f ∈ g.schemaOf cls, f.2.producesEntity = true → Fills g h f.2 (field g h a f.1)

end Heap

namespace Tree.Settled

variable {g : Catalog} {h : Heap} {v : Value} {t : Tree}

/-- What is loaded for a checker that produces entities is what the checker asks for. -/
theorem fills {c : Checker} (settled : Settled g (.decoded c) t) (hc : c.producesEntity = true)
    (reads : Heap.Reads g h v t) : Heap.Fills g h c v := by
  generalize hs : Subject.decoded c = subject at settled
  induction settled generalizing c v with
  | plain hp _ =>
    cases hs
    cases hc.symm.trans hp
  | nothing t e r =>
    cases hs
    rw [reads.eq_of_leaf]
    exact .nothing t e r
  | reference e r hcls entity =>
    cases hs
    cases entity with
    | entity =>
      cases reads with
      | entity cell => exact .entity e r hcls (by rw [cell]; rfl)
  | array r hp _ ih =>
    cases hs
    cases reads with
    | array size reads =>
      refine .array r fun x hx => ?_
      obtain ⟨u, hu⟩ := exists_mem_zip_of_mem_left size hx
      exact ih u (List.of_mem_zip hu).2 hp (reads _ hu) rfl
  | dictionary r hp _ _ ih =>
    cases hs
    cases reads with
    | dictionary size reads =>
      refine .dictionary r fun p hmem => ?_
      obtain ⟨u, hu⟩ := exists_mem_zip_of_mem_left (by simpa using size)
        (List.mem_map_of_mem (f := Prod.snd) hmem)
      exact ih u (List.of_mem_zip hu).2 hp (reads _ hu) rfl
  | entity => cases hs

/-- What is loaded leads to entities that are loaded whole. -/
theorem of_leadsTo {subject : Subject} (settled : Settled g subject t) (reads : Heap.Reads g h v t)
    {a : Address} (ha : v.LeadsTo a) :
    ∃ cls u, Settled g (.entity cls) u ∧ Heap.Reads g h (.object a) u := by
  induction settled generalizing v with
  | plain _ inert =>
    rw [reads.eq_of_leaf] at ha
    exact absurd ha (inert a)
  | nothing =>
    rw [reads.eq_of_leaf] at ha
    exact absurd ha (Value.inert_null a)
  | reference _ _ _ _ ih => exact ih reads ha
  | array _ _ _ ih =>
    cases reads with
    | array size reads =>
      cases ha with
      | list hx ha =>
        obtain ⟨u, hu⟩ := exists_mem_zip_of_mem_left size hx
        exact ih u (List.of_mem_zip hu).2 (reads _ hu) ha
  | dictionary _ _ inert _ ih =>
    cases reads with
    | dictionary size reads =>
      cases ha with
      | dictKey he ha => exact absurd ha (inert _ (List.mem_map_of_mem he) a)
      | dict he ha =>
        obtain ⟨u, hu⟩ := exists_mem_zip_of_mem_left (by simpa using size)
          (List.mem_map_of_mem (f := Prod.snd) he)
        exact ih u (List.of_mem_zip hu).2 (reads _ hu) ha
  | entity hid fields _ =>
    cases reads with
    | entity cell reads =>
      cases ha with
      | object => exact ⟨_, _, .entity hid fields, .entity cell reads⟩

/-- **Every entity held by something that is loaded whole is settled.** -/
theorem of_holds (hg : g.WellFormed) {subject : Subject} (settled : Settled g subject t)
    (reads : Heap.Reads g h v t) {a : Address} (ha : h.Holds v a) : ∃ cls, h.Settled g a cls := by
  have whole : ∃ cls u, Settled g (.entity cls) u ∧ Heap.Reads g h (.object a) u := by
    induction ha with
    | direct ha => exact settled.of_leadsTo reads ha
    | through _ hp hb ih =>
      obtain ⟨cls, u, whole, reads⟩ := ih
      cases whole with
      | entity hid fields =>
        cases reads with
        | entity cell reads =>
          rw [cell, Cell.ofFields] at hp
          rcases hp with _ | ⟨_, _ | ⟨_, hp⟩⟩
          · exact absurd hb (hid _)
          · exact absurd hb (Value.inert_dict_iff.2 (List.forall_mem_nil _) _)
          · obtain ⟨name, hname, rfl⟩ := List.mem_map.1 hp
            obtain ⟨f, hf, rfl⟩ := List.mem_map.1 hname
            exact (fields f hf).of_leadsTo (reads _ hname) hb
  obtain ⟨cls, u, whole, reads⟩ := whole
  cases whole with
  | entity hid fields =>
    cases reads with
    | entity cell reads =>
      refine ⟨cls, by rw [cell]; rfl, Heap.objectAttribute?_pending cell, fun f hf hp => ?_⟩
      have hname := List.mem_map_of_mem (f := Prod.fst) hf
      rw [Heap.field_of_cell hg cell hname]
      exact (fields f hf).fills hp (reads f.1 hname)

end Tree.Settled

/-- Where no class has a lookup of its own, none has one from its lineage. -/
theorem Catalog.lookupOf?_eq_none {g : Catalog} (h : ∀ c ∈ g.classes, c.lookup?.isNone = true)
    (cls : ClassId) : g.lookupOf? cls = none := by
  rw [lookupOf?, List.findSome?_eq_none_iff]
  intro b _
  cases hb : g.classes[b]? with
  | none => rfl
  | some c => simp [Option.isNone_iff_eq_none.1 (h c (List.mem_of_getElem? hb))]

/-! ### Sessions that extend -/

namespace Session

/-- A session that extends another: cells were added to the heap, no record is new, and the classes
are the same. -/
structure Extends (s s' : Session) : Prop where
  catalog : s'.catalog = s.catalog
  heap : s.heap <+: s'.heap
  has {r : Record} : s'.Has r → s.Has r

variable {s s' s'' : Session}

theorem Extends.refl (s : Session) : s.Extends s := ⟨rfl, List.prefix_rfl, id⟩

theorem Extends.trans (h : s.Extends s') (h' : s'.Extends s'') : s.Extends s'' :=
  ⟨h'.catalog.trans h.catalog, h.heap.trans h'.heap, fun hr => h.has (h'.has hr)⟩

theorem Opens.extends (h : s.Opens s') : s.Extends s' :=
  ⟨h.catalog, h.heap ▸ List.prefix_rfl, h.has⟩

/-- The heap grows, be it at another instant. -/
theorem extends_of_grown {h : Heap} (hle : s.heap <+: h) (now : Instant) :
    s.Extends { s with heap := h, now := now } :=
  ⟨rfl, hle, fun hr => hr.of_stores (fun _ _ hj => .inl hj) fun _ => rfl⟩

/-- A session with these classes, no record of which leads to an object. -/
structure Plain (g : Catalog) (s : Session) : Prop where
  catalog : s.catalog = g
  inert : s.InertRecords

/-- A field may be settled in whatever entity was added to the heap. -/
theorem Extends.settle (h : s.Extends s') {a : Address} (added : s.heap.length ≤ a) (name : String)
    (x : Value) : s.Extends { s' with heap := s'.heap.settle a name x } :=
  ⟨h.catalog, Heap.prefix_settle h.heap added name x,
    fun hr => h.has (hr.of_stores (fun _ _ hj => .inl hj) fun _ => rfl)⟩

theorem Plain.extends {g : Catalog} (h : s.Plain g) (h' : s.Extends s') : s'.Plain g :=
  ⟨h'.catalog.trans h.catalog, fun r hr => h.inert r (h'.has hr)⟩

end Session

/-! ### Loading of raw values -/

namespace Loading

/-- An action loads something whole: where it has a result, the session extends the one before, and
by the cells that were added the result reads as what is loaded for a class or a checker, with
nothing left to be loaded. -/
def Settles (g : Catalog) (subject : Subject) (a : Action Value) : Prop :=
  ∀ s v s', s.Plain g → Session.outcome a s = (.ok v, s') → s.Extends s' ∧
    ∃ t : Tree, t.Settled g subject ∧ Heap.Reads g (s'.heap.above s.heap.length) v t

/-- The same of an action that may have nothing as its result. -/
def Seeks (g : Catalog) (cls : ClassId) (a : Action Value) : Prop :=
  ∀ s v s', s.Plain g → Session.outcome a s = (.ok v, s') → s.Extends s' ∧
    (v = .null ∨
      ∃ t : Tree, t.Settled g (.entity cls) ∧ Heap.Reads g (s'.heap.above s.heap.length) v t)

section

variable {g : Catalog} {subject : Subject} {α : Type} {f : α → Action Value}

/-- Actions one after the other load what each of them loads. -/
theorem Settles.runs {s s' : Session} (hs : s.Plain g) {xs : List α} {vs : List Value}
    (hf : ∀ x ∈ xs, Settles g subject (f x)) (h : Session.Runs f s xs vs s') :
    s.Extends s' ∧ xs.length = vs.length ∧ ∃ ts : List Tree, vs.length = ts.length ∧
      (∀ t ∈ ts, t.Settled g subject) ∧
      ∀ p ∈ vs.zip ts, Heap.Reads g (s'.heap.above s.heap.length) p.1 p.2 := by
  induction h with
  | nil s => exact ⟨.refl s, rfl, [], rfl, List.forall_mem_nil _, List.forall_mem_nil _⟩
  | @cons s s₁ s₂ now x v xs vs hx _ ih =>
    obtain ⟨hfx, hfxs⟩ := List.forall_mem_cons.1 hf
    have start : s.Extends { s with now := now } := Session.extends_of_grown List.prefix_rfl now
    obtain ⟨first, t, settled, reads⟩ := hfx _ _ _ (hs.extends start) hx
    have reached := start.trans first
    obtain ⟨rest, size, ts, size', settleds, readss⟩ := ih (hs.extends reached) hfxs
    refine ⟨reached.trans rest, congrArg (· + 1) size, t :: ts, congrArg (· + 1) size',
      List.forall_mem_cons.2 ⟨settled, settleds⟩, ?_⟩
    rw [List.zip_cons_cons, List.forall_mem_cons]
    refine ⟨reads.mono (Heap.above_within le_rfl rest.heap), fun p hp => ?_⟩
    exact (readss p hp).mono (Heap.above_within reached.heap.length_le List.prefix_rfl)

/-- **Actions side by side** load what each of them loads. -/
theorem Settles.gather {xs : List α} (hf : ∀ x ∈ xs, Settles g subject (f x)) {s s' : Session}
    (hs : s.Plain g) {vs : List Value}
    (h : Session.outcome (Session.gather f xs) s = (.ok vs, s')) :
    s.Extends s' ∧ xs.length = vs.length ∧ ∃ ts : List Tree, vs.length = ts.length ∧
      (∀ t ∈ ts, t.Settled g subject) ∧
      ∀ p ∈ vs.zip ts, Heap.Reads g (s'.heap.above s.heap.length) p.1 p.2 := by
  obtain ⟨s₁, runs, hs'⟩ := Session.runs_of_gather h
  obtain ⟨reached, told⟩ := Settles.runs hs hf runs
  rw [hs']
  exact ⟨reached.trans (Session.extends_of_grown List.prefix_rfl _), told⟩

variable {enter seek : ClassId → Value → Action Value}
  (henter : ∀ cls raw, raw.Inert → Settles g (.entity cls) (enter cls raw))
  (hseek : ∀ cls id, id.Inert → Seeks g cls (seek cls id))

include hseek in
/-- An eager reference finds nothing or an entity of the class that it is to. -/
theorem settles_fetchWith (t : Target) (e : Value) (r : Bool) {raw : Value} (hraw : raw.Inert) :
    Settles g (.decoded (.reference t e r)) (Checker.fetchWith seek t raw) := by
  intro s v s' hs h
  rw [Checker.outcome_fetchWith hs.catalog hraw] at h
  split at h
  · cases h
    exact ⟨.refl s, _, .nothing t e r, .leaf .null⟩
  · obtain ⟨cls, resolved, h⟩ := Session.outcome_ofExcept_bind_eq_ok h
    obtain ⟨reached, rfl | ⟨u, settled, reads⟩⟩ :=
      hseek cls _ (Checker.inert_identifierIn hraw) _ _ _ hs h
    · exact ⟨reached, _, .nothing t e r, .leaf .null⟩
    · exact ⟨reached, u, .reference e r resolved settled, reads⟩

include henter in
/-- An embedded reference loads nothing or an entity of the class that it is to. -/
theorem settles_enterWith (t : Target) (e : Value) (r : Bool) {raw : Value} (hraw : raw.Inert) :
    Settles g (.decoded (.reference t e r)) (Checker.enterWith enter t raw) := by
  intro s v s' hs h
  rw [Checker.outcome_enterWith hs.catalog hraw.ne_object] at h
  split at h
  · cases h
    exact ⟨.refl s, _, .nothing t e r, .leaf .null⟩
  · obtain ⟨cls, resolved, h⟩ := Session.outcome_ofExcept_bind_eq_ok h
    obtain ⟨reached, u, settled, reads⟩ := henter cls raw hraw _ _ _ hs h
    exact ⟨reached, u, .reference e r resolved settled, reads⟩

include henter hseek in
/-- **Raw values are loaded whole**, if entities are. -/
theorem settles_loadWith : (c : Checker) → c.producesEntity = true → (raw : Value) → raw.Inert →
    Settles g (.decoded c) (Checker.loadWith enter seek c raw)
  | .reference t e r, _, raw, hraw => by
    rw [Checker.loadWith]
    split
    · exact settles_fetchWith hseek t e r hraw
    · exact settles_enterWith henter t e r hraw
  | .arrayOf c r, hprod, raw, hraw => by
    have hp : c.producesEntity = true := hprod
    intro s v s' hs h
    rw [Checker.loadWith] at h
    obtain ⟨items, hitems, h⟩ := Session.outcome_ofExcept_bind_eq_ok h
    obtain ⟨vs, s₂, hvs, h⟩ := Session.outcome_bind_eq_ok h
    cases h
    obtain ⟨reached, -, ts, size, settled, reads⟩ := Settles.gather (fun x hx =>
      settles_loadWith c hp x (Checker.inert_of_itemsOf hraw hitems x hx)) hs hvs
    exact ⟨reached, .array ts, .array r hp settled, .array size reads⟩
  | .dictOf c r, hprod, raw, hraw => by
    have hp : c.producesEntity = true := hprod
    intro s v s' hs h
    rw [Checker.loadWith, Session.outcome_get_bind] at h
    obtain ⟨es, hes, h⟩ := Session.outcome_ofExcept_bind_eq_ok h
    obtain ⟨vs, s₂, hvs, h⟩ := Session.outcome_bind_eq_ok h
    cases h
    have inert := Value.inert_dict_iff.1 (Checker.inert_of_entriesOf hraw hes)
    obtain ⟨reached, size, ts, size', settled, reads⟩ := Settles.gather (fun p hmem =>
      settles_loadWith c hp p.2 (inert p hmem).2) hs hvs
    refine ⟨reached, .dictionary (es.map Prod.fst) ts, .dictionary r hp ?_ settled,
      .dictionary_zip (by simpa using size) size' reads⟩
    intro k hk
    obtain ⟨p, hmem, rfl⟩ := List.mem_map.1 hk
    exact (inert p hmem).1

end

/-! ### Loading of entities -/

section

variable {g : Catalog} {cls : ClassId}

/-- A class without a lookup of its own finds nothing or an entity that is loaded whole, if its
records are. -/
theorem seeks_findWith (own : g.lookupOf? cls = none) {load : ClassId → Value → Action Value}
    (hload : ∀ raw, raw.Inert → Settles g (.entity cls) (load cls raw)) {id : Value}
    (hid : id.Inert) : Seeks g cls (findWith load cls id) := by
  intro s v s' hs h
  obtain ⟨apart, record⟩ := Session.apart_seekRecord hs.inert hid cls
  rw [Session.outcome_findWith (by rw [hs.catalog, own])] at h
  obtain ⟨record?, s₁, hrun, h⟩ := Session.outcome_bind_eq_ok h
  have reached : s.Extends s₁ := by
    have opens := apart.opens
    rw [hrun] at opens
    exact opens.extends
  cases record? with
  | none =>
    cases h
    exact ⟨reached, .inl rfl⟩
  | some d =>
    obtain ⟨r, hr, -, rfl⟩ := record d (by rw [hrun])
    obtain ⟨further, u, settled, reads⟩ :=
      hload _ (hs.inert r hr) _ _ _ (hs.extends reached) h
    refine ⟨reached.trans further, .inr ⟨u, settled, ?_⟩⟩
    exact reads.mono (Heap.above_within reached.heap.length_le List.prefix_rfl)

/-- What does not produce entities is constructed from inert data as what leads to no object. -/
theorem exists_leaf_of_builtField {enter : ClassId → Value → Option Tree} {data : Entries}
    (hdata : (Value.dict data).Inert) {f : String × Checker} (hp : f.2.producesEntity = false)
    {t : Tree} (ht : g.builtField enter data f = some t) : ∃ x, t = .leaf x ∧ x.Inert := by
  have undeferred : f.2.deferred = false := by
    by_contra hd
    cases hp.symm.trans (Checker.producesEntity_of_deferred _ (Bool.eq_true_of_not_eq_false hd))
  have inert := Value.inert_getStr hdata f.1
  rw [Catalog.builtField, undeferred, if_neg Bool.false_ne_true] at ht
  by_cases hdec : f.2.decodes = true
  · obtain ⟨r, hr⟩ := Checker.exists_date hdec hp
    rw [if_pos hdec, hr] at ht
    obtain ⟨x, hx, ht⟩ := Option.bind_eq_some_iff.1 ht
    exact ⟨x, (Option.some.inj ht).symm, inert.toMoment (toOption_eq_some_iff.1 hx)⟩
  · rw [if_neg hdec] at ht
    exact ⟨_, (Option.some.inj ht).symm, inert⟩

section

variable (hg : g.WellFormed) {value : Checker → Value → Action Value} {raw : Value} {s : Session}
  {id : Value} {a : Address}

include hg

/-- Fields that are loaded whole, one after the other, leave no field to be loaded. -/
theorem exists_stage_of_loadFields {fs : Schema}
    (hvalue : ∀ f ∈ fs, f.2.producesEntity = true → ∀ x, rawField raw f.1 = .ok x →
      Settles g (.decoded f.2) (value f.2 x)) (hfs : ∀ f ∈ fs, f ∈ g.schemaOf cls) (hs : s.Plain g)
    {s₁ s₂ : Session} (reached : s.Extends s₁) {trees : String → Tree} {v : String → Value}
    (st : Stage g s.heap cls id trees a fs s₁.heap v)
    (done : ∀ f ∈ g.schemaOf cls, (f.2.producesEntity = true → f ∉ fs) →
      (trees f.1).Settled g (.decoded f.2))
    (h : Session.outcome (loadFields value a raw fs) s₁ = (.ok ⟨⟩, s₂)) :
    s.Extends s₂ ∧ ∃ (trees' : String → Tree) (v' : String → Value),
      Stage g s.heap cls id trees' a [] s₂.heap v' ∧
        ∀ f ∈ g.schemaOf cls, (trees' f.1).Settled g (.decoded f.2) := by
  induction fs generalizing s₁ trees v with
  | nil =>
    cases h
    exact ⟨reached, trees, v, st, fun f hf => done f hf fun _ => List.not_mem_nil⟩
  | cons f fs ih =>
    obtain ⟨hf, hfs⟩ := List.forall_mem_cons.1 hfs
    obtain ⟨hx, hvalue⟩ := List.forall_mem_cons.1 hvalue
    rw [loadFields] at h
    cases hp : f.2.producesEntity with
    | false =>
      rw [hp, if_neg Bool.false_ne_true] at h
      exact ih hvalue hfs reached (st.skip hp) (Stage.forall_done_skip done hp) h
    | true =>
      rw [hp, if_pos rfl] at h
      obtain ⟨x, hraw, h⟩ := Session.outcome_ofExcept_bind_eq_ok h
      obtain ⟨y, s₃, hy, h⟩ := Session.outcome_bind_eq_ok h
      rw [Session.outcome_bind_ok (outcome_settle a f.1 y s₃)] at h
      obtain ⟨further, t, settled, reads⟩ := hx hp x hraw _ _ _ (hs.extends reached) hy
      have reached' := (reached.trans further).settle st.added f.1 y
      have st' := st.fill hg hf hp further.heap reads
      exact ih hvalue hfs reached' st' (Stage.forall_done_fill hg hf settled done) h

/-- **Entities are loaded whole**, whatever the bound, if no class has a lookup of its own. -/
theorem settles_loadWithin (own : ∀ cls, g.lookupOf? cls = none) : ∀ (fuel : Nat) (cls : ClassId)
    (raw : Value), raw.Inert → Settles g (.entity cls) (loadWithin fuel cls raw)
  | 0, _, _, _ => fun _ _ _ _ h => nomatch h
  | fuel + 1, cls, raw, hraw => by
    intro s v s' hs h
    have whole := settles_loadWithin own fuel
    have empty : ∀ r ∈ ([] : List Record), (Value.dict r.data).Inert := List.forall_mem_nil _
    have made := Construction.refines_ofRaw (g.tame_drawnInert cls empty) hg le_rfl ⟨hraw, .refl⟩
    rw [loadWithin, Session.outcome_get_bind, hs.catalog] at h
    obtain ⟨w, s₁, hw, h⟩ := Session.outcome_bind_eq_ok h
    obtain ⟨h₁, hbuilt, rfl⟩ := Session.exists_of_outcome_build hw
    obtain ⟨t₀, ht₀, hle, reads⟩ := made.of_ok hbuilt
    obtain ⟨m, hm⟩ : ∃ m, raw.depth = m + 1 := ⟨raw.depth - 1, by have := raw.depth_pos; omega⟩
    rw [hm] at ht₀
    obtain ⟨data, trees₀, hdata, htrees₀, rfl⟩ := Catalog.built_succ_eq_some.1 ht₀
    have inert := Construction.inert_of_entriesOf hraw hdata
    have plain : ∀ f ∈ g.schemaOf cls, f.2.producesEntity = false →
        ∃ x, trees₀ f.1 = .leaf x ∧ x.Inert := fun f hf hp =>
      exists_leaf_of_builtField inert hp (eq_of_fieldTrees (hg.nodup cls) htrees₀ f hf)
    have kept : ∀ f ∈ g.schemaOf cls, f.2.producesEntity = false →
        trees₀ f.1 = trees₀ f.1 ∧ ∃ x, trees₀ f.1 = .leaf x := fun f hf hp =>
      ⟨rfl, (plain f hf hp).imp fun _ hx => hx.1⟩
    obtain ⟨a, u, rfl, st⟩ := Stage.start hle reads kept
    dsimp only at h
    obtain ⟨_, s₂, hfields, h⟩ := Session.outcome_bind_eq_ok h
    cases h
    obtain ⟨reached, trees, u', st', settled⟩ := exists_stage_of_loadFields hg
      (fun f hf hp x hx => by
        rw [Catalog.eq_getStr_of_rawField hx hdata]
        exact settles_loadWith whole (fun cls id hid => seeks_findWith (own cls) (whole cls) hid)
          f.2 hp _ (Value.inert_getStr inert f.1))
      (fun f hf => hf) hs (Session.extends_of_grown hle s.now) st (fun f hf hnot => by
        have hp : f.2.producesEntity = false := by
          by_contra hp
          exact hnot (Bool.eq_true_of_not_eq_false hp) hf
        obtain ⟨x, leaf, hx⟩ := plain f hf hp
        rw [leaf]
        exact .plain hp hx) hfields
    exact ⟨reached, _, .entity (Value.inert_getStr inert idField) settled, st'.reads⟩

/-- **After a loading nothing is left to be loaded, at any depth.**  Where no class has a lookup of
its own, and neither the raw data nor any record leads to an object, what is loaded is an entity of
the class, and every entity that it holds is settled. -/
theorem settled_of_load (own : ∀ cls, g.lookupOf? cls = none) (hs : s.Plain g) (hraw : raw.Inert)
    {v : Value} {s' : Session} (h : Session.outcome (load cls raw) s = (.ok v, s')) :
    ∃ a, v = .object a ∧ s'.heap.Settled g a cls ∧
      ∀ b, s'.heap.Holds v b → ∃ d, s'.heap.Settled g b d := by
  rw [load, Session.outcome_get_bind, Session.outcome_arrange] at h
  have opens := (Session.opens_arranged s (Session.firstRequest?
    (loadWithin (bound s .null + made s cls raw) cls raw) s)).1
  obtain ⟨-, t, settled, reads⟩ := settles_loadWithin hg own _ cls raw hraw _ _ _
    (hs.extends opens.extends) h
  replace reads := reads.mono (Heap.only_within_self _ s'.heap)
  have whole := fun b => settled.of_holds hg reads (a := b)
  cases settled with
  | entity hid fields =>
    cases reads with
    | @entity a _ _ _ _ _ cell _ =>
      obtain ⟨d, there⟩ := whole a (.direct (.object a))
      have species : (Heap.get s'.heap a).species = .entity cls := by rw [cell]; rfl
      obtain rfl : d = cls := Species.entity.inj (there.species.symm.trans species)
      exact ⟨a, rfl, there, whole⟩

end

end

/-- A class of writers; a class of parts, which have an editor; and a class of books, which have an
author and parts.  Writers are looked up. -/
def shelves : Catalog where
  classes := ((Catalog.initial.classes ++ [⟨"Writer", "Writer", [1, 0], [("name", Checker.string)],
      none, some (some 0)⟩]) ++
    [⟨"Part", "Part", [2, 0], [("editor", .reference (.cls 1) (.bool true) false)], none, none⟩]) ++
    [⟨"Book", "Book", [3, 0],
      [("author", .reference (.named "Writer") (.bool true) true),
        ("parts", .arrayOf (.reference (.cls 2) (.bool false) false) false)], none, none⟩]
  names := [("Writer", 1)]

theorem wellFormed_shelves : shelves.WellFormed := by
  have writers : (⟨Catalog.initial.classes ++ [⟨"Writer", "Writer", [1, 0],
      [("name", Checker.string)], none, some (some 0)⟩], []⟩ : Catalog).WellFormed :=
    Catalog.wellFormed_initial.append (by decide) (by decide)
  have parts : (⟨(Catalog.initial.classes ++ [⟨"Writer", "Writer", [1, 0],
      [("name", Checker.string)], none, some (some 0)⟩]) ++ [⟨"Part", "Part", [2, 0],
      [("editor", .reference (.cls 1) (.bool true) false)], none, none⟩], []⟩ :
      Catalog).WellFormed := writers.append (by decide) (by decide)
  exact parts.append (by decide) (by decide)

/-- A session with a store in memory in which there is one writer. -/
def shelving : Session :=
  { Session.initial with
    catalog := shelves
    stores :=
      [.memory [⟨⟨.text "Writer", "w"⟩, [(.str "_id", .str "w"), (.str "name", .str "x")]⟩]] }

/-- A book by the writer with two parts, one of which was edited by the writer and the other by
nobody who is known. -/
def rawShelved : Value :=
  .dict [(.str "author", .dict [(.str "_id", .str "w")]),
    (.str "parts", .list [.dict [(.str "editor", .dict [(.str "_id", .str "w")])],
      .dict [(.str "editor", .dict [(.str "_id", .str "u")])]])]

theorem plain_shelving : shelving.Plain shelves := by
  refine ⟨rfl, fun r hr => (Value.isData_of_isPlain _ ?_).inert⟩
  obtain rfl := List.mem_singleton.1 (Session.mem_of_has rfl rfl hr)
  decide

/-- The book is loaded with its author and its parts, and nothing of them is left to be loaded. -/
theorem settled_of_load_shelved : ∃ v s' a, Session.outcome (load 3 rawShelved) shelving =
    (.ok v, s') ∧ v = .object a ∧ s'.heap.Settled shelves a 3 ∧
      ∀ b, s'.heap.Holds v b → ∃ d, s'.heap.Settled shelves b d := by
  have made : (Session.outcome (load 3 rawShelved) shelving).1.toBool = true := by decide +kernel
  obtain ⟨v, s', hv⟩ := Session.exists_of_toBool made
  have own : ∀ cls, shelves.lookupOf? cls = none := Catalog.lookupOf?_eq_none (by decide)
  have raw : rawShelved.Inert := (Value.isData_of_isPlain rawShelved (by decide)).inert
  obtain ⟨a, ha, whole⟩ := settled_of_load wellFormed_shelves own plain_shelving raw hv
  exact ⟨v, s', a, hv, ha, whole⟩

end Loading

end EntitySchema
