/-
**What saving leaves in a store.**

Saving an entity may fail at any step, and the records are as they were then.  If it does not fail,
the record under the kind of the class and the text of the identifier holds what the store keeps of
the raw data.  These hold the identifier and a value for every field, whatever the fields hold; and
what is plain in them is kept as it is.

Main definitions:

* `Value.Lasts`, `Entries.CarriedBy` — what a store keeps as it is;
* `Session.Tended` — a session after work on one of its stores, in the course of which objects may
  have been copied.

Main results:

* `Heap.Ordinary.toRaw_eq_ok_iff` — the raw data of an entity hold its identifier and its fields;
* `Persistence.save_cases` — **what saving leaves in the store**, whether it fails or not.
-/

import EntitySchema.Proofs.CallDepth
import EntitySchema.Proofs.RenamedValues
import EntitySchema.Proofs.Saving

set_option autoImplicit false

namespace EntitySchema

/-! ### What is kept as it is -/

/-- A value that a store keeps as it is: in memory what leads to no object, and in a file what is
plain. -/
def Value.Lasts (inFile : Bool) (v : Value) : Prop :=
  match inFile with
  | false => v.Inert
  | true => v.isPlain = true

theorem Value.lasts_of_isPlain {v : Value} (h : v.isPlain = true) (inFile : Bool) :
    v.Lasts inFile := by
  cases inFile with
  | false => exact (isData_of_isPlain v h).inert
  | true => exact h

namespace Entries

/-- What a store keeps as it is of data under names is carried by other data, which are plain in a
file. -/
structure CarriedBy (inFile : Bool) (es ds : Entries) : Prop where
  same : ∀ name, (getStr es name).Lasts inFile → getStr ds name = getStr es name
  plain : inFile = true → (Value.dict ds).isPlain = true

/-- A copy carries what leads to no object. -/
theorem carriedBy_rename (addr : Address → Address) (es : Entries) :
    es.CarriedBy false (Heap.renameEntries addr es) := by
  refine ⟨fun name inert => ?_, nofun⟩
  rw [getStr_renameEntries]
  exact Heap.rename_of_inert addr _ inert

theorem getStr?_of_written {es ws : Entries} (hw : Value.writtenEntries es = .ok ws)
    (texts : ∀ e ∈ es, ∃ name, e.1 = .str name) (name : String) :
    (getStr? es name = none ∧ getStr? ws name = none) ∨
      ∃ v w, getStr? es name = some v ∧ v.written = .ok w ∧ getStr? ws name = some w := by
  induction es generalizing ws with
  | nil =>
    cases hw
    exact .inl ⟨rfl, rfl⟩
  | cons e es ih =>
    obtain ⟨k, v⟩ := e
    obtain ⟨⟨other, hother⟩, rest⟩ := List.forall_mem_cons.1 texts
    obtain ⟨t, w, ws', ht, hv, hws, rfl⟩ := Value.exists_of_writtenEntries_cons hw
    dsimp only at hother
    subst hother
    cases ht
    rw [getStr?_cons, getStr?_cons]
    by_cases here : Value.isText name (.str other) = true
    · rw [if_pos here, if_pos here]
      exact .inr ⟨v, w, rfl, hv, rfl⟩
    · rw [if_neg here, if_neg here]
      exact ih hws rest

/-- A written record carries what is plain. -/
theorem carriedBy_written {es ws : Entries} (hw : Value.writtenEntries es = .ok ws)
    (keyed : textKeyed es = true) : es.CarriedBy true (ofPairs ws) := by
  obtain ⟨texts, distinct⟩ := textKeyed_iff.1 keyed
  have keys := Value.map_fst_of_writtenEntries hw texts
  have keyed' : textKeyed ws = true := by
    refine textKeyed_iff.2 ⟨fun e he => ?_, ?_⟩
    · have mem : e.1 ∈ es.map Prod.fst := keys ▸ List.mem_map_of_mem he
      obtain ⟨f, hf, heq⟩ := List.mem_map.1 mem
      exact heq ▸ texts f hf
    · have apart : (es.map Prod.fst).Pairwise fun a b => Value.sameKey a b = false :=
        List.pairwise_map.2 distinct
      rw [← keys] at apart
      exact List.pairwise_map.1 apart
  refine ⟨fun name plain => ?_, fun _ =>
    Value.isPlain_ofPairs (Value.plain_of_writtenEntries es hw)⟩
  rw [ofPairs_of_textKeyed keyed', getStr, getStr]
  rw [getStr] at plain
  rcases getStr?_of_written hw texts name with ⟨hes, hws⟩ | ⟨v, w, hes, hv, hws⟩
  · rw [hes, hws]
  · rw [hes] at plain ⊢
    rw [hws]
    exact (Except.ok.inj ((Value.written_of_plain v plain).symm.trans hv)).symm

end Entries

namespace Session

/-! ### A record is put -/

/-- What a session has become by work on one of its stores, which keeps these records now, where
objects may have been copied. -/
structure Tended (s : Session) (i : StoreId) (rs : List Record) (s' : Session) : Prop where
  keeps : s'.Keeps i rs
  place : s'.inFile i = s.inFile i
  on : s.MovesOn s'
  heap : s.heap <+: s'.heap

variable {s s' : Session} {i : StoreId} {rs : List Record}

/-- **A record is put as a whole or not at all.**  What is put carries what the store keeps as it
is, and in memory it is a copy; if nothing is put, no other records are there than before. -/
theorem putRecord_cases (h : s.Keeps i rs) (kind : String) {id data : Value} {r : Record}
    {name : String} (text : Method.toText s.catalog s.heap id = .ok name)
    (hr : Record.examine (.str kind) name data = .ok r) (keyed : Entries.textKeyed r.data = true) :
    (∃ e s' rs', outcome (putRecord i (.str kind) id data) s = (.error e, s') ∧ rs'.Sublist rs ∧
      s.Tended i rs' s') ∨
      ∃ ds s', outcome (putRecord i (.str kind) id data) s = (.ok ⟨⟩, s') ∧
        r.data.CarriedBy (s.inFile i) ds ∧ s.Tended i (MemoryStore.put rs ⟨r.key, ds⟩) s' ∧
        (s.inFile i = false → s.heap.copy (.dict r.data) = (.dict ds, s'.heap)) := by
  have named : outcome (textOf id) s = (.ok name, s) := by rw [outcome_textOf, text]
  rw [putRecord, outcome_bind_ok named, hr, outcome_ofExcept_ok_bind, outcome_get_bind]
  cases h with
  | memory hm =>
    cases hc : s.heap.copyable (.dict r.data) with
    | false =>
      have lost := outcome_keepRecord_of_uncopyable (store_eq hm) hc
      refine .inl ⟨.misuse .notCallable, s.setStore i (.memory (MemoryStore.without rs r.key)),
        MemoryStore.without rs r.key, ?_, List.filter_sublist, .memory (store_setStore hm), ?_,
        ⟨rfl, rfl, rfl, .refl _⟩, List.prefix_rfl⟩
      · rw [store_eq hm]
        exact lost
      · rw [inFile_memory (store_setStore hm), inFile_memory hm]
    | true =>
      have copied : ∃ addr cells, s.heap.copy (.dict r.data) =
          (.dict (Heap.renameEntries addr r.data), s.heap ++ cells) := ⟨_, _, rfl⟩
      obtain ⟨addr, cells, copied⟩ := copied
      have there : ({ s with heap := s.heap ++ cells } : Session).stores[i]? = some (.memory rs) :=
        hm
      refine .inr
        ⟨Heap.renameEntries addr r.data, ({ s with heap := s.heap ++ cells } : Session).setStore i
        (.memory (MemoryStore.put rs ⟨r.key, Heap.renameEntries addr r.data⟩)), ?_, ?_,
        ⟨.memory (store_setStore there), ?_, ⟨rfl, rfl, rfl, .refl _⟩, List.prefix_append _ _⟩,
        fun _ => copied⟩
      · rw [store_eq hm]
        exact outcome_keepRecord (store_eq hm) hc copied
      · rw [inFile_memory hm]
        exact Entries.carriedBy_rename addr r.data
      · rw [inFile_memory (store_setStore there), inFile_memory hm]
  | file hf =>
    obtain ⟨path, link, hs⟩ := hf.store_file
    rw [hs]
    simp only [outcome_bind_ok hf.requireLink]
    cases hw : Value.writtenEntries r.data with
    | error e =>
      have change : FileTable.put rs r = (.error e, rs) := by
        rw [FileTable.put, FileTable.transaction, Record.written, hw]
        rfl
      obtain ⟨s', hset, hf', on, heap⟩ := hf.setRows rs
      -- that the write fails takes a while, and that it is undone takes another
      refine .inl ⟨e, _, rs, @outcome_undone_error _ _ s { s' with now := s'.now.after 1 } e ?_,
        .refl _, .file ((hf'.wait 1).wait 1), ((hf'.wait 1).wait 1).inFile.trans hf.inFile.symm,
        (on.trans (.wait s' 1)).trans (.wait _ 1), ?_⟩
      · rw [outcome_bind_ok hf.rows, change]
        simp only [outcome_bind_ok hset]
        rfl
      · show s.heap <+: s'.heap
        rw [heap]
    | ok ws =>
      have written : r.written = .ok ⟨r.key, Entries.ofPairs ws⟩ := by
        rw [Record.written, hw]
        rfl
      have change := FileTable.put_of_written rs written
      obtain ⟨s', hset, hf', on, heap⟩ :=
        hf.setRows (MemoryStore.put rs ⟨r.key, Entries.ofPairs ws⟩)
      refine .inr ⟨Entries.ofPairs ws, { s' with now := s'.now.after 3 }, outcome_undone_ok ?_, ?_,
        ⟨.file (hf'.wait 3), (hf'.wait 3).inFile.trans hf.inFile.symm, on.trans (.wait s' 3), ?_⟩,
        fun memory => by cases hf.inFile.symm.trans memory⟩
      · rw [outcome_bind_ok hf.rows, change]
        simp only [outcome_bind_ok hset]
        rfl
      · rw [hf.inFile]
        exact Entries.carriedBy_written hw keyed
      · show s.heap <+: s'.heap
        rw [heap]

end Session

/-! ### An entity is saved -/

/-- Where there is a result for a list there is one for each of its members. -/
theorem exists_of_mapM_ok {α β : Type} {f : α → Except Failure β} {xs : List α} {ys : List β}
    (h : xs.mapM f = .ok ys) : ∀ x ∈ xs, ∃ y, f x = .ok y := by
  induction xs generalizing ys with
  | nil => exact List.forall_mem_nil _
  | cons x xs ih =>
    rw [List.mapM_cons] at h
    obtain ⟨y, hy, h⟩ := bind_eq_ok.1 h
    obtain ⟨ys', hys, -⟩ := bind_eq_ok.1 h
    exact List.forall_mem_cons.2 ⟨⟨y, hy⟩, ih hys⟩

namespace Heap.Ordinary

variable {g : Catalog} {h : Heap} {a : Address} {cls : ClassId} {id : Value}

/-- The raw form of a field stands under the name of the field. -/
theorem fst_of_encodeField {visit : Address → Except Failure Value} {name : String} {r : Rule}
    {p : Value × Value} (told : Encoding.encodeField g h visit a (.str name, r) = .ok p) :
    p.1 = .str name := by
  rw [Encoding.encodeField] at told
  obtain ⟨unloaded, -, told⟩ := bind_eq_ok.1 told
  cases unloaded with
  | some raw =>
    cases told
    rfl
  | none =>
    obtain ⟨form, -, told⟩ := bind_eq_ok.1 told
    cases told
    rfl

/-- **The raw data of an entity hold its identifier and a value for each field**, which is the raw
form of that field; and an entity has raw data just where each of its fields has a raw form. -/
theorem toRaw_eq_ok_iff (hg : g.WellFormed) (ho : Ordinary h a cls id) {d : Value} :
    Method.toRaw g h a = .ok d ↔ ∃ w, d = .dict (g.rawData cls id w) ∧
      ∀ f ∈ g.schemaOf cls, Encoding.encodeField g h (Method.toRaw g h) a (.str f.1, .checker f.2) =
        .ok (.str f.1, w f.1) := by
  have method : objectAttribute? g h a "to_raw" = some (.method (.object a) "to_raw") :=
    ho.given_attribute (by decide)
  have rules := rules_of_unhidden g h ho.species (ho.given "schema" (by decide))
  rw [Method.toRaw_of_method method, Encoding.rawWith, Encoding.idEntry,
    ho.objectAttribute?_id, rules,
    ok_bind, ok_bind]
  have all :
    ∀ w : String → Value, (∀ f ∈ g.schemaOf cls, Encoding.encodeField g h (Method.toRaw g h) a
      (.str f.1, .checker f.2) = .ok (.str f.1, w f.1)) → (classRules g cls).mapM
        (Encoding.encodeField g h (Method.toRaw g h) a) =
      .ok ((Table.names (g.schemaOf cls)).map fun n => (.str n, w n)) := by
    intro w hw
    rw [classRules, List.mapM_map, Table.names, List.map_map]
    exact Encoding.mapM_eq_map hw
  have put (w : String → Value) : Entries.insertAll (if id.isNull then [] else [(.str idField, id)])
      ((Table.names (g.schemaOf cls)).map fun n => (.str n, w n)) = g.rawData cls id w :=
    Encoding.insertAll_idEntries (hg.nodup cls) (hg.id_not_mem cls)
  constructor
  · intro told
    obtain ⟨fields, hfields, told⟩ := bind_eq_ok.1 told
    cases told
    have each : ∀ f ∈ g.schemaOf cls, ∃ x, Encoding.encodeField g h (Method.toRaw g h) a
        (.str f.1, .checker f.2) = .ok (.str f.1, x) := by
      intro f hf
      obtain ⟨p, hp⟩ := exists_of_mapM_ok hfields _ (List.mem_map_of_mem hf)
      refine ⟨p.2, hp.trans ?_⟩
      rw [← fst_of_encodeField hp]
    obtain ⟨w, hw⟩ := Catalog.exists_named (hg.nodup cls) each
    refine ⟨w, ?_, hw⟩
    rw [Except.ok.inj (hfields.symm.trans (all w hw)), put]
  · rintro ⟨w, rfl, hw⟩
    rw [all w hw, ok_bind, put]

end Heap.Ordinary

namespace Persistence

open Session

variable {g : Catalog} {s : Session} {cls : ClassId} {a : Address} {id : Value} {i : StoreId}
  {rs : List Record}

/-- **What saving leaves in the store.**  If it fails no other records are there than before.  Else
the entity passed its validation, and the record under the kind of its class and the text of its
identifier carries its raw data, of which it is a copy in memory. -/
theorem save_cases (hg : g.WellFormed) (hcat : s.catalog = g) (uses : s.Uses i cls)
    (h : s.Keeps i rs) (ho : Heap.Ordinary s.heap a cls id) :
    (∃ e s' rs', outcome (save (.object a)) s = (.error e, s') ∧ rs'.Sublist rs ∧
      (s.identified a id).Tended i rs' s') ∨
    ∃ name visit w ds s', Method.toText g (s.identified a id).heap (s.identifierOf id) = .ok name ∧
      Method.validate g (s.identified a id).heap a = .ok ⟨⟩ ∧
      Method.toRaw g (s.identified a id).heap a =
        .ok (.dict (g.rawData cls (s.identifierOf id) w)) ∧
      (∀ f ∈ g.schemaOf cls, Encoding.encodeField g (s.identified a id).heap visit a
        (.str f.1, .checker f.2) = .ok (.str f.1, w f.1)) ∧
      outcome (save (.object a)) s = (.ok (.object a), s') ∧
      (g.rawData cls (s.identifierOf id) w).CarriedBy (s.inFile i) ds ∧
      (s.identified a id).Tended i
        (MemoryStore.put rs ⟨⟨.text (g.kindOf cls), name⟩, ds⟩) s' ∧
      (s.inFile i = false → (s.identified a id).heap.copy
        (.dict (g.rawData cls (s.identifierOf id) w)) = (.dict ds, s'.heap)) := by
  rw [outcome_save hcat ho uses]
  have on := s.identified_on a id
  have ho₁ := ho.identified
  have keeps₁ := h.of_stores (s.identified_stores a id) (s.identified_disk a id) on.awaited
  have place₁ := inFile_of_stores (i := i) (s.identified_stores a id)
  have cat₁ : (s.identified a id).catalog = g := on.catalog.trans hcat
  generalize s.identified a id = s₁ at *
  generalize s.identifierOf id = id₁ at *
  have untouched : s₁.Tended i rs s₁ := ⟨keeps₁, rfl, .refl _, List.prefix_rfl⟩
  cases hv : Method.validate g s₁.heap a with
  | error e => exact .inl ⟨e, s₁, rs, rfl, .refl _, untouched⟩
  | ok u =>
    cases hraw : Method.toRaw g s₁.heap a with
    | error e => exact .inl ⟨e, s₁, rs, rfl, .refl _, untouched⟩
    | ok d =>
      obtain ⟨w, rfl, told⟩ := (ho₁.toRaw_eq_ok_iff hg).1 hraw
      rw [outcome_ofExcept_ok_bind, outcome_ofExcept_ok_bind]
      cases hname : Method.toText g s₁.heap id₁ with
      | error e =>
        refine .inl ⟨e, s₁, rs, outcome_bind_error (putRecord_of_text_error ?_ _), .refl _,
          untouched⟩
        rw [cat₁, hname]
      | ok name =>
        have keyed : Entries.textKeyed (g.rawData cls id₁ w) = true := hg.textKeyed_rawData
        have examined : Record.examine (.str (g.kindOf cls)) name (.dict (g.rawData cls id₁ w)) =
            .ok ⟨⟨.text (g.kindOf cls), name⟩, g.rawData cls id₁ w⟩ :=
          Record.examine_of_textKeyed rfl keyed
        rw [← cat₁] at hname
        rcases putRecord_cases keeps₁ (g.kindOf cls) hname examined keyed with
          ⟨e, s', rs', hput, sub, tended⟩ | ⟨ds, s', hput, carried, tended, copied⟩
        · exact .inl ⟨e, s', rs', outcome_bind_error hput, sub, tended⟩
        · rw [place₁] at carried copied
          refine .inr ⟨name, _, w, ds, s', rfl, rfl, rfl, told, ?_, carried, tended, copied⟩
          rw [outcome_bind_ok hput]
          rfl

end Persistence

end EntitySchema
