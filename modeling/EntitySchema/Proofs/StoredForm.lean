/-
**Normal forms as files have them.**

The *plain form* of data is what is left of them when they are written to a file.  The plain form of
raw data of an entity has the same identifier and fields, each of them in its plain form, and it is
normal if the raw data are.  So what is found in a file makes an entity again.

Main definitions:

* `Value.plainForm` — the plain form of data.

Main results:

* `Value.writtenEntries_rawEntries` — the written form of raw data of an entity, field by field;
* `Catalog.Normal.plainForm` — **the plain form of a normal form is normal.**
-/

import EntitySchema.Proofs.NormalForm
import EntitySchema.Proofs.WrittenData

set_option autoImplicit false

namespace EntitySchema

namespace Value

/-- The plain form of data: what is left of them when they are written. -/
def plainForm (v : Value) : Value :=
  match v.written with
  | .ok w => w
  | .error _ => .null

theorem written_of_isData {v : Value} (hv : v.IsData) : v.written = .ok v.plainForm := by
  obtain ⟨w, hw, -⟩ := exists_written hv
  rw [plainForm, hw]

theorem isPlain_plainForm {v : Value} (hv : v.IsData) : v.plainForm.isPlain = true := by
  obtain ⟨w, hw, plain⟩ := exists_written hv
  rw [plainForm, hw]
  exact plain

theorem isData_plainForm {v : Value} (hv : v.IsData) : v.plainForm.IsData :=
  isData_of_isPlain _ (isPlain_plainForm hv)

theorem plainForm_of_isPlain {v : Value} (h : v.isPlain = true) : v.plainForm = v := by
  rw [plainForm, written_of_plain v h]

theorem writtenItems_of_isData {xs : List Value} (h : ∀ x ∈ xs, x.IsData) :
    writtenItems xs = .ok (xs.map plainForm) := by
  induction xs with
  | nil => rfl
  | cons x xs ih =>
    obtain ⟨hx, hxs⟩ := List.forall_mem_cons.1 h
    rw [writtenItems, written_of_isData hx, ih hxs]
    rfl

theorem plainForm_list {xs : List Value} (h : ∀ x ∈ xs, x.IsData) :
    plainForm (.list xs) = .list (xs.map plainForm) := by
  rw [plainForm, written, writtenItems_of_isData h]
  rfl

/-- The plain form of a dictionary of data is made of entries whose values are in plain form. -/
theorem plainForm_dict {es : Entries} (h : (Value.dict es).IsData) :
    ∃ ds, plainForm (.dict es) = .dict ds ∧ ∀ d ∈ ds, ∃ e ∈ es, d.2 = e.2.plainForm := by
  have key : ∀ e ∈ es, e.1.isAtom = true := fun e he => h.key he
  have value : ∀ e ∈ es, e.2.IsData := fun e he => h.value he
  obtain ⟨ws, hws, -⟩ := exists_writtenEntries key fun e he => exists_written (value e he)
  refine ⟨Entries.ofPairs ws, by rw [plainForm, written, hws]; rfl, ?_⟩
  have parts : ∀ p ∈ ws, True ∧ ∃ e ∈ es, p.2 = e.2.plainForm := by
    clear key h
    induction es generalizing ws with
    | nil =>
      cases hws
      exact List.forall_mem_nil _
    | cons e es ih =>
      obtain ⟨hv, hrest⟩ := List.forall_mem_cons.1 value
      obtain ⟨t, w, ws', -, hw, hws', rfl⟩ := exists_of_writtenEntries_cons hws
      refine List.forall_mem_cons.2 ⟨⟨trivial, e, List.mem_cons_self .., ?_⟩, ?_⟩
      · exact Except.ok.inj (hw.symm.trans (written_of_isData hv))
      · intro p hp
        obtain ⟨-, e', he', heq⟩ := ih hrest ws' hws' p hp
        exact ⟨trivial, e', List.mem_cons_of_mem e he', heq⟩
  intro d hd
  exact (Entries.forall_mem_ofPairs (P := fun _ => True)
    (Q := fun v => ∃ e ∈ es, v = e.2.plainForm) parts d hd).2

theorem isNull_plainForm {v : Value} (hv : v.IsData) : v.plainForm.isNull = v.isNull := by
  cases hv with
  | atom h => rw [plainForm_of_isPlain (isPlain_of_isAtom h)]
  | list h =>
    rw [plainForm_list h]
    rfl
  | dict hk hv hd =>
    obtain ⟨ds, hds, -⟩ := plainForm_dict (.dict hk hv hd)
    rw [hds]
    rfl

/-! ### Raw data of an entity -/

section

variable {names : List String} {id : Value} {w : String → Value}

theorem writtenEntries_append {es fs es' fs' : Entries} (h : writtenEntries es = .ok es')
    (h' : writtenEntries fs = .ok fs') : writtenEntries (es ++ fs) = .ok (es' ++ fs') := by
  induction es generalizing es' with
  | nil =>
    cases h
    exact h'
  | cons e es ih =>
    obtain ⟨t, x, rest, ht, hx, hrest, rfl⟩ := exists_of_writtenEntries_cons h
    rw [List.cons_append, writtenEntries, ht, hx, ih hrest]
    rfl

/-- The written form of raw data of an entity, field by field. -/
theorem writtenEntries_rawEntries (hid : id.IsData) (hw : ∀ name ∈ names, (w name).IsData) :
    writtenEntries (rawEntries id names w) =
      .ok (rawEntries id.plainForm names fun name => (w name).plainForm) := by
  refine writtenEntries_append ?_ ?_
  · rw [idEntries, idEntries, isNull_plainForm hid]
    split
    · rfl
    · rw [writtenEntries, writtenKey, written_of_isData hid]
      rfl
  · induction names with
    | nil => rfl
    | cons name names ih =>
      obtain ⟨hname, hrest⟩ := List.forall_mem_cons.1 hw
      rw [List.map_cons, writtenEntries, writtenKey, written_of_isData hname, ih hrest]
      rfl

/-- The plain form of raw data of an entity, field by field. -/
theorem plainForm_rawEntries (hn : names.Nodup) (hnot : idField ∉ names) (hid : id.IsData)
    (hw : ∀ name ∈ names, (w name).IsData) : plainForm (.dict (rawEntries id names w)) =
      .dict (rawEntries id.plainForm names fun name => (w name).plainForm) := by
  rw [plainForm, written, writtenEntries_rawEntries hid hw]
  exact congrArg Value.dict (Entries.ofPairs_of_textKeyed (textKeyed_rawEntries hn hnot))

end

end Value

/-! ### Plain forms are normal -/

/-- **The plain form of a normal form is normal.** -/
theorem Catalog.Normal.plainForm {g : Catalog} (hg : g.WellFormed) {s : Subject} {raw form : Value}
    (hn : g.Normal s raw form) (hraw : raw.IsData) :
    g.Normal s form.plainForm form.plainForm := by
  induction hn with
  | @entity cls raw data w hdata hkeeps hnot ih =>
    have entries := Construction.isData_of_entriesOf hraw hdata
    have fields : ∀ name ∈ Table.names (g.schemaOf cls), (w name).IsData :=
      List.forall_mem_map.2 (isData_fields entries hkeeps fun f hf hk =>
        (hnot f hf hk).isData hg (Entries.isData_getStr entries _))
    rw [Value.plainForm_rawEntries (hg.nodup cls) (hg.id_not_mem cls)
      (Entries.isData_getStr entries _) fields]
    refine .entity_self hg _ ?_
    intro f hf hk
    exact ih f hf hk (Entries.isData_getStr entries _)
  | noDate r => exact .noDate r
  | @date r raw m hm =>
    have plain : Value.plainForm (.str m.isoText) = .str m.isoText := rfl
    rw [plain]
    exact .date (Value.toMoment_isoText (Value.readable_of_toMoment hraw hm) _)
  | noEntity t e r => exact .noEntity t e r
  | @embedded t e r raw form cls hn hr hform ih =>
    refine .embedded ?_ hr (ih hraw)
    rw [Value.isNull_plainForm (hform.isData hg hraw)]
    cases hform
    rfl
  | @array e r raw xs ys hxs hlen hys ih =>
    have items := Checker.isData_of_itemsOf hraw hxs
    have forms : ∀ y ∈ ys, y.IsData ∧ g.Normal (.decoded e) y.plainForm y.plainForm := by
      intro y hy
      obtain ⟨x, hxy⟩ := exists_mem_zip_of_mem_right hlen hy
      have data := items x (List.of_mem_zip hxy).1
      exact ⟨(hys (x, y) hxy).isData hg data, ih (x, y) hxy data⟩
    rw [Value.plainForm_list fun y hy => (forms y hy).1]
    refine .array_self r ?_
    intro z hz
    obtain ⟨y, hy, rfl⟩ := List.mem_map.1 hz
    exact (forms y hy).2
  | @dictionary e r raw es ys hes hlen hys ih =>
    have data : (Value.dict ((es.map Prod.fst).zip ys)).IsData :=
      (Catalog.Normal.dictionary (r := r) hes hlen hys).isData hg hraw
    have entries := Checker.isData_of_entriesOf hraw hes
    have size : (es.map Prod.snd).length = ys.length := by simpa using hlen
    obtain ⟨ds, hds, values⟩ := Value.plainForm_dict data
    rw [hds]
    refine .dictionary_self r ?_
    intro d hd
    obtain ⟨q, hq, heq⟩ := values d hd
    obtain ⟨x, hxy⟩ := exists_mem_zip_of_mem_right size (List.of_mem_zip hq).2
    obtain ⟨q', hq', hx⟩ := List.mem_map.1 (List.of_mem_zip hxy).1
    rw [heq]
    exact ih (x, q.2) hxy (hx ▸ entries.value hq')

end EntitySchema
