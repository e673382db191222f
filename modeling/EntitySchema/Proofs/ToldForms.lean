/-
**What loading tells.**

While an entity is loaded from data it is known, step by step, which raw data it will tell: data
that say the same as those that it is loaded from.  A moment is told as text, an embedded entity as
its own raw data, and what an eager reference found as the identifier alone, under which the same
record is found again if every record is kept under its identifier.  This does not depend on where
the objects are that are loaded, nor on what else there is.

Of an entity that is loaded from a record, which may lead to objects, no more is known than what it
tells of its identifier; but it is not asked for more, since only an eager reference finds it.

Main definitions:

* `Heap.FormedAs` — **a value that has the same raw form wherever its objects are**;
* `Catalog.Foretells` — what is known of what loading tells.

Main results:

* `Heap.formedAs_entity` — the raw form of an entity;
* `Pairing.tells_foretold`, `Pairing.recounts_foretold` — what loading tells, step by step.
-/

import EntitySchema.Proofs.PairedDraws
import EntitySchema.Proofs.Reencoding
import EntitySchema.Proofs.SavedRecords

set_option autoImplicit false

namespace EntitySchema

/-! ### Raw forms wherever objects are -/

namespace Heap

variable {g : Catalog} {h k : Heap} {byId : Bool} {v form : Value}

/-- A value has a raw form wherever its objects are: in every heap in which their cells are found at
other addresses, with addresses that are changed accordingly. -/
def FormedAs (g : Catalog) (h : Heap) (byId : Bool) (v form : Value) : Prop :=
  ∀ (f : Address → Address) (h' : Heap),
    (∀ a, h.Holds v a → get h' (f a) = renameCell f (get h a)) →
    Encoding.encodeWith h' (Method.toRaw g h') byId (rename f v) = .ok form

/-- A raw form lasts as long as the cells of a value stay what they are. -/
theorem FormedAs.of_agrees (formed : h.FormedAs g byId v form) (agrees : Agrees h k v) :
    k.FormedAs g byId v form := fun f h' cells => formed f h' fun a ha => by
  have held : k.Holds v a := by
    induction ha with
    | direct ha => exact .direct ha
    | through ha hp hb ih => exact .through ih (by rwa [agrees _ ha]) hb
  rw [cells a held, agrees a ha]

theorem formedAs_of_inert (hv : v.Inert) : h.FormedAs g byId v v.encoded := fun f h' _ => by
  rw [rename_of_inert f v hv, Encoding.encodeWith_of_inert v hv]

theorem formedAs_of_isData (hv : v.IsData) : h.FormedAs g byId v v := by
  have formed : h.FormedAs g byId v v.encoded := formedAs_of_inert hv.inert
  rwa [Value.encoded_of_isData hv] at formed

/-- The raw forms of the items of a list. -/
theorem formedAs_list {vs forms : List Value}
    (all : List.Forall₂ (fun v form => h.FormedAs g byId v form) vs forms) :
    h.FormedAs g byId (.list vs) (.list forms) := by
  intro f h' cells
  have items : Encoding.encodeItems h' (Method.toRaw g h') byId (vs.map (rename f)) =
      .ok forms := by
    have each : ∀ v ∈ vs, ∀ a, h.Holds v a → get h' (f a) = renameCell f (get h a) :=
      fun v hv a ha => cells a (ha.of_leads fun b hb => .direct (.list hv hb))
    clear cells
    induction all with
    | nil => rfl
    | cons formed _ ih =>
      obtain ⟨here, rest⟩ := List.forall_mem_cons.1 each
      rw [List.map_cons, Encoding.encodeItems, formed f h' here, ok_bind, ih rest]
      rfl
  rw [rename, renameItems_eq_map, Encoding.encodeWith, items]
  rfl

/-- The raw forms of the values of a dictionary whose keys lead to no object. -/
theorem formedAs_dict {keys vs forms : List Value} (inert : ∀ key ∈ keys, key.Inert)
    (all : List.Forall₂ (fun v form => h.FormedAs g byId v form) vs forms) :
    h.FormedAs g byId (.dict (keys.zip vs)) (.dict (keys.zip forms)) := by
  intro f h' cells
  have entries : Encoding.encodeEntries h' (Method.toRaw g h') byId
      (renameEntries f (keys.zip vs)) = .ok (keys.zip forms) := by
    have each : ∀ e ∈ keys.zip vs, ∀ a, h.Holds e.2 a → get h' (f a) = renameCell f (get h a) :=
      fun e he a ha => cells a (ha.of_leads fun b hb => .direct (.dict he hb))
    clear cells
    induction all generalizing keys with
    | nil => simp [renameEntries, Encoding.encodeEntries]
    | cons formed _ ih =>
      cases keys with
      | nil => rfl
      | cons key keys =>
        obtain ⟨plain, inert⟩ := List.forall_mem_cons.1 inert
        obtain ⟨here, rest⟩ := List.forall_mem_cons.1 each
        rw [List.zip_cons_cons, List.zip_cons_cons, renameEntries, rename_of_inert f _ plain,
          Encoding.encodeEntries, formed f h' here, ok_bind, ih inert rest]
        rfl
  rw [rename, Encoding.encodeWith, entries]
  rfl

section

variable {a : Address} {cls : ClassId} {id : Value} {v w : String → Value} (hg : g.WellFormed)
  (cell : get h a = Cell.ofFields cls id [] (Table.names (g.schemaOf cls)) v) (inert : id.Inert)

include cell inert

/-- An entity tells its identifier alone. -/
theorem formedAs_id : h.FormedAs g true (.object a) (.dict [(.str idField, id)]) := by
  intro f h' cells
  have there := cells a (.direct (.object a))
  rw [cell, renameCell_ofFields, rename_of_inert f id inert] at there
  have entity : isEntity h' (f a) = true := by
    unfold isEntity
    rw [there]
    rfl
  rw [rename, Encoding.encodeWith, if_pos entity, if_pos rfl, Encoding.identifierOnly, there]
  rfl

include hg

/-- **An entity tells its identifier and the raw forms of its fields**, if nothing is put aside. -/
theorem formedAs_entity
    (fields : ∀ p ∈ g.schemaOf cls, h.FormedAs g p.2.deferred (v p.1) (w p.1)) :
    h.FormedAs g false (.object a) (.dict (g.rawData cls id w)) := by
  intro f h' cells
  have there := cells a (.direct (.object a))
  rw [cell, renameCell_ofFields, rename_of_inert f id inert] at there
  have entity : isEntity h' (f a) = true := by
    unfold isEntity
    rw [there]
    rfl
  have ordinary : Ordinary h' (f a) cls id := .of_cell hg there
  rw [rename, Encoding.encodeWith, if_pos entity, if_neg Bool.false_ne_true]
  refine (ordinary.toRaw_eq_ok_iff hg).2 ⟨w, rfl, fun p hp => ?_⟩
  have held : ∀ b, h.Holds (v p.1) b → h.Holds (.object a) b := fun b hb => by
    refine hb.of_leads fun c hc => ?_
    refine .through (.direct (.object a)) (p := (p.1, v p.1)) ?_ hc
    rw [cell]
    exact List.mem_cons_of_mem _
      (List.mem_cons_of_mem _ (List.mem_map_of_mem (List.mem_map_of_mem hp)))
  have told := fields p hp f h' fun b hb => cells b (held b hb)
  rw [Encoding.encodeField_told hg there hp told]
  exact congrArg (fun x => Except.ok (Value.str p.1, x)) (ite_self _)

end

end Heap

/-! ### What is known of what is told -/

/-- What is known of what loading tells: what a checker makes of data has a raw form, which is data
that say the same; an entity that is loaded from data has such raw data; and any entity tells an
identifier that leads to no object. -/
def Catalog.Foretells (g : Catalog) (rs : List Record) : Subject → Value → Heap → Value → Prop
  | .decoded c, raw, h, v => raw.IsData → ∃ form : Value, form.IsData ∧
      g.Rephrased False (g.FindsAlike rs False) (.decoded c) raw form ∧
        h.FormedAs g c.deferred v form
  | .entity cls, raw, h, v => (∃ h₀ data, Construction.entriesOf h₀ raw = .ok data ∧
      ((Entries.getStr data idField).Inert →
        h.FormedAs g true v (.dict [(.str idField, Entries.getStr data idField)]))) ∧
      (raw.IsData → ∃ form : Value, form.IsData ∧ form.isNull = false ∧
        g.Rephrased False (g.FindsAlike rs False) (.entity cls) raw form ∧
          h.FormedAs g false v form)

/-- What is known of the members of a list, one by one. -/
theorem exists_forms {P : Value → Value → Value → Prop} {xs vs : List Value}
    (all : List.Forall₂ (fun x v => x.IsData → ∃ form, P x form v) xs vs)
    (data : ∀ x ∈ xs, x.IsData) : ∃ forms, Forall₃ P xs forms vs := by
  induction all with
  | nil => exact ⟨[], .nil⟩
  | cons here _ ih =>
    obtain ⟨first, rest⟩ := List.forall_mem_cons.1 data
    obtain ⟨form, hform⟩ := here first
    obtain ⟨forms, hforms⟩ := ih rest
    exact ⟨form :: forms, .cons hform hforms⟩

theorem Forall₃.forall_middle {α β γ : Type} {R : α → β → γ → Prop} {P : β → Prop} {xs : List α}
    {ys : List β} {zs : List γ} (all : Forall₃ R xs ys zs) (h : ∀ x y z, R x y z → P y) :
    ∀ y ∈ ys, P y := by
  induction all with
  | nil => exact List.forall_mem_nil _
  | cons hR _ ih => exact List.forall_mem_cons.2 ⟨h _ _ _ hR, ih⟩

namespace Pairing

open Session

variable {cls : ClassId} {rs : List Record} {s : Session}

/-- **What loading tells is known step by step.** -/
theorem tells_foretold (hg : s.catalog.WellFormed) :
    (drawn True (s.catalog.Foretells rs) cls rs s s).Tells where
  move subject raw h k v agrees told := by
    cases subject with
    | decoded c =>
      intro data
      obtain ⟨form, formData, re, formed⟩ := told data
      exact ⟨form, formData, re, formed.of_agrees agrees⟩
    | entity c =>
      obtain ⟨⟨h₀, data, hdata, id⟩, told⟩ := told
      refine ⟨⟨h₀, data, hdata, fun inert => (id inert).of_agrees agrees⟩, fun data => ?_⟩
      obtain ⟨form, formData, there, re, formed⟩ := told data
      exact ⟨form, formData, there, re, formed.of_agrees agrees⟩
  kept c raw h _ _ data := ⟨raw, data, .same _ raw, Heap.formedAs_of_isData data⟩
  date r raw h names v hv data := by
    have hv' : raw.toMoment (fun _ => "") = .ok v := by
      rw [← hv]
      exact Value.toMoment_of_inert data.inert _ _
    -- what is told is the text of the moment, whatever the raw value was
    obtain ⟨encoded, again⟩ := Value.toMoment_encoded data hv'
    refine ⟨v.encoded, encoded, .date r fun names' => ?_,
      Heap.formedAs_of_inert (data.inert.toMoment hv)⟩
    rw [Value.toMoment_of_inert encoded.inert names' fun _ => "", again,
      Value.toMoment_of_inert data.inert names' fun _ => "", hv']
  absent t e r h lazy data := ⟨.null, data, .same _ .null, Heap.formedAs_of_isData data⟩
  present t e r h a lazy data := absurd (.object a) (data.inert a)
  embedded t e r d raw h v lazy hd there told data := by
    obtain ⟨form, formData, present, re, formed⟩ := told.2 data
    refine ⟨form, formData, .embedded r lazy (there.trans present.symm) fun d' hd' => ?_, ?_⟩
    · obtain rfl : d = d' := Except.ok.inj (hd.symm.trans hd')
      exact re
    · rw [Checker.deferred, lazy]
      exact formed
  array c r raw xs h vs producing hxs all data := by
    obtain ⟨forms, parts⟩ := exists_forms
      (P := fun x form v => form.IsData ∧
        s.catalog.Rephrased False (s.catalog.FindsAlike rs False) (.decoded c) x form ∧
          h.FormedAs s.catalog c.deferred v form) all (Checker.isData_of_itemsOf data hxs)
    have pairs := List.forall₂_iff_zip.1 (parts.left fun _ _ _ part => part.2.1)
    refine ⟨.list forms, .list (parts.forall_middle fun _ _ _ part => part.1),
      .array r producing hxs rfl pairs.1 fun p hp => pairs.2 hp, Heap.formedAs_list ?_⟩
    exact (parts.right fun _ _ _ part => part.2.2).flip
  dictionary c r raw h₀ es h vs producing hes all data := by
    rw [Checker.entriesOf_of_inert data.inert h₀ []] at hes
    have entries := Checker.isData_of_entriesOf data hes
    obtain ⟨forms, parts⟩ := exists_forms
      (P := fun x form v => form.IsData ∧
        s.catalog.Rephrased False (s.catalog.FindsAlike rs False) (.decoded c) x form ∧
          h.FormedAs s.catalog c.deferred v form) all
      (List.forall_mem_map.2 fun e he => entries.value he)
    have pairs := List.forall₂_iff_zip.1 (parts.left fun _ _ _ part => part.2.1)
    have size : es.length = forms.length := by simpa using pairs.1
    have keyed : (es.map Prod.fst).length = forms.length := by simpa using size
    refine ⟨.dict ((es.map Prod.fst).zip forms),
      entries.with_values size (parts.forall_middle fun _ _ _ part => part.1),
      .dictionary r producing hes rfl (List.map_fst_zip keyed.le).symm fun p hp => ?_,
      Heap.formedAs_dict (List.forall_mem_map.2 fun e he => ?_)
        (parts.right fun _ _ _ part => part.2.2).flip⟩
    · rw [List.map_snd_zip keyed.ge] at hp
      exact pairs.2 hp
    · exact (Value.inert_dict_iff.1 entries.inert e he).1
  entity d raw h₀ data h a v hdata cell told := by
    refine ⟨⟨h₀, data, hdata, Heap.formedAs_id cell⟩, fun isData => ?_⟩
    have entries := Construction.isData_of_entriesOf isData hdata
    have id := Entries.isData_getStr entries idField
    -- each field has a form of its own; the record has them under the names of the schema
    obtain ⟨w, hw⟩ := Catalog.exists_named (hg.nodup d) fun f hf =>
      told f hf (Entries.isData_getStr entries f.1)
    refine ⟨.dict (s.catalog.rawData d (Entries.getStr data idField) w),
      isData_rawEntries (hg.nodup d) (hg.id_not_mem d) id
        (List.forall_mem_map.2 fun f hf => (hw f hf).1),
      rfl, .entity ((Construction.entriesOf_of_inert isData.inert [] h₀).trans hdata)
        (Construction.entriesOf_dict [] _) False.elim (fun _ => rfl)
        (getStr_rawEntries_id (hg.id_not_mem d)).symm fun f hf => ?_,
      Heap.formedAs_entity hg cell id.inert fun f hf => (hw f hf).2.2⟩
    have named : f.1 ∈ Table.names (s.catalog.schemaOf d) := List.mem_map_of_mem hf
    rw [Catalog.rawData, getStr_rawEntries_field named (hg.id_not_mem d)]
    exact (hw f hf).2.1

/-- **What an eager reference finds tells its identifier alone**, under which it is found again. -/
theorem recounts_foretold (identified : Catalog.Identified (s.catalog.lookIn rs)) :
    Recounts (s.catalog.Foretells rs) s.catalog rs True where
  lax h := absurd trivial h
  absent t e r raw h eager none data := by
    rw [Checker.identifierOf_of_inert data.inert] at none
    exact ⟨.null, Value.isData_null, .payload r eager ⟨id, .inl ⟨none, rfl⟩⟩,
      Heap.formedAs_of_isData Value.isData_null⟩
  nothing t e r raw h d name k eager hd hname none data := by
    rw [Checker.identifierOf_of_inert data.inert,
      Method.toText_of_inert _ _ (Checker.inert_identifierIn data.inert)] at hname
    obtain rfl := Except.ok.inj hname
    refine ⟨.null, Value.isData_null, .payload r eager ⟨id, ?_⟩,
      Heap.formedAs_of_isData Value.isData_null⟩
    cases there : (Checker.identifierIn raw).isNull with
    | true => exact .inl ⟨rfl, rfl⟩
    | false =>
      refine .inr ⟨rfl, fun d' hd' => ?_⟩
      obtain rfl : d = d' := Except.ok.inj (hd.symm.trans hd')
      exact none
  found t e r raw h d name es f k v eager there hd hname hes told data := by
    rw [Checker.identifierOf_of_inert data.inert] at there hname
    rw [Method.toText_of_inert _ _ (Checker.inert_identifierIn data.inert)] at hname
    obtain rfl := Except.ok.inj hname
    obtain ⟨present, own, again⟩ := identified d (Checker.identifierIn raw) es hes
    obtain ⟨⟨h₀, entries, hentries, told⟩, -⟩ := told
    rw [Heap.rename] at hentries
    obtain rfl := Except.ok.inj ((Construction.entriesOf_dict h₀ _).symm.trans hentries)
    rw [Entries.getStr_renameEntries, Heap.rename_of_inert f _ own.inert] at told
    refine ⟨.dict [(.str idField, Entries.getStr es idField)],
      .dict (by simp [Value.isAtom]) (by simpa using own) (List.pairwise_singleton _ _),
      .payload r eager ⟨id, .inr ⟨there, fun d' hd' => ?_⟩⟩, ?_⟩
    · obtain rfl : d = d' := Except.ok.inj (hd.symm.trans hd')
      have carried : Checker.identifierIn (.dict [(.str idField, Entries.getStr es idField)]) =
          Entries.getStr es idField := rfl
      rw [carried, present, if_neg Bool.false_ne_true, again]
      exact hes
    · rw [Checker.deferred, eager]
      exact told own.inert

end Pairing

end EntitySchema
