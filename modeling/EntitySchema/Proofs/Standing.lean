/-
**Entities that stand by themselves.**

An entity that was constructed from plain data holds entities that were constructed with it, its
*parts*, and no other entity that was constructed by itself holds any of them.  So when one of these
entities is given an identifier, or another is constructed, what the others tell of themselves
stays the same.

Main definitions:

* `Catalog.rawData` — the raw data of an entity of a class;
* `Heap.Stands` — **an entity that stands by itself**, beside the parts of all such entities;
* `Heap.Beside` — entities that were constructed one after the other.

Main results:

* `Heap.Stands.shows` — what stands by itself shows its raw data;
* `Heap.Beside.identify` — an identifier that is given to one entity leaves the others as they are;
* `Heap.Beside.build` — **what is constructed of plain data stands by itself, beside the others.**
-/

import EntitySchema.Persistence
import EntitySchema.Proofs.LoadingNormal
import EntitySchema.Proofs.StoredForm

set_option autoImplicit false

namespace EntitySchema

/-! ### Raw data of an entity of a class -/

/-- The raw data of an entity of a class: its identifier, if there is one, and a value for each
field. -/
def Catalog.rawData (g : Catalog) (cls : ClassId) (id : Value) (w : String → Value) : Entries :=
  rawEntries id (Table.names (g.schemaOf cls)) w

namespace Catalog

variable {g : Catalog} {cls : ClassId} {id : Value} {w : String → Value}

theorem WellFormed.textKeyed_rawData (hg : g.WellFormed) :
    Entries.textKeyed (g.rawData cls id w) = true :=
  textKeyed_rawEntries (hg.nodup cls) (hg.id_not_mem cls)

end Catalog

namespace Heap

open Catalog

/-! ### One entity -/

/-- An entity that stands by itself: its fields hold parts, among which it is not, and its raw data
are data in normal form. -/
structure Stands (g : Catalog) (parts h : Heap) (cls : ClassId) (a : Address) (id : Value)
    (w : String → Value) : Prop where
  there : a < h.length
  apart : isEntity parts a = false
  cell : ∃ v, get h a = Cell.ofFields cls id [] (Table.names (g.schemaOf cls)) v ∧
    ∀ f ∈ g.schemaOf cls, Field.Shows g w parts f (v f.1)
  id : id.IsData
  fields : ∀ f ∈ g.schemaOf cls, (w f.1).IsData
  normal : ∀ f ∈ g.schemaOf cls, f.2.keeps = false → g.Normal (.decoded f.2) (w f.1) (w f.1)

namespace Stands

variable {g : Catalog} {parts h : Heap} {cls : ClassId} {a : Address} {id : Value}
  {w : String → Value}

theorem objectAttribute?_id (hs : Stands g parts h cls a id w) :
    objectAttribute? g h a idField = some id := by
  obtain ⟨v, hc, -⟩ := hs.cell
  exact Heap.objectAttribute?_id hc

theorem species (hs : Stands g parts h cls a id w) : (get h a).species = .entity cls := by
  obtain ⟨v, hc, -⟩ := hs.cell
  rw [hc]
  rfl

/-- The raw data of what stands by itself are data. -/
theorem isData (hg : g.WellFormed) (hs : Stands g parts h cls a id w) :
    (Value.dict (g.rawData cls id w)).IsData := by
  exact isData_rawEntries (hg.nodup cls) (hg.id_not_mem cls) hs.id
    (List.forall_mem_map.2 hs.fields)

/-- The raw data of what stands by itself are in normal form. -/
theorem normal_rawData (hg : g.WellFormed) (hs : Stands g parts h cls a id w) :
    g.Normal (.entity cls) (.dict (g.rawData cls id w)) (.dict (g.rawData cls id w)) :=
  .entity_self hg id hs.normal

/-- What stands by itself shows its raw data. -/
theorem shows (hp : parts.Within h) (undeferred : ∀ f ∈ g.schemaOf cls, f.2.deferred = false)
    (hs : Stands g parts h cls a id w) :
    Shows g h (.entity cls) (.object a) (.dict (g.rawData cls id w)) := by
  obtain ⟨v, hc, hf⟩ := hs.cell
  exact Field.Shows.entity_self undeferred hs.id hs.fields hc fun f hmem => (hf f hmem).mono hp

/-- What stands by itself goes on to do so as long as its cell is the same and it is not among the
parts. -/
theorem mono {parts' h' : Heap} (hs : Stands g parts h cls a id w) (hp : parts.Within parts')
    (there : a < h'.length) (apart : isEntity parts' a = false) (same : get h' a = get h a) :
    Stands g parts' h' cls a id w := by
  obtain ⟨v, hc, hf⟩ := hs.cell
  exact ⟨there, apart, ⟨v, same.trans hc, fun f hmem => (hf f hmem).mono hp⟩, hs.id, hs.fields,
    hs.normal⟩

/-- What stands by itself goes on to do so when the heap grows. -/
theorem grow {h' : Heap} (hs : Stands g parts h cls a id w) (hle : h <+: h') :
    Stands g parts h' cls a id w :=
  hs.mono (.refl parts) (hs.there.trans_le hle.length_le) hs.apart (get_of_extended hle hs.there)

/-- What stands by itself is given another identifier. -/
theorem put_id (hs : Stands g parts h cls a id w) {x : Value} (hx : x.IsData) :
    Stands g parts (h.put a idField x) cls a x w := by
  obtain ⟨v, hc, hf⟩ := hs.cell
  refine ⟨by simpa using hs.there, hs.apart, ⟨v, ?_, hf⟩, hx, hs.fields, hs.normal⟩
  rw [get_put_self h hs.there, hc, Cell.put_id]

end Stands

/-! ### Entities one after the other -/

/-- Entities of some classes that stand by themselves, beside the parts of all of them. -/
structure Beside (g : Catalog) (classes : ClassId → Prop) (parts h : Heap) (made : List Value) :
    Prop where
  within : parts.Within h
  stands : ∀ v ∈ made, ∃ a cls id w, v = .object a ∧ classes cls ∧ Stands g parts h cls a id w

namespace Beside

variable {g : Catalog} {classes : ClassId → Prop} {parts h : Heap} {made : List Value}

/-- The parts are cells of the heap, to which others may be added. -/
theorem parts_lt (hh : Beside g classes parts h made) {b : Address} (hb : isEntity parts b = true) :
    b < h.length := by
  refine lt_of_isEntity ?_
  unfold isEntity at hb ⊢
  rw [hh.within b hb]
  exact hb

/-- What is held stays so when the heap grows. -/
theorem grow {h' : Heap} (hh : Beside g classes parts h made) (hle : h <+: h') :
    Beside g classes parts h' made := by
  refine ⟨hh.within.trans (.of_extended hle), ?_⟩
  intro v hv
  obtain ⟨a, cls, id, w, rfl, hcls, hs⟩ := hh.stands v hv
  exact ⟨a, cls, id, w, rfl, hcls, hs.grow hle⟩

/-- **An identifier that is given to one entity leaves the others as they are.** -/
theorem identify (hh : Beside g classes parts h made) {a : Address} {cls : ClassId} {id x : Value}
    {w : String → Value} (hcls : classes cls) (hs : Stands g parts h cls a id w) (hx : x.IsData) :
    Beside g classes parts (h.put a idField x) made := by
  constructor
  · intro b hb
    -- the entity is not among the parts, which are as they were then
    have other : a ≠ b := by
      rintro rfl
      rw [hs.apart] at hb
      cases hb
    rw [get_put_of_ne h other, hh.within b hb]
  · intro v hv
    obtain ⟨b, cls', id', w', rfl, hcls', hs'⟩ := hh.stands v hv
    by_cases hab : a = b
    · subst hab
      exact ⟨a, cls, x, w, rfl, hcls, hs.put_id hx⟩
    · exact ⟨b, cls', id', w', rfl, hcls', hs'.mono (.refl parts) (by simpa using hs'.there)
        hs'.apart (get_put_of_ne h hab _ _)⟩

/-- The parts after an entity was constructed: those of before, and all cells that were added with
the entity. -/
def partsAfter (parts h h' : Heap) (a : Address) : Heap :=
  h'.only fun b => isEntity parts b || (decide (h.length ≤ b) && b != a)

theorem within_partsAfter (hb : Beside g classes parts h made) {h' : Heap} (hle : h <+: h')
    (a : Address) : parts.Within (partsAfter parts h h' a) := by
  intro b he
  rw [partsAfter, get_only, if_pos (by simp [he]), get_of_extended hle (hb.parts_lt he),
    hb.within b he]

/-- What stood by itself does so beside the parts of an entity that was constructed. -/
theorem stands_after (hb : Beside g classes parts h made) {h' : Heap} (hle : h <+: h')
    (a : Address) {cls : ClassId} {b : Address} {id : Value} {w : String → Value}
    (hs : Stands g parts h cls b id w) : Stands g (partsAfter parts h h' a) h' cls b id w := by
  refine hs.mono (hb.within_partsAfter hle a) (hs.there.trans_le hle.length_le) ?_
    (get_of_extended hle hs.there)
  rw [partsAfter, Bool.eq_false_iff]
  intro he
  have before : ¬ h.length ≤ b := Nat.not_le.2 hs.there
  simpa [hs.apart, before] using (isEntity_only.1 he).1

/-- The entity that was constructed is not among the parts. -/
theorem apart_after (hb : Beside g classes parts h made) {h' : Heap} {a : Address}
    (ha : h.length ≤ a) : isEntity (partsAfter parts h h' a) a = false := by
  have old : isEntity parts a = false := by
    rw [Bool.eq_false_iff]
    exact fun hold => absurd (hb.parts_lt hold) (Nat.not_lt.2 ha)
  rw [partsAfter, Bool.eq_false_iff]
  intro he
  simpa [old] using (isEntity_only.1 he).1

/-- **What is constructed of plain data stands by itself, beside the others.** -/
theorem build (hg : g.WellFormed) (hb : Beside g classes parts h made) {cls : ClassId}
    (hcls : classes cls) (undeferred : ∀ f ∈ g.schemaOf cls, f.2.deferred = false) {raw : Entries}
    (hraw : (Value.dict raw).isPlain = true) {v : Value} {h' : Heap}
    (hv : Construction.ofRaw g cls (.dict raw) h = .ok (v, h')) :
    ∃ parts', Beside g classes parts' h' (made ++ [v]) ∧ ∀ cls a id w,
      Stands g parts h cls a id w → Stands g parts' h' cls a id w := by
  have data : (Value.dict raw).IsData := Value.isData_of_isPlain _ hraw
  obtain ⟨form, normal⟩ := Catalog.exists_normal hg _ cls _ le_rfl data h v h' hv
  cases normal with
  | @entity _ _ entries w hentries hkeeps hnot =>
    have hdata := Construction.isData_of_entriesOf data hentries
    obtain ⟨x, h₁, hmade, hle, hfields⟩ := exists_cell_of_fields hg data hentries hkeeps
      (fun f hf hk h₂ hsize =>
        (hnot f hf hk).builds hg (Entries.isData_getStr hdata _) h₂ hsize) h le_rfl
    rw [Construction.asideEntries_eq_nil entries undeferred] at hmade
    generalize hcell : Cell.ofFields cls (Entries.getStr entries idField) []
      (Table.names (g.schemaOf cls)) x = cell at hmade
    -- construction has one outcome only
    have same : Except.ok (v, h') = Except.ok (ε := Failure) (.object h₁.length, h₁ ++ [cell]) :=
      hv.symm.trans hmade
    cases same
    have le : h <+: h₁ ++ [cell] := hle.trans (List.prefix_append h₁ _)
    have last : Stands g (partsAfter parts h (h₁ ++ [cell]) h₁.length) (h₁ ++ [cell]) cls h₁.length
        (Entries.getStr entries idField) w := by
      refine ⟨by simp, hb.apart_after hle.length_le, ⟨x, ?_, ?_⟩, Entries.isData_getStr hdata _,
        isData_fields hdata hkeeps fun f hf hk =>
          (hnot f hf hk).isData hg (Entries.isData_getStr hdata _), ?_⟩
      · rw [hcell]
        exact get_alloc_self h₁ cell
      · intro f hf
        refine (hfields f hf).mono (only_within ?_ ?_)
        · intro b hb he
          have before : b ≠ h₁.length := Nat.ne_of_lt (lt_of_isEntity he)
          have after : h.length ≤ b := by simpa using hb
          simp [before, after]
        · intro b _ he
          exact Within.of_extended (List.prefix_append h₁ _) b he
      · intro f hf hk
        exact (hnot f hf hk).fixed hg (Entries.isData_getStr hdata _)
    refine ⟨partsAfter parts h (h₁ ++ [cell]) h₁.length, ⟨only_within_self _ _, ?_⟩,
      fun _ _ _ _ hs => hb.stands_after le _ hs⟩
    intro u hu
    rcases List.mem_append.1 hu with hu | hu
    · obtain ⟨a, cls', id, w', rfl, hcls', hs⟩ := hb.stands u hu
      exact ⟨a, cls', id, w', rfl, hcls', hb.stands_after le _ hs⟩
    · cases List.mem_singleton.1 hu
      exact ⟨h₁.length, cls, _, w, rfl, hcls, last⟩

end Beside

end Heap

end EntitySchema
