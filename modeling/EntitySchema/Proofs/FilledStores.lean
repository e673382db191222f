/-
**Stores that are filled by saving.**

A store is filled only by saving if each of its records was put there by an entity that was saved.
Then each record carries an identifier whose text is the text that the record is kept under.

A record in memory may lead to objects: an entity that was given an entity for a reference, and that
has not loaded it yet, is saved with that entity.  What is kept is a copy of it, so that the objects
are there as long as the store keeps the record; and if no identifier in the raw data led to an
object, none in the record does.

Main definitions:

* `Record.Signed` — a record that is kept under the text of its identifier;
* `Session.Filled` — **a store that is filled only by saving**;
* `Heap.Storable` — a value whose objects are there and in which no identifier leads to an object;
* `Session.Stocked` — a store that is filled only by saving, with objects that nobody else changes.

Main results:

* `Session.Filled.signed` — the records of such a store are signed;
* `Session.Stocked.storable` — **what the records of a stocked store lead to is there.**
-/

import EntitySchema.Proofs.LoadingDepth
import EntitySchema.Proofs.PairedCopying
import EntitySchema.Proofs.Reencoding
import EntitySchema.Proofs.SavedRecords

set_option autoImplicit false

namespace EntitySchema

/-! ### Stores that are filled by saving -/

/-- A record that carries an identifier and is kept under its text. -/
structure Record.Signed (r : Record) : Prop where
  there : (Entries.getStr r.data idField).isNull = false
  plain : (Entries.getStr r.data idField).isPlain = true
  key : (Entries.getStr r.data idField).toText = r.key.id

theorem MemoryStore.mem_put {rs : List Record} {r r' : Record} (h : r' ∈ put rs r) :
    r' ∈ rs ∨ r' = r := by
  rcases List.mem_append.1 h with h | h
  · exact .inl (List.mem_of_mem_filter h)
  · exact .inr (List.mem_singleton.1 h)

namespace Session

variable {s s' : Session} {i : StoreId} {rs : List Record}

/-- **A store that is filled only by saving.**  It was empty; entities without an identifier or with
a plain one were saved, whether that succeeded or not; and whatever else was done, no record got
there by it. -/
inductive Filled (i : StoreId) : List Record → Session → Prop
  | empty {s : Session} : s.Keeps i [] → Filled i [] s
  | other {s s' : Session} {rs rs' : List Record} : Filled i rs s → s'.Keeps i rs' →
      s'.inFile i = s.inFile i → rs'.Sublist rs → Filled i rs' s'
  | save {s s' : Session} {rs rs' : List Record} {cls : ClassId} {a : Address} {id : Value}
      {result : Except Failure Value} : Filled i rs s → s.catalog.WellFormed → s.Uses i cls →
      Heap.Ordinary s.heap a cls id → id.isPlain = true →
      outcome (Persistence.save (.object a)) s = (result, s') → s'.Keeps i rs' → Filled i rs' s'

namespace Filled

theorem keeps (h : Filled i rs s) : s.Keeps i rs := by
  cases h <;> assumption

theorem isPlain_identifierOf (s : Session) {id : Value} (h : id.isPlain = true) :
    (s.identifierOf id).isPlain = true := by
  unfold identifierOf
  split
  · rfl
  · exact h

/-- A record that is put by saving is signed; and it is plain if it is put in a file. -/
theorem step {cls : ClassId} {a : Address} {id : Value} {rs' : List Record}
    {result : Except Failure Value} (h : s.Keeps i rs) (hg : s.catalog.WellFormed)
    (uses : s.Uses i cls) (ho : Heap.Ordinary s.heap a cls id) (plain : id.isPlain = true)
    (run : outcome (Persistence.save (.object a)) s = (result, s')) (keeps : s'.Keeps i rs') :
    s'.inFile i = s.inFile i ∧ ∀ r ∈ rs', r ∈ rs ∨
      r.Signed ∧ (s.inFile i = true → (Value.dict r.data).isPlain = true) := by
  have place : (s.identified a id).inFile i = s.inFile i :=
    inFile_of_stores (s.identified_stores a id)
  rcases Persistence.save_cases hg rfl uses h ho with
    ⟨e, s₁, _, hrun, sub, tended⟩ | ⟨name, visit, w, ds, s₁, hname, -, -, -, hrun, carried,
      tended, -⟩
  · obtain rfl : s₁ = s' := congrArg Prod.snd (hrun.symm.trans run)
    obtain rfl := tended.keeps.unique keeps
    exact ⟨tended.place.trans place, fun r hr => .inl (sub.subset hr)⟩
  · obtain rfl : s₁ = s' := congrArg Prod.snd (hrun.symm.trans run)
    obtain rfl := tended.keeps.unique keeps
    refine ⟨tended.place.trans place, fun r hr => ?_⟩
    refine (MemoryStore.mem_put hr).imp_right ?_
    rintro rfl
    have known : Entries.getStr (s.catalog.rawData cls (s.identifierOf id) w) idField =
        s.identifierOf id := getStr_rawEntries_id (hg.id_not_mem cls)
    have lasts := isPlain_identifierOf s plain
    have same := carried.same idField (by rw [known]; exact Value.lasts_of_isPlain lasts _)
    rw [known] at same
    rw [Method.toText_of_inert _ _ (Value.isData_of_isPlain _ lasts).inert] at hname
    exact ⟨⟨same ▸ s.identifierOf_not_null id, same ▸ lasts, same ▸ Except.ok.inj hname⟩,
      carried.plain⟩

/-- **The records of a store that is filled only by saving are signed**, and they are plain if they
are in a file. -/
theorem signed (h : Filled i rs s) : ∀ r ∈ rs,
    r.Signed ∧ (s.inFile i = true → (Value.dict r.data).isPlain = true) := by
  induction h with
  | empty _ => exact List.forall_mem_nil _
  | other _ _ place sub ih =>
    intro r hr
    rw [place]
    exact ih r (sub.subset hr)
  | save before hg uses ho plain run keeps ih =>
    obtain ⟨place, put⟩ := step before.keeps hg uses ho plain run keeps
    intro r hr
    rw [place]
    exact (put r hr).elim (ih r) id

/-- No record of such a store leads to an object, if none that is kept in memory does. -/
theorem inert (h : Filled i rs s)
    (held : s.inFile i = false → ∀ r ∈ rs, (Value.dict r.data).Inert) :
    ∀ r ∈ rs, (Value.dict r.data).Inert := by
  cases place : s.inFile i with
  | false => exact held place
  | true => exact fun r hr => (Value.isData_of_isPlain _ ((h.signed r hr).2 place)).inert

end Filled

end Session

/-! ### Records that lead to objects -/

namespace Heap

variable {h h' : Heap} {v w : Value} {f : Address → Address}

/-- A value whose objects are there, and in which no identifier leads to an object, be it one that a
mapping in the value carries or one that an object has to which the value leads. -/
structure Storable (h : Heap) (v : Value) : Prop where
  there : ∀ a : Nat, h.Holds v a → a < List.length h
  mapping : ∀ u es, v.HasPart u → u.entries? = some es → (Entries.getStr es idField).Inert
  object : ∀ a, v.LeadsTo a → ∀ id, (get h a).own? idField = some id → id.Inert

theorem storable_of_inert (hv : v.Inert) : h.Storable v where
  there a ha := by
    obtain ⟨b, hb, -⟩ := ha.exists_leads
    exact absurd hb (hv b)
  mapping u es part hes := Entries.getStr_of_forall (fun _ hb => by cases hb)
    (fun e he a ha => hv a (part.leadsTo ((Value.leadsTo_of_entries hes he).2 a ha))) idField
  object a ha := absurd ha (hv a)

/-- An identifier is an attribute of the object itself. -/
theorem own?_of_objectAttribute?_id {g : Catalog} {a : Address} {id : Value}
    (hid : objectAttribute? g h a idField = some id) : (get h a).own? idField = some id := by
  unfold objectAttribute? at hid
  simp only [show idField ≠ "__class__" by decide, show idField ≠ "__dict__" by decide,
    show idField ≠ "__weakref__" by decide, if_false] at hid
  split at hid
  · rw [if_neg (by decide)] at hid
    exact (Option.or_eq_some_iff.1 hid).resolve_right fun ⟨_, given⟩ => by cases given
  · exact (Option.or_eq_some_iff.1 hid).resolve_right fun ⟨_, given⟩ => by cases given

/-- What an object has itself after it was given an attribute it had before, or it was given it. -/
theorem attributes_put {a b : Address} {name : String} {x : Value} {p : String × Value}
    (hp : p ∈ (get (h.put a name x) b).attributes) : p ∈ (get h b).attributes ∨ p = (name, x) := by
  by_cases here : a = b
  · subst here
    by_cases there : a < List.length h
    · rw [get_put_self h there] at hp
      exact Table.mem_put hp
    · rw [attributes_of_ge (by rw [length_put]; exact Nat.le_of_not_lt there)] at hp
      cases hp
  · rw [get_put_of_ne h here] at hp
    exact .inl hp

/-- A value holds no more after an object was given what leads to no object. -/
theorem Holds.of_put {a b : Address} {name : String} {x : Value} (inert : x.Inert)
    (hb : (h.put a name x).Holds v b) : h.Holds v b := by
  induction hb with
  | direct hb => exact .direct hb
  | through _ hp hl ih =>
    rcases attributes_put hp with hp | rfl
    · exact .through ih hp hl
    · exact absurd hl (inert _)

/-- An object whose identifier leads to no object can be stored. -/
theorem storable_object {a : Address} (there : ∀ b : Nat, h.Holds (.object a) b → b < List.length h)
    (own : ∀ id, (get h a).own? idField = some id → id.Inert) : h.Storable (.object a) where
  there := there
  mapping u es part hes := by
    cases part with
    | refl => cases hes
    | item hxs => cases hxs
    | value hds => cases hds
  object b hb := by
    cases hb
    exact own

/-- A dictionary can be stored if its values can, and neither its keys nor its identifier lead to an
object. -/
theorem storable_dict {es : Entries} (keys : ∀ e ∈ es, e.1.Inert)
    (id : (Entries.getStr es idField).Inert)
    (values : ∀ e ∈ es, h.Storable e.2) : h.Storable (.dict es) := by
  have leads : ∀ a, (Value.dict es).LeadsTo a → ∃ e ∈ es, e.2.LeadsTo a := by
    intro a ha
    cases ha with
    | dictKey he ha => exact absurd ha (keys _ he a)
    | dict he ha => exact ⟨_, he, ha⟩
  refine ⟨fun a ha => ?_, fun u ds part hds => ?_, fun a ha => ?_⟩
  · obtain ⟨b, hb, ha⟩ := ha.exists_leads
    obtain ⟨e, he, hb⟩ := leads b hb
    exact (values e he).there a ((Holds.direct hb).trans ha)
  · cases part with
    | refl =>
      cases hds
      exact id
    | item hxs hx part =>
      cases hxs
      obtain ⟨e, he, rfl⟩ := List.mem_map.1 hx
      exact (storable_of_inert (h := h) (keys e he)).mapping u ds part hds
    | value hes he part =>
      cases hes
      exact (values _ he).mapping u ds part hds
  · obtain ⟨e, he, ha⟩ := leads a ha
    exact (values e he).object a ha

namespace Storable

variable (storable : h.Storable v)

include storable

/-- No identifier in such a value leads to an object, whatever classes there are. -/
theorem named (g : Catalog) : h.Named g (List.length h) v := by
  refine fun u part =>
    ⟨?_, fun a ha => storable.there a (.direct (part.leadsTo (ha ▸ .function a)))⟩
  unfold Checker.identifierOf
  split
  · next es hes => exact storable.mapping u es part hes
  · next none =>
    cases hid : attribute? g h 0 u idField with
    | none => exact Value.inert_null
    | some id =>
      cases u with
      | object a =>
        exact storable.object a (part.leadsTo (.object a)) id (own?_of_objectAttribute?_id hid)
      | function a =>
        rcases Option.or_eq_some_iff.1 hid with own | ⟨-, shared⟩
        · exact storable.object a (part.leadsTo (.function a)) id own
        · exact Value.inert_of_attribute? shared
      | method o n =>
        rcases Option.or_eq_some_iff.1 hid with own | ⟨-, shared⟩
        · cases o <;> cases own
        · exact Value.inert_of_attribute? shared
      | cls c => exact inert_of_classAttribute? hid
      | _ => exact Value.inert_of_attribute? hid

theorem of_agrees (agrees : Agrees h h' v) (size : List.length h ≤ List.length h') :
    h'.Storable v where
  there a ha := (storable.there a (agrees.holds ha)).trans_le size
  mapping := storable.mapping
  object a ha id hid := storable.object a ha id (by rwa [← agrees a (.direct ha)])

/-- A copy is as storable as what was copied. -/
theorem copy (copy : Copy h v h' w f) : h'.Storable w where
  there b hb := by
    rw [copy.value] at hb
    obtain ⟨a, ha, stands⟩ := copy.holds_value (fun _ => .direct) (fun _ => .direct) hb
    cases stands with
    | copied ha => exact (copy.new _ ha).2
    | shared ha => exact (storable.there _ ha).trans_le copy.grown.length_le
  mapping u es part hes := by
    rw [copy.value] at part
    obtain ⟨x, hx, rfl⟩ := part.exists_of_rename
    rw [Value.entries?_rename] at hes
    obtain ⟨ds, hds, rfl⟩ := Option.map_eq_some_iff.1 hes
    have inert := storable.mapping x ds hx hds
    rw [Entries.getStr_renameEntries, rename_of_inert f _ inert]
    exact inert
  object b hb id hid := by
    rw [copy.value] at hb
    obtain ⟨a, ha, stands⟩ := exists_standsFor (fun _ => .direct) (fun _ => .direct) hb
    cases stands with
    | copied comprised =>
      rw [copy.cells a comprised, own?_renameCell] at hid
      obtain ⟨x, hx, rfl⟩ := Option.map_eq_some_iff.1 hid
      have inert := storable.object a ha x hx
      rwa [rename_of_inert f _ inert]
    | shared held =>
      rw [get_of_extended copy.grown (copy.there _ held)] at hid
      exact storable.object b ha id hid

/-- An object may be given an identifier. -/
theorem put {a : Address} {x : Value} (inert : x.Inert) : (h.put a idField x).Storable v where
  there b hb := by
    rw [length_put]
    exact storable.there b (hb.of_put inert)
  mapping := storable.mapping
  object b hb id hid := by
    by_cases here : a = b
    · subst here
      rw [get_put_self h (storable.there a (.direct hb))] at hid
      obtain rfl := Option.some.inj ((Table.get?_put_self _ _ _).symm.trans hid)
      exact inert
    · rw [get_put_of_ne h here] at hid
      exact storable.object b hb id hid

end Storable

end Heap

namespace Session

variable {s s' : Session} {i : StoreId} {rs rs' : List Record} {cls : ClassId} {a : Address}
  {id : Value} {result : Except Failure Value}

/-- **A store that is filled only by saving, with objects that nobody else changes.**  What entities
told when they were saved led to objects that were there, and no identifier in it led to an object;
and whatever else was done, what the records lead to stayed as it was. -/
inductive Stocked (i : StoreId) : List Record → Session → Prop
  | empty {s : Session} : s.Keeps i [] → Stocked i [] s
  | other {s s' : Session} {rs rs' : List Record} : Stocked i rs s → s'.Keeps i rs' →
      s'.inFile i = s.inFile i → rs'.Sublist rs → List.length s.heap ≤ List.length s'.heap →
      (∀ r ∈ rs', s.heap.Agrees s'.heap (.dict r.data)) → Stocked i rs' s'
  | save {s s' : Session} {rs rs' : List Record} {cls : ClassId} {a : Address} {id : Value}
      {result : Except Failure Value} : Stocked i rs s → s.catalog.WellFormed → s.Uses i cls →
      Heap.Ordinary s.heap a cls id → id.isPlain = true →
      (∀ d, Method.toRaw s.catalog (s.identified a id).heap a = .ok d →
        (s.identified a id).heap.Storable d) →
      outcome (Persistence.save (.object a)) s = (result, s') → s'.Keeps i rs' → Stocked i rs' s'

/-- Identification leaves what is storable as it is. -/
theorem storable_identified {v : Value} (storable : s.heap.Storable v) :
    (s.identified a id).heap.Storable v := by
  unfold identified
  split
  · refine storable.put (a := a) ?_
    rw [identifierOf, if_pos ‹_›]
    exact Value.inert_str _
  · exact storable

namespace Stocked

theorem filled (h : Stocked i rs s) : Filled i rs s := by
  induction h with
  | empty keeps => exact .empty keeps
  | other _ keeps place sub _ _ ih => exact .other ih keeps place sub
  | save _ hg uses ho plain _ run keeps ih => exact .save ih hg uses ho plain run keeps

/-- What a record leads to that is kept after saving is there, if that is so before and what is told
can be stored. -/
theorem step (h : s.Keeps i rs) (hg : s.catalog.WellFormed) (uses : s.Uses i cls)
    (ho : Heap.Ordinary s.heap a cls id)
    (told : ∀ d, Method.toRaw s.catalog (s.identified a id).heap a = .ok d →
      (s.identified a id).heap.Storable d)
    (run : outcome (Persistence.save (.object a)) s = (result, s')) (keeps : s'.Keeps i rs')
    (before : ∀ r ∈ rs, s.heap.Storable (.dict r.data)) :
    ∀ r ∈ rs', s'.heap.Storable (.dict r.data) := by
  have identified : ∀ r ∈ rs, (s.identified a id).heap.Storable (.dict r.data) :=
    fun r hr => storable_identified (before r hr)
  have lasts {v : Value} (storable : (s.identified a id).heap.Storable v)
      (grown : (s.identified a id).heap <+: s'.heap) : s'.heap.Storable v :=
    storable.of_agrees (fun b hb => Heap.get_of_extended grown (storable.there b hb))
      grown.length_le
  rcases Persistence.save_cases hg rfl uses h ho with
    ⟨e, s₁, _, hrun, sub, tended⟩ |
    ⟨name, visit, w, ds, s₁, -, -, raw, -, hrun, carried, tended, copied⟩
  · obtain rfl : s₁ = s' := congrArg Prod.snd (hrun.symm.trans run)
    obtain rfl := tended.keeps.unique keeps
    exact fun r hr => lasts (identified r (sub.subset hr)) tended.heap
  · obtain rfl : s₁ = s' := congrArg Prod.snd (hrun.symm.trans run)
    obtain rfl := tended.keeps.unique keeps
    intro r hr
    rcases MemoryStore.mem_put hr with hr | rfl
    · exact lasts (identified r hr) tended.heap
    · cases place : s.inFile i with
      | true =>
        exact Heap.storable_of_inert (Value.isData_of_isPlain _ (carried.plain place)).inert
      | false =>
        have storable := told _ raw
        exact storable.copy (Heap.copy_copy storable.there rfl (copied place))

/-- **What the records of a stocked store lead to is there**, and no identifier in them leads to an
object. -/
theorem storable (h : Stocked i rs s) : ∀ r ∈ rs, s.heap.Storable (.dict r.data) := by
  induction h with
  | empty _ => exact List.forall_mem_nil _
  | other _ _ _ sub size agrees ih =>
    exact fun r hr => (ih r (sub.subset hr)).of_agrees (agrees r hr) size
  | save before hg uses ho _ told run keeps ih =>
    exact step before.filled.keeps hg uses ho told run keeps ih

end Stocked

end Session

/-- What is found among signed records carries an identifier under which it is found. -/
theorem Catalog.identified_lookIn (g : Catalog) {rs : List Record} (signed : ∀ r ∈ rs, r.Signed) :
    Identified (g.lookIn rs) := by
  intro cls id es hes
  obtain ⟨r, hr, rfl, key⟩ := exists_of_lookIn hes
  obtain ⟨there, plain, text⟩ := signed r hr
  refine ⟨there, Value.isData_of_isPlain _ plain, ?_⟩
  rw [key] at text
  rw [lookIn, text]
  exact hes

end EntitySchema
