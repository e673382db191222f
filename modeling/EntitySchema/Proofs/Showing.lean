/-
**Entities that show raw data.**

A value *shows* raw data if it is built as construction builds it: the cell of an entity holds an
identifier, the raw values put aside, and a value for each field of the schema, which is the raw
value itself, a moment, or again something that shows the raw value.  What shows raw data tells just
these data as its own, and goes on to do so when the heap grows.

Construction from raw data that have a normal form succeeds in every heap, and what it makes shows
the normal form.

Main definitions:

* `Cell.ofFields` — the cell of an entity, as it is constructed;
* `Heap.Shows` — **a value that shows raw data**.

Main results:

* `Heap.Shows.mono` — what shows raw data does so in every larger heap;
* `Heap.Shows.selfFree` — no entity in it contains itself;
* `Heap.Shows.toRaw` — **what shows raw data tells them**;
* `Catalog.Normal.builds` — **construction succeeds and shows the normal form.**
-/

import EntitySchema.Proofs.NormalForm

set_option autoImplicit false

namespace EntitySchema

/-! ### The cell of an entity -/

/-- The cell of an entity with a value for each of its fields. -/
def Cell.ofFields (cls : ClassId) (id : Value) (pending : Entries) (names : List String)
    (v : String → Value) : Cell :=
  { species := .entity cls
    attributes := (idField, id) :: (pendingField, .dict pending) :: names.map fun n => (n, v n) }

namespace Table

theorem get?_map {α : Type} (names : List String) (v : String → α) (name : String) :
    get? (names.map fun n => (n, v n)) name = if name ∈ names then some (v name) else none := by
  induction names with
  | nil => rfl
  | cons n names ih =>
    rw [List.map_cons, get?, ih]
    by_cases hn : n = name
    · simp [hn]
    · simp [hn, Ne.symm hn]

end Table

namespace Heap

/-- A heap that has grown has the cells that it had. -/
theorem get_of_extended {h h' : Heap} (hle : h <+: h') {a : Address} (ha : a < h.length) :
    get h' a = get h a := by
  obtain ⟨cells, rfl⟩ := hle
  simp [get, List.getElem?_append, ha]

/-- A heap that grows does not fall below a size that it has. -/
theorem keeps_size {n : Nat} (h h' : Heap) (hle : h <+: h') (hn : n ≤ h.length) : n ≤ h'.length :=
  hn.trans hle.length_le

/-- Only in the heap there are entities. -/
theorem lt_of_isEntity {h : Heap} {a : Address} (ha : isEntity h a = true) : a < h.length := by
  by_contra hlt
  simp [isEntity, get, List.getElem?_eq_none (Nat.le_of_not_lt hlt)] at ha

/-- The entities of one heap are the same in another. -/
def Within (h h' : Heap) : Prop := ∀ a, isEntity h a = true → get h' a = get h a

theorem Within.refl (h : Heap) : h.Within h := fun _ _ => rfl

theorem Within.trans {h h' h'' : Heap} (hle : h.Within h') (hle' : h'.Within h'') :
    h.Within h'' := by
  intro a ha
  have same := hle a ha
  have there : isEntity h' a = true := by
    unfold isEntity at ha ⊢
    rw [same]
    exact ha
  exact (hle' a there).trans same

theorem Within.of_extended {h h' : Heap} (hle : h <+: h') : h.Within h' :=
  fun _ ha => get_of_extended hle (lt_of_isEntity ha)

/-- The heap with some of its cells only; the others are empty. -/
def only (p : Address → Bool) (h : Heap) : Heap :=
  h.mapIdx fun a c => if p a then c else ⟨.plain, []⟩

/-- The cells of the heap from an address on. -/
def above (n : Address) (h : Heap) : Heap := only (fun a => decide (n ≤ a)) h

theorem get_only (p : Address → Bool) (h : Heap) (a : Address) :
    get (only p h) a = if p a then get h a else ⟨.plain, []⟩ := by
  rw [get, only, List.getElem?_mapIdx, get]
  cases h[a]? <;> simp

theorem isEntity_only {p : Address → Bool} {h : Heap} {a : Address} :
    isEntity (only p h) a = true ↔ p a = true ∧ isEntity h a = true := by
  unfold isEntity
  rw [get_only]
  cases p a <;> simp

/-- A part of a heap is within every part of another that has more, if the entities of the part are
the same in both. -/
theorem only_within {p q : Address → Bool} {h h' : Heap}
    (hpq : ∀ a, p a = true → isEntity h a = true → q a = true)
    (hle : ∀ a, p a = true → isEntity h a = true → get h' a = get h a) :
    (only p h).Within (only q h') := by
  intro a ha
  obtain ⟨hp, he⟩ := isEntity_only.1 ha
  rw [get_only, get_only, if_pos (hpq a hp he), if_pos hp, hle a hp he]

theorem only_within_self (p : Address → Bool) (h : Heap) : (only p h).Within h := by
  intro a ha
  rw [get_only, if_pos (isEntity_only.1 ha).1]

theorem above_within {n m : Address} (hnm : m ≤ n) {h h' : Heap} (hle : h <+: h') :
    (above n h).Within (above m h') := by
  refine only_within ?_ fun a _ ha => Within.of_extended hle a ha
  intro a ha _
  simp only [decide_eq_true_eq] at ha ⊢
  exact hnm.trans ha

section

variable {g : Catalog} {h : Heap} {a : Address} {cls : ClassId} {id : Value} {pending : Entries}
  {v : String → Value}
  (hg : g.WellFormed)
  (hc : get h a = Cell.ofFields cls id pending (Table.names (g.schemaOf cls)) v)

include hc

theorem isEntity_of_cell : isEntity h a = true := by
  simp [isEntity, hc, Cell.ofFields]

theorem objectAttribute?_id : objectAttribute? g h a idField = some id := by
  simp [objectAttribute?, hc, Cell.ofFields, Cell.own?, Table.get?, idField]

theorem objectAttribute?_pending : objectAttribute? g h a pendingField = some (.dict pending) := by
  simp [objectAttribute?, hc, Cell.ofFields, Cell.own?, Table.get?, idField, pendingField]

include hg

/-- Under a name that is reserved an entity has nothing itself, its identifier and what is put aside
apart. -/
theorem own?_of_reserved {name : String} (hr : name ∈ reservedNames) (hid : name ≠ idField)
    (hp : name ≠ pendingField) : (get h a).own? name = none := by
  have absent : name ∉ Table.names (g.schemaOf cls) := fun hname =>
    hg.unreserved cls name hname hr
  rw [hc, Cell.own?, Cell.ofFields, Table.get?, if_neg hid.symm, Table.get?, if_neg hp.symm,
    Table.get?_map, if_neg absent]

/-- A field of the schema is an attribute of the entity. -/
theorem objectAttribute?_field {name : String} (hname : name ∈ Table.names (g.schemaOf cls)) :
    objectAttribute? g h a name = some (v name) := by
  have free : ∀ n ∈ reservedNames, name ≠ n := by
    intro n hn heq
    exact hg.unreserved cls name hname (heq ▸ hn)
  have own : (get h a).own? name = some (v name) := by
    rw [hc, Cell.own?, Cell.ofFields, Table.get?, if_neg (free idField (by decide)).symm,
      Table.get?, if_neg (free pendingField (by decide)).symm, Table.get?_map, if_pos hname]
  have species : (get h a).species = .entity cls := by rw [hc]; rfl
  simp only [objectAttribute?, free "__class__" (by decide), free "__dict__" (by decide),
    free "__weakref__" (by decide), free "id" (by decide), if_false, species, own, Option.some_or]

theorem field_of_cell {name : String} (hname : name ∈ Table.names (g.schemaOf cls)) :
    field g h a name = v name := by
  rw [field, objectAttribute?_field hg hc hname]
  rfl

/-- An entity as it is constructed goes by the schema of its class. -/
theorem rules_of_cell : rules g h a = .ok (classRules g cls) :=
  rules_of_unhidden g h (by rw [hc]; rfl)
    (own?_of_reserved hg hc (by decide) (by decide) (by decide))

/-- Under a name that is reserved, a few apart, an entity as it is constructed has what its class
gives it. -/
theorem objectAttribute?_of_reserved {name : String} (hr : name ∈ reservedNames)
    (free : name ∉ ["__class__", "__dict__", "__weakref__", "id", idField, pendingField]) :
    objectAttribute? g h a name = givenAttribute? g a cls name := by
  simp only [List.mem_cons, List.not_mem_nil, or_false, not_or] at free
  obtain ⟨hclass, hdict, hweak, hid, hfield, hpending⟩ := free
  have own := own?_of_reserved hg hc hr hfield hpending
  have species : (get h a).species = .entity cls := by rw [hc]; rfl
  simp only [objectAttribute?, hclass, hdict, hweak, hid, if_false, species, own, Option.none_or]

/-- An entity as it is constructed has the method of raw data from its class. -/
theorem objectAttribute?_toRaw :
    objectAttribute? g h a "to_raw" = some (.method (.object a) "to_raw") :=
  objectAttribute?_of_reserved hg hc (by decide) (by decide)

end

/-! ### Showing raw data -/

/-- A value of the heap that shows raw data. -/
inductive Shows (g : Catalog) (h : Heap) : Subject → Value → Value → Prop
  | entity {a : Address} {cls : ClassId} {id : Value} {pending : Entries} {v w : String → Value} :
      get h a = Cell.ofFields cls id pending (Table.names (g.schemaOf cls)) v →
      id.IsData → (Value.dict pending).IsData →
      (∀ f ∈ g.schemaOf cls, f.2.deferred = true →
        v f.1 = .null ∧ w f.1 = Entries.getStr pending f.1) →
      (∀ f ∈ g.schemaOf cls, f.2.deferred = false → Entries.getStr? pending f.1 = none) →
      (∀ f ∈ g.schemaOf cls, f.2.deferred = false → f.2.decodes = false →
        v f.1 = w f.1 ∧ (w f.1).IsData) →
      (∀ f ∈ g.schemaOf cls, f.2.keeps = false → Shows g h (.decoded f.2) (v f.1) (w f.1)) →
      Shows g h (.entity cls) (.object a)
        (.dict (rawEntries id (Table.names (g.schemaOf cls)) w))
  | nothing (c : Checker) : Shows g h (.decoded c) .null .null
  | date (r : Bool) (m : Moment) : Shows g h (.decoded (.date r)) (.moment m) (.str m.isoText)
  | embedded {t : Target} {e : Value} {r : Bool} {cls : ClassId} {v raw : Value} :
      g.resolve t = .ok cls → Shows g h (.entity cls) v raw →
      Shows g h (.decoded (.reference t e r)) v raw
  | array {e : Checker} {r : Bool} {xs ys : List Value} : xs.length = ys.length →
      (∀ p ∈ xs.zip ys, Shows g h (.decoded e) p.1 p.2) →
      Shows g h (.decoded (.arrayOf e r)) (.list xs) (.list ys)
  | dictionary {e : Checker} {r : Bool} {keys xs ys : List Value} : xs.length = ys.length →
      (∀ k ∈ keys, k.isAtom = true) →
      (∀ p ∈ xs.zip ys, Shows g h (.decoded e) p.1 p.2) →
      Shows g h (.decoded (.dictOf e r)) (.dict (keys.zip xs)) (.dict (keys.zip ys))

variable {g : Catalog} {h : Heap} {s : Subject} {v raw : Value}

/-- What shows raw data does so in every heap that has the same entities. -/
theorem Shows.mono {h' : Heap} (hle : h.Within h') (hs : Shows g h s v raw) :
    Shows g h' s v raw := by
  induction hs with
  | entity hc hid hp hdef hnot hkept _ ih =>
    exact .entity ((hle _ (isEntity_of_cell hc)).trans hc) hid hp hdef hnot hkept ih
  | nothing c => exact .nothing c
  | date r m => exact .date r m
  | embedded hr _ ih => exact .embedded hr ih
  | array hlen _ ih => exact .array hlen ih
  | dictionary hlen hk _ ih => exact .dictionary hlen hk ih

theorem selfFree_list {xs : List Value} (hx : ∀ x ∈ xs, SelfFree g h x) :
    SelfFree g h (.list xs) := by
  refine SelfFree.of_leads ?_
  intro a ha
  cases ha with
  | list hmem hl => exact (hx _ hmem).object (.direct hl)

theorem selfFree_dict {es : Entries} (hk : ∀ e ∈ es, e.1.Inert) (hv : ∀ e ∈ es, SelfFree g h e.2) :
    SelfFree g h (.dict es) := by
  refine SelfFree.of_leads ?_
  intro a ha
  cases ha with
  | dictKey hmem hl => exact absurd hl (hk _ hmem a)
  | dict hmem hl => exact (hv _ hmem).object (.direct hl)

/-- No object in reach of an entity contains itself if none does that its identifier, what is put
aside or its fields hold. -/
theorem SelfFree.of_cell (hg : g.WellFormed) {a : Address} {cls : ClassId} {id : Value}
    {pending : Entries} {v : String → Value}
    (hc : get h a = Cell.ofFields cls id pending (Table.names (g.schemaOf cls)) v)
    (hid : SelfFree g h id) (hp : SelfFree g h (.dict pending))
    (hv : ∀ name ∈ Table.names (g.schemaOf cls), SelfFree g h (v name)) :
    SelfFree g h (.object a) := by
  refine SelfFree.of_attributes ?_ ?_
  · intro p hmem
    simp only [hc, Cell.ofFields, List.mem_cons] at hmem
    rcases hmem with rfl | rfl | hmem
    · exact hid
    · exact hp
    · obtain ⟨name, hname, rfl⟩ := List.mem_map.1 hmem
      exact hv name hname
  · intro rs hrs name r hr
    rw [rules_of_cell hg hc] at hrs
    cases hrs
    obtain ⟨f, hf, heq⟩ := List.mem_map.1 hr
    cases heq
    have hname : f.1 ∈ Table.names (g.schemaOf cls) := List.mem_map_of_mem hf
    rw [field_of_cell hg hc hname]
    exact hv f.1 hname

/-- No entity in what shows raw data contains itself. -/
theorem Shows.selfFree (hg : g.WellFormed) (hs : Shows g h s v raw) : SelfFree g h v := by
  induction hs with
  | @entity a cls id pending v w hc hid hp hdef _ hkept _ ih =>
    have fields : ∀ name ∈ Table.names (g.schemaOf cls), SelfFree g h (v name) := by
      intro name hname
      obtain ⟨f, hf, rfl⟩ := List.mem_map.1 hname
      cases hd : f.2.deferred with
      | true =>
        rw [(hdef f hf hd).1]
        exact .of_inert Value.inert_null
      | false =>
        cases hdec : f.2.decodes with
        | true => exact ih f hf (by simp [Checker.keeps, hd, hdec])
        | false =>
          obtain ⟨heq, data⟩ := hkept f hf hd hdec
          rw [heq]
          exact .of_inert data.inert
    exact SelfFree.of_cell hg hc (.of_inert hid.inert) (.of_inert hp.inert) fields
  | nothing c => exact .of_inert Value.inert_null
  | date r m => exact .of_inert (Value.inert_moment m)
  | embedded _ _ ih => exact ih
  | array hlen _ ih =>
    refine selfFree_list ?_
    intro x hx
    obtain ⟨y, hy⟩ := exists_mem_zip_of_mem_left hlen hx
    exact ih (x, y) hy
  | dictionary hlen hk _ ih =>
    refine selfFree_dict ?_ ?_
    · intro e he
      exact (Value.IsData.atom (hk e.1 (List.of_mem_zip he).1)).inert
    · intro e he
      obtain ⟨y, hy⟩ := exists_mem_zip_of_mem_left hlen (List.of_mem_zip he).2
      exact ih (e.2, y) hy

end Heap

/-! ### What shows raw data tells them -/

namespace Encoding

variable {h : Heap} {visit : Address → Except Failure Value} {byId : Bool}

theorem encodeItems_of_zip {xs ys : List Value} (hlen : xs.length = ys.length)
    (hx : ∀ p ∈ xs.zip ys, encodeWith h visit byId p.1 = .ok p.2) :
    encodeItems h visit byId xs = .ok ys := by
  induction xs generalizing ys with
  | nil =>
    cases List.length_eq_zero_iff.1 hlen.symm
    rfl
  | cons x xs ih =>
    cases ys with
    | nil => cases hlen
    | cons y ys =>
      rw [List.zip_cons_cons, List.forall_mem_cons] at hx
      rw [encodeItems, hx.1, ih (Nat.succ.inj hlen) hx.2]
      rfl

theorem encodeEntries_of_zip {keys xs ys : List Value} (hlen : xs.length = ys.length)
    (hx : ∀ p ∈ xs.zip ys, encodeWith h visit byId p.1 = .ok p.2) :
    encodeEntries h visit byId (keys.zip xs) = .ok (keys.zip ys) := by
  induction keys generalizing xs ys with
  | nil => rfl
  | cons k keys ih =>
    cases xs with
    | nil =>
      cases List.length_eq_zero_iff.1 hlen.symm
      rfl
    | cons x xs =>
      cases ys with
      | nil => cases hlen
      | cons y ys =>
        rw [List.zip_cons_cons, List.forall_mem_cons] at hx
        rw [List.zip_cons_cons, encodeEntries, hx.1, ih (Nat.succ.inj hlen) hx.2]
        rfl

/-- A transformation of a list whose members are known. -/
theorem mapM_eq_map {α β : Type} {f : α → Except Failure β} {k : α → β} {xs : List α}
    (hf : ∀ x ∈ xs, f x = .ok (k x)) : xs.mapM f = .ok (xs.map k) := by
  induction xs with
  | nil => rfl
  | cons x xs ih =>
    have parts := List.forall_mem_cons.1 hf
    rw [List.mapM_cons, parts.1, ih parts.2]
    rfl

variable {g : Catalog} {a : Address} {cls : ClassId} {id : Value} {pending : Entries}
  {v w : String → Value}

/-- The raw form of a field of an entity: what is put aside for it where it is absent, else the raw
form of what it holds. -/
theorem encodeField_told (hg : g.WellFormed)
    (hc : Heap.get h a = Cell.ofFields cls id pending (Table.names (g.schemaOf cls)) v)
    {f : String × Checker} (hf : f ∈ g.schemaOf cls) {form : Value}
    (told : encodeWith h visit f.2.deferred (v f.1) = .ok form) :
    encodeField g h visit a (.str f.1, .checker f.2) = .ok (.str f.1,
      if (v f.1).isNull then (Entries.getStr? pending f.1).getD form else form) := by
  have hname : f.1 ∈ Table.names (g.schemaOf cls) := List.mem_map_of_mem hf
  simp only [encodeField, Heap.field_of_cell hg hc hname, unloaded,
    Heap.objectAttribute?_pending hc,
    pendingAt, byId, told]
  cases (v f.1).isNull with
  | false => rfl
  | true => cases Entries.getStr? pending f.1 <;> rfl

/-- The raw form of a field of an entity as it is constructed. -/
theorem encodeField_of_cell (hg : g.WellFormed)
    (hc : Heap.get h a = Cell.ofFields cls id pending (Table.names (g.schemaOf cls)) v)
    {f : String × Checker} (hf : f ∈ g.schemaOf cls)
    (hdef : f.2.deferred = true → v f.1 = .null ∧ w f.1 = Entries.getStr pending f.1)
    (hnot : f.2.deferred = false → Entries.getStr? pending f.1 = none ∧
      encodeWith h visit false (v f.1) = .ok (w f.1)) :
    encodeField g h visit a (.str f.1, .checker f.2) = .ok (.str f.1, w f.1) := by
  have hname : f.1 ∈ Table.names (g.schemaOf cls) := List.mem_map_of_mem hf
  simp only [encodeField, Heap.field_of_cell hg hc hname, unloaded,
    Heap.objectAttribute?_pending hc, pendingAt, byId]
  cases hd : f.2.deferred with
  | true =>
    obtain ⟨hv, hw⟩ := hdef hd
    rw [hv, hw, Entries.getStr]
    cases Entries.getStr? pending f.1 <;> rfl
  | false =>
    obtain ⟨absent, form⟩ := hnot hd
    rw [absent, form]
    cases (v f.1).isNull <;> rfl

/-- Written after the identifier, the fields of a schema make the raw data of an entity. -/
theorem insertAll_idEntries {names : List String} (hn : names.Nodup) (hid : idField ∉ names) :
    Entries.insertAll (idEntries id) (names.map fun n => (.str n, w n)) =
      rawEntries id names w := by
  refine Entries.insertAll_of_textKeyed _ (textKeyed_map_str hn w) _ ?_
  intro name hname
  rw [getStr?_idEntries]
  refine if_neg ?_
  rintro ⟨rfl, -⟩
  rw [getStr?_map_str, if_neg hid] at hname
  exact hname rfl

end Encoding

namespace Heap

variable {g : Catalog} {h : Heap} {s : Subject} {v raw : Value}

/-- The raw data of an entity as it is constructed, if its method is asked for them. -/
theorem toRaw_of_cell (hg : g.WellFormed) {a : Address} {cls : ClassId} {id : Value}
    {pending : Entries} {v w : String → Value}
    (hc : get h a = Cell.ofFields cls id pending (Table.names (g.schemaOf cls)) v)
    (free : SelfFree g h (.object a))
    (hf : ∀ f ∈ g.schemaOf cls, Encoding.encodeField g h (Method.toRaw g h) a
      (.str f.1, .checker f.2) = .ok (.str f.1, w f.1)) :
    Method.toRaw g h a = .ok (.dict (rawEntries id (Table.names (g.schemaOf cls)) w)) := by
  have fields : (classRules g cls).mapM (Encoding.encodeField g h (Method.toRaw g h) a) =
      .ok ((g.schemaOf cls).map fun f => (.str f.1, w f.1)) := by
    rw [classRules, List.mapM_map]
    exact Encoding.mapM_eq_map hf
  have names : ((g.schemaOf cls).map fun f => (Value.str f.1, w f.1)) =
      (Table.names (g.schemaOf cls)).map fun n => (.str n, w n) := by
    simp [Table.names]
  have hid := hg.id_not_mem cls
  have asked : Method.toRaw g h a = Encoding.rawWith g h (Method.toRaw g h) a := by
    conv_lhs => rw [Method.toRaw, Method.send, attribute?, objectAttribute?_toRaw hg hc]
    simp only [Method.invoke_toRaw free]
    cases Encoding.rawWith g h (Method.toRaw g h) a <;> rfl
  rw [asked, Encoding.rawWith, Encoding.idEntry, objectAttribute?_id hc]
  simp only [rules_of_cell hg hc, bind, Except.bind, fields, names]
  exact congrArg (fun es => Except.ok (Value.dict es))
    (Encoding.insertAll_idEntries (hg.nodup cls) hid)

/-- The raw form of what shows raw data. -/
theorem Shows.encode (hg : g.WellFormed) (hs : Shows g h s v raw) :
    Encoding.encodeWith h (Method.toRaw g h) false v = .ok raw := by
  induction hs with
  | @entity a cls id pending v w hc hid hp hdef hnot hkept hdec ih =>
    have free : SelfFree g h (.object a) :=
      (Shows.entity hc hid hp hdef hnot hkept hdec).selfFree hg
    rw [Encoding.encodeWith, isEntity_of_cell hc]
    refine toRaw_of_cell hg hc free ?_
    intro f hf
    refine Encoding.encodeField_of_cell hg hc hf (hdef f hf) ?_
    intro hd
    refine ⟨hnot f hf hd, ?_⟩
    cases hdecodes : f.2.decodes with
    | true => exact ih f hf (by simp [Checker.keeps, hd, hdecodes])
    | false =>
      obtain ⟨heq, data⟩ := hkept f hf hd hdecodes
      rw [heq]
      exact Encoding.encodeWith_of_isData data
  | nothing c => rfl
  | date r m => rfl
  | embedded _ _ ih => exact ih
  | array hlen _ ih =>
    rw [Encoding.encodeWith, Encoding.encodeItems_of_zip hlen ih]
    rfl
  | dictionary hlen _ _ ih =>
    rw [Encoding.encodeWith, Encoding.encodeEntries_of_zip hlen ih]
    rfl

/-- An entity that shows raw data tells them. -/
theorem Shows.toRaw (hg : g.WellFormed) {cls : ClassId} {a : Address}
    (hs : Shows g h (.entity cls) (.object a) raw) : Method.toRaw g h a = .ok raw := by
  have form := hs.encode hg
  cases hs with
  | entity hc => rwa [Encoding.encodeWith, isEntity_of_cell hc] at form

end Heap

/-! ### Construction of what shows raw data -/

namespace Build

variable {α β γ : Type} {R : Heap → β → γ → Prop}

/-- A transformation of a list whose members succeed in every heap of some kind, with results that
stay what they are when the heap grows. -/
theorem mapM_of_zip {f : α → Build β} (mono : ∀ h h' b c, h <+: h' → R h b c → R h' b c)
    {Q : Heap → Prop} (keep : ∀ h h', h <+: h' → Q h → Q h') {xs : List α} {ys : List γ}
    (hlen : xs.length = ys.length)
    (hx : ∀ p ∈ xs.zip ys, ∀ h, Q h → ∃ b h', f p.1 h = .ok (b, h') ∧ h <+: h' ∧ R h' b p.2)
    (h : Heap) (hQ : Q h) :
    ∃ bs h', (xs.mapM f) h = .ok (bs, h') ∧ h <+: h' ∧ bs.length = ys.length ∧
      ∀ p ∈ bs.zip ys, R h' p.1 p.2 := by
  induction xs generalizing ys h with
  | nil =>
    cases List.length_eq_zero_iff.1 hlen.symm
    exact ⟨[], h, rfl, List.prefix_rfl, rfl, fun _ hp => nomatch hp⟩
  | cons x xs ih =>
    cases ys with
    | nil => cases hlen
    | cons y ys =>
      rw [List.zip_cons_cons, List.forall_mem_cons] at hx
      obtain ⟨b, h₁, hb, le₁, hR⟩ := hx.1 h hQ
      obtain ⟨bs, h₂, hbs, le₂, size, hRs⟩ := ih (Nat.succ.inj hlen) hx.2 h₁ (keep h h₁ le₁ hQ)
      refine ⟨b :: bs, h₂, ?_, le₁.trans le₂, by simp [size], ?_⟩
      · rw [mapM_cons_apply, hb, ok_bind, hbs]
        rfl
      · rw [List.zip_cons_cons, List.forall_mem_cons]
        exact ⟨mono _ _ _ _ le₂ hR, hRs⟩

end Build

namespace Construction

variable {data : Entries}

/-- The raw values that construction puts aside, under the names of their fields. -/
def putAside (data : Entries) (fs : Schema) : Table Value :=
  fs.filterMap fun f =>
    if f.2.deferred && !(Entries.getStr data f.1).isNull then some (f.1, Entries.getStr data f.1)
    else none

/-- The same as entries. -/
def asideEntries (data : Entries) (fs : Schema) : Entries :=
  (putAside data fs).map fun p => (.str p.1, p.2)

theorem putAside_cons (data : Entries) (f : String × Checker) (fs : Schema) :
    putAside data (f :: fs) = if f.2.deferred && !(Entries.getStr data f.1).isNull then
      (f.1, Entries.getStr data f.1) :: putAside data fs else putAside data fs := by
  rw [putAside, List.filterMap_cons]
  cases f.2.deferred && !(Entries.getStr data f.1).isNull <;> rfl

theorem name_of_mem_putAside {fs : Schema} {p : String × Value} (hp : p ∈ putAside data fs) :
    p.1 ∈ Table.names fs ∧ p.2 = Entries.getStr data p.1 := by
  obtain ⟨f, hf, heq⟩ := List.mem_filterMap.1 hp
  split at heq
  · cases heq
    exact ⟨List.mem_map_of_mem hf, rfl⟩
  · cases heq

/-- What is put aside of data is data. -/
theorem isData_asideEntries (hdata : (Value.dict data).IsData) {fs : Schema}
    (hn : (Table.names fs).Nodup) : (Value.dict (asideEntries data fs)).IsData := by
  refine .dict ?_ ?_ ?_
  · intro e he
    obtain ⟨p, -, rfl⟩ := List.mem_map.1 he
    rfl
  · intro e he
    obtain ⟨p, hp, rfl⟩ := List.mem_map.1 he
    rw [(name_of_mem_putAside hp).2]
    exact Entries.isData_getStr hdata p.1
  · refine List.pairwise_map.2 ?_
    have names : (putAside data fs).Pairwise fun p q => p.1 ≠ q.1 := by
      refine List.pairwise_filterMap.2 ?_
      refine (List.pairwise_map.1 hn).imp ?_
      intro f f' hne p hp q hq
      split at hp <;> cases hp
      split at hq <;> cases hq
      exact hne
    refine names.imp ?_
    intro p q hne
    rw [Value.sameKey_str_right, Value.isText, beq_eq_false_iff_ne]
    exact hne

/-- What is put aside for a field. -/
theorem getStr?_asideEntries {fs : Schema} (hn : (Table.names fs).Nodup) {f : String × Checker}
    (hf : f ∈ fs) : Entries.getStr? (asideEntries data fs) f.1 =
      if f.2.deferred && !(Entries.getStr data f.1).isNull then some (Entries.getStr data f.1)
      else none := by
  induction fs with
  | nil => cases hf
  | cons f' fs ih =>
    obtain ⟨fresh, nodup⟩ := List.nodup_cons.1 hn
    have rest : f'.1 = f.1 → Entries.getStr? (asideEntries data fs) f.1 = none := by
      intro heq
      simp only [Entries.getStr?, Option.map_eq_none_iff, List.find?_eq_none]
      intro e he
      obtain ⟨p, hp, rfl⟩ := List.mem_map.1 he
      simp only [Value.isText, beq_iff_eq]
      intro hpf
      exact fresh (by rw [heq, ← hpf]; exact (name_of_mem_putAside hp).1)
    by_cases heq : f'.1 = f.1
    · -- a name stands for one field only
      have same : f = f' := by
        rcases List.mem_cons.1 hf with rfl | hf
        · rfl
        · exact absurd (heq ▸ List.mem_map_of_mem hf) fresh
      subst same
      rw [asideEntries, putAside_cons]
      cases hd : f.2.deferred && !(Entries.getStr data f.1).isNull with
      | true =>
        simp only [if_true, List.map_cons, Entries.getStr?_cons, Value.isText, beq_self_eq_true]
      | false => exact rest rfl
    · have hf' : f ∈ fs := by
        rcases List.mem_cons.1 hf with rfl | hf
        · exact absurd rfl heq
        · exact hf
      rw [← ih nodup hf', asideEntries, asideEntries, putAside_cons]
      cases f'.2.deferred && !(Entries.getStr data f'.1).isNull with
      | true =>
        simp only [if_true, List.map_cons, Entries.getStr?_cons, Value.isText, beq_iff_eq, heq,
          if_false]
      | false => rfl

/-- What is put aside for a deferred field, or the absent value, is its raw value. -/
theorem getStr_asideEntries {fs : Schema} (hn : (Table.names fs).Nodup) {f : String × Checker}
    (hf : f ∈ fs) (hd : f.2.deferred = true) :
    Entries.getStr (asideEntries data fs) f.1 = Entries.getStr data f.1 := by
  have aside : Entries.getStr? (asideEntries data fs) f.1 = _ := getStr?_asideEntries hn hf
  rw [hd, Bool.true_and] at aside
  conv_lhs => rw [Entries.getStr, aside]
  cases Entries.getStr data f.1 <;> rfl

/-- Fields whose values are made in every heap of some kind, and stay what they are when the heap
grows. -/
theorem fieldsFrom_of_forall {decode : Checker → Value → Build Value}
    {R : Heap → String × Checker → Value → Prop}
    (mono : ∀ h h' f v, h <+: h' → R h f v → R h' f v) {Q : Heap → Prop}
    (keep : ∀ h h', h <+: h' → Q h → Q h') {fs : Schema} (hnames : (Table.names fs).Nodup)
    (hf : ∀ f ∈ fs, ∀ h, Q h →
      ∃ v h', initialValue decode f.2 (Entries.getStr data f.1) h = .ok (v, h') ∧
        h <+: h' ∧ R h' f v) (h : Heap) (hQ : Q h) :
    ∃ (v : String → Value) (h' : Heap), fieldsFrom decode data fs h =
        .ok (((Table.names fs).map fun n => (n, v n), putAside data fs), h') ∧
      h <+: h' ∧ ∀ f ∈ fs, R h' f (v f.1) := by
  induction fs generalizing h with
  | nil => exact ⟨fun _ => .null, h, rfl, List.prefix_rfl, fun _ hf => nomatch hf⟩
  | cons f fs ih =>
    obtain ⟨name, c⟩ := f
    obtain ⟨fresh, nodup⟩ := List.nodup_cons.1 hnames
    -- what the first field holds is still there when the others have been made
    have parts := List.forall_mem_cons.1 hf
    obtain ⟨x, h₁, hx, le₁, hR⟩ := parts.1 h hQ
    obtain ⟨v, h₂, hv, le₂, hRs⟩ := ih nodup parts.2 h₁ (keep h h₁ le₁ hQ)
    have other : ∀ n ∈ Table.names fs, n ≠ name := fun n hmem heq => fresh (heq ▸ hmem)
    have rest : ((Table.names fs).map fun n => (n, if n = name then x else v n)) =
        (Table.names fs).map fun n => (n, v n) := by
      refine List.map_congr_left ?_
      intro n hmem
      rw [if_neg (other n hmem)]
    refine ⟨fun n => if n = name then x else v n, h₂, ?_, le₁.trans le₂,
      List.forall_mem_cons.2 ⟨?_, ?_⟩⟩
    · rw [fieldsFrom_cons_apply, hx, ok_bind, hv, ok_bind, putAside_cons]
      have table : (Table.names ((name, c) :: fs)).map (fun n => (n, if n = name then x else v n)) =
          (name, x) :: (Table.names fs).map fun n => (n, v n) := by
        rw [← rest]
        simp [Table.names]
      rw [table]
    · simpa using mono _ _ _ _ le₂ hR
    · intro f hmem
      have hne : f.1 ≠ name := other f.1 (List.mem_map_of_mem hmem)
      simpa [hne] using hRs f hmem

end Construction

/-- What is constructed of a raw value. -/
def Construction.make (g : Catalog) : Subject → Value → Build Value
  | .entity cls, raw => ofRaw g cls raw
  | .decoded c, raw => decode g c raw

namespace Catalog

variable {g : Catalog}

/-- What a field of an entity that is being constructed holds, where it is to show `w`. -/
def Field.Shows (g : Catalog) (w : String → Value) (h : Heap) (f : String × Checker) (v : Value) :
    Prop :=
  (f.2.deferred = true → v = .null) ∧
  (f.2.deferred = false → f.2.decodes = false → v = w f.1) ∧
  (f.2.keeps = false → Heap.Shows g h (.decoded f.2) v (w f.1))

theorem Field.Shows.mono {w : String → Value} {h h' : Heap} {f : String × Checker} {v : Value}
    (hle : h.Within h') (hf : Field.Shows g w h f v) : Field.Shows g w h' f v :=
  ⟨hf.1, hf.2.1, fun hk => (hf.2.2 hk).mono hle⟩

/-- The cell of an entity whose fields show raw data shows these data. -/
theorem Field.Shows.entity (hg : g.WellFormed) {cls : ClassId} {data : Entries}
    (hdata : (Value.dict data).IsData) {v w : String → Value}
    (hkeeps : ∀ f ∈ g.schemaOf cls, f.2.keeps = true → w f.1 = Entries.getStr data f.1)
    {h : Heap} {a : Address} (hc : Heap.get h a = Cell.ofFields cls (Entries.getStr data idField)
      (Construction.asideEntries data (g.schemaOf cls)) (Table.names (g.schemaOf cls)) v)
    (hf : ∀ f ∈ g.schemaOf cls, Field.Shows g w h f (v f.1)) :
    Heap.Shows g h (.entity cls) (.object a) (.dict (rawEntries (Entries.getStr data idField)
      (Table.names (g.schemaOf cls)) w)) := by
  refine .entity hc (Entries.isData_getStr hdata _)
    (Construction.isData_asideEntries hdata (hg.nodup cls)) ?_ ?_ ?_ ?_
  · intro f hmem hd
    refine ⟨(hf f hmem).1 hd, ?_⟩
    rw [hkeeps f hmem (by simp [Checker.keeps, hd])]
    exact (Construction.getStr_asideEntries (hg.nodup cls) hmem hd).symm
  · intro f hmem hd
    rw [Construction.getStr?_asideEntries (hg.nodup cls) hmem, hd]
    rfl
  · intro f hmem hd hdec
    refine ⟨(hf f hmem).2.1 hd hdec, ?_⟩
    rw [hkeeps f hmem (by simp [Checker.keeps, hdec])]
    exact Entries.isData_getStr hdata _
  · intro f hmem hk
    exact (hf f hmem).2.2 hk

/-- The cell of an entity without deferred fields shows raw data if its fields do. -/
theorem Field.Shows.entity_self {cls : ClassId}
    (undeferred : ∀ f ∈ g.schemaOf cls, f.2.deferred = false) {id : Value} {v w : String → Value}
    (hid : id.IsData) (hw : ∀ f ∈ g.schemaOf cls, (w f.1).IsData) {h : Heap} {a : Address}
    (hc : Heap.get h a = Cell.ofFields cls id [] (Table.names (g.schemaOf cls)) v)
    (hf : ∀ f ∈ g.schemaOf cls, Field.Shows g w h f (v f.1)) :
    Heap.Shows g h (.entity cls) (.object a)
      (.dict (rawEntries id (Table.names (g.schemaOf cls)) w)) := by
  refine .entity hc hid ?_ ?_ ?_ ?_ ?_
  · exact .dict (fun _ he => nomatch he) (fun _ he => nomatch he) .nil
  · intro f hmem hd
    rw [undeferred f hmem] at hd
    cases hd
  · exact fun _ _ _ => rfl
  · intro f hmem hd hdec
    exact ⟨(hf f hmem).2.1 hd hdec, hw f hmem⟩
  · intro f hmem hk
    exact (hf f hmem).2.2 hk

/-- The value that a field starts with, if its raw value is kept or something that shows `w` is made
of it. -/
theorem Field.exists_initial {data : Entries} {w : String → Value} {f : String × Checker} {n : Nat}
    (hkeeps : f.2.keeps = true → w f.1 = Entries.getStr data f.1)
    (hbuilds : f.2.keeps = false → ∀ h : Heap, n ≤ h.length →
      ∃ v h', Construction.decode g f.2 (Entries.getStr data f.1) h = .ok (v, h') ∧ h <+: h' ∧
        Heap.Shows g (h'.above n) (.decoded f.2) v (w f.1)) (h : Heap) (hn : n ≤ h.length) :
    ∃ v h', Construction.initialValue (Construction.decode g) f.2 (Entries.getStr data f.1) h =
      .ok (v, h') ∧ h <+: h' ∧ Field.Shows g w (h'.above n) f v := by
  unfold Construction.initialValue
  cases hd : f.2.deferred with
  | true =>
    refine ⟨.null, h, rfl, List.prefix_rfl, fun _ => rfl, ?_, ?_⟩
    · simp [hd]
    · simp [Checker.keeps, hd]
  | false =>
    cases hdec : f.2.decodes with
    | true =>
      obtain ⟨v, h', hv, hle, hs⟩ := hbuilds (by simp [Checker.keeps, hd, hdec]) h hn
      exact ⟨v, h', hv, hle, by simp [hd], by simp [hdec], fun _ => hs⟩
    | false =>
      have hk : f.2.keeps = true := by simp [Checker.keeps, hdec]
      refine ⟨Entries.getStr data f.1, h, rfl, List.prefix_rfl, by simp [hd], ?_, by simp [hk]⟩
      intro _ _
      exact (hkeeps hk).symm

/-- The cell that is added last when an entity is constructed, and the heap before it. -/
theorem exists_cell_of_fields (hg : g.WellFormed) {cls : ClassId} {raw : Value}
    (hraw : raw.IsData) {data : Entries} (hdata : Construction.entriesOf [] raw = .ok data)
    {w : String → Value} {n : Nat}
    (hkeeps : ∀ f ∈ g.schemaOf cls, f.2.keeps = true → w f.1 = Entries.getStr data f.1)
    (hbuilds : ∀ f ∈ g.schemaOf cls, f.2.keeps = false → ∀ h : Heap, n ≤ h.length →
      ∃ v h', Construction.decode g f.2 (Entries.getStr data f.1) h = .ok (v, h') ∧ h <+: h' ∧
        Heap.Shows g (h'.above n) (.decoded f.2) v (w f.1)) (h : Heap) (hn : n ≤ h.length) :
    ∃ (v : String → Value) (h₁ : Heap), Construction.ofRaw g cls raw h = .ok (.object h₁.length,
        h₁ ++ [Cell.ofFields cls (Entries.getStr data idField)
          (Construction.asideEntries data (g.schemaOf cls)) (Table.names (g.schemaOf cls)) v]) ∧
      h <+: h₁ ∧ ∀ f ∈ g.schemaOf cls, Field.Shows g w (h₁.above n) f (v f.1) := by
  obtain ⟨v, h₁, hfrom, hle, hfields⟩ := Construction.fieldsFrom_of_forall
    (R := fun h f v => Field.Shows g w (h.above n) f v)
    (fun _ _ _ _ hle hs => hs.mono (Heap.above_within le_rfl hle)) Heap.keeps_size (hg.nodup cls)
    (fun f hf => Field.exists_initial (hkeeps f hf) (hbuilds f hf)) h hn
  refine ⟨v, h₁, ?_, hle, hfields⟩
  rw [Construction.ofRaw_apply, Construction.entriesOf_of_inert hraw.inert h [], hdata,
    ok_bind, hfrom]
  rfl

/-- **Construction of what has a normal form succeeds in every heap, and what it makes shows the
normal form**, by cells that it adds. -/
theorem Normal.builds (hg : g.WellFormed) {s : Subject} {raw form : Value}
    (hn : g.Normal s raw form) (hraw : raw.IsData) {n : Nat} (h : Heap) (hsize : n ≤ h.length) :
    ∃ v h', Construction.make g s raw h = .ok (v, h') ∧ h <+: h' ∧
      Heap.Shows g (h'.above n) s v form := by
  induction hn generalizing h with
  | @entity cls raw data w hdata hkeeps hnot ih =>
    have entries := Construction.isData_of_entriesOf hraw hdata
    -- the fields come first, and the cell of the entity is added after theirs
    obtain ⟨v, h₁, hmade, hle, hfields⟩ := exists_cell_of_fields hg hraw hdata hkeeps
      (fun f hf hk h => ih f hf hk (Entries.isData_getStr entries _) h) h hsize
    refine ⟨_, _, hmade, hle.trans (List.prefix_append h₁ _), ?_⟩
    refine Field.Shows.entity hg entries hkeeps (v := v) ?_ ?_
    · rw [Heap.above, Heap.get_only, if_pos (by simpa using hsize.trans hle.length_le)]
      exact Heap.get_alloc_self h₁ _
    · intro f hf
      exact (hfields f hf).mono (Heap.above_within le_rfl (List.prefix_append h₁ _))
  | noDate r => exact ⟨.null, h, rfl, List.prefix_rfl, .nothing _⟩
  | @date r raw m hm =>
    refine ⟨.moment m, h, ?_, List.prefix_rfl, .date r m⟩
    rw [Construction.make, Construction.decode, Checker.decodeWith_date]
    rcases toMoment_of_isData hraw hm with ⟨-, hv⟩ | ⟨m', hv, again⟩
    · cases hv
    · cases hv
      rw [again]
      rfl
  | noEntity t e r => exact ⟨.null, h, rfl, List.prefix_rfl, .nothing _⟩
  | @embedded t e r raw form cls hn hr _ ih =>
    obtain ⟨v, h', hv, hle, hs⟩ := ih hraw h hsize
    refine ⟨v, h', ?_, hle, .embedded hr hs⟩
    rw [Construction.make, Construction.decode,
      Checker.decodeWith_reference t e r hn hraw.ne_object, hr]
    exact hv
  | @array e r raw xs ys hxs hlen _ ih =>
    obtain ⟨vs, h', hvs, hle, size, hs⟩ := Build.mapM_of_zip
      (R := fun h v form => Heap.Shows g (h.above n) (.decoded e) v form)
      (fun _ _ _ _ hle hs => hs.mono (Heap.above_within le_rfl hle)) Heap.keeps_size hlen
      (fun p hp h => ih p hp (Checker.isData_of_itemsOf hraw hxs p.1 (List.of_mem_zip hp).1) h)
      h hsize
    refine ⟨.list vs, h', ?_, hle, .array size hs⟩
    rw [Construction.make, Construction.decode, Checker.decodeWith_arrayOf, hxs, ok_bind]
    exact congrArg (· >>= fun p => .ok (Value.list p.1, p.2)) hvs
  | @dictionary e r raw es ys hes hlen _ ih =>
    have entries := Checker.isData_of_entriesOf hraw hes
    have size : (es.map Prod.snd).length = ys.length := by simpa using hlen
    have values : ∀ p ∈ (es.map Prod.snd).zip ys, p.1.IsData := by
      intro p hp
      obtain ⟨q, hq, heq⟩ := List.mem_map.1 (List.of_mem_zip hp).1
      exact heq ▸ entries.value hq
    have keys : ∀ k ∈ es.map Prod.fst, k.isAtom = true := by
      intro k hk
      obtain ⟨q, hq, rfl⟩ := List.mem_map.1 hk
      exact entries.key hq
    obtain ⟨vs, h', hvs, hle, size', hs⟩ := Build.mapM_of_zip
      (R := fun h v form => Heap.Shows g (h.above n) (.decoded e) v form)
      (fun _ _ _ _ hle hs => hs.mono (Heap.above_within le_rfl hle)) Heap.keeps_size size
      (fun p hp h => ih p hp (values p hp) h) h hsize
    refine ⟨.dict ((es.map Prod.fst).zip vs), h', ?_, hle, .dictionary size' keys hs⟩
    rw [Construction.make, Construction.decode, Checker.decodeWith_dictOf,
      Checker.entriesOf_of_inert hraw.inert h [], hes, ok_bind]
    exact congrArg (· >>= fun p => .ok (Value.dict ((es.map Prod.fst).zip p.1), p.2)) hvs

/-- What is constructed of what has a normal form shows it in the heap. -/
theorem Normal.exists_shows (hg : g.WellFormed) {s : Subject} {raw form : Value}
    (hn : g.Normal s raw form) (hraw : raw.IsData) (h : Heap) :
    ∃ v h', Construction.make g s raw h = .ok (v, h') ∧ h <+: h' ∧ Heap.Shows g h' s v form := by
  obtain ⟨v, h', hv, hle, hs⟩ := hn.builds hg hraw h (Nat.zero_le _)
  exact ⟨v, h', hv, hle, hs.mono (Heap.only_within_self _ _)⟩

end Catalog

end EntitySchema
