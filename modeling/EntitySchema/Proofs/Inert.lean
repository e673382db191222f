/-
**Values that need no heap.**

A value that leads to no object is the same in every heap: a copy of it is the value itself, what it
makes, a list or a dictionary or a moment, does not depend on the objects that there are, and
neither does its text.  What it is made of leads to no object either.

Main results:

* `Value.Inert.items`, `Value.Inert.entries`, `Value.Inert.toEntries` — what an inert value makes is
  inert;
* `Value.hashable_congr`, `Value.toEntries_congr` — what can be a key, and what a dictionary can be
  made of, depends on the objects that the value leads to;
* `Value.toEntries_of_inert`, `Value.toMoment_of_inert` — it does not depend on the heap;
* `Value.writeWith_of_inert`, `Value.showWith_of_inert` — **nor does the text of a value**;
* `Heap.copy_of_inert` — **a copy of an inert value is the value.**
-/

import EntitySchema.Proofs.Data

set_option autoImplicit false

namespace EntitySchema

namespace Value

/-! ### What inert values are made of -/

theorem inert_list_iff {xs : List Value} : Inert (.list xs) ↔ ∀ x ∈ xs, x.Inert := by
  constructor
  · exact fun h _ hx a ha => h a (.list hx ha)
  · intro h a ha
    cases ha with
    | list hx hl => exact h _ hx a hl

theorem inert_tuple_iff {xs : List Value} : Inert (.tuple xs) ↔ ∀ x ∈ xs, x.Inert :=
  ⟨fun h _ hx a ha => h a (.tuple hx ha), inert_tuple⟩

theorem inert_set_iff {xs : List Value} : Inert (.set xs) ↔ ∀ x ∈ xs, x.Inert := by
  constructor
  · exact fun h _ hx a ha => h a (.set hx ha)
  · intro h a ha
    cases ha with
    | set hx hl => exact h _ hx a hl

theorem inert_dict_iff {es : Entries} : Inert (.dict es) ↔ ∀ e ∈ es, e.1.Inert ∧ e.2.Inert :=
  ⟨fun h _ he => ⟨fun a ha => h a (.dictKey he ha), fun a ha => h a (.dict he ha)⟩, inert_dict⟩

theorem inert_ordered_iff {es : Entries} :
    Inert (.ordered es) ↔ ∀ e ∈ es, e.1.Inert ∧ e.2.Inert := by
  constructor
  · exact fun h _ he => ⟨fun a ha => h a (.orderedKey he ha), fun a ha => h a (.ordered he ha)⟩
  · intro h a ha
    cases ha with
    | orderedKey he hl => exact (h _ he).1 a hl
    | ordered he hl => exact (h _ he).2 a hl

theorem inert_int (n : Int) : Inert (.int n) := nofun

variable {v : Value}

theorem Inert.ne_object (hv : v.Inert) (a : Address) : v ≠ .object a := by
  rintro rfl
  exact hv a (.object a)

/-- The items of an inert value are inert. -/
theorem Inert.items (hv : v.Inert) {xs : List Value} (hxs : v.items? = some xs) :
    ∀ x ∈ xs, x.Inert := by
  cases v with
  | list ys =>
    cases hxs
    exact inert_list_iff.1 hv
  | tuple ys =>
    cases hxs
    exact inert_tuple_iff.1 hv
  | set ys =>
    cases hxs
    exact inert_set_iff.1 hv
  | dict es =>
    cases hxs
    exact List.forall_mem_map.2 fun e he => (inert_dict_iff.1 hv e he).1
  | ordered es =>
    cases hxs
    exact List.forall_mem_map.2 fun e he => (inert_ordered_iff.1 hv e he).1
  | str s =>
    cases hxs
    exact List.forall_mem_map.2 fun c _ => inert_str _
  | bytes bs =>
    cases hxs
    exact List.forall_mem_map.2 fun b _ => inert_int _
  | _ => cases hxs

/-- The entries of an inert mapping are inert. -/
theorem Inert.entries (hv : v.Inert) {es : Entries} (hes : v.entries? = some es) :
    Inert (.dict es) := by
  cases v with
  | dict fs =>
    cases hes
    exact hv
  | ordered fs =>
    cases hes
    exact inert_dict_iff.2 (inert_ordered_iff.1 hv)
  | _ => cases hes

theorem inert_getStr {es : Entries} (hes : Inert (.dict es)) (name : String) :
    (Entries.getStr es name).Inert :=
  Entries.getStr_of_forall inert_null (fun e he => (inert_dict_iff.1 hes e he).2) name

/-! ### What inert values make -/

section

variable {isEntity isEntity' : Address → Bool}

mutual

/-- Whether a value may be a key depends on the objects that it leads to. -/
theorem hashable_congr : (v : Value) → (∀ a, v.LeadsTo a → isEntity' a = isEntity a) →
    v.hashable isEntity' = v.hashable isEntity
  | .object a, same => by rw [hashable, hashable, same a (.object a)]
  | .tuple xs, same => hashableItems_congr xs fun x hx a ha => same a (.tuple hx ha)
  | .list _, _ | .set _, _ | .dict _, _ | .ordered _, _
  | .null, _ | .bool _, _ | .int _, _ | .float _, _ | .nan _, _ | .str _, _ | .bytes _, _
  | .date _, _ | .moment _, _ | .stamp _, _ | .zone _, _ | .function _, _ | .method _ _, _
  | .cls _, _ | .checker _ _, _ | .store _, _ | .thing _, _ => rfl
termination_by structural v => v

theorem hashableItems_congr : (xs : List Value) →
    (∀ x ∈ xs, ∀ a, x.LeadsTo a → isEntity' a = isEntity a) →
      hashable.hashableItems isEntity' xs = hashable.hashableItems isEntity xs
  | [], _ => rfl
  | x :: xs, same => by
    obtain ⟨first, rest⟩ := List.forall_mem_cons.1 same
    rw [hashable.hashableItems, hashable.hashableItems, hashable_congr x first,
      hashableItems_congr xs rest]
termination_by structural xs => xs

end

theorem toEntry_congr (same : ∀ a, v.LeadsTo a → isEntity' a = isEntity a) :
    v.toEntry isEntity' = v.toEntry isEntity := by
  unfold toEntry toItems
  cases hxs : v.items? with
  | none => rfl
  | some xs =>
    have key : ∀ k ∈ xs, k.hashable isEntity' = k.hashable isEntity := fun k hk =>
      hashable_congr k fun a ha => same a (leadsTo_of_items hxs hk ha)
    match xs, key with
    | [k, w], key => simp only [bind, Except.bind, key k (by simp)]
    | [], _ => rfl
    | [_], _ => rfl
    | _ :: _ :: _ :: _, _ => rfl

/-- The dictionary that a value makes depends on the objects that the value leads to. -/
theorem toEntries_congr (same : ∀ a, v.LeadsTo a → isEntity' a = isEntity a) :
    v.toEntries isEntity' = v.toEntries isEntity := by
  unfold toEntries toItems
  cases v.entries? with
  | some es => rfl
  | none =>
    cases hxs : v.items? with
    | none => rfl
    | some xs =>
      have pairs : xs.mapM (toEntry isEntity') = xs.mapM (toEntry isEntity) :=
        mapM_congr fun x hx => toEntry_congr fun a ha => same a (leadsTo_of_items hxs hx ha)
      simp only [bind, Except.bind, pairs]

end

/-- The dictionary that an inert value makes does not depend on which objects are entities. -/
theorem toEntries_of_inert (hv : v.Inert) (isEntity isEntity' : Address → Bool) :
    v.toEntries isEntity = v.toEntries isEntity' :=
  toEntries_congr fun a ha => absurd ha (hv a)

/-- Inert values make inert dictionaries. -/
theorem Inert.toEntries (hv : v.Inert) {isEntity : Address → Bool} {es : Entries}
    (hes : v.toEntries isEntity = .ok es) : Inert (.dict es) := by
  refine inert_dict_iff.2 (forall_mem_toEntries hes (fun hm => inert_dict_iff.1 (hv.entries hm)) ?_)
  intro xs hxs x hx k w two
  have parts := (hv.items hxs x hx).items two
  exact ⟨parts k (by simp), parts w (by simp)⟩

/-- What an inert value makes a moment of does not depend on what objects are called. -/
theorem toMoment_of_inert (hv : v.Inert) (objectName objectName' : Address → String) :
    v.toMoment objectName = v.toMoment objectName' := by
  cases v with
  | object a => exact absurd rfl (hv.ne_object a)
  | _ => rfl

/-- What an inert value makes a moment of is inert. -/
theorem Inert.toMoment (hv : v.Inert) {objectName : Address → String} {w : Value}
    (hw : v.toMoment objectName = .ok w) : w.Inert := by
  cases v with
  | null | date | moment | stamp =>
    cases hw
    exact hv
  | int | float | str =>
    rw [Value.toMoment] at hw
    split at hw
    · cases hw
      exact inert_moment _
    · cases hw
  | _ => cases hw

/-! ### The text of inert values -/

section

variable (object : Address → Except Failure String)

theorem writeMethod_of_inert {owner : Owner} {name : String} (hv : (method owner name).Inert) :
    writeMethod object owner name =
      .ok (Id.run (writeMethod (fun _ => pure "<object>") owner name)) := by
  cases owner with
  | object a => exact absurd (.method a name) (hv a)
  | _ => rfl

mutual

/-- The written form of an inert value is the same whatever objects are. -/
theorem writeWith_of_inert : (v : Value) → v.Inert → writeWith object v = .ok v.write
  | .object a, hv => absurd rfl (hv.ne_object a)
  | .method _ _, hv => writeMethod_of_inert object hv
  | .list xs, hv => by
    rw [writeWith, writeItems_of_inert xs (inert_list_iff.1 hv)]
    rfl
  | .tuple xs, hv => by
    rw [writeWith, writeItems_of_inert xs (inert_tuple_iff.1 hv)]
    rfl
  | .set [], _ => rfl
  | .set (x :: xs), hv => by
    rw [writeWith, writeItems_of_inert (x :: xs) (inert_set_iff.1 hv)]
    rfl
  | .dict es, hv => by
    rw [writeWith, writeEntries_of_inert es (inert_dict_iff.1 hv)]
    rfl
  | .ordered [], _ => rfl
  | .ordered (e :: es), hv => by
    rw [writeWith, writePairs_of_inert (e :: es) (inert_ordered_iff.1 hv)]
    rfl
  | .null, _ | .bool _, _ | .int _, _ | .float _, _ | .nan _, _ | .str _, _ | .bytes _, _
  | .date _, _ | .moment _, _ | .stamp _, _ | .zone _, _ | .function _, _
  | .cls _, _ | .checker _ _, _ | .store _, _ | .thing _, _ => rfl
termination_by structural v => v

theorem writeItems_of_inert : (xs : List Value) → (∀ x ∈ xs, x.Inert) →
    writeItems object xs = .ok (Id.run (writeItems (fun _ => pure "<object>") xs))
  | [], _ => rfl
  | x :: xs, h => by
    obtain ⟨hx, hxs⟩ := List.forall_mem_cons.1 h
    rw [writeItems, writeWith_of_inert x hx, writeItems_of_inert xs hxs]
    rfl
termination_by structural xs => xs

theorem writeEntries_of_inert : (es : Entries) → (∀ e ∈ es, e.1.Inert ∧ e.2.Inert) →
    writeEntries object es = .ok (Id.run (writeEntries (fun _ => pure "<object>") es))
  | [], _ => rfl
  | (k, v) :: es, h => by
    obtain ⟨he, hes⟩ := List.forall_mem_cons.1 h
    rw [writeEntries, writeWith_of_inert k he.1, writeWith_of_inert v he.2,
      writeEntries_of_inert es hes]
    rfl
termination_by structural es => es

theorem writePairs_of_inert : (es : Entries) → (∀ e ∈ es, e.1.Inert ∧ e.2.Inert) →
    writePairs object es = .ok (Id.run (writePairs (fun _ => pure "<object>") es))
  | [], _ => rfl
  | (k, v) :: es, h => by
    obtain ⟨he, hes⟩ := List.forall_mem_cons.1 h
    rw [writePairs, writeWith_of_inert k he.1, writeWith_of_inert v he.2,
      writePairs_of_inert es hes]
    rfl
termination_by structural es => es

end

/-- The shown form of an inert value is the same whatever objects are. -/
theorem showWith_of_inert (hv : v.Inert) : showWith object v = .ok v.toText := by
  cases v with
  | str | date | moment | stamp | zone => rfl
  | _ => exact writeWith_of_inert object _ hv

end

end Value

/-- The text of an inert value is the same in every heap. -/
theorem Method.toText_of_inert (g : Catalog) (h : Heap) {v : Value} (hv : v.Inert) :
    toText g h v = .ok v.toText := Value.showWith_of_inert _ hv

theorem Method.write_of_inert (g : Catalog) (h : Heap) {v : Value} (hv : v.Inert) :
    write g h v = .ok v.write := Value.writeWith_of_inert _ v hv

/-! ### What is decoded from inert values -/

namespace Checker

variable {raw : Value}

theorem inert_of_itemsOf (hraw : raw.Inert) {xs : List Value} (hxs : itemsOf raw = .ok xs) :
    ∀ x ∈ xs, x.Inert := by
  rcases itemsOf_cases hxs with rfl | ⟨-, hys⟩
  · exact List.forall_mem_nil _
  · exact hraw.items hys

theorem entriesOf_of_inert (hraw : raw.Inert) (h h' : Heap) :
    entriesOf h raw = entriesOf h' raw := by
  unfold entriesOf
  rw [Value.toEntries_of_inert hraw (Heap.isEntity h) (Heap.isEntity h')]

theorem inert_of_entriesOf (hraw : raw.Inert) {h : Heap} {es : Entries}
    (hes : entriesOf h raw = .ok es) : (Value.dict es).Inert := by
  unfold entriesOf at hes
  split at hes
  · cases hes
    exact Value.inert_dict_iff.2 (List.forall_mem_nil _)
  · exact hraw.toEntries hes

end Checker

namespace Construction

variable {raw : Value}

theorem entriesOf_of_inert (hraw : raw.Inert) (h h' : Heap) :
    entriesOf h raw = entriesOf h' raw := by
  unfold entriesOf
  rw [Value.toEntries_of_inert hraw (Heap.isEntity h) (Heap.isEntity h')]

theorem inert_of_entriesOf (hraw : raw.Inert) {h : Heap} {es : Entries}
    (hes : entriesOf h raw = .ok es) : (Value.dict es).Inert := by
  unfold entriesOf at hes
  split at hes
  · exact hraw.toEntries hes
  · cases hes
    exact Value.inert_dict_iff.2 (List.forall_mem_nil _)

end Construction

/-! ### Copies -/

namespace Heap

mutual

/-- An inert value refers to no cell. -/
theorem refs_of_inert : (v : Value) → v.Inert → refs v = []
  | .object a, hv => absurd rfl (hv.ne_object a)
  | .method (.object a) name, hv => absurd (.method a name) (hv a)
  | .list xs, hv => refsItems_of_inert xs (Value.inert_list_iff.1 hv)
  | .tuple xs, hv => refsItems_of_inert xs (Value.inert_tuple_iff.1 hv)
  | .set xs, hv => refsItems_of_inert xs (Value.inert_set_iff.1 hv)
  | .dict es, hv => refsEntries_of_inert es (Value.inert_dict_iff.1 hv)
  | .ordered es, hv => refsEntries_of_inert es (Value.inert_ordered_iff.1 hv)
  | .method (.cls _) _, _ | .method (.value _) _, _ | .method (.constant _) _, _
  | .null, _ | .bool _, _ | .int _, _ | .float _, _ | .nan _, _ | .str _, _ | .bytes _, _
  | .date _, _ | .moment _, _ | .stamp _, _ | .zone _, _ | .function _, _
  | .cls _, _ | .checker _ _, _ | .store _, _ | .thing _, _ => rfl
termination_by structural v => v

theorem refsItems_of_inert : (xs : List Value) → (∀ x ∈ xs, x.Inert) → refsItems xs = []
  | [], _ => rfl
  | x :: xs, h => by
    obtain ⟨hx, hxs⟩ := List.forall_mem_cons.1 h
    rw [refsItems, refs_of_inert x hx, refsItems_of_inert xs hxs]
    rfl
termination_by structural xs => xs

theorem refsEntries_of_inert : (es : Entries) → (∀ e ∈ es, e.1.Inert ∧ e.2.Inert) →
    refsEntries es = []
  | [], _ => rfl
  | (k, v) :: es, h => by
    obtain ⟨he, hes⟩ := List.forall_mem_cons.1 h
    rw [refsEntries, refs_of_inert k he.1, refs_of_inert v he.2, refsEntries_of_inert es hes]
    rfl
termination_by structural es => es

end

mutual

/-- An inert value stays what it is under other addresses. -/
theorem rename_of_inert (addr : Address → Address) : (v : Value) → v.Inert → rename addr v = v
  | .object a, hv => absurd rfl (hv.ne_object a)
  | .method (.object a) name, hv => absurd (.method a name) (hv a)
  | .list xs, hv => by rw [rename, renameItems_of_inert addr xs (Value.inert_list_iff.1 hv)]
  | .tuple xs, hv => by rw [rename, renameItems_of_inert addr xs (Value.inert_tuple_iff.1 hv)]
  | .set xs, hv => by rw [rename, renameItems_of_inert addr xs (Value.inert_set_iff.1 hv)]
  | .dict es, hv => by rw [rename, renameEntries_of_inert addr es (Value.inert_dict_iff.1 hv)]
  | .ordered es, hv => by rw [rename, renameEntries_of_inert addr es (Value.inert_ordered_iff.1 hv)]
  | .method (.cls _) _, _ | .method (.value _) _, _ | .method (.constant _) _, _
  | .null, _ | .bool _, _ | .int _, _ | .float _, _ | .nan _, _ | .str _, _ | .bytes _, _
  | .date _, _ | .moment _, _ | .stamp _, _ | .zone _, _ | .function _, _
  | .cls _, _ | .checker _ _, _ | .store _, _ | .thing _, _ => rfl
termination_by structural v => v

theorem renameItems_of_inert (addr : Address → Address) : (xs : List Value) →
    (∀ x ∈ xs, x.Inert) → renameItems addr xs = xs
  | [], _ => rfl
  | x :: xs, h => by
    obtain ⟨hx, hxs⟩ := List.forall_mem_cons.1 h
    rw [renameItems, rename_of_inert addr x hx, renameItems_of_inert addr xs hxs]
termination_by structural xs => xs

theorem renameEntries_of_inert (addr : Address → Address) : (es : Entries) →
    (∀ e ∈ es, e.1.Inert ∧ e.2.Inert) → renameEntries addr es = es
  | [], _ => rfl
  | (k, v) :: es, h => by
    obtain ⟨he, hes⟩ := List.forall_mem_cons.1 h
    rw [renameEntries, rename_of_inert addr k he.1, rename_of_inert addr v he.2,
      renameEntries_of_inert addr es hes]
termination_by structural es => es

end

/-- An inert value reaches no cell. -/
theorem reach_of_inert (h : Heap) {v : Value} (hv : v.Inert) : reach h v = [] := by
  rw [reach, refs_of_inert v hv]
  cases h with
  | nil => rfl
  | cons c h => rfl

theorem copyableItems_iff {xs : List Value} :
    copyableItems xs = true ↔ ∀ x ∈ xs, copyableValue x = true := by
  induction xs with
  | nil => exact ⟨fun _ => List.forall_mem_nil _, fun _ => rfl⟩
  | cons x xs ih => rw [copyableItems, Bool.and_eq_true, ih, List.forall_mem_cons]

theorem copyableEntries_iff {es : Entries} : copyableEntries es = true ↔
    ∀ e ∈ es, copyableValue e.1 = true ∧ copyableValue e.2 = true := by
  induction es with
  | nil => exact ⟨fun _ => List.forall_mem_nil _, fun _ => rfl⟩
  | cons e es ih =>
    rw [copyableEntries, Bool.and_eq_true, Bool.and_eq_true, ih, List.forall_mem_cons]

/-- Data can be copied. -/
theorem copyableValue_of_isData {v : Value} (hv : v.IsData) : copyableValue v = true := by
  have atom {v : Value} (hv : v.isAtom = true) : copyableValue v = true := by
    cases v <;> first | rfl | cases hv
  induction hv with
  | atom hv => exact atom hv
  | list _ ih => exact copyableItems_iff.2 ih
  | dict keys _ _ ih => exact copyableEntries_iff.2 fun e he => ⟨atom (keys e he), ih e he⟩

/-- Data can be copied in every heap. -/
theorem copyable_of_isData (h : Heap) {v : Value} (hv : v.IsData) : copyable h v = true := by
  rw [copyable, copyableValue_of_isData hv, reach_of_inert h hv.inert, List.all_nil]
  rfl

/-- **A copy of an inert value is the value**, and nothing is added to the heap for it. -/
theorem copy_of_inert (h : Heap) {v : Value} (hv : v.Inert) : copy h v = (v, h) := by
  rw [copy, reach_of_inert h hv, rename_of_inert _ v hv]
  simp

end Heap

end EntitySchema
