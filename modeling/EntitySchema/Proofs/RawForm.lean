/-
**The raw data that a tree tells.**

What an entity tells as its raw data depends on what it holds and not on where that is, so the raw
data can be read off a tree: the identifier, and for each field what is put aside for it or else the
raw form of what it holds.  Of an entity in a deferred field that is the identifier alone.

A tree is *whole* if no leaf of it leads to an object.  Then no entity in it contains itself, and
the raw form of the tree is what is told.

Main definitions:

* `Value.encoded` — the raw form of a value that leads to no object;
* `Tree.Whole` — a tree that tells all;
* `Tree.form` — **the raw form of a tree.**

Main results:

* `Catalog.whole_of_built`, `Catalog.whole_of_loaded` — what is constructed or loaded from what
  leads to no object is whole;
* `Heap.Reads.selfFree` — no entity in what reads as a whole tree contains itself;
* `Heap.Reads.toRaw` — **an entity tells the raw form of its tree.**
-/

import EntitySchema.Proofs.StoredLookups

set_option autoImplicit false

namespace EntitySchema

/-! ### Raw forms of values that lead to no object -/

namespace Value

mutual

/-- The raw form of a value that leads to no object: days and moments as text, arrays as lists, and
mappings as dictionaries. -/
def encoded : Value → Value
  | .date d => .str d.isoText
  | .moment m => .str m.isoText
  | .stamp m => .str m.isoText
  | .list xs => .list (encodedItems xs)
  | .tuple xs => .list (encodedItems xs)
  | .dict es => .dict (encodedEntries es)
  | .ordered es => .dict (encodedEntries es)
  | v => v
termination_by structural v => v

/-- The raw forms of the items of a list. -/
def encodedItems : List Value → List Value
  | [] => []
  | x :: xs => encoded x :: encodedItems xs
termination_by structural xs => xs

/-- The raw forms of the values of a mapping. -/
def encodedEntries : Entries → Entries
  | [] => []
  | (k, v) :: es => (k, encoded v) :: encodedEntries es
termination_by structural es => es

end

end Value

namespace Value

mutual

/-- The raw form of what leads to no object leads to none. -/
theorem inert_encoded : (v : Value) → v.Inert → v.encoded.Inert
  | .list xs, hv => inert_list_iff.2 (inert_encodedItems xs (inert_list_iff.1 hv))
  | .tuple xs, hv => inert_list_iff.2 (inert_encodedItems xs (inert_tuple_iff.1 hv))
  | .dict es, hv => inert_dict_iff.2 (inert_encodedEntries es (inert_dict_iff.1 hv))
  | .ordered es, hv => inert_dict_iff.2 (inert_encodedEntries es (inert_ordered_iff.1 hv))
  | .date _, _ | .moment _, _ | .stamp _, _ => inert_str _
  | .null, hv | .bool _, hv | .int _, hv | .float _, hv | .nan _, hv | .str _, hv | .bytes _, hv
  | .set _, hv | .zone _, hv | .object _, hv | .function _, hv | .method _ _, hv | .cls _, hv
  | .checker _ _, hv | .store _, hv | .thing _, hv => hv

theorem inert_encodedItems : (xs : List Value) → (∀ x ∈ xs, x.Inert) →
    ∀ y ∈ encodedItems xs, y.Inert
  | [], _ => List.forall_mem_nil _
  | x :: xs, hx => by
    obtain ⟨first, rest⟩ := List.forall_mem_cons.1 hx
    exact List.forall_mem_cons.2 ⟨inert_encoded x first, inert_encodedItems xs rest⟩

theorem inert_encodedEntries : (es : Entries) → (∀ e ∈ es, e.1.Inert ∧ e.2.Inert) →
    ∀ e ∈ encodedEntries es, e.1.Inert ∧ e.2.Inert
  | [], _ => List.forall_mem_nil _
  | (k, v) :: es, he => by
    obtain ⟨first, rest⟩ := List.forall_mem_cons.1 he
    exact List.forall_mem_cons.2
      ⟨⟨first.1, inert_encoded v first.2⟩, inert_encodedEntries es rest⟩

end

end Value

namespace Encoding

open Value

variable {h : Heap} {visit : Address → Except Failure Value} {byId : Bool}

mutual

/-- What leads to no object has its raw form whatever entities tell. -/
theorem encodeWith_of_inert : (v : Value) → v.Inert → encodeWith h visit byId v = .ok v.encoded
  | .object a, hv => absurd rfl (hv.ne_object a)
  | .list xs, hv => by
    rw [encodeWith, encodeItems_of_inert xs (inert_list_iff.1 hv)]
    rfl
  | .tuple xs, hv => by
    rw [encodeWith, encodeItems_of_inert xs (inert_tuple_iff.1 hv)]
    rfl
  | .dict es, hv => by
    rw [encodeWith, encodeEntries_of_inert es (inert_dict_iff.1 hv)]
    rfl
  | .ordered es, hv => by
    rw [encodeWith, encodeEntries_of_inert es (inert_ordered_iff.1 hv)]
    rfl
  | .null, _ | .bool _, _ | .int _, _ | .float _, _ | .nan _, _ | .str _, _ | .bytes _, _
  | .set _, _ | .date _, _ | .moment _, _ | .stamp _, _ | .zone _, _ | .function _, _
  | .method _ _, _ | .cls _, _ | .checker _ _, _ | .store _, _ | .thing _, _ => rfl

theorem encodeItems_of_inert : (xs : List Value) → (∀ x ∈ xs, x.Inert) →
    encodeItems h visit byId xs = .ok (encodedItems xs)
  | [], _ => rfl
  | x :: xs, hx => by
    obtain ⟨first, rest⟩ := List.forall_mem_cons.1 hx
    rw [encodeItems, encodeWith_of_inert x first, encodeItems_of_inert xs rest]
    rfl

theorem encodeEntries_of_inert : (es : Entries) → (∀ e ∈ es, e.1.Inert ∧ e.2.Inert) →
    encodeEntries h visit byId es = .ok (encodedEntries es)
  | [], _ => rfl
  | (k, v) :: es, he => by
    obtain ⟨first, rest⟩ := List.forall_mem_cons.1 he
    rw [encodeEntries, encodeWith_of_inert v first.2, encodeEntries_of_inert es rest]
    rfl

end

end Encoding

/-- Data are their own raw form. -/
theorem Value.encoded_of_isData {v : Value} (hv : v.IsData) : v.encoded = v := by
  have told : Encoding.encodeWith [] (fun _ => .ok .null) false v = .ok v.encoded :=
    Encoding.encodeWith_of_inert v hv.inert
  rw [Encoding.encodeWith_of_isData hv] at told
  exact (Except.ok.inj told).symm

/-! ### Whole trees -/

/-- A tree that tells all: no leaf of it leads to an object. -/
inductive Tree.Whole (g : Catalog) : Tree → Prop
  | leaf {v : Value} : v.Inert → Whole g (.leaf v)
  | entity {cls : ClassId} {id : Value} {pending : Entries} {fields : String → Tree} : id.Inert →
      (Value.dict pending).Inert → (∀ f ∈ g.schemaOf cls, Whole g (fields f.1)) →
      Whole g (.entity cls id pending fields)
  | array {ts : List Tree} : (∀ t ∈ ts, Whole g t) → Whole g (.array ts)
  | dictionary {keys : List Value} {ts : List Tree} : (∀ k ∈ keys, k.Inert) →
      (∀ t ∈ ts, Whole g t) → Whole g (.dictionary keys ts)

/-- What is put aside of inert data is inert. -/
theorem Construction.inert_asideEntries {data : Entries} (hdata : (Value.dict data).Inert)
    (fs : Schema) : (Value.dict (asideEntries data fs)).Inert := by
  refine Value.inert_dict_iff.2 fun e he => ?_
  obtain ⟨p, hp, rfl⟩ := List.mem_map.1 he
  refine ⟨Value.inert_str p.1, ?_⟩
  rw [(name_of_mem_putAside hp).2]
  exact Value.inert_getStr hdata p.1

section

variable {g : Catalog} {enter seek : ClassId → Value → Option Tree}

/-- The tree of what a checker makes of an inert raw value tells all, if the trees of
entities do. -/
theorem Checker.whole_of_treeWith
    (henter : ∀ cls x t, x.Inert → enter cls x = some t → t.Whole g)
    (hseek : ∀ cls id t, id.Inert → seek cls id = some t → t.Whole g) : (c : Checker) →
    (raw : Value) → raw.Inert → ∀ t, treeWith g enter seek c raw = some t → t.Whole g
  | .scalar _ _ _, raw, hraw, t, ht | .shape _ _, raw, hraw, t, ht => by
    cases ht
    exact .leaf hraw
  | .date r, raw, hraw, t, ht => by
    obtain ⟨v, hv, ht⟩ := Option.bind_eq_some_iff.1 ht
    cases ht
    exact .leaf (hraw.toMoment (toOption_eq_some_iff.1 hv))
  | .reference target e r, raw, hraw, t, ht => by
    rw [treeWith] at ht
    split at ht
    · rw [fetchTree] at ht
      split at ht
      · obtain ⟨cls, -, ht⟩ := Option.bind_eq_some_iff.1 ht
        exact hseek cls _ t (inert_identifierIn hraw) ht
      · cases ht
        exact .leaf Value.inert_null
    · rw [enterTree] at ht
      split at ht
      · cases ht
        exact .leaf Value.inert_null
      · obtain ⟨cls, -, ht⟩ := Option.bind_eq_some_iff.1 ht
        exact henter cls raw t hraw ht
  | .arrayOf c r, raw, hraw, t, ht => by
    rw [treeWith_arrayOf] at ht
    obtain ⟨items, hitems, ht⟩ := Option.bind_eq_some_iff.1 ht
    obtain ⟨ts, hts, ht⟩ := Option.bind_eq_some_iff.1 ht
    cases ht
    obtain ⟨size, told⟩ := mapM_eq_some_iff.1 hts
    refine .array fun u hu => ?_
    obtain ⟨x, hx⟩ := exists_mem_zip_of_mem_right size hu
    exact whole_of_treeWith henter hseek c x
      (inert_of_itemsOf hraw (toOption_eq_some_iff.1 hitems) x (List.of_mem_zip hx).1) u (told _ hx)
  | .dictOf c r, raw, hraw, t, ht => by
    rw [treeWith_dictOf] at ht
    obtain ⟨es, hes, ht⟩ := Option.bind_eq_some_iff.1 ht
    obtain ⟨ts, hts, ht⟩ := Option.bind_eq_some_iff.1 ht
    cases ht
    obtain ⟨size, told⟩ := mapM_eq_some_iff.1 hts
    have inert := Value.inert_dict_iff.1 (inert_of_entriesOf hraw (toOption_eq_some_iff.1 hes))
    refine .dictionary (fun k hk => ?_) fun u hu => ?_
    · obtain ⟨p, hp, rfl⟩ := List.mem_map.1 hk
      exact (inert p hp).1
    · obtain ⟨x, hx⟩ := exists_mem_zip_of_mem_right size hu
      obtain ⟨p, hmem, rfl⟩ := List.mem_map.1 (List.of_mem_zip hx).1
      exact whole_of_treeWith henter hseek c p.2 (inert p hmem).2 u (told _ hx)

namespace Catalog

/-- The tree of an entity that is constructed from an inert raw value tells all. -/
theorem whole_of_built (hg : g.WellFormed) : ∀ (fuel : Nat) {cls : ClassId}
    {raw : Value} {t : Tree}, raw.Inert → g.built fuel cls raw = some t → t.Whole g
  | 0, _, _, _, _, ht => nomatch ht
  | fuel + 1, cls, raw, t, hraw, ht => by
    obtain ⟨data, trees, hdata, htrees, rfl⟩ := built_succ_eq_some.1 ht
    have inert := Construction.inert_of_entriesOf hraw hdata
    refine .entity (Value.inert_getStr inert idField) (Construction.inert_asideEntries inert _) ?_
    intro f hf
    have field := eq_of_fieldTrees (hg.nodup cls) htrees f hf
    unfold builtField at field
    split at field
    · rw [← Option.some.inj field]
      exact .leaf Value.inert_null
    · split at field
      · exact Checker.whole_of_treeWith (fun c x t hx => whole_of_built hg fuel hx)
          (fun _ _ _ _ hnone => absurd hnone (Option.some_ne_none _).symm) f.2 _
          (Value.inert_getStr inert f.1) _ field
      · rw [← Option.some.inj field]
        exact .leaf (Value.inert_getStr inert f.1)

/-- The tree of an entity that is loaded from an inert raw value tells all, if no record that is
found leads to an object. -/
theorem whole_of_loaded (hg : g.WellFormed) {look : Lookups}
    (inert : ∀ cls id es, look cls id = some es → (Value.dict es).Inert) : ∀ (fuel : Nat)
    {cls : ClassId} {raw : Value} {t : Tree}, raw.Inert → g.loaded look fuel cls raw = some t →
      t.Whole g
  | 0, _, _, _, _, ht => nomatch ht
  | fuel + 1, cls, raw, t, hraw, ht => by
    obtain ⟨data, trees, hdata, htrees, rfl⟩ := loaded_succ_eq_some.1 ht
    have parts := Construction.inert_of_entriesOf hraw hdata
    refine .entity (Value.inert_getStr parts idField)
      (Value.inert_dict_iff.2 (List.forall_mem_nil _))
      ?_
    intro f hf
    obtain ⟨-, field⟩ := (loadedField_eq_some hdata).1 (eq_of_fieldTrees (hg.nodup cls) htrees f hf)
    split at field
    · refine Checker.whole_of_treeWith (fun c x t hx => whole_of_loaded hg inert fuel hx) ?_ f.2 _
        (Value.inert_getStr parts f.1) _ field
      intro c id u _ hu
      unfold foundWith at hu
      split at hu
      · cases hu
        exact .leaf Value.inert_null
      · next es hes => exact whole_of_loaded hg inert fuel (inert c id es hes) hu
    · rw [field]
      exact .leaf (Value.inert_getStr parts f.1)

end Catalog

end

/-! ### Raw forms of trees -/

/-- Whether a tree is that of the absent value. -/
def Tree.isAbsent : Tree → Bool
  | .leaf v => v.isNull
  | _ => false

/-- Whether a class defers a field. -/
def Catalog.defers (g : Catalog) (cls : ClassId) (name : String) : Bool :=
  ((Table.get? (g.schemaOf cls) name).map Checker.deferred).getD false

/-- The raw value of a field: what is put aside for it if it is absent, else its raw form. -/
def Tree.fieldForm (pending : Entries) (name : String) (t : Tree) (form : Value) : Value :=
  if t.isAbsent then (Entries.getStr? pending name).getD form else form

mutual

/-- The raw form of a tree, where an entity tells its raw data or, with `byId`, its identifier. -/
def Tree.form (g : Catalog) (byId : Bool) : Tree → Value
  | .leaf v => v.encoded
  | .entity cls id pending fields =>
    if byId then .dict [(.str idField, id)]
    else .dict (rawEntries id (Table.names (g.schemaOf cls)) fun name =>
      Tree.fieldForm pending name (fields name) (form g (g.defers cls name) (fields name)))
  | .array ts => .list (forms g byId ts)
  | .dictionary keys ts => .dict (keys.zip (forms g byId ts))
termination_by structural t => t

/-- The raw forms of a list of trees. -/
def Tree.forms (g : Catalog) (byId : Bool) : List Tree → List Value
  | [] => []
  | t :: ts => form g byId t :: forms g byId ts
termination_by structural ts => ts

end

/-- The raw form of an entity is a dictionary. -/
theorem Tree.exists_form_entity (g : Catalog) (cls : ClassId) (id : Value) (pending : Entries)
    (fields : String → Tree) :
    ∃ form, (Tree.entity cls id pending fields).form g false = .dict form := by
  rw [form, if_neg Bool.false_ne_true]
  exact ⟨_, rfl⟩

theorem Tree.forms_eq_map (g : Catalog) (byId : Bool) (ts : List Tree) :
    Tree.forms g byId ts = ts.map (Tree.form g byId) := by
  induction ts with
  | nil => rfl
  | cons t ts ih => rw [forms, ih, List.map_cons]

/-- What raw data of an entity lead to, the identifier leads to or a field. -/
theorem exists_of_leadsTo_rawEntries {id : Value} {names : List String} {w : String → Value}
    {b : Address} (hb : (Value.dict (rawEntries id names w)).LeadsTo b) :
    id.LeadsTo b ∨ ∃ name ∈ names, (w name).LeadsTo b := by
  have entry : ∀ e ∈ rawEntries id names w, e.1.Inert ∧
      (e.2 = id ∨ ∃ name ∈ names, e.2 = w name) := by
    intro e he
    rcases List.mem_append.1 he with he | he
    · unfold idEntries at he
      split at he
      · cases he
      · cases List.mem_singleton.1 he
        exact ⟨Value.inert_str _, .inl rfl⟩
    · obtain ⟨name, hname, rfl⟩ := List.mem_map.1 he
      exact ⟨Value.inert_str _, .inr ⟨name, hname, rfl⟩⟩
  cases hb with
  | dictKey he hb => exact absurd hb ((entry _ he).1 b)
  | dict he hb =>
    rcases (entry _ he).2 with heq | ⟨name, hname, heq⟩
    · exact .inl (heq ▸ hb)
    · exact .inr ⟨name, hname, heq ▸ hb⟩

/-- The raw data of an entity lead to no object if its identifier and its fields do not. -/
theorem inert_rawEntries {id : Value} {names : List String} {w : String → Value} (hid : id.Inert)
    (hw : ∀ name ∈ names, (w name).Inert) : (Value.dict (rawEntries id names w)).Inert := by
  intro b hb
  rcases exists_of_leadsTo_rawEntries hb with hb | ⟨name, hname, hb⟩
  · exact hid b hb
  · exact hw name hname b hb

/-- The raw form of a tree that tells all leads to no object. -/
theorem Tree.Whole.inert_form {g : Catalog} {t : Tree} (whole : t.Whole g) (byId : Bool) :
    (t.form g byId).Inert := by
  induction whole generalizing byId with
  | leaf hv => exact Value.inert_encoded _ hv
  | @entity cls id pending fields hid hp _ ih =>
    rw [Tree.form]
    split
    · exact Value.inert_dict_iff.2 (List.forall_mem_singleton.2 ⟨Value.inert_str _, hid⟩)
    · refine inert_rawEntries hid fun name hname => ?_
      obtain ⟨f, hf, rfl⟩ := List.mem_map.1 hname
      unfold Tree.fieldForm
      split
      · cases hget : Entries.getStr? pending f.1 with
        | none => exact ih f hf _
        | some x =>
          have there := Value.inert_getStr hp f.1
          rwa [Entries.getStr, hget] at there
      · exact ih f hf _
  | array _ ih =>
    rw [Tree.form, Tree.forms_eq_map]
    exact Value.inert_list_iff.2 (List.forall_mem_map.2 fun t ht => ih t ht byId)
  | dictionary hk _ ih =>
    rw [Tree.form, Tree.forms_eq_map]
    refine Value.inert_dict_iff.2 fun e he => ?_
    obtain ⟨key, form⟩ := List.of_mem_zip he
    obtain ⟨t, ht, heq⟩ := List.mem_map.1 form
    exact ⟨hk _ key, heq ▸ ih t ht byId⟩

theorem Table.get?_of_mem {α : Type} {t : Table α} (hn : (Table.names t).Nodup) {p : String × α}
    (hp : p ∈ t) : Table.get? t p.1 = some p.2 := by
  induction t with
  | nil => cases hp
  | cons q t ih =>
    obtain ⟨fresh, nodup⟩ := List.nodup_cons.1 hn
    rcases List.mem_cons.1 hp with rfl | hp
    · exact if_pos rfl
    · have other : q.1 ≠ p.1 := fun heq => fresh (heq ▸ List.mem_map_of_mem hp)
      exact (if_neg other).trans (ih nodup hp)

theorem Catalog.defers_of_mem {g : Catalog} (hg : g.WellFormed) {cls : ClassId}
    {f : String × Checker} (hf : f ∈ g.schemaOf cls) : g.defers cls f.1 = f.2.deferred := by
  rw [defers, Table.get?_of_mem (hg.nodup cls) hf]
  rfl

namespace Heap

open Encoding

variable {g : Catalog} {h : Heap} {v : Value} {t : Tree}

theorem Reads.isNull (hr : Reads g h v t) : v.isNull = t.isAbsent := by
  cases hr <;> rfl

/-- No entity in what reads as a whole tree contains itself. -/
theorem Reads.selfFree (hg : g.WellFormed) (hr : Reads g h v t) (whole : t.Whole g) :
    SelfFree g h v := by
  induction hr with
  | leaf v =>
    cases whole with
    | leaf inert => exact .of_inert inert
  | @entity a cls id pending v fields hc _ ih =>
    cases whole with
    | entity hid hpending hfields =>
      have held : ∀ name ∈ Table.names (g.schemaOf cls), SelfFree g h (v name) := by
        intro name hname
        obtain ⟨f, hf, rfl⟩ := List.mem_map.1 hname
        exact ih f.1 hname (hfields f hf)
      exact SelfFree.of_cell hg hc (.of_inert hid) (.of_inert hpending) held
  | array hlen _ ih =>
    cases whole with
    | array items =>
      refine selfFree_list fun x hx => ?_
      obtain ⟨u, hu⟩ := exists_mem_zip_of_mem_left hlen hx
      exact ih (x, u) hu (items u (List.of_mem_zip hu).2)
  | dictionary hlen _ ih =>
    cases whole with
    | dictionary keys items =>
      refine selfFree_dict (fun e he => keys e.1 (List.mem_map_of_mem he)) fun e he => ?_
      have mem := List.mem_map_of_mem (f := Prod.snd) he
      obtain ⟨u, hu⟩ := exists_mem_zip_of_mem_left (by simpa using hlen) mem
      exact ih (e.2, u) hu (items u (List.of_mem_zip hu).2)

/-- The raw form of a field of an entity, by the raw form of what it holds. -/
theorem encodeField_of_form (hg : g.WellFormed) {a : Address} {cls : ClassId} {id : Value}
    {pending : Entries} {v : String → Value} {visit : Address → Except Failure Value}
    (hc : get h a = Cell.ofFields cls id pending (Table.names (g.schemaOf cls)) v)
    {f : String × Checker} (hf : f ∈ g.schemaOf cls) (hr : Reads g h (v f.1) t) {form : Value}
    (told : encodeWith h visit f.2.deferred (v f.1) = .ok form) :
    encodeField g h visit a (.str f.1, .checker f.2) =
      .ok (.str f.1, Tree.fieldForm pending f.1 t form) := by
  rw [encodeField_told hg hc hf told, hr.isNull]
  rfl

/-- **What reads as a whole tree has the raw form of the tree.** -/
theorem Reads.encode (hg : g.WellFormed) (hr : Reads g h v t) (whole : t.Whole g) (byId : Bool) :
    encodeWith h (Method.toRaw g h) byId v = .ok (t.form g byId) := by
  induction hr generalizing byId with
  | leaf v =>
    cases whole with
    | leaf inert => exact encodeWith_of_inert v inert
  | @entity a cls id pending v fields hc hfields ih =>
    have free : SelfFree g h (.object a) := (Reads.entity hc hfields).selfFree hg whole
    cases whole with
    | entity hid hpending wholes =>
      rw [encodeWith, isEntity_of_cell hc, if_pos rfl, Tree.form]
      cases byId with
      | true =>
        rw [if_pos rfl, if_pos rfl, identifierOnly, hc]
        rfl
      | false =>
        refine toRaw_of_cell hg hc free fun f hf => ?_
        have hname : f.1 ∈ Table.names (g.schemaOf cls) := List.mem_map_of_mem hf
        rw [Catalog.defers_of_mem hg hf]
        exact encodeField_of_form hg hc hf (hfields f.1 hname) (ih f.1 hname (wholes f hf) _)
  | @array xs ts hlen _ ih =>
    cases whole with
    | array items =>
      have told : encodeItems h (Method.toRaw g h) byId xs = .ok (ts.map (Tree.form g byId)) := by
        refine encodeItems_of_zip (by simpa using hlen) fun p hp => ?_
        rw [List.zip_map_right] at hp
        obtain ⟨q, hq, rfl⟩ := List.mem_map.1 hp
        exact ih q hq (items q.2 (List.of_mem_zip hq).2) byId
      rw [encodeWith, told, Tree.form, Tree.forms_eq_map]
      rfl
  | @dictionary es ts hlen _ ih =>
    cases whole with
    | dictionary keys items =>
      have size : (es.map Prod.snd).length = (ts.map (Tree.form g byId)).length :=
        by simpa using hlen
      have told :
        encodeEntries h (Method.toRaw g h) byId ((es.map Prod.fst).zip (es.map Prod.snd)) =
          .ok ((es.map Prod.fst).zip (ts.map (Tree.form g byId))) := by
        refine encodeEntries_of_zip size fun p hp => ?_
        rw [List.zip_map_right] at hp
        obtain ⟨q, hq, rfl⟩ := List.mem_map.1 hp
        exact ih q hq (items q.2 (List.of_mem_zip hq).2) byId
      rw [← List.zip_of_prod rfl rfl] at told
      rw [encodeWith, told, Tree.form, Tree.forms_eq_map]
      rfl

/-- **An entity that reads as a whole tree tells the raw form of the tree.** -/
theorem Reads.toRaw (hg : g.WellFormed) {a : Address} {cls : ClassId} {id : Value}
    {pending : Entries}
    {fields : String → Tree} (hr : Reads g h (.object a) (.entity cls id pending fields))
    (whole : (Tree.entity cls id pending fields).Whole g) :
    Method.toRaw g h a = .ok ((Tree.entity cls id pending fields).form g false) := by
  have told := hr.encode hg whole false
  cases hr with
  | entity hc => rwa [encodeWith, isEntity_of_cell hc] at told

end Heap

end EntitySchema
