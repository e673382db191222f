/-
**What lasts when the heap grows.**

New cells do not change the cells that were there.  So where no cell leads out of the heap, a value
holds in every larger heap what it held, no object comes to contain itself, and what entities tell
as their raw data stays what it is.

An entity tells its raw data if it is made as entities are, with an attribute for each field of its
schema, and nothing in it contains itself.  What it tells leads to nothing that it does not hold.

Main definitions:

* `Heap.Made`, `Heap.Proper` — a value whose entities are made as entities are, whatever their
  fields hold; a value that is in order;
* `Heap.Tells`, `Heap.HasForm` — **the raw form that a value goes on telling**.

Main results:

* `Heap.Holds.of_extended`, `Heap.SelfFree.of_extended` — what new cells do not change;
* `Heap.Proper.hasForm` — **what is in order has a raw form that lasts.**
-/

import EntitySchema.Proofs.Boundaries
import EntitySchema.Proofs.Copying
import EntitySchema.Proofs.RawForm

set_option autoImplicit false

namespace EntitySchema

namespace Heap

variable {g : Catalog} {h h' : Heap} {v : Value} {a b : Address}

/-! ### What is held -/

theorem Holds.lt (sound : h.Sound) (covers : h.Covers v) (hb : h.Holds v b) : b < h.length := by
  induction hb with
  | direct ha => exact covers _ ha
  | through _ hp hl _ => exact sound _ _ hp _ hl

/-- What a value holds, it held before the heap grew. -/
theorem Holds.of_extended (sound : h.Sound) (covers : h.Covers v) (grown : h <+: h')
    (hb : h'.Holds v b) : h.Holds v b := by
  induction hb with
  | direct ha => exact .direct ha
  | through _ hp hl ih =>
    rw [get_of_extended grown (ih.lt sound covers)] at hp
    exact .through ih hp hl

/-- What an attribute of an object holds, the object holds. -/
theorem holds_of_mem {p : String × Value} (hp : p ∈ (get h a).attributes) (hb : h.Holds p.2 b) :
    h.Holds (.object a) b :=
  hb.of_leads fun _ hc => .through (.direct (.object a)) hp hc

theorem field_of_extended (grown : h <+: h') (ha : a < h.length) (name : String) :
    field g h' a name = field g h a name := by
  simp only [field, objectAttribute?, get_of_extended grown ha]

theorem rules_of_extended (grown : h <+: h') (ha : a < h.length) {rs : List (Value × Rule)}
    (hrs : rules g h' a = .ok rs) : rules g h a = .ok rs := by
  simp only [rules, get_of_extended grown ha] at hrs ⊢
  split at hrs
  · exact hrs
  · cases hrs
  · split at hrs
    · exact hrs
    · cases hrs

/-- What an object contains, it contained before the heap grew. -/
theorem Contains.of_extended (sound : h.Sound) (ha : a < h.length) (grown : h <+: h')
    (hab : Contains g h' a b) : Contains g h a b := by
  obtain ⟨rs, hrs, name, r, hr, hb⟩ := hab
  rw [field_of_extended grown ha] at hb
  have covers : h.Covers (field g h a name) := fun c hc =>
    (holds_of_field (.direct hc) (.direct (.object a))).lt sound fun _ hl => by cases hl; exact ha
  exact ⟨rs, rules_of_extended grown ha hrs, name, r, hr, hb.of_extended sound covers grown⟩

/-- No object comes to contain itself when the heap grows. -/
theorem SelfFree.of_extended (sound : h.Sound) (covers : h.Covers v) (grown : h <+: h')
    (free : SelfFree g h v) : SelfFree g h' v := by
  intro b hb hbb
  have held := hb.of_extended sound covers grown
  exact free b held (hbb.of_extended sound (held.lt sound covers) grown)

/-! ### Raw forms that last -/

/-- A value whose entities are made as entities are: they have an identifier, what is put aside for
deferred fields, and a value for each field.  So construction leaves them, and so they stay when
their fields are given other values. -/
def Made (g : Catalog) (h : Heap) (v : Value) : Prop :=
  ∀ a, h.Holds v a → isEntity h a = true → ∃ cls id pending w,
    get h a = Cell.ofFields cls id pending (Table.names (g.schemaOf cls)) w ∧
    ∀ f ∈ g.schemaOf cls, f.2.deferred = false → Entries.getStr? pending f.1 = none

/-- A value that is in order: no cell leads out of the heap, the entities that it holds are made as
entities are, and none of them contains itself. -/
structure Proper (g : Catalog) (h : Heap) (v : Value) : Prop where
  sound : h.Sound
  covers : h.Covers v
  made : h.Made g v
  free : SelfFree g h v

/-- What leads to nothing that a value in order does not hold is in order. -/
theorem Proper.of_leads (proper : Proper g h v) {w : Value} (hw : ∀ a, w.LeadsTo a → h.Holds v a) :
    Proper g h w where
  sound := proper.sound
  covers a ha := (hw a ha).lt proper.sound proper.covers
  made a ha := proper.made a (ha.of_leads hw)
  free a ha := proper.free a (ha.of_leads hw)

theorem Proper.selfFree (proper : Proper g h v) (grown : h <+: h') : SelfFree g h' v :=
  proper.free.of_extended proper.sound proper.covers grown

/-- The raw form that a value tells, now and when the heap has grown. -/
def Tells (g : Catalog) (h : Heap) (byId : Bool) (v form : Value) : Prop :=
  ∀ h', h <+: h' → Encoding.encodeWith h' (Method.toRaw g h') byId v = .ok form

theorem Tells.mono {byId : Bool} {form : Value} (grown : h <+: h') (tells : Tells g h byId v form) :
    Tells g h' byId v form := fun h'' grown' => tells h'' (grown.trans grown')

/-- A value has a raw form that lasts and leads to nothing that it does not hold. -/
def HasForm (g : Catalog) (h : Heap) (byId : Bool) (v : Value) : Prop :=
  ∃ form, Tells g h byId v form ∧ ∀ b, form.LeadsTo b → h.Holds v b

section

variable {byId : Bool}

mutual

/-- A value has a raw form if the objects that it leads to have one. -/
theorem hasForm_of_leads : (v : Value) → (∀ a, v.LeadsTo a → HasForm g h byId (.object a)) →
    HasForm g h byId v
  | .object a, parts => parts a (.object a)
  | .list xs, parts => by
    obtain ⟨ys, told, leads⟩ := hasForms_of_leads xs fun x hx a ha => parts a (.list hx ha)
    refine ⟨.list ys, fun h' grown => ?_, fun b hb => ?_⟩
    · rw [Encoding.encodeWith, told h' grown]
      rfl
    · cases hb with
      | list hy hb =>
        obtain ⟨x, hx, held⟩ := leads _ hy b hb
        exact held.of_leads fun a ha => .direct (.list hx ha)
  | .tuple xs, parts => by
    obtain ⟨ys, told, leads⟩ := hasForms_of_leads xs fun x hx a ha => parts a (.tuple hx ha)
    refine ⟨.list ys, fun h' grown => ?_, fun b hb => ?_⟩
    · rw [Encoding.encodeWith, told h' grown]
      rfl
    · cases hb with
      | list hy hb =>
        obtain ⟨x, hx, held⟩ := leads _ hy b hb
        exact held.of_leads fun a ha => .direct (.tuple hx ha)
  | .dict es, parts => by
    -- keys are told as they are, so they lead where they led
    obtain ⟨fs, told, leads⟩ := hasEntries_of_leads es fun e he a ha => parts a (.dict he ha)
    refine ⟨.dict fs, fun h' grown => ?_, fun b hb => ?_⟩
    · rw [Encoding.encodeWith, told h' grown]
      rfl
    · cases hb with
      | dictKey hf hb =>
        obtain ⟨e, he, heq, -⟩ := leads _ hf
        exact .direct (.dictKey he (heq ▸ hb))
      | dict hf hb =>
        obtain ⟨e, he, -, held⟩ := leads _ hf
        exact (held b hb).of_leads fun a ha => .direct (.dict he ha)
  | .ordered es, parts => by
    obtain ⟨fs, told, leads⟩ := hasEntries_of_leads es fun e he a ha => parts a (.ordered he ha)
    refine ⟨.dict fs, fun h' grown => ?_, fun b hb => ?_⟩
    · rw [Encoding.encodeWith, told h' grown]
      rfl
    · cases hb with
      | dictKey hf hb =>
        obtain ⟨e, he, heq, -⟩ := leads _ hf
        exact .direct (.orderedKey he (heq ▸ hb))
      | dict hf hb =>
        obtain ⟨e, he, -, held⟩ := leads _ hf
        exact (held b hb).of_leads fun a ha => .direct (.ordered he ha)
  | .date d, _ => ⟨_, fun _ _ => rfl, fun b hb => absurd hb (Value.inert_str _ b)⟩
  | .moment m, _ => ⟨_, fun _ _ => rfl, fun b hb => absurd hb (Value.inert_str _ b)⟩
  | .stamp m, _ => ⟨_, fun _ _ => rfl, fun b hb => absurd hb (Value.inert_str _ b)⟩
  | .null, _ | .bool _, _ | .int _, _ | .float _, _ | .nan _, _ | .str _, _ | .bytes _, _
  | .set _, _ | .zone _, _ | .function _, _ | .method _ _, _ | .cls _, _ | .checker _ _, _
  | .store _, _ | .thing _, _ => ⟨_, fun _ _ => rfl, fun _ hb => .direct hb⟩
termination_by structural v => v

theorem hasForms_of_leads : (xs : List Value) →
    (∀ x ∈ xs, ∀ a, x.LeadsTo a → HasForm g h byId (.object a)) → ∃ ys,
      (∀ h', h <+: h' → Encoding.encodeItems h' (Method.toRaw g h') byId xs = .ok ys) ∧
      ∀ y ∈ ys, ∀ b, y.LeadsTo b → ∃ x ∈ xs, h.Holds x b
  | [], _ => ⟨[], fun _ _ => rfl, List.forall_mem_nil _⟩
  | x :: xs, parts => by
    obtain ⟨first, rest⟩ := List.forall_mem_cons.1 parts
    obtain ⟨y, hy, leads⟩ := hasForm_of_leads x first
    obtain ⟨ys, hys, leads'⟩ := hasForms_of_leads xs rest
    refine ⟨y :: ys, fun h' grown => ?_,
      List.forall_mem_cons.2 ⟨fun b hb => ?_, fun z hz b hb => ?_⟩⟩
    · rw [Encoding.encodeItems, hy h' grown, hys h' grown]
      rfl
    · exact ⟨x, List.mem_cons_self .., leads b hb⟩
    · obtain ⟨u, hu, held⟩ := leads' z hz b hb
      exact ⟨u, List.mem_cons_of_mem x hu, held⟩
termination_by structural xs => xs

theorem hasEntries_of_leads : (es : Entries) →
    (∀ e ∈ es, ∀ a, e.2.LeadsTo a → HasForm g h byId (.object a)) → ∃ fs,
      (∀ h', h <+: h' → Encoding.encodeEntries h' (Method.toRaw g h') byId es = .ok fs) ∧
      ∀ f ∈ fs, ∃ e ∈ es, f.1 = e.1 ∧ ∀ b, f.2.LeadsTo b → h.Holds e.2 b
  | [], _ => ⟨[], fun _ _ => rfl, List.forall_mem_nil _⟩
  | (k, x) :: es, parts => by
    obtain ⟨first, rest⟩ := List.forall_mem_cons.1 parts
    obtain ⟨y, hy, leads⟩ := hasForm_of_leads x first
    obtain ⟨fs, hfs, leads'⟩ := hasEntries_of_leads es rest
    refine ⟨(k, y) :: fs, fun h' grown => ?_, List.forall_mem_cons.2
      ⟨⟨(k, x), List.mem_cons_self .., rfl, leads⟩, fun f hf => ?_⟩⟩
    · rw [Encoding.encodeEntries, hy h' grown, hfs h' grown]
      rfl
    · obtain ⟨e, he, heq, held⟩ := leads' f hf
      exact ⟨e, List.mem_cons_of_mem _ he, heq, held⟩
termination_by structural es => es

end

end

/-! ### Raw data that last -/

section

variable {cls : ClassId} {id : Value} {pending : Entries} {w r : String → Value} (hg : g.WellFormed)
  (hc : get h a = Cell.ofFields cls id pending (Table.names (g.schemaOf cls)) w)

include hc

theorem lt_of_cell : a < h.length := lt_of_isEntity (isEntity_of_cell hc)

theorem cell_of_extended (grown : h <+: h') :
    get h' a = Cell.ofFields cls id pending (Table.names (g.schemaOf cls)) w :=
  (get_of_extended grown (lt_of_cell hc)).trans hc

/-- What the identifier of an entity leads to, the entity holds. -/
theorem holds_of_id (hb : id.LeadsTo b) : h.Holds (.object a) b := by
  refine .through (p := (idField, id)) (.direct (.object a)) ?_ hb
  rw [hc]
  exact List.mem_cons_self ..

/-- What is put aside for a field of an entity, the entity holds. -/
theorem holds_of_pending {name : String} {x : Value} (hx : Entries.getStr? pending name = some x)
    (hb : x.LeadsTo b) : h.Holds (.object a) b := by
  refine .through (p := (pendingField, .dict pending)) (.direct (.object a)) ?_ ?_
  · rw [hc]
    exact List.mem_cons_of_mem _ (List.mem_cons_self ..)
  · obtain ⟨e, he, rfl⟩ := Option.map_eq_some_iff.1 hx
    exact .dict (List.mem_of_find?_eq_some he) hb

/-- What the value of a field of an entity holds, the entity holds. -/
theorem holds_of_value {name : String} (hname : name ∈ Table.names (g.schemaOf cls))
    (hb : h.Holds (w name) b) : h.Holds (.object a) b := by
  refine holds_of_mem (p := (name, w name)) ?_ hb
  rw [hc]
  exact List.mem_cons_of_mem _ (List.mem_cons_of_mem _ (List.mem_map_of_mem hname))

include hg

/-- What the value of a field of an entity holds, the entity contains. -/
theorem contains_of_value {f : String × Checker} (hf : f ∈ g.schemaOf cls)
    (hb : h.Holds (w f.1) b) :
    Contains g h a b := by
  have hname : f.1 ∈ Table.names (g.schemaOf cls) := List.mem_map_of_mem hf
  refine ⟨_, rules_of_cell hg hc, f.1, .checker f.2, List.mem_map_of_mem hf, ?_⟩
  rwa [field_of_cell hg hc hname]

/-- The raw data of an entity last if the raw forms of its fields do. -/
theorem tells_of_cell (free : ∀ h', h <+: h' → SelfFree g h' (.object a))
    (fields : ∀ f ∈ g.schemaOf cls, ∀ h', h <+: h' → Encoding.encodeField g h' (Method.toRaw g h') a
      (.str f.1, .checker f.2) = .ok (.str f.1, r f.1)) :
    Tells g h false (.object a) (.dict (rawEntries id (Table.names (g.schemaOf cls)) r)) := by
  intro h' grown
  have hc' := cell_of_extended hc grown
  rw [Encoding.encodeWith, isEntity_of_cell hc']
  exact toRaw_of_cell hg hc' (free h' grown) fun f hf => fields f hf h' grown

/-- An entity has raw data that last if what its fields hold has raw forms that do. -/
theorem hasForm_of_cell (free : ∀ h', h <+: h' → SelfFree g h' (.object a))
    (fields : ∀ f ∈ g.schemaOf cls, HasForm g h f.2.deferred (w f.1)) :
    HasForm g h false (.object a) := by
  obtain ⟨form, hform⟩ := Catalog.exists_named (hg.nodup cls) fields
  generalize hr : (fun name =>
    if (w name).isNull then (Entries.getStr? pending name).getD (form name) else form name) = r
  refine ⟨_, tells_of_cell hg hc free (r := r) fun f hf h' grown => ?_, fun b hb => ?_⟩
  · rw [Encoding.encodeField_told hg (cell_of_extended hc grown) hf ((hform f hf).1 h' grown), ← hr]
  · rcases exists_of_leadsTo_rawEntries hb with hb | ⟨name, hname, hb⟩
    · exact holds_of_id hc hb
    · obtain ⟨f, hf, rfl⟩ := List.mem_map.1 hname
      have told : (form f.1).LeadsTo b → h.Holds (.object a) b := fun hb =>
        holds_of_value hc hname ((hform f hf).2 b hb)
      rw [← hr] at hb
      dsimp only at hb
      split at hb
      · cases hx : Entries.getStr? pending f.1 with
        | none =>
          rw [hx] at hb
          exact told hb
        | some x =>
          rw [hx] at hb
          exact holds_of_pending hc hx hb
      · exact told hb

end

/-- **What is in order has a raw form that lasts.** -/
theorem Proper.hasForm (hg : g.WellFormed) (proper : Proper g h v) (byId : Bool) :
    HasForm g h byId v := by
  have objects : ∀ a, h.Holds v a → ∀ byId, HasForm g h byId (.object a) := by
    intro a ha
    refine proper.free.induction (P := fun a => ∀ byId, HasForm g h byId (.object a)) ?_ ha
    intro a ha ih byId
    have here : Proper g h (.object a) := proper.of_leads fun c hc => by cases hc; exact ha
    have lt := here.covers a (.object a)
    cases entity : isEntity h a with
    | false =>
      refine ⟨.object a, fun h' grown => ?_, fun b hb => .direct hb⟩
      have plain : isEntity h' a = false := by
        rwa [isEntity, get_of_extended grown lt]
      rw [Encoding.encodeWith, plain]
      rfl
    | true =>
      obtain ⟨cls, id, pending, w, hc, -⟩ := proper.made a ha entity
      cases byId with
      | true =>
        refine ⟨.dict [(.str idField, id)], fun h' grown => ?_, fun b hb => ?_⟩
        · rw [Encoding.encodeWith, isEntity_of_cell (cell_of_extended hc grown), if_pos rfl,
            if_pos rfl,
            Encoding.identifierOnly, cell_of_extended hc grown]
          rfl
        · cases hb with
          | dictKey he hb =>
            cases List.mem_singleton.1 he
            exact absurd hb (Value.inert_str _ b)
          | dict he hb =>
            cases List.mem_singleton.1 he
            exact holds_of_id hc hb
      | false =>
        refine hasForm_of_cell hg hc (fun h' grown => here.selfFree grown) fun f hf =>
          hasForm_of_leads (w f.1) fun c hl => ?_
        exact ih c (contains_of_value hg hc hf (.direct hl)) _
  exact hasForm_of_leads v fun a ha => objects a (.direct ha) byId

end Heap

end EntitySchema
