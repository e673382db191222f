/-
**Whether construction succeeds does not depend on what was constructed before.**

What is made of a raw value may be made after other things were, when objects were added to the
heap.  Construction looks only at the objects that the raw value leads to, so if it succeeds at once
it succeeds later, and if it fails at once it fails later.  Of several raw values, each made after
those before it, all are made just if each could be made alone.

Main definitions:

* `Build.Succeeds`, `Build.Fails` — a computation that succeeds on every larger heap, or on none;
* `Build.Firm` — **a computation whose success does not depend on what is added to the heap.**

Main results:

* `Build.mapM_cases`, `Build.forall₂_of_mapM` — several firm computations succeed together just if
  each does, and each makes its part;
* `Checker.firm_decodeWith`, `Construction.firm_ofEntries` — decoding and construction are firm;
* `Construction.firm_decode` — **so is what a checker makes at once.**
-/

import EntitySchema.Proofs.Assigning
import EntitySchema.Proofs.BuildingTrees
import EntitySchema.Proofs.Frames

set_option autoImplicit false

namespace EntitySchema

namespace Build

variable {α β : Type}

/-- A computation that succeeds on every heap that extends a given one, and only adds to it. -/
def Succeeds (h₀ : Heap) (b : Build α) : Prop :=
  ∀ h, h₀ <+: h → ∃ x h', b h = .ok (x, h') ∧ h <+: h'

/-- A computation that fails on every heap that extends a given one. -/
def Fails (h₀ : Heap) (b : Build α) : Prop := ∀ h, h₀ <+: h → ∃ e, b h = .error e

/-- A computation whose success does not depend on what is added to the heap. -/
def Firm (h₀ : Heap) (b : Build α) : Prop := b.Succeeds h₀ ∨ b.Fails h₀

variable {h₀ : Heap} {x : Build α} {f : α → Build β}

theorem succeeds_pure (a : α) : Succeeds h₀ (pure a) := fun h _ => ⟨a, h, rfl, List.prefix_rfl⟩

theorem fails_throw (e : Failure) : Fails h₀ (throw e : Build α) := fun _ _ => ⟨e, rfl⟩

theorem Succeeds.bind (hx : x.Succeeds h₀) (hf : ∀ a, (f a).Succeeds h₀) :
    (x >>= f).Succeeds h₀ := by
  intro h hle
  obtain ⟨a, h₁, ha, grown⟩ := hx h hle
  obtain ⟨b, h₂, hb, grown'⟩ := hf a h₁ (hle.trans grown)
  refine ⟨b, h₂, ?_, grown.trans grown'⟩
  rw [bind_apply, ha, ok_bind, hb]

theorem Fails.bind (hx : x.Fails h₀) : (x >>= f).Fails h₀ := by
  intro h hle
  obtain ⟨e, he⟩ := hx h hle
  exact ⟨e, by rw [bind_apply, he]; rfl⟩

theorem Succeeds.bind_fails (hx : x.Succeeds h₀) (hf : ∀ a, (f a).Fails h₀) :
    (x >>= f).Fails h₀ := by
  intro h hle
  obtain ⟨a, h₁, ha, grown⟩ := hx h hle
  obtain ⟨e, he⟩ := hf a h₁ (hle.trans grown)
  exact ⟨e, by rw [bind_apply, ha, ok_bind, he]⟩

/-- One computation after another, the success of which does not depend on what the first makes. -/
theorem Firm.bind (hx : x.Firm h₀) (hf : (∀ a, (f a).Succeeds h₀) ∨ ∀ a, (f a).Fails h₀) :
    (x >>= f).Firm h₀ := by
  rcases hx with hx | hx
  · rcases hf with hf | hf
    · exact .inl (hx.bind hf)
    · exact .inr (hx.bind_fails hf)
  · exact .inr hx.bind

theorem Firm.map (hx : x.Firm h₀) (k : α → β) : Firm h₀ (x >>= fun a => pure (k a)) :=
  hx.bind (.inl fun a => succeeds_pure (k a))

/-- A computation that does on every larger heap what a firm one does is firm. -/
theorem Firm.of_apply {b b' : Build α} (hb : b.Firm h₀) (same : ∀ h, h₀ <+: h → b' h = b h) :
    b'.Firm h₀ := by
  refine hb.imp (fun hb h hle => ?_) fun hb h hle => ?_
  · rw [same h hle]
    exact hb h hle
  · rw [same h hle]
    exact hb h hle

/-- Several firm computations, one after the other: all succeed, or one fails and so do they
together. -/
theorem mapM_cases {xs : List α} (hf : ∀ x ∈ xs, (f x).Firm h₀) :
    (xs.mapM f : Build (List β)).Succeeds h₀ ∧ (∀ x ∈ xs, (f x).Succeeds h₀) ∨
      (xs.mapM f : Build (List β)).Fails h₀ ∧ ∃ x ∈ xs, (f x).Fails h₀ := by
  induction xs with
  | nil => exact .inl ⟨succeeds_pure [], List.forall_mem_nil _⟩
  | cons x xs ih =>
    obtain ⟨hx, hxs⟩ := List.forall_mem_cons.1 hf
    rw [List.mapM_cons]
    rcases hx with hx | hx
    · rcases ih hxs with ⟨rest, each⟩ | ⟨rest, y, hy, failing⟩
      · exact .inl ⟨hx.bind fun _ => rest.bind fun _ => succeeds_pure _,
          List.forall_mem_cons.2 ⟨hx, each⟩⟩
      · exact .inr ⟨hx.bind_fails fun _ => rest.bind, y, List.mem_cons_of_mem _ hy, failing⟩
    · exact .inr ⟨hx.bind, x, List.mem_cons_self .., hx⟩

theorem firm_mapM {xs : List α} (hf : ∀ x ∈ xs, (f x).Firm h₀) :
    (xs.mapM f : Build (List β)).Firm h₀ :=
  (mapM_cases hf).imp And.left And.left

/-- What several computations that succeed make, each makes on a heap in between. -/
theorem forall₂_of_mapM {xs : List α} (hf : ∀ x ∈ xs, (f x).Succeeds h₀) {h h' : Heap}
    (hle : h₀ <+: h) {ys : List β} (hm : (xs.mapM f) h = .ok (ys, h')) :
    List.Forall₂ (fun x y => ∃ h₁ h₂, h₀ <+: h₁ ∧ f x h₁ = .ok (y, h₂) ∧ h₂ <+: h') xs ys ∧
      h <+: h' := by
  induction xs generalizing h ys with
  | nil =>
    cases hm
    exact ⟨.nil, List.prefix_rfl⟩
  | cons x xs ih =>
    obtain ⟨hx, hxs⟩ := List.forall_mem_cons.1 hf
    rw [mapM_cons_apply] at hm
    obtain ⟨p, hp, hm⟩ := bind_eq_ok.1 hm
    obtain ⟨q, hq, hm⟩ := bind_eq_ok.1 hm
    cases hm
    obtain ⟨y, h₁, hy, grown⟩ := hx h hle
    cases hp.symm.trans hy
    obtain ⟨rest, grown'⟩ := ih hxs (hle.trans grown) hq
    exact ⟨.cons ⟨h, h₁, hle, hy, grown'⟩ rest, grown.trans grown'⟩

end Build

/-! ### Decoding -/

namespace Heap

variable {h₀ h : Heap} {raw : Value}

/-- The objects that a value leads to are entities as before. -/
theorem Covers.isEntity (covers : h₀.Covers raw) (hle : h₀ <+: h) :
    ∀ a, raw.LeadsTo a → isEntity h a = isEntity h₀ a := fun a ha =>
  isEntity_of_get (get_of_extended hle (covers a ha))

end Heap

namespace Checker

variable {g : Catalog} {h₀ h : Heap} {raw : Value}

/-- What a dictionary is decoded from does not depend on what is added to the heap. -/
theorem entriesOf_of_covers (covers : h₀.Covers raw) (hle : h₀ <+: h) :
    entriesOf h raw = entriesOf h₀ raw := by
  rw [entriesOf, entriesOf, Value.toEntries_congr (covers.isEntity hle)]

/-- What a dictionary is decoded from leads nowhere else. -/
theorem covers_of_entriesOf (covers : h₀.Covers raw) {es : Entries}
    (hes : entriesOf h raw = .ok es) : ∀ e ∈ es, h₀.Covers e.1 ∧ h₀.Covers e.2 := by
  unfold entriesOf at hes
  split at hes
  · cases hes
    exact List.forall_mem_nil _
  · exact covers.toEntries hes

/-- Decoding is firm, if construction of entities is. -/
theorem firm_decodeWith {make : ClassId → Value → Build Value}
    (hmake : ∀ cls x, h₀.Covers x → (make cls x).Firm h₀) : (c : Checker) → (raw : Value) →
      h₀.Covers raw → (decodeWith g make c raw).Firm h₀
  | .scalar _ _ _, raw, _ | .shape _ _, raw, _ => .inl (Build.succeeds_pure raw)
  | .date r, raw, _ => by
    -- the name of an object only occurs in a failure
    cases hv : raw.toMoment fun _ => "" with
    | ok v =>
      refine .inl fun h _ => ⟨v, h, ?_, List.prefix_rfl⟩
      rcases toMoment_cases (Heap.objectName g h) (fun _ => "") raw with ⟨w, hw, hw'⟩ | ⟨-, e, he⟩
      · cases hv.symm.trans hw'
        rw [decodeWith_date, hw, ok_bind]
      · cases hv.symm.trans he
    | error e =>
      refine .inr fun h _ => ?_
      rcases toMoment_cases (Heap.objectName g h) (fun _ => "") raw with ⟨w, -, hw⟩ | ⟨⟨f, hf⟩, -⟩
      · cases hv.symm.trans hw
      · exact ⟨f, by rw [decodeWith_date, hf]; rfl⟩
  | .reference t e r, raw, covers => by
    rw [decodeWith, decodeEntity]
    cases raw.isNull with
    | true => exact .inl (Build.succeeds_pure _)
    | false =>
      rw [if_neg Bool.false_ne_true]
      cases hcls : g.resolve t with
      | error f => exact .inr fun h _ => ⟨f, rfl⟩
      | ok cls =>
        have made := hmake cls raw covers
        cases raw with
        | object a =>
          have same : ∀ h, h₀ <+: h → Heap.isInstance g h a cls = Heap.isInstance g h₀ a cls :=
            fun h hle =>
              Heap.isInstance_of_get (Heap.get_of_extended hle (covers a (.object a))) cls
          cases hi : Heap.isInstance g h₀ a cls with
          | true =>
            have kept : (pure (.object a) : Build Value).Firm h₀ := .inl (Build.succeeds_pure _)
            refine kept.of_apply fun h hle => ?_
            rw [Build.lift_bind_apply, ok_bind, Build.get_bind_apply]
            dsimp only
            rw [same h hle, hi, if_pos rfl]
          | false =>
            refine made.of_apply fun h hle => ?_
            rw [Build.lift_bind_apply, ok_bind, Build.get_bind_apply]
            dsimp only
            rw [same h hle, hi, if_neg Bool.false_ne_true]
        | _ => exact made.of_apply fun h _ => rfl
  | .arrayOf e r, raw, covers => by
    rw [decodeWith]
    cases hitems : itemsOf raw with
    | error f => exact .inr fun h _ => ⟨f, rfl⟩
    | ok items =>
      have parts : ∀ x ∈ items, (decodeWith g make e x).Firm h₀ := by
        intro x hx
        refine firm_decodeWith hmake e x fun a ha => covers a ?_
        rcases itemsOf_cases hitems with rfl | ⟨-, hxs⟩
        · cases hx
        · exact Value.leadsTo_of_items hxs hx ha
      exact ((Build.firm_mapM parts).map Value.list).of_apply fun h _ => rfl
  | .dictOf e r, raw, covers => by
    rw [decodeWith]
    cases hes : entriesOf h₀ raw with
    | error f =>
      refine .inr fun h hle => ⟨f, ?_⟩
      rw [Build.get_bind_apply, Build.lift_bind_apply, entriesOf_of_covers covers hle, hes]
      rfl
    | ok es =>
      have parts : ∀ p ∈ es,
          (do pure (p.1, ← decodeWith g make e p.2) : Build (Value × Value)).Firm h₀ := by
        intro p hp
        exact (firm_decodeWith hmake e p.2 (covers_of_entriesOf covers hes p hp).2).map _
      refine ((Build.firm_mapM parts).map Value.dict).of_apply fun h hle => ?_
      rw [Build.get_bind_apply, Build.lift_bind_apply, entriesOf_of_covers covers hle, hes, ok_bind]

end Checker

/-! ### Construction -/

namespace Construction

variable {g : Catalog} {h₀ h : Heap} {raw : Value}

/-- The dictionary that an entity is constructed from does not depend on what is added to the
heap. -/
theorem entriesOf_of_covers (covers : h₀.Covers raw) (hle : h₀ <+: h) :
    entriesOf h raw = entriesOf h₀ raw := by
  rw [entriesOf, entriesOf, Value.toEntries_congr (covers.isEntity hle)]

/-- Fields are made firmly, if raw values are decoded so. -/
theorem firm_fieldsFrom {decode : Checker → Value → Build Value} {data : Entries}
    (hd : ∀ c raw, h₀.Covers raw → (decode c raw).Firm h₀) (hdata : ∀ e ∈ data, h₀.Covers e.2)
    (fs : Schema) : (fieldsFrom decode data fs).Firm h₀ := by
  induction fs with
  | nil => exact .inl (Build.succeeds_pure _)
  | cons f fs ih =>
    obtain ⟨name, c⟩ := f
    have value : (initialValue decode c (Entries.getStr data name)).Firm h₀ := by
      unfold initialValue
      split
      · exact .inl (Build.succeeds_pure _)
      · split
        · exact hd c _ (Entries.getStr_of_forall (Heap.covers_of_inert Value.inert_null) hdata name)
        · exact .inl (Build.succeeds_pure _)
    rw [fieldsFrom]
    refine value.bind (ih.imp (fun rest v => ?_) fun rest v => rest.bind)
    exact rest.bind fun p => Build.succeeds_pure _

/-- What is made of the dictionary of a raw value is made firmly. -/
theorem firm_entriesOf_bind {make : Entries → Build Value} (covers : h₀.Covers raw)
    (hmake : ∀ es, (∀ e ∈ es, h₀.Covers e.2) → (make es).Firm h₀) :
    (do make (← entriesOf (← get) raw) : Build Value).Firm h₀ := by
  cases hes : entriesOf h₀ raw with
  | error f =>
    refine .inr fun h hle => ⟨f, ?_⟩
    rw [Build.get_bind_apply, Build.lift_bind_apply, entriesOf_of_covers covers hle, hes]
    rfl
  | ok es =>
    refine (hmake es ?_).of_apply fun h hle => ?_
    · unfold entriesOf at hes
      split at hes
      · exact fun e he => (covers.toEntries hes e he).2
      · cases hes
        exact List.forall_mem_nil _
    · rw [Build.get_bind_apply, Build.lift_bind_apply, entriesOf_of_covers covers hle, hes, ok_bind]

/-- **Construction is firm.** -/
theorem firm_ofEntries : (fuel : Nat) → (cls : ClassId) → (data : Entries) →
    (∀ e ∈ data, h₀.Covers e.2) → (ofEntries g fuel cls data).Firm h₀
  | 0, _, _, _ => .inr (Build.fails_throw .endless)
  | fuel + 1, cls, data, hdata => by
    rw [ofEntries]
    have fields := firm_fieldsFrom (fun c raw covers => Checker.firm_decodeWith (g := g)
      (fun cls' x hx => firm_entriesOf_bind hx (firm_ofEntries fuel cls')) c raw covers) hdata
      (g.schemaOf cls)
    exact fields.bind (.inl fun p h _ => ⟨_, _, rfl, List.prefix_append _ _⟩)

/-- **What a checker makes at once, it makes firmly.** -/
theorem firm_decode (c : Checker) (covers : h₀.Covers raw) : (decode g c raw).Firm h₀ :=
  Checker.firm_decodeWith (fun cls _ hx => firm_entriesOf_bind hx fun es hes =>
    firm_ofEntries (Value.depthEntries es + 1) cls es hes) c raw covers

end Construction

end EntitySchema
