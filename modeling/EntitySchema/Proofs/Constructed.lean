/-
**What construction leaves behind.**

Construction only adds cells to the heap.  The last of them is the entity that was constructed; it
holds the identifier of its data, the raw values of its deferred fields, and for each other field
what was made of the raw value before.  So what holds of all raw values that go in, and of whatever
is built of such values step by step, holds of all values in the cells that come out.

Main definitions:

* `Build.Leaves` — **what a construction has done where it succeeds**;
* `Construction.Kinds` — kinds of raw values and of values that construction keeps to;
* `Construction.Started` — what a field of a new entity holds.

Main results:

* `Checker.leaves_decodeWith` — what decoding leaves behind;
* `Construction.exists_of_ofRaw_eq_ok` — **the cell of an entity that was constructed, and the heap
  before it.**
-/

import EntitySchema.Proofs.Showing

set_option autoImplicit false

namespace EntitySchema

/-! ### What a construction has done -/

/-- Where a construction succeeds in a heap, it has only added cells, the heap is again as `Q` says,
and what was made is as `K` says. -/
def Build.Leaves {β : Type} (Q : Heap → Prop) (K : Heap → β → Prop) (b : Build β) (h : Heap) :
    Prop :=
  ∀ x h', b h = .ok (x, h') → h <+: h' ∧ Q h' ∧ K h' x

namespace Build

variable {α β : Type} {Q : Heap → Prop} {K : Heap → α → Prop} {L : Heap → β → Prop} {h : Heap}

theorem leaves_pure (hQ : Q h) {x : α} (hx : K h x) : Leaves Q K (pure x) h := by
  intro y h' hy
  cases hy
  exact ⟨List.prefix_rfl, hQ, hx⟩

theorem leaves_lift (hQ : Q h) {e : Except Failure α} (he : ∀ x, e = .ok x → K h x) :
    Leaves Q K (liftM e) h := by
  intro y h' hy
  cases e with
  | error f => cases hy
  | ok x =>
    cases hy
    exact ⟨List.prefix_rfl, hQ, he _ rfl⟩

theorem Leaves.bind {b : Build α} {f : α → Build β} (hb : Leaves Q K b h)
    (hf : ∀ x h', h <+: h' → Q h' → K h' x → Leaves Q L (f x) h') : Leaves Q L (b >>= f) h := by
  intro y h'' hy
  rw [bind_apply] at hy
  obtain ⟨⟨x, h'⟩, hx, hy⟩ := bind_eq_ok.1 hy
  obtain ⟨grown, hQ, hK⟩ := hb x h' hx
  obtain ⟨grown', hQ', hL⟩ := hf x h' grown hQ hK y h'' hy
  exact ⟨grown.trans grown', hQ', hL⟩

/-- What is made of the members of a list, one after the other. -/
theorem leaves_mapM {R : Heap → β → Prop} (mono : ∀ h h' x, h <+: h' → R h x → R h' x)
    (mono' : ∀ h h' y, h <+: h' → K h y → K h' y) {f : β → Build α} (hQ : Q h) {xs : List β}
    (hf : ∀ x ∈ xs, ∀ h, Q h → R h x → Leaves Q K (f x) h) (hx : ∀ x ∈ xs, R h x) :
    Leaves Q (fun h ys => ys.length = xs.length ∧ ∀ y ∈ ys, K h y) (xs.mapM f) h := by
  induction xs generalizing h with
  | nil => exact leaves_pure hQ ⟨rfl, List.forall_mem_nil _⟩
  | cons x xs ih =>
    rw [List.mapM_cons]
    obtain ⟨first, rest⟩ := List.forall_mem_cons.1 hf
    obtain ⟨here, there⟩ := List.forall_mem_cons.1 hx
    refine (first h hQ here).bind fun y h' grown hQ' hy => ?_
    refine (ih hQ' rest fun x hx => mono _ _ _ grown (there x hx)).bind
      fun ys h'' grown' hQ'' hys => ?_
    exact leaves_pure hQ'' ⟨congrArg (· + 1) hys.1,
      List.forall_mem_cons.2 ⟨mono' _ _ _ grown' hy, hys.2⟩⟩

end Build

/-! ### Kinds of values that construction keeps to -/

theorem Value.eq_null_of_isNull : {v : Value} → v.isNull = true → v = .null
  | .null, _ => rfl

/-- A raw value makes a moment, if it does not stay what it is. -/
theorem Value.eq_or_exists_of_toMoment {objectName : Address → String} {v w : Value}
    (hw : v.toMoment objectName = .ok w) : w = v ∨ ∃ m, w = .moment m := by
  cases v with
  | null | date | moment | stamp =>
    cases hw
    exact .inl rfl
  | int n =>
    simp only [Value.toMoment] at hw
    split at hw <;> cases hw
    exact .inr ⟨_, rfl⟩
  | float x =>
    simp only [Value.toMoment] at hw
    split at hw <;> cases hw
    exact .inr ⟨_, rfl⟩
  | str s =>
    simp only [Value.toMoment] at hw
    split at hw <;> cases hw
    exact .inr ⟨_, rfl⟩
  | _ => cases hw

namespace Construction

/-- What a field of a new entity holds: nothing if it is deferred, its raw value if that is not
decoded, and in any case something of the kind of values. -/
def Started (K : Heap → Value → Prop) (h : Heap) (data : Entries) (f : String × Checker)
    (v : Value) : Prop :=
  (f.2.deferred = true → v = .null) ∧
  (f.2.deferred = false → f.2.decodes = false → v = Entries.getStr data f.1) ∧ K h v

/-- Kinds of raw values (`R`), of identifiers (`I`) and of values (`K`) that construction keeps to,
in heaps as `Q` says. -/
structure Kinds (g : Catalog) (Q : Heap → Prop) (R : Heap → Value → Prop) (I : Value → Prop)
    (K : Heap → Value → Prop) : Prop where
  monoRaw : ∀ h h' v, h <+: h' → R h v → R h' v
  mono : ∀ h h' v, h <+: h' → K h v → K h' v
  absent : ∀ h, R h .null
  kept : ∀ h v, R h v → K h v
  moment : ∀ h m, K h (.moment m)
  items : ∀ h raw xs, R h raw → raw.items? = some xs → ∀ x ∈ xs, R h x
  entries : ∀ h raw es, Q h → R h raw → raw.toEntries (Heap.isEntity h) = .ok es →
    ∀ e ∈ es, K h e.1 ∧ R h e.2
  identifier : ∀ h raw es, Q h → R h raw → raw.toEntries (Heap.isEntity h) = .ok es →
    I (Entries.getStr es idField)
  noIdentifier : I .null
  list : ∀ h xs, (∀ x ∈ xs, K h x) → K h (.list xs)
  dict : ∀ h es, (∀ e ∈ es, K h e.1 ∧ K h e.2) → K h (.dict es)
  cell : ∀ h cls data v, Q h → (∀ e ∈ data, R h e.2) → I (Entries.getStr data idField) →
    (∀ f ∈ g.schemaOf cls, Started K h data f (v f.1)) →
    let h' := h ++ [Cell.ofFields cls (Entries.getStr data idField)
      (asideEntries data (g.schemaOf cls)) (Table.names (g.schemaOf cls)) v]
    Q h' ∧ K h' (.object h.length)

variable {g : Catalog} {Q : Heap → Prop} {R K : Heap → Value → Prop} {I : Value → Prop} {h : Heap}

theorem Kinds.getStr (kinds : Kinds g Q R I K) {data : Entries} (hdata : ∀ e ∈ data, R h e.2)
    (name : String) : R h (Entries.getStr data name) :=
  Entries.getStr_of_forall (kinds.absent h) hdata name

/-- The dictionary that an entity is constructed from has raw values, and an identifier. -/
theorem Kinds.data (kinds : Kinds g Q R I K) (hQ : Q h) {raw : Value} (hR : R h raw) {es : Entries}
    (hes : entriesOf h raw = .ok es) :
    (∀ e ∈ es, R h e.2) ∧ I (Entries.getStr es idField) := by
  unfold entriesOf at hes
  split at hes
  · exact ⟨fun e he => (kinds.entries h raw es hQ hR hes e he).2,
      kinds.identifier h raw es hQ hR hes⟩
  · cases hes
    exact ⟨List.forall_mem_nil _, kinds.noIdentifier⟩

theorem Kinds.started_mono (kinds : Kinds g Q R I K) {h' : Heap} (grown : h <+: h') {data : Entries}
    {f : String × Checker} {v : Value} (started : Started K h data f v) : Started K h' data f v :=
  ⟨started.1, started.2.1, kinds.mono _ _ _ grown started.2.2⟩

end Construction

/-! ### Decoding -/

open Build Construction

section

variable {g : Catalog} {Q : Heap → Prop} {R K : Heap → Value → Prop} {I : Value → Prop}
  (kinds : Kinds g Q R I K)

include kinds

/-- **What decoding leaves behind**, where the construction of entities leaves it behind. -/
theorem Checker.leaves_decodeWith {make : ClassId → Value → Build Value}
    (hmake : ∀ cls raw h, Q h → R h raw → Leaves Q K (make cls raw) h) : (c : Checker) →
    (raw : Value) → (h : Heap) → Q h → R h raw → Leaves Q K (decodeWith g make c raw) h
  | .scalar _ _ _, raw, h, hQ, hR | .shape _ _, raw, h, hQ, hR =>
    leaves_pure hQ (kinds.kept h raw hR)
  | .date _, raw, h, hQ, hR => by
    refine leaves_lift (e := raw.toMoment (Heap.objectName g h)) hQ fun v hv => ?_
    rcases Value.eq_or_exists_of_toMoment hv with rfl | ⟨m, rfl⟩
    · exact kinds.kept h v hR
    · exact kinds.moment h m
  | .reference t _ _, raw, h, hQ, hR => by
    unfold decodeWith decodeEntity
    split
    · exact leaves_pure hQ (kinds.kept h _ (kinds.absent h))
    · refine (leaves_lift (K := fun _ _ => True) hQ fun _ _ => trivial).bind
        fun cls h' grown hQ' _ => ?_
      have hR' := kinds.monoRaw h h' raw grown hR
      have made : Leaves Q K (make cls raw) h' := hmake cls raw h' hQ' hR'
      cases raw with
      | object a =>
        intro x h'' hx
        rw [get_bind_apply] at hx
        dsimp only at hx
        split at hx
        · exact leaves_pure hQ' (kinds.kept h' _ hR') x h'' hx
        · exact made x h'' hx
      | _ => exact made
  | .arrayOf e _, raw, h, hQ, hR => by
    have elements : ∀ items, itemsOf raw = .ok items → ∀ x ∈ items, R h x := by
      intro items hitems
      rcases itemsOf_cases hitems with rfl | ⟨-, hxs⟩
      · exact List.forall_mem_nil _
      · exact kinds.items h raw items hR hxs
    refine (leaves_lift (K := fun h items => ∀ x ∈ items, R h x) hQ elements).bind
      fun items h' _ hQ' hx => ?_
    refine (leaves_mapM kinds.monoRaw kinds.mono hQ'
      (fun x _ => leaves_decodeWith hmake e x) hx).bind fun ys h'' _ hQ'' hys => ?_
    exact leaves_pure hQ'' (kinds.list h'' ys hys.2)
  | .dictOf e r, raw, h, hQ, hR => by
    intro x h'' hx
    rw [decodeWith_dictOf] at hx
    obtain ⟨es, hes, hx⟩ := bind_eq_ok.1 hx
    obtain ⟨⟨ys, h'⟩, hys, hx⟩ := bind_eq_ok.1 hx
    cases hx
    have parts : ∀ e ∈ es, K h e.1 ∧ R h e.2 := by
      unfold entriesOf at hes
      split at hes
      · cases hes
        exact List.forall_mem_nil _
      · exact kinds.entries h raw es hQ hR hes
    have values : ∀ x ∈ es.map Prod.snd, R h x := List.forall_mem_map.2 fun e he => (parts e he).2
    obtain ⟨grown, hQ', -, hK⟩ := leaves_mapM kinds.monoRaw kinds.mono hQ
      (fun x _ => leaves_decodeWith hmake e x) values ys h' hys
    refine ⟨grown, hQ', kinds.dict h' _ fun p hp => ?_⟩
    obtain ⟨hkey, hvalue⟩ := List.of_mem_zip hp
    obtain ⟨q, hq, heq⟩ := List.mem_map.1 hkey
    exact ⟨heq ▸ kinds.mono h h' _ grown (parts q hq).1, hK p.2 hvalue⟩

namespace Construction

/-- What is made of the fields of an entity, one after the other. -/
theorem exists_of_fieldsFrom_eq_ok {decode : Checker → Value → Build Value} {data : Entries}
    (hdecode : ∀ c raw h, Q h → R h raw → Leaves Q K (decode c raw) h) {fs : Schema}
    (names : (Table.names fs).Nodup) {h h' : Heap} (hQ : Q h) (hdata : ∀ e ∈ data, R h e.2)
    {p : Table Value × Table Value} (hp : fieldsFrom decode data fs h = .ok (p, h')) :
    h <+: h' ∧ Q h' ∧ ∃ v : String → Value,
      p = ((Table.names fs).map fun n => (n, v n), putAside data fs) ∧
        ∀ f ∈ fs, Started K h' data f (v f.1) := by
  induction fs generalizing h h' p with
  | nil =>
    cases hp
    exact ⟨List.prefix_rfl, hQ, fun _ => .null, rfl, List.forall_mem_nil _⟩
  | cons f fs ih =>
    obtain ⟨name, c⟩ := f
    obtain ⟨fresh, nodup⟩ := List.nodup_cons.1 names
    rw [fieldsFrom_cons_apply] at hp
    obtain ⟨⟨x, h₁⟩, hx, hp⟩ := bind_eq_ok.1 hp
    obtain ⟨⟨q, h₂⟩, hq, hp⟩ := bind_eq_ok.1 hp
    cases hp
    have raw : R h (Entries.getStr data name) := kinds.getStr hdata name
    have first : Leaves Q (fun h v => Started K h data (name, c) v)
        (initialValue decode c (Entries.getStr data name)) h := by
      unfold initialValue Started
      dsimp only
      cases c.deferred with
      | true => exact leaves_pure hQ ⟨fun _ => rfl, nofun, kinds.kept h _ (kinds.absent h)⟩
      | false =>
        cases c.decodes with
        | true =>
          intro v h' hv
          obtain ⟨grown, hQ', hK⟩ := hdecode c _ h hQ raw v h' hv
          exact ⟨grown, hQ', nofun, nofun, hK⟩
        | false => exact leaves_pure hQ ⟨nofun, fun _ _ => rfl, kinds.kept h _ raw⟩
    obtain ⟨grown, hQ₁, started⟩ := first x h₁ hx
    obtain ⟨grown', hQ₂, v, rfl, rest⟩ :=
      ih nodup hQ₁ (fun e he => kinds.monoRaw _ _ _ grown (hdata e he)) hq
    -- the names are distinct, so the value of the first field is not that of another
    have other : ∀ n ∈ Table.names fs, n ≠ name := fun n hmem heq => fresh (heq ▸ hmem)
    refine ⟨grown.trans grown', hQ₂, fun n => if n = name then x else v n, ?_,
      List.forall_mem_cons.2 ⟨?_, fun f hf => ?_⟩⟩
    · have same : (Table.names fs).map (fun n => (n, if n = name then x else v n)) =
          (Table.names fs).map fun n => (n, v n) :=
        List.map_congr_left fun n hn => by rw [if_neg (other n hn)]
      have table : (Table.names ((name, c) :: fs)).map (fun n => (n, if n = name then x else v n)) =
          (name, x) :: (Table.names fs).map fun n => (n, v n) := by
        rw [← same]
        simp [Table.names]
      rw [putAside_cons, table]
    · simpa using kinds.started_mono grown' started
    · simpa [other f.1 (List.mem_map_of_mem hf)] using rest f hf

/-- The cell of an entity that was constructed from its data, and the heap before it. -/
theorem exists_of_ofEntries_eq_ok (hg : g.WellFormed) : ∀ (fuel : Nat) (cls : ClassId)
    (data : Entries) {h h' : Heap}, Q h → (∀ e ∈ data, R h e.2) → I (Entries.getStr data idField) →
    ∀ {x : Value}, ofEntries g fuel cls data h = .ok (x, h') →
    ∃ h₀ v, h <+: h₀ ∧ Q h₀ ∧ x = .object h₀.length ∧
      h' = h₀ ++ [Cell.ofFields cls (Entries.getStr data idField)
        (asideEntries data (g.schemaOf cls)) (Table.names (g.schemaOf cls)) v] ∧
      ∀ f ∈ g.schemaOf cls, Started K h₀ data f (v f.1)
  | 0, _, _, _, _, _, _, _, _, made => by cases made
  | fuel + 1, cls, data, h, h', hQ, hdata, hid, x, made => by
    rw [ofEntries, bind_apply] at made
    obtain ⟨⟨p, h₀⟩, hp, made⟩ := bind_eq_ok.1 made
    have entered : ∀ (cls : ClassId) (raw : Value) (h : Heap), Q h → R h raw →
        Leaves Q K (do ofEntries g fuel cls (← entriesOf (← get) raw)) h := by
      intro cls raw h hQ hR x h' hx
      rw [get_bind_apply, lift_bind_apply] at hx
      obtain ⟨es, hes, hx⟩ := bind_eq_ok.1 hx
      obtain ⟨values, hid⟩ := kinds.data hQ hR hes
      obtain ⟨h₀, v, grown, hQ₀, rfl, rfl, started⟩ :=
        exists_of_ofEntries_eq_ok hg fuel cls es hQ values hid hx
      have there := fun e he => kinds.monoRaw h h₀ _ grown (values e he)
      exact ⟨grown.trans (List.prefix_append ..), kinds.cell h₀ cls es v hQ₀ there hid started⟩
    obtain ⟨grown, hQ₀, v, rfl, started⟩ :=
      exists_of_fieldsFrom_eq_ok kinds (Checker.leaves_decodeWith kinds entered) (hg.nodup cls) hQ
        hdata hp
    cases made
    exact ⟨h₀, v, grown, hQ₀, rfl, rfl, started⟩

/-- **The cell of an entity that was constructed, and the heap before it.** -/
theorem exists_of_ofRaw_eq_ok (hg : g.WellFormed) {cls : ClassId} {raw x : Value} {h h' : Heap}
    (hQ : Q h) (hR : R h raw) (made : ofRaw g cls raw h = .ok (x, h')) :
    ∃ data h₀ v, entriesOf h raw = .ok data ∧ (∀ e ∈ data, R h e.2) ∧
      I (Entries.getStr data idField) ∧ h <+: h₀ ∧ Q h₀ ∧ x = .object h₀.length ∧
      h' = h₀ ++ [Cell.ofFields cls (Entries.getStr data idField)
        (asideEntries data (g.schemaOf cls)) (Table.names (g.schemaOf cls)) v] ∧
      ∀ f ∈ g.schemaOf cls, Started K h₀ data f (v f.1) := by
  rw [ofRaw, get_bind_apply, lift_bind_apply] at made
  obtain ⟨data, hdata, made⟩ := bind_eq_ok.1 made
  obtain ⟨values, hid⟩ := kinds.data hQ hR hdata
  obtain ⟨h₀, v, grown, hQ₀, hx, hh', started⟩ :=
    exists_of_ofEntries_eq_ok kinds hg _ cls data hQ values hid made
  exact ⟨data, h₀, v, hdata, values, hid, grown, hQ₀, hx, hh', started⟩

end Construction

end

end EntitySchema
