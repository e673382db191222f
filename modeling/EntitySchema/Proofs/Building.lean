/-
**Construction without a bound.**

Construction enters entities with a bound that it takes from the depth of the raw data.  The entries
that a raw value makes are less deep than the value, so the bound is never met: construction obeys
the equation that one would write down without it, in which each field is decoded by construction
itself.

Main results:

* `Checker.decodeWith_congr` — decoding constructs entities only of what is no deeper than the raw
  value;
* `Construction.ofEntries_congr` — the bound does not matter where it is high enough;
* `Construction.ofRaw_apply` — **the equation of construction, without a bound.**
-/

import EntitySchema.Proofs.Inert

set_option autoImplicit false

namespace EntitySchema

/-! ### Computations on the heap -/

namespace Build

variable {α β : Type}

theorem bind_apply (x : Build α) (f : α → Build β) (h : Heap) :
    (x >>= f) h = x h >>= fun p => f p.1 p.2 := rfl

theorem pure_apply (x : α) (h : Heap) : (pure x : Build α) h = .ok (x, h) := rfl

theorem get_bind_apply (f : Heap → Build β) (h : Heap) : ((get : Build Heap) >>= f) h = f h h := rfl

/-- What does not use the heap is done first. -/
theorem lift_bind_apply (x : Except Failure α) (f : α → Build β) (h : Heap) :
    ((liftM x : Build α) >>= f) h = x >>= fun a => f a h := by
  cases x <;> rfl

theorem mapM_congr {f f' : α → Build β} {xs : List α} (hf : ∀ x ∈ xs, f x = f' x) :
    (xs.mapM f : Build (List β)) = xs.mapM f' :=
  EntitySchema.mapM_congr hf

theorem mapM_cons_apply (f : α → Build β) (x : α) (xs : List α) (h : Heap) :
    ((x :: xs).mapM f) h = (do
      let p ← f x h
      let q ← (xs.mapM f) p.2
      .ok (p.1 :: q.1, q.2)) := by
  rw [List.mapM_cons]
  rfl

/-- A transformation of a list has a result only where one of each member has. -/
theorem exists_of_mapM {f : α → Build β} {xs : List α} {h h' : Heap} {ys : List β}
    (hm : (xs.mapM f) h = .ok (ys, h')) {x : α} (hx : x ∈ xs) :
    ∃ h₀ y h₁, f x h₀ = .ok (y, h₁) := by
  induction xs generalizing h h' ys with
  | nil => cases hx
  | cons z xs ih =>
    rw [mapM_cons_apply] at hm
    obtain ⟨p, hp, hm⟩ := bind_eq_ok.1 hm
    obtain ⟨q, hq, -⟩ := bind_eq_ok.1 hm
    rcases List.mem_cons.1 hx with rfl | hx
    · exact ⟨h, p.1, p.2, hp⟩
    · exact ih hq hx

/-- Entries transformed by their values keep their keys. -/
theorem mapM_entries (f : α → Build β) {γ : Type} (es : List (γ × α)) :
    (es.mapM fun e => do pure (e.1, ← f e.2) : Build (List (γ × β))) =
      (do pure ((es.map Prod.fst).zip (← (es.map Prod.snd).mapM f))) := by
  induction es with
  | nil => rfl
  | cons e es ih =>
    simp only [List.mapM_cons, List.map_cons, ih, bind_assoc, pure_bind]
    rfl

end Build

/-! ### Decoding -/

namespace Checker

variable {g : Catalog} {make make' : ClassId → Value → Build Value}

theorem decodeWith_date (r : Bool) (raw : Value) (h : Heap) :
    decodeWith g make (.date r) raw h = (do
      let v ← raw.toMoment (Heap.objectName g h)
      .ok (v, h)) := rfl

/-- A payload that is there and no object makes an entity. -/
theorem decodeWith_reference (t : Target) (eager : Value) (r : Bool) {raw : Value}
    (hn : raw.isNull = false) (hraw : ∀ a, raw ≠ .object a) (h : Heap) :
    decodeWith g make (.reference t eager r) raw h = (do
      let cls ← g.resolve t
      make cls raw h) := by
  rw [decodeWith, decodeEntity, if_neg (by simp [hn]), Build.lift_bind_apply]
  congr 1
  funext cls
  cases raw with
  | object a => exact absurd rfl (hraw a)
  | _ => rfl

theorem decodeWith_arrayOf (e : Checker) (r : Bool) (raw : Value) (h : Heap) :
    decodeWith g make (.arrayOf e r) raw h = (do
      let items ← itemsOf raw
      let p ← (items.mapM fun x => decodeWith g make e x) h
      .ok (.list p.1, p.2)) := by
  rw [decodeWith, Build.lift_bind_apply]
  rfl

theorem decodeWith_dictOf (e : Checker) (r : Bool) (raw : Value) (h : Heap) :
    decodeWith g make (.dictOf e r) raw h = (do
      let entries ← entriesOf h raw
      let p ← ((entries.map Prod.snd).mapM fun x => decodeWith g make e x) h
      .ok (.dict ((entries.map Prod.fst).zip p.1), p.2)) := by
  rw [decodeWith, Build.get_bind_apply, Build.lift_bind_apply]
  simp only [Build.mapM_entries]
  cases entriesOf h raw with
  | error f => rfl
  | ok entries =>
    rw [ok_bind, ok_bind, Build.bind_apply]
    simp only [Build.bind_apply]
    cases ((entries.map Prod.snd).mapM fun x => decodeWith g make e x : Build _) h <;> rfl

/-- Where there are items to decode an array from, the raw value is there and no less deep. -/
theorem depth_of_itemsOf {raw : Value} {items : List Value} (h : itemsOf raw = .ok items)
    {x : Value} (hx : x ∈ items) : raw.isNull = false ∧ x.depth ≤ raw.depth := by
  rcases itemsOf_cases h with rfl | ⟨there, hxs⟩
  · cases hx
  · exact ⟨there, Value.depth_le_of_items? hxs hx⟩

/-- Where there are entries to decode a dictionary from, the raw value is there and deeper. -/
theorem depth_of_entriesOf {h : Heap} {raw : Value} {es : Entries} (hes : entriesOf h raw = .ok es)
    {e : Value × Value} (he : e ∈ es) : raw.isNull = false ∧ e.2.depth < raw.depth := by
  unfold entriesOf at hes
  split at hes
  · cases hes
    cases he
  · next hn =>
    have less := Value.depthEntries_lt_of_toEntries hes
    exact ⟨Bool.eq_false_of_not_eq_true hn, ((Value.depthEntries_lt_iff.1 less).2 e he).2⟩

/-- Decoding constructs entities only of what is there and no deeper than the raw value. -/
theorem decodeWith_congr : (c : Checker) → (raw : Value) →
    (raw.isNull = false → ∀ cls x, x.isNull = false → x.depth ≤ raw.depth →
      make cls x = make' cls x) → decodeWith g make c raw = decodeWith g make' c raw
  | .scalar _ _ _, _, _ | .date _, _, _ | .shape _ _, _, _ => rfl
  | .reference t _ _, raw, hm => by
    unfold decodeWith decodeEntity
    split
    · rfl
    · next hn =>
      have there : raw.isNull = false := Bool.eq_false_of_not_eq_true hn
      have same : ∀ cls, make cls raw = make' cls raw := fun cls => hm there cls raw there le_rfl
      simp only [same]
  | .arrayOf e r, raw, hm => by
    funext h
    rw [decodeWith_arrayOf, decodeWith_arrayOf]
    cases hi : itemsOf raw with
    | error f => rfl
    | ok items =>
      have same : ∀ x ∈ items, decodeWith g make e x = decodeWith g make' e x := by
        intro x hx
        obtain ⟨there, deep⟩ := depth_of_itemsOf hi hx
        exact decodeWith_congr e x fun _ cls y hn hy => hm there cls y hn (hy.trans deep)
      rw [ok_bind, ok_bind, Build.mapM_congr same]
  | .dictOf e r, raw, hm => by
    funext h
    rw [decodeWith_dictOf, decodeWith_dictOf]
    cases hes : entriesOf h raw with
    | error f => rfl
    | ok es =>
      have same : ∀ x ∈ es.map Prod.snd, decodeWith g make e x = decodeWith g make' e x := by
        intro x hx
        obtain ⟨q, hq, rfl⟩ := List.mem_map.1 hx
        obtain ⟨there, deep⟩ := depth_of_entriesOf hes hq
        exact decodeWith_congr e q.2 fun _ cls y hn hy => hm there cls y hn (hy.trans deep.le)
      rw [ok_bind, ok_bind, Build.mapM_congr same]

end Checker

/-! ### The bound -/

namespace Construction

variable {g : Catalog}

/-- The entries that an entity is constructed from are less deep than the raw value. -/
theorem depth_of_entriesOf {h : Heap} {raw : Value} {es : Entries}
    (hes : entriesOf h raw = .ok es) :
    Value.depthEntries es < raw.depth := by
  unfold entriesOf at hes
  split at hes
  · exact Value.depthEntries_lt_of_toEntries hes
  · cases hes
    exact Value.depth_pos raw

/-- A field that is neither put aside nor taken as it is, is decoded. -/
theorem initialValue_of_decodes {decode : Checker → Value → Build Value} {c : Checker}
    (hd : c.deferred = false) (hc : c.decodes = true) (raw : Value) :
    initialValue decode c raw = decode c raw := by
  simp [initialValue, hd, hc]

theorem fieldsFrom_cons_apply (decode : Checker → Value → Build Value) (data : Entries)
    (name : String) (c : Checker) (fs : Schema) (h : Heap) :
    fieldsFrom decode data ((name, c) :: fs) h = (do
      let p ← initialValue decode c (Entries.getStr data name) h
      let q ← fieldsFrom decode data fs p.2
      .ok (((name, p.1) :: q.1.1,
        if c.deferred && !(Entries.getStr data name).isNull then
          (name, Entries.getStr data name) :: q.1.2
        else q.1.2), q.2)) := rfl

/-- Fields are made only where the value of each is. -/
theorem exists_of_fieldsFrom {decode : Checker → Value → Build Value} {data : Entries} {fs : Schema}
    {h h' : Heap} {p : Table Value × Table Value} (hp : fieldsFrom decode data fs h = .ok (p, h'))
    {f : String × Checker} (hf : f ∈ fs) :
    ∃ h₀ v h₁, initialValue decode f.2 (Entries.getStr data f.1) h₀ = .ok (v, h₁) := by
  induction fs generalizing h h' p with
  | nil => cases hf
  | cons f' fs ih =>
    rw [fieldsFrom_cons_apply] at hp
    obtain ⟨v, hv, hp⟩ := bind_eq_ok.1 hp
    obtain ⟨q, hq, -⟩ := bind_eq_ok.1 hp
    rcases List.mem_cons.1 hf with rfl | hf
    · exact ⟨h, v.1, v.2, hv⟩
    · exact ih hq hf

/-- Two ways of decoding that agree on the raw values of the fields make the same fields. -/
theorem fieldsFrom_congr {decode decode' : Checker → Value → Build Value} {data : Entries}
    {fs : Schema}
    (hd : ∀ f ∈ fs, decode f.2 (Entries.getStr data f.1) = decode' f.2 (Entries.getStr data f.1)) :
    fieldsFrom decode data fs = fieldsFrom decode' data fs := by
  induction fs with
  | nil => rfl
  | cons f fs ih =>
    obtain ⟨name, c⟩ := f
    have parts := List.forall_mem_cons.1 hd
    simp only [fieldsFrom, initialValue, parts.1, ih parts.2]

/-- Two ways to construct entities that agree on what is no deeper than the data make the same
fields. -/
theorem fieldsFrom_decodeWith_congr {make make' : ClassId → Value → Build Value} {data : Entries}
    (hm : ∀ cls x, x.depth ≤ Value.depthEntries data → make cls x = make' cls x) (fs : Schema) :
    fieldsFrom (Checker.decodeWith g make) data fs =
      fieldsFrom (Checker.decodeWith g make') data fs := by
  refine fieldsFrom_congr ?_
  intro f _
  refine Checker.decodeWith_congr f.2 _ fun hn cls x _ hx => ?_
  exact hm cls x (hx.trans (Entries.depth_getStr_le hn))

/-- Two ways to construct entities from entries that agree on those that a raw value makes construct
the same of the raw value. -/
theorem ofEntriesOf_congr {make make' : Entries → Build Value} {raw : Value}
    (hm : ∀ es, Value.depthEntries es < raw.depth → make es = make' es) :
    ((do make (← entriesOf (← get) raw)) : Build Value) =
      ((do make' (← entriesOf (← get) raw)) : Build Value) := by
  funext h
  rw [Build.get_bind_apply, Build.get_bind_apply, Build.lift_bind_apply, Build.lift_bind_apply]
  cases hes : entriesOf h raw with
  | error f => rfl
  | ok es =>
    simp only [bind, Except.bind]
    rw [hm es (depth_of_entriesOf hes)]

/-- The bound on the entities entered does not matter where it is above the depth of the data. -/
theorem ofEntries_congr : ∀ (k : Nat) (cls : ClassId) (data : Entries),
    Value.depthEntries data ≤ k → ∀ m n, k < m → k < n →
      ofEntries g m cls data = ofEntries g n cls data := by
  intro k
  -- along the depths: the entries of what is embedded in the data are less deep
  induction k using Nat.strong_induction_on with
  | _ k ih =>
    intro cls data hk m n hm hn
    obtain ⟨m, rfl⟩ : ∃ m', m = m' + 1 := ⟨m - 1, by omega⟩
    obtain ⟨n, rfl⟩ : ∃ n', n = n' + 1 := ⟨n - 1, by omega⟩
    simp only [ofEntries]
    rw [fieldsFrom_decodeWith_congr]
    intro cls' x hx
    refine ofEntriesOf_congr ?_
    intro es hes
    exact ih (Value.depthEntries es) (by omega) cls' es le_rfl m n (by omega) (by omega)

/-- Construction from entries, by construction of what is embedded in them. -/
theorem ofEntries_eq (cls : ClassId) (data : Entries) :
    ofEntries g (Value.depthEntries data + 1) cls data = (do
      let (fields, pending) ← fieldsFrom (decode g) data (g.schemaOf cls)
      alloc (.entity cls (Entries.getStr data idField) pending fields)) := by
  have fields : fieldsFrom (decode g) data (g.schemaOf cls) = fieldsFrom (Checker.decodeWith g
      fun cls raw => do
        ofEntries g (Value.depthEntries data) cls (← entriesOf (← get) raw)) data
        (g.schemaOf cls) := by
    refine fieldsFrom_decodeWith_congr ?_ _
    intro cls' x hx
    refine ofEntriesOf_congr ?_
    intro es hes
    exact ofEntries_congr (Value.depthEntries es) cls' es le_rfl _ _ (by omega) (by omega)
  rw [fields]
  rfl

/-- **The equation of construction, without a bound.** -/
theorem ofRaw_apply (cls : ClassId) (raw : Value) (h : Heap) :
    ofRaw g cls raw h = (do
      let data ← entriesOf h raw
      let p ← fieldsFrom (decode g) data (g.schemaOf cls) h
      .ok (.object p.2.length,
        p.2 ++ [.entity cls (Entries.getStr data idField) p.1.2 p.1.1])) := by
  rw [ofRaw, Build.get_bind_apply, Build.lift_bind_apply]
  simp only [ofEntries_eq]
  rfl

/-- What is constructed is an object. -/
theorem exists_of_ofRaw {cls : ClassId} {raw v : Value} {h h' : Heap}
    (hv : ofRaw g cls raw h = .ok (v, h')) : ∃ a, v = .object a := by
  rw [ofRaw_apply] at hv
  obtain ⟨data, -, hv⟩ := bind_eq_ok.1 hv
  obtain ⟨p, -, hv⟩ := bind_eq_ok.1 hv
  cases hv
  exact ⟨_, rfl⟩

end Construction

end EntitySchema
