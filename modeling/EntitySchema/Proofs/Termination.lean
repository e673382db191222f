/-
**Construction ends, and so does what is asked of its result.**

Schemas may refer to each other and to themselves, so nothing in them bounds how many entities are
constructed one inside the other.  What does is the raw value: the entries that an entity is
constructed from are less deep than the value that makes them, and the items that an array is
decoded from are no deeper, be they the characters of a text.  So the depth of the raw value bounds
the entities one inside the other, and construction ends with an entity or a failure, whatever the
raw value.

Of a raw value that leads to no object the entity that is constructed holds only entities that were
constructed with it, none of which contains itself.  So its validation, its report and its raw data
end as well.

Main definitions:

* `Build.Ends` — a computation on the heap that does not go on without end.

Main results:

* `Construction.ends_ofEntries` — construction ends, if the bound is above the depth of the data;
* `Heap.Reads.genuine` — the entities in what is constructed have their methods from their classes;
* `Heap.Genuine.validate_ne_endless`, `Heap.Genuine.report_ne_endless` — validation and report end;
* `Construction.ofRaw_ends` — **construction ends, and so do validation, report and raw data of what
  it makes.**
-/

import EntitySchema.Proofs.RawForm
import EntitySchema.Proofs.Reporting

set_option autoImplicit false

namespace EntitySchema

/-! ### Computations that end -/

/-- A computation on the heap that does not go on without end. -/
def Build.Ends {β : Type} (b : Build β) : Prop := ∀ h, b h ≠ .error .endless

namespace Build

variable {α β : Type}

theorem ends_pure (x : α) : Ends (pure x) := fun _ => nofun

theorem ends_get : Ends (get : Build Heap) := fun _ => nofun

theorem ends_lift {x : Except Failure α} (hx : x ≠ .error .endless) : Ends (liftM x : Build α) := by
  intro h
  cases x with
  | ok a => exact nofun
  | error e =>
    intro failed
    cases failed
    exact hx rfl

theorem Ends.bind {x : Build α} {f : α → Build β} (hx : x.Ends) (hf : ∀ a, (f a).Ends) :
    (x >>= f).Ends := by
  intro h failed
  rw [bind_apply, bind_eq_error] at failed
  rcases failed with failed | ⟨p, -, failed⟩
  · exact hx h failed
  · exact hf p.1 p.2 failed

theorem ends_mapM {f : α → Build β} {xs : List α} (hf : ∀ x ∈ xs, (f x).Ends) :
    (xs.mapM f : Build (List β)).Ends := by
  induction xs with
  | nil => exact ends_pure []
  | cons x xs ih =>
    obtain ⟨hx, hxs⟩ := List.forall_mem_cons.1 hf
    rw [List.mapM_cons]
    exact hx.bind fun y => (ih hxs).bind fun ys => ends_pure (y :: ys)

end Build

/-! ### Values that are taken apart -/

/-- A transformation of a list that fails does so at one of the members. -/
theorem exists_of_mapM_eq_error {α β : Type} {f : α → Except Failure β} {xs : List α} {e : Failure}
    (failed : xs.mapM f = .error e) : ∃ x ∈ xs, f x = .error e := by
  induction xs with
  | nil => cases failed
  | cons x xs ih =>
    rw [List.mapM_cons] at failed
    rcases bind_eq_error.1 failed with failed | ⟨_, -, failed⟩
    · exact ⟨x, List.mem_cons_self .., failed⟩
    · rcases bind_eq_error.1 failed with failed | ⟨_, -, failed⟩
      · obtain ⟨y, hy, failed⟩ := ih failed
        exact ⟨y, List.mem_cons_of_mem x hy, failed⟩
      · cases failed

namespace Value

theorem toItems_ne_endless (v : Value) : v.toItems ≠ .error .endless := by
  unfold toItems
  cases v.items? <;> exact nofun

theorem toEntry_ne_endless (isEntity : Address → Bool) (v : Value) :
    v.toEntry isEntity ≠ .error .endless := by
  unfold toEntry
  intro failed
  rcases bind_eq_error.1 failed with failed | ⟨items, -, failed⟩
  · exact toItems_ne_endless v failed
  · split at failed
    · split at failed <;> cases failed
    · cases failed

theorem toEntries_ne_endless (isEntity : Address → Bool) (v : Value) :
    v.toEntries isEntity ≠ .error .endless := by
  unfold toEntries
  intro failed
  split at failed
  · cases failed
  · rcases bind_eq_error.1 failed with failed | ⟨items, -, failed⟩
    · exact toItems_ne_endless v failed
    · rcases bind_eq_error.1 failed with failed | ⟨es, -, failed⟩
      · obtain ⟨x, -, failed⟩ := exists_of_mapM_eq_error failed
        exact toEntry_ne_endless isEntity x failed
      · cases failed

theorem outOfRange_ne_endless (n : Int) : outOfRange n ≠ .endless := by
  unfold outOfRange
  split
  · exact nofun
  · exact nofun

theorem toMoment_ne_endless (objectName : Address → String) (v : Value) :
    v.toMoment objectName ≠ .error .endless := by
  unfold toMoment
  intro failed
  split at failed
  · cases failed
  · cases failed
  · cases failed
  · cases failed
  · cases failed
  · next n =>
    split at failed
    · cases failed
    · exact outOfRange_ne_endless n (Except.error.inj failed)
  · split at failed <;> cases failed
  · cases failed
  · split at failed <;> cases failed
  · cases failed

end Value

/-! ### Decoding -/

namespace Checker

variable {g : Catalog} {make : ClassId → Value → Build Value}

theorem itemsOf_ne_endless (raw : Value) : itemsOf raw ≠ .error .endless := by
  unfold itemsOf
  split
  · exact nofun
  · exact Value.toItems_ne_endless raw

theorem entriesOf_ne_endless (h : Heap) (raw : Value) : entriesOf h raw ≠ .error .endless := by
  unfold entriesOf
  split
  · exact nofun
  · exact Value.toEntries_ne_endless _ raw

theorem resolve_ne_endless (g : Catalog) (t : Target) : g.resolve t ≠ .error .endless := by
  intro failed
  obtain ⟨name, heq⟩ := Inspection.unknown_of_resolve failed
  cases heq

/-- Decoding ends if construction does of what is there and no deeper than the raw value. -/
theorem ends_decodeWith : (c : Checker) → (raw : Value) →
    (raw.isNull = false → ∀ cls x, x.isNull = false → x.depth ≤ raw.depth → (make cls x).Ends) →
      (decodeWith g make c raw).Ends
  | .scalar _ _ _, raw, _ | .shape _ _, raw, _ => Build.ends_pure raw
  | .date r, raw, _ => by
    refine Build.ends_get.bind fun h => ?_
    exact Build.ends_lift (Value.toMoment_ne_endless _ raw)
  | .reference t _ _, raw, hm => by
    unfold decodeWith decodeEntity
    split
    · exact Build.ends_pure _
    · next hn =>
      have there : raw.isNull = false := Bool.eq_false_of_not_eq_true hn
      have made : ∀ cls, (make cls raw).Ends := fun cls => hm there cls raw there le_rfl
      refine (Build.ends_lift (resolve_ne_endless g t)).bind fun cls => ?_
      refine Build.ends_get.bind fun h => ?_
      split
      · split
        · exact Build.ends_pure _
        · exact made cls
      · exact made cls
  | .arrayOf e r, raw, hm => by
    intro h failed
    rw [decodeWith_arrayOf] at failed
    rcases bind_eq_error.1 failed with failed | ⟨items, hi, failed⟩
    · exact itemsOf_ne_endless raw failed
    · rcases bind_eq_error.1 failed with failed | ⟨p, -, failed⟩
      · refine Build.ends_mapM (fun x hx => ?_) h failed
        obtain ⟨there, deep⟩ := depth_of_itemsOf hi hx
        exact ends_decodeWith e x fun _ cls y hn hy => hm there cls y hn (hy.trans deep)
      · cases failed
  | .dictOf e r, raw, hm => by
    intro h failed
    rw [decodeWith_dictOf] at failed
    rcases bind_eq_error.1 failed with failed | ⟨es, hes, failed⟩
    · exact entriesOf_ne_endless h raw failed
    · rcases bind_eq_error.1 failed with failed | ⟨p, -, failed⟩
      · refine Build.ends_mapM (fun x hx => ?_) h failed
        obtain ⟨q, hq, rfl⟩ := List.mem_map.1 hx
        obtain ⟨there, deep⟩ := depth_of_entriesOf hes hq
        exact ends_decodeWith e q.2 fun _ cls y hn hy => hm there cls y hn (hy.trans deep.le)
      · cases failed

end Checker

/-! ### Construction -/

namespace Construction

variable {g : Catalog}

theorem entriesOf_ne_endless (h : Heap) (raw : Value) : entriesOf h raw ≠ .error .endless := by
  unfold entriesOf
  split
  · exact Value.toEntries_ne_endless _ raw
  · exact nofun

theorem ends_fieldsFrom {decode : Checker → Value → Build Value} {data : Entries} {fs : Schema}
    (hd : ∀ f ∈ fs, (decode f.2 (Entries.getStr data f.1)).Ends) :
    (fieldsFrom decode data fs).Ends := by
  induction fs with
  | nil => exact Build.ends_pure _
  | cons f fs ih =>
    obtain ⟨own, rest⟩ := List.forall_mem_cons.1 hd
    unfold fieldsFrom
    refine Build.Ends.bind ?_ fun v => (ih rest).bind fun p => Build.ends_pure _
    unfold initialValue
    split
    · exact Build.ends_pure _
    · split
      · exact own
      · exact Build.ends_pure _

theorem ends_alloc (c : Cell) : (alloc c).Ends := fun _ failed => by cases failed

/-- **Construction ends**, if the bound on the entities one inside the other is above the depth of
the data. -/
theorem ends_ofEntries : ∀ (fuel : Nat) (cls : ClassId) (data : Entries),
    Value.depthEntries data < fuel → (ofEntries g fuel cls data).Ends
  | 0, _, _, deep => absurd deep (Nat.not_lt_zero _)
  | fuel + 1, cls, data, deep => by
    unfold ofEntries
    refine Build.Ends.bind (ends_fieldsFrom fun f _ => ?_) fun p => ends_alloc _
    refine Checker.ends_decodeWith f.2 _ fun hn cls' x _ hx h failed => ?_
    -- the entries that an embedded entity is constructed from are less deep than the data
    rw [Build.get_bind_apply, Build.lift_bind_apply] at failed
    rcases bind_eq_error.1 failed with failed | ⟨es, hes, failed⟩
    · exact entriesOf_ne_endless h x failed
    · have less := depth_of_entriesOf hes
      have le := Entries.depth_getStr_le hn
      exact ends_ofEntries fuel cls' es (by omega) h failed

/-- Construction from a raw value ends. -/
theorem ends_ofRaw (cls : ClassId) (raw : Value) : (ofRaw g cls raw).Ends := by
  intro h failed
  rw [ofRaw, Build.get_bind_apply, Build.lift_bind_apply] at failed
  rcases bind_eq_error.1 failed with failed | ⟨data, -, failed⟩
  · exact entriesOf_ne_endless h raw failed
  · exact ends_ofEntries _ cls data (Nat.lt_succ_self _) h failed

end Construction

/-! ### Entities in what is constructed -/

section

variable {g : Catalog} {h : Heap} {v : Value} {t : Tree} {a : Address}

/-- What reads as a whole tree leads to entities that read as whole trees. -/
theorem Tree.Whole.of_leadsTo (whole : t.Whole g) (reads : Heap.Reads g h v t) (ha : v.LeadsTo a) :
    ∃ cls id pending fields, (Tree.entity cls id pending fields).Whole g ∧
      Heap.Reads g h (.object a) (.entity cls id pending fields) := by
  induction whole generalizing v with
  | leaf inert =>
    rw [reads.eq_of_leaf] at ha
    exact absurd ha (inert a)
  | entity hid hp fields _ =>
    cases reads with
    | entity cell reads =>
      cases ha
      exact ⟨_, _, _, _, .entity hid hp fields, .entity cell reads⟩
  | array _ ih =>
    cases reads with
    | array size reads =>
      cases ha with
      | list hx ha =>
        obtain ⟨u, hu⟩ := exists_mem_zip_of_mem_left size hx
        exact ih u (List.of_mem_zip hu).2 (reads _ hu) ha
  | dictionary inert _ ih =>
    cases reads with
    | dictionary size reads =>
      cases ha with
      | dictKey he ha => exact absurd ha (inert _ (List.mem_map_of_mem he) a)
      | dict he ha =>
        obtain ⟨u, hu⟩ := exists_mem_zip_of_mem_left (by simpa using size)
          (List.mem_map_of_mem (f := Prod.snd) he)
        exact ih u (List.of_mem_zip hu).2 (reads _ hu) ha

/-- What reads as a whole tree holds entities that read as whole trees. -/
theorem Tree.Whole.of_holds (whole : t.Whole g) (reads : Heap.Reads g h v t) (ha : h.Holds v a) :
    ∃ cls id pending fields, (Tree.entity cls id pending fields).Whole g ∧
      Heap.Reads g h (.object a) (.entity cls id pending fields) := by
  induction ha with
  | direct ha => exact whole.of_leadsTo reads ha
  | through _ hp hb ih =>
    obtain ⟨cls, id, pending, fields, whole, reads⟩ := ih
    cases whole with
    | entity hid hpending hfields =>
      cases reads with
      | entity cell reads =>
        rw [cell, Cell.ofFields] at hp
        rcases hp with _ | ⟨_, _ | ⟨_, hp⟩⟩
        · exact absurd hb (hid _)
        · exact absurd hb (hpending _)
        · obtain ⟨name, hname, rfl⟩ := List.mem_map.1 hp
          obtain ⟨f, hf, rfl⟩ := List.mem_map.1 hname
          exact (hfields f hf).of_leadsTo (reads _ hname) hb

/-- **The entities in what reads as a whole tree have their methods from their classes.** -/
theorem Heap.Reads.genuine (hg : g.WellFormed) (reads : Heap.Reads g h v t) (whole : t.Whole g) :
    h.Genuine v := by
  intro a ha _ name hname
  obtain ⟨cls, id, pending, fields, -, reads⟩ := whole.of_holds reads ha
  obtain ⟨_, _, ⟨⟩, cell, -⟩ := reads.exists_cell
  refine own?_of_reserved hg cell ?_ ?_ ?_ <;>
    · revert name
      decide

end

/-! ### Methods that end -/

section

variable {g : Catalog} {h : Heap} {a : Address} {cls : ClassId}

/-- The validation of a genuine entity ends. -/
theorem Heap.Genuine.validate_ne_endless (genuine : h.Genuine (.object a))
    (free : h.SelfFree g (.object a)) (hs : (h.get a).species = .entity cls) :
    Method.validate g h a ≠ .error .endless := by
  intro failed
  have held : h.Holds (.object a) a := .direct (.object a)
  rcases genuine.refuses free held (by simp [Heap.isEntity, hs]) _ failed with
    ⟨_, heq⟩ | ⟨_, heq⟩ <;>
    cases heq

/-- The report of a genuine entity ends. -/
theorem Heap.Genuine.report_ne_endless (genuine : h.Genuine (.object a))
    (free : h.SelfFree g (.object a)) (hs : (h.get a).species = .entity cls) :
    Method.report g h (.object a) ≠ .error .endless := by
  rw [Validation.report_eq genuine free hs]
  rcases Validation.fieldFailures_cases cls genuine free with
    ⟨-, failures⟩ | ⟨_, _, _, _, -, -, -, failed⟩
  · rw [failures]
    exact nofun
  · rw [failed]
    exact nofun

/-- In a value in which no entity contains itself the bound on the calls one inside the other is
never met. -/
theorem Method.call_method_of_le (free : h.SelfFree g (.object a)) (name : String) {fuel : Nat}
    (le : Method.depth h ≤ fuel) :
    Method.call g h fuel (.method (.object a) name) =
      Method.invoke g h (.method (.object a) name) := by
  refine Method.call_eq_invoke (fun b hb => free b (hb.of_leads ?_)) ?_
  · intro c hc
    cases hc
    exact .direct (.object a)
  · unfold Method.depth at le
    omega

end

/-- What is constructed is an entity of the class. -/
theorem Catalog.exists_of_built {g : Catalog} {fuel : Nat} {cls : ClassId} {raw : Value} {t : Tree}
    (ht : g.built fuel cls raw = some t) :
    ∃ id pending fields, t = .entity cls id pending fields := by
  cases fuel with
  | zero => cases ht
  | succ fuel =>
    obtain ⟨data, trees, -, -, rfl⟩ := built_succ_eq_some.1 ht
    exact ⟨_, _, trees, rfl⟩

namespace Construction

variable {g : Catalog}

/-- **Construction ends, and so do the methods of what it makes.**  However the schemas refer to
each other or to themselves, construction from a raw value has a result or fails, and more room for
entities one inside the other than the raw value is deep changes nothing.  Of a raw value that leads
to no object the result is an entity; its validation, its report and its raw data end, and more room
for calls one inside the other than there is changes nothing. -/
theorem ofRaw_ends (hg : g.WellFormed) (cls : ClassId) {raw : Value} (hraw : raw.Inert) (h : Heap) :
    (∀ fuel, raw.depth ≤ fuel → within g fuel cls raw h = ofRaw g cls raw h) ∧
    ofRaw g cls raw h ≠ .error .endless ∧
    ∀ v h', ofRaw g cls raw h = .ok (v, h') → ∃ a, v = .object a ∧
      (h'.get a).species = .entity cls ∧
      (∀ name fuel, Method.depth h' ≤ fuel →
        Method.call g h' fuel (.method (.object a) name) =
          Method.invoke g h' (.method (.object a) name)) ∧
      Method.validate g h' a ≠ .error .endless ∧
      Method.report g h' (.object a) ≠ .error .endless ∧
      ∃ form, Method.toRaw g h' a = .ok (.dict form) := by
  refine ⟨fun fuel le => congrFun (within_eq_ofRaw le cls) h, ends_ofRaw cls raw h, ?_⟩
  intro v h' made
  have tame : g.Tame (g.lookIn []) (g.DrawnInert cls) :=
    g.tame_drawnInert cls (List.forall_mem_nil _)
  obtain ⟨t, built, -, reads⟩ := (refines_ofRaw tame hg le_rfl ⟨hraw, .refl⟩).of_ok made
  have whole : t.Whole g := Catalog.whole_of_built hg _ hraw built
  replace reads : Heap.Reads g h' v t := reads.mono (Heap.only_within_self _ h')
  obtain ⟨id, pending, fields, rfl⟩ := Catalog.exists_of_built built
  obtain ⟨a, _, rfl, cell, -⟩ := reads.exists_cell
  have free := reads.selfFree hg whole
  have genuine := reads.genuine hg whole
  have species : (h'.get a).species = .entity cls := by rw [cell]; rfl
  obtain ⟨form, told⟩ := Tree.exists_form_entity g cls id pending fields
  exact ⟨a, rfl, species, fun name _ le => Method.call_method_of_le free name le,
    genuine.validate_ne_endless free species, genuine.report_ne_endless free species, form,
    (reads.toRaw hg whole).trans (congrArg Except.ok told)⟩

/-! ### A user with friends -/

theorem wellFormed_users : Inspection.users.WellFormed := by
  have user : (⟨Catalog.initial.classes ++ [⟨"User", "User", [1, 0],
      [("name", Checker.string.require), ("friend", .reference (.named "User") .null false)],
      none, none⟩], [("User", 1)]⟩ : Catalog).WellFormed :=
    Catalog.wellFormed_initial.append (by decide) (by decide)
  exact user

/-- A user whose friend is given by pairs, with an empty text for the friend of that one. -/
def rawFriends : Value :=
  .dict [(.str "name", .str "Ann"),
    (.str "friend", .list [.list [.str "name", .str "Bob"], .list [.str "friend", .str ""]])]

/-- Three users are constructed one inside the other, the innermost one nameless. -/
theorem ofRaw_ends_friends : ∃ h, ofRaw Inspection.users 1 rawFriends [] = .ok (.object 2, h) ∧
    Method.validate Inspection.users h 2 =
      .error (.check (.nested "friend" (.nested "friend" (.missing "name")))) ∧
    Method.report Inspection.users h (.object 2) ≠ .error .endless ∧
    ∃ form, Method.toRaw Inspection.users h 2 = .ok (.dict form) := by
  have made : ∃ h, ofRaw Inspection.users 1 rawFriends [] = .ok (.object 2, h) ∧
      Method.validate Inspection.users h 2 =
        .error (.check (.nested "friend" (.nested "friend" (.missing "name")))) :=
    ⟨_, rfl, rfl⟩
  obtain ⟨h, made, failed⟩ := made
  have inert : rawFriends.Inert := (Value.isData_of_isPlain rawFriends (by decide)).inert
  obtain ⟨a, ha, -, -, -, reported, told⟩ :=
    (ofRaw_ends wellFormed_users 1 inert []).2.2 _ h made
  cases ha
  exact ⟨h, made, failed, reported, told⟩

end Construction

end EntitySchema
