/-
**Saving that fails.**

An entity is given an identifier before it is validated and stored, and keeps it if that fails.
This is all that becomes of it.  What was stored stays as it was, whether the entity does not pass
its validation, its raw data cannot be told, its store cannot be opened or is not connected, or the
record is refused there; and so does every other store.  Where a record that cannot be copied is put
into a store in memory the old one is lost, as with every such put, and nothing else.

Main definitions:

* `Session.Aloof` — a store in memory whose records do not lead to an object;
* `Persistence.Loses` — a record that is lost, for it cannot be copied;
* `Persistence.Spared` — **a store of which all is told as before**.

Main results:

* `Heap.copiesAlike_offBy` — **a copy of what does not lead to an object does not depend on it**;
* `Session.idles_storeOf` — nothing becomes of the other stores when the shared store is opened;
* `Custody.Begins.aloof_of_run` — in every run the records of a store lead to nothing within reach;
* `Persistence.save_error` — **saving that fails leaves nothing but an identifier.**
-/

import EntitySchema.Proofs.Custody
import EntitySchema.Proofs.LinkedTables
import EntitySchema.Proofs.Saving
import EntitySchema.Proofs.StoreWork

set_option autoImplicit false

namespace EntitySchema

/-! ### Copies that do not depend on an object -/

namespace Heap

variable {h h' : Heap} {v : Value} {a : Address}

/-- Two heaps that extend a third differ at most at an address. -/
structure OffBy (base : Heap) (a : Address) (h h' : Heap) : Prop where
  grown : base <+: h
  length : h'.length = h.length
  others : ∀ b, b ≠ a → get h' b = get h b

/-- **A copy of what does not lead to an object does not depend on it.** -/
theorem copiesAlike_offBy {base : Heap} {es : Entries} (sound : base.Sound)
    (covers : base.Covers (.dict es)) (free : ¬ base.Comprises (.dict es) a) :
    Session.CopiesAlike (OffBy base a) es := by
  intro h h' off
  have agree : ∀ b ∈ reach h (.dict es), get h' b = get h b := by
    intro b hb
    refine off.others b fun same => free ?_
    exact same ▸ (comprises_of_mem_reach hb).of_extended sound covers off.grown
  have cells (addr : Address → Address) :
      (reach h (.dict es)).map (fun b => renameCell addr (get h' b)) =
        (reach h (.dict es)).map fun b => renameCell addr (get h b) :=
    List.map_congr_left fun b hb => by rw [agree b hb]
  have made : h'.copy (.dict es) = ((h.copy (.dict es)).1, h' ++
      (reach h (.dict es)).map fun b => renameCell (freshFrom h.length (reach h (.dict es)))
        (get h b)) := by
    rw [copy, copy, reach_congr off.length agree, off.length, cells]
  rw [made]
  refine ⟨rfl, off.grown.trans (List.prefix_append _ _), ?_, fun b hb => ?_⟩
  · simp only [copy, List.length_append, off.length]
  · have same := off.others b hb
    rcases Nat.lt_or_ge b h.length with lt | ge
    · rw [copy, get_of_extended (List.prefix_append _ _) lt,
        get_of_extended (List.prefix_append _ _) (off.length ▸ lt), same]
    · rw [copy, get, get, List.getElem?_append_right ge,
        List.getElem?_append_right (off.length.symm ▸ ge), off.length]

end Heap

/-! ### Opening the shared store -/

namespace Session

variable {s s' : Session} {i : StoreId} {n : Nat}

theorem Idles.mono {m : Nat} (h : Idles m s s') (hn : n ≤ m) : Idles n s s' :=
  { h with
    stores := fun j hj => h.stores j (hj.trans_le hn)
    ready := fun j hj => h.ready j (hj.trans_le hn)
    present := fun j hj => h.present j (hj.trans_le hn)
    awaited := fun j hj => h.awaited j (hj.trans_le hn) }

/-- To connect a store leaves those before it as they are. -/
theorem idles_connect (hi : n ≤ i) : Idles n s (outcome (connect i) s).2 := by
  rw [connect, outcome_get_bind]
  cases hs : s.store i with
  | memory rs => exact .refl n s
  | file path link =>
    have saves := Disk.saves_connect s.disk path
    dsimp only
    rcases hc : s.disk.connect path with ⟨b | link', d⟩ <;> rw [hc] at saves <;> dsimp only
    · have read : Idles n s { s with disk := d } :=
        MovesOn.idles ⟨rfl, rfl, rfl, .refl _⟩ rfl le_rfl (fun _ _ => rfl) saves.made
      exact read.wait _
    · have read : Idles n s ({ s with disk := d }.setStore i (.file path link')) :=
        MovesOn.idles ⟨rfl, rfl, rfl, .refl _⟩ rfl (List.length_set ..).ge
          (fun j hj => List.getElem?_set_ne (by omega)) saves.made
      cases link' <;> exact read.wait _

/-- Two steps leave the stores as they are if each does. -/
theorem Idles.of_bind {α β : Type} {a : Action α} {f : α → Action β}
    (ha : Idles n s (outcome a s).2) (hf : ∀ x t, outcome a s = (.ok x, t) →
      Idles n t (outcome (f x) t).2) : Idles n s (outcome (a >>= f) s).2 := by
  rw [outcome_bind]
  rcases hx : outcome a s with ⟨e | x, t⟩ <;> rw [hx] at ha
  · exact ha
  · exact ha.trans (hf x t hx)

/-- Opening the shared store leaves the stores as they are that were there, if one that was shared
before is opened only later. -/
theorem idles_openShared (hn : n ≤ s.stores.length)
    (later : ∀ sh, s.shared = some sh → s.now.before sh.opened = true) :
    Idles n s (outcome (openShared s.now) s).2 := by
  rcases openShared_cases s s.now with ⟨kept?, read⟩ | ⟨kept?, x, t, failure?, connected, opened⟩
  · rw [read]
    exact MovesOn.idles ⟨rfl, rfl, rfl, .refl _⟩ rfl le_rfl (fun _ _ => rfl) id
  · have began : Idles n s { s with settings := kept?, stores := s.stores ++ [storeFor x] } :=
      MovesOn.idles ⟨rfl, rfl, rfl, .refl _⟩ rfl (by simp)
        (fun j hj => List.getElem?_append_left (hj.trans_le hn)) id
    have went : Idles n s t := began.trans (connected ▸ idles_connect hn)
    have apart : ∀ j < n, ∀ now : Instant, awaited { t with
        now := now, shared := some ⟨s.stores.length, s.now, t.now, failure?⟩ } j = false := by
      intro j hj now
      have other : s.stores.length ≠ j := by omega
      simp [awaited, other]
    rw [opened]
    exact
      { catalog := went.catalog
        heap := went.heap
        length := went.length
        stores := went.stores
        table := went.table
        ready := fun j hj _ => apart j hj s.now
        present := fun j hj _ sh hsh same => by
          cases hsh
          exact absurd same (hj.trans_le hn).ne'
        awaited := fun j hj there now => by
          -- what was shared before was opened by now, so it is another one
          refine (apart j hj now).trans ?_
          cases hs : s.shared with
          | none => simp [awaited]
          | some sh =>
            have other : sh.store ≠ j := fun same => by
              have early : s.now.before sh.opened = false := (there sh hs same).1
              exact Bool.false_ne_true (early.symm.trans (later sh hs))
            simp [awaited, other] }

/-- Waiting for the shared store leaves the stores as they are. -/
theorem idles_joinShared (n : Nat) (s : Session) : Idles n s (outcome joinShared s).2 := by
  rw [joinShared, outcome_get_bind]
  cases hs : s.shared with
  | none => exact .refl n s
  | some sh =>
    have joined :
        Idles n s { s with now := sh.ready, shared := some { sh with failure? := none } } :=
      { catalog := rfl
        heap := rfl
        length := le_rfl
        stores := fun _ _ => rfl
        table := id
        ready := fun j _ _ => by simp [awaited, Instant.not_before_self]
        present := fun j _ there sh' hsh same => by
          cases hsh
          have connected := (there sh hs same).2
          exact ⟨connected, connected⟩
        awaited := fun j _ _ time => by simp [awaited, hs] }
    dsimp only
    cases sh.failure? <;> exact joined

/-- **Nothing becomes of the stores that are there when the shared store is asked for**, be it
opened then or not. -/
theorem idles_sharedStore (hn : n ≤ s.stores.length) : Idles n s (outcome sharedStore s).2 := by
  rw [sharedStore, outcome_get_bind]
  cases hq : s.survey with
  | some asked =>
    have waited := (Idles.refl n s).wait sharedStore.never
    exact { waited with }
  | none =>
    have anew (later : ∀ sh, s.shared = some sh → s.now.before sh.opened = true) :
        Idles n s (outcome (do openShared s.now; joinShared) s).2 :=
      (idles_openShared hn later).of_bind fun _ t _ => idles_joinShared n t
    cases hs : s.shared with
    | none => exact anew (by simp [hs])
    | some sh =>
      dsimp only
      split
      · exact .refl n s
      · next notBefore =>
        split
        · exact idles_joinShared n s
        · next notNow =>
          refine anew fun sh' hsh => ?_
          cases hs.symm.trans hsh
          by_contra none
          exact notNow (Instant.eq_of_not_before (Bool.eq_false_iff.2 notBefore)
            (Bool.eq_false_iff.2 none))

/-- **The store of a class is found, and nothing becomes of the stores that are there.** -/
theorem idles_storeOf (hn : n ≤ s.stores.length) (cls : ClassId) :
    Idles n s (outcome (storeOf cls) s).2 := by
  rw [storeOf, outcome_get_bind]
  cases s.catalog.assignedStore? cls with
  | some i => exact .refl n s
  | none => exact idles_sharedStore hn

end Session

/-! ### Records that do not lead to an object -/

/-- The records of a store in memory lead to nothing that is not there, and not to an object. -/
def Session.Aloof (s : Session) (i : StoreId) (a : Address) : Prop :=
  ∀ rs, s.store i = .memory rs → s.heap.Sound ∧
    ∀ r ∈ rs, s.heap.Covers (.dict r.data) ∧ ¬ s.heap.Comprises (.dict r.data) a

namespace Custody

variable {i : StoreId} {w w₀ : Custody} {a : Address}

/-- What belongs to a store does not lead to what is within reach of its users. -/
theorem Apart.aloof {own : Address → Prop} (apart : Apart i w own) (has : w.Has a) :
    w.session.Aloof i a := by
  intro rs hs
  obtain ⟨rs', store, records⟩ := apart.records
  cases (Session.store_eq store).symm.trans hs
  refine ⟨apart.sound, fun r hr => ?_⟩
  obtain ⟨n, hn, rfl⟩ := List.mem_iff_getElem.1 hr
  have keeps := (records.get (records.length_eq ▸ hn) hn).2
  exact ⟨keeps.covers, fun comprised =>
    (apart.of_has has).2 (apart.own_of_comprises keeps.kept comprised)⟩

/-- **In every run the records of a store in memory do not lead to what is within reach of its
users.** -/
theorem Begins.aloof_of_run (begins : Begins i w₀)
    (run : Relation.ReflTransGen (Step i) w₀ w) (has : w.Has a) : w.session.Aloof i a := by
  obtain ⟨own, apart⟩ := begins.apart_of_run run
  exact apart.aloof has

end Custody

/-! ### Saving that fails -/

/-- An entity has what it has itself, and else what its class gives it. -/
theorem Heap.objectAttribute?_of_species {g : Catalog} {h : Heap} {a : Address} {cls : ClassId}
    (species : (get h a).species = .entity cls) {name : String}
    (plain : name ∉ ["__class__", "__dict__", "__weakref__", "id"]) :
    objectAttribute? g h a name = ((get h a).own? name).or (givenAttribute? g a cls name) := by
  simp only [List.mem_cons, List.not_mem_nil, or_false, not_or] at plain
  simp only [objectAttribute?, plain, if_false, species]

namespace Persistence

open Session

variable {s s' : Session} {a : Address} {cls : ClassId} {id : Value} {e : Failure} {n : Nat}

/-- A record is lost under the key of an entity: what is told of the entity is found to be a record,
and cannot be copied into the store in memory. -/
def Loses (s : Session) (i : StoreId) (a : Address) (key : RecordKey) : Prop :=
  ∃ kind id raw, Method.needed s.catalog s.heap a "kind" = .ok kind ∧
    Method.needed s.catalog s.heap a idField = .ok id ∧
    Method.toRaw s.catalog s.heap a = .ok raw ∧ s.lost i kind id raw = some key

/-- What would be lost of a store in memory does not depend on its records. -/
theorem Loses.of_memory {i : StoreId} {rs rs' : MemoryStore} {key : RecordKey}
    (loses : Loses s i a key) (hs : s.store i = .memory rs) (hs' : s'.store i = .memory rs')
    (catalog : s'.catalog = s.catalog) (heap : s'.heap = s.heap) : Loses s' i a key := by
  obtain ⟨kind, id, raw, told⟩ := loses
  refine ⟨kind, id, raw, ?_⟩
  rw [lost_of_memory hs] at told
  rw [lost_of_memory hs', catalog, heap]
  exact told

/-- What saving leaves behind after the identification. -/
inductive Leaves (a : Address) (s s' : Session) : Prop
  /-- Nothing becomes of any store. -/
  | idle : Idles s.stores.length s s' → Leaves a s s'
  /-- A record of a store in memory is lost. -/
  | lost {t : Session} {i : StoreId} {rs : MemoryStore} {key : RecordKey} :
      Idles s.stores.length s t → t.store i = .memory rs → Loses t i a key →
      s' = t.setStore i (.memory (rs.without key)) → Leaves a s s'

/-- The store of an entity is that of its class. -/
theorem outcome_storeOf_given (species : (Heap.get s.heap a).species = .entity cls)
    (resolve : (Heap.get s.heap a).own? "_resolve_store" = none) (fuel : Nat) (needed : String) :
    outcome (storeOf (perform (fuel + 1)) a needed) s = outcome (Session.storeOf cls) s := by
  have method : Heap.objectAttribute? s.catalog s.heap a "_resolve_store" =
      some (.method (.cls cls) "_resolve_store") := by
    rw [Heap.objectAttribute?_of_species species (by decide), resolve]
    rfl
  have told : outcome (perform (fuel + 1) (.method (.cls cls) "_resolve_store")) s =
      outcome (Session.storeOf cls >>= fun i => pure (.store i)) s := by
    rw [perform, outcome_get_bind, invoke_resolveStore]
    rfl
  rw [storeOf, outcome_bind_ok (outcome_attributeOf method), outcome_bind, told, outcome_bind]
  rcases outcome (Session.storeOf cls) s with ⟨e | i, t⟩ <;> rfl

/-- A step after which an action fails. -/
theorem error_of_bind {α β : Type} {x : Action α} {f : α → Action β}
    (run : outcome (x >>= f) s = (.error e, s')) : outcome x s = (.error e, s') ∨
      ∃ y t, outcome x s = (.ok y, t) ∧ outcome (f y) t = (.error e, s') := by
  rw [outcome_bind] at run
  rcases hx : outcome x s with ⟨e' | y, t⟩ <;> rw [hx] at run <;> dsimp only at run
  · cases run
    exact .inl rfl
  · exact .inr ⟨y, t, rfl, run⟩

theorem ofExcept_state {α : Type} {x : Except Failure α} {r : Except Failure α}
    (run : outcome (Session.ofExcept x) s = (r, s')) : s' = s := (congrArg Prod.snd run).symm

theorem needed_of_attributeOf {name : String} {r : Except Failure Value}
    (run : outcome (attributeOf a name) s = (r, s')) :
    Method.needed s.catalog s.heap a name = r ∧ s' = s := by
  rw [attributeOf, outcome_get_bind, outcome_ofExcept] at run
  exact ⟨congrArg Prod.fst run, (congrArg Prod.snd run).symm⟩

/-- What an entity that is identified leaves behind if saving it fails. -/
theorem leaves_of_error (species : (Heap.get s.heap a).species = .entity cls)
    (resolve : (Heap.get s.heap a).own? "_resolve_store" = none) (fuel : Nat)
    (run : outcome (do
      let s ← get
      Session.ofExcept (Method.validate s.catalog s.heap a)
      let st ← storeOf (perform (fuel + 1)) a "put"
      let kind ← attributeOf a "kind"
      let id ← attributeOf a idField
      let s ← get
      let raw ← Session.ofExcept (Method.toRaw s.catalog s.heap a)
      putRecord st kind id raw
      pure (.object a) : Action Value) s = (.error e, s')) : Leaves a s s' := by
  rw [outcome_get_bind] at run
  rcases error_of_bind run with fails | ⟨_, _, valid, run₁⟩
  · cases ofExcept_state fails
    exact .idle (.refl _ s)
  cases ofExcept_state valid
  have found := idles_storeOf (le_refl s.stores.length) cls
  rw [← outcome_storeOf_given species resolve fuel "put"] at found
  rcases error_of_bind run₁ with fails | ⟨i, t, hi, run₂⟩
  · rw [fails] at found
    exact .idle found
  rw [hi] at found
  replace found : Idles s.stores.length s t := found
  rcases error_of_bind run₂ with fails | ⟨kind, _, hkind, run₃⟩
  · exact .idle ((needed_of_attributeOf fails).2 ▸ found)
  obtain ⟨kindTold, rfl⟩ := needed_of_attributeOf hkind
  rcases error_of_bind run₃ with fails | ⟨id, _, hid, run₄⟩
  · exact .idle ((needed_of_attributeOf fails).2 ▸ found)
  obtain ⟨idTold, rfl⟩ := needed_of_attributeOf hid
  rw [outcome_get_bind] at run₄
  rcases error_of_bind run₄ with fails | ⟨raw, _, hraw, run₅⟩
  · exact .idle (ofExcept_state fails ▸ found)
  obtain ⟨told, rfl⟩ := Prod.mk.inj hraw
  rcases error_of_bind run₅ with fails | ⟨_, _, _, done⟩
  swap
  · cases done
  rcases putRecord_error fails with ⟨-, -, rests⟩ | ⟨key, rs, hlost, hs, rfl⟩
  · exact .idle (found.trans (rests.idles _))
  · exact .lost found hs ⟨kind, id, raw, kindTold, idTold, told, hlost⟩ rfl

/-! ### What is left of the session before -/

/-- Identifying an entity changes its cell at most. -/
theorem offBy_identified (s : Session) (a : Address) (id : Value) :
    Heap.OffBy s.heap a s.heap (s.identified a id).heap := by
  unfold identified
  split
  · refine ⟨List.prefix_rfl, ?_, fun b hb => Heap.get_put_of_ne _ hb.symm _ _⟩
    simp only [Heap.put, Heap.write, List.length_set]
  · exact ⟨List.prefix_rfl, rfl, fun _ _ => rfl⟩

theorem there_of_species (species : (Heap.get s.heap a).species = .entity cls) :
    a < s.heap.length :=
  Heap.lt_of_isEntity (by rw [Heap.isEntity, species])

theorem species_identified (species : (Heap.get s.heap a).species = .entity cls) (id : Value) :
    (Heap.get (s.identified a id).heap a).species = .entity cls := by
  unfold identified
  split
  · rw [Heap.get_put_self _ (there_of_species species)]
    exact species
  · exact species

theorem isEntity_identified (species : (Heap.get s.heap a).species = .entity cls) (id : Value) :
    (s.identified a id).heap.isEntity = s.heap.isEntity := by
  funext b
  by_cases hb : b = a
  · subst hb
    rw [Heap.isEntity, Heap.isEntity, species, species_identified species]
  · rw [Heap.isEntity, Heap.isEntity, (offBy_identified s a id).others b hb]

theorem own?_identified (species : (Heap.get s.heap a).species = .entity cls) (id : Value)
    {name : String} (other : name ≠ idField) :
    (Heap.get (s.identified a id).heap a).own? name = (Heap.get s.heap a).own? name := by
  unfold identified
  split
  · rw [Heap.get_put_self _ (there_of_species species)]
    exact Table.get?_put_of_ne _ other _
  · rfl

/-- What a store offers does not depend on the objects and the identifiers made. -/
theorem offers_of_identified {j : StoreId} {time : Instant}
    (h : Offers j { s.identified a id with now := time } s') :
    Offers j { s with now := time } s' := by
  unfold identified at h
  split at h
  · cases h with
    | memory hs hs' => exact .memory hs hs'
    | file hs hs' hl ht => exact .file hs hs' hl ht
  · exact h

theorem hasTable_identified {j : StoreId} (table : s.HasTable j) :
    (s.identified a id).HasTable j := by
  unfold identified
  split <;> exact table

theorem awaited_identified (s : Session) (a : Address) (id : Value) (j : StoreId) :
    (s.identified a id).awaited j = s.awaited j := by
  unfold identified
  split <;> rfl

theorem present_identified {j : StoreId} (there : s.Present j) : (s.identified a id).Present j := by
  unfold identified
  split <;> exact there

/-- Another store offers the same where one is changed. -/
theorem offers_setStore {i j : StoreId} {st : Store} (h : Offers j s s') (hij : i ≠ j) :
    Offers j s (s'.setStore i st) := by
  have store : (s'.setStore i st).store j = s'.store j := by
    rw [Session.store, setStore, List.getElem?_set_ne hij, Session.store]
  have link : (s'.setStore i st).linkOf j = s'.linkOf j := by
    rw [linkOf, linkOf, store]
    rfl
  cases h with
  | memory hs hs' => exact .memory hs (store.trans hs')
  | file hs hs' hl ht => exact .file hs (store.trans hs') (link.trans hl) ht

/-- Queries of a store that offers the same have the same answers, where at most an entity that its
records do not lead to was identified. -/
theorem alike_of_identified (species : (Heap.get s.heap a).species = .entity cls)
    (heap : s'.heap = (s.identified a id).heap) {j : StoreId} {time : Instant}
    (offers : Offers j { s with now := time } s') (aloof : s.Aloof j a) (q : Query)
    (names : q.Names s s') : q.Alike j { s with now := time } s' := by
  refine Query.alike (R := Heap.OffBy s.heap a) offers ?_ (fun rs hs r hr => ?_) ?_
    (fun h h' off b hb => ?_) q ?_
  · rw [heap]
    exact offBy_identified s a id
  · obtain ⟨sound, free⟩ := aloof rs hs
    exact Heap.copiesAlike_offBy sound (free r hr).1 (free r hr).2
  · rw [heap, isEntity_identified species]
  · exact off.others b fun same => absurd (there_of_species species) (Nat.not_lt.2 (same ▸ hb))
  · cases q <;> exact names

/-- What is asked of a store is answered as before an entity was saved, if the store has its table
and its records do not lead to the entity. -/
def Spared (a : Address) (s s' : Session) (j : StoreId) : Prop :=
  s.HasTable j → s.Aloof j a → ∀ q : Query, q.Names s s' → q.Unaffected j s s'

/-- A store that nothing becomes of after the identification is spared. -/
theorem spared_of_offers (species : (Heap.get s.heap a).species = .entity cls)
    (heap : s'.heap = (s.identified a id).heap) {j : StoreId}
    (offers : (s.identified a id).HasTable j →
      ((s.identified a id).awaited j = false → Offers j (s.identified a id) s') ∧
      ((s.identified a id).Present j → Offers j { s.identified a id with now := s'.now } s')) :
    Spared a s s' j := by
  intro table aloof q names
  obtain ⟨ready, timely⟩ := offers (hasTable_identified table)
  refine ⟨fun unawaited => ?_, fun there => alike_of_identified species heap
    (offers_of_identified (timely (present_identified there))) aloof q names⟩
  have now : (s.identified a id).now = s.now := by
    unfold identified
    split <;> rfl
  have same : Offers j { s.identified a id with now := s.now } s' :=
    now ▸ ready ((awaited_identified s a id j).trans unawaited)
  exact alike_of_identified species heap (offers_of_identified same) aloof q names

/-- What becomes of an entity that is identified and of the stores, where this is all that saving
leaves behind. -/
theorem spared_of_leaves (species : (Heap.get s.heap a).species = .entity cls)
    (left : Leaves a (s.identified a id) s') :
    s'.heap = (s.identified a id).heap ∧
    ((∀ j < s.stores.length, Spared a s s' j) ∨
      ∃ i < s.stores.length, (∀ j < s.stores.length, j ≠ i → Spared a s s' j) ∧
        ∃ rs key, s.store i = .memory rs ∧ s'.store i = .memory (rs.without key) ∧
          Loses s' i a key) := by
  have stores : (s.identified a id).stores = s.stores := identified_stores ..
  cases left with
  | idle idles =>
    rw [stores] at idles
    exact ⟨idles.heap, .inl fun j hj => spared_of_offers species idles.heap (idles.offers hj)⟩
  | @lost t i rs key found hs loses hs' =>
    subst hs'
    rw [stores] at found
    have heap : (t.setStore i (.memory (rs.without key))).heap = (s.identified a id).heap :=
      found.heap
    have others : ∀ j < s.stores.length, j ≠ i →
        Spared a s (t.setStore i (.memory (rs.without key))) j := by
      refine fun j hj other => spared_of_offers species heap fun table => ?_
      obtain ⟨ready, timely⟩ := found.offers hj table
      exact ⟨fun unawaited => offers_setStore (ready unawaited) other.symm,
        fun there => offers_setStore (timely there) other.symm⟩
    refine ⟨heap, ?_⟩
    by_cases hi : i < s.stores.length
    · have old : s.store i = .memory rs := by
        rw [← hs, Session.store, Session.store, found.stores i hi, stores]
      have new : (t.setStore i (.memory (rs.without key))).store i =
          .memory (rs.without key) := by
        have there : i < t.stores.length := hi.trans_le (stores ▸ found.length)
        simp [Session.store, setStore, there]
      exact .inr ⟨i, hi, others, rs, key, old, new, loses.of_memory hs new rfl rfl⟩
    · exact .inl fun j hj => others j hj fun same => hi (same ▸ hj)

/-- **Saving that fails leaves nothing but an identifier.**  The entity is given one if it has none,
and nothing else becomes of it or any other object.  What is asked of a store has the same answer as
before, or as it would have by then, for every kind, and for every identifier whose text is the
same.  Only where what is filed cannot be copied into a store in memory the record under the key of
the entity is lost there. -/
theorem save_error (species : (Heap.get s.heap a).species = .entity cls)
    (unhidden : (Heap.get s.heap a).own? "save" = none)
    (resolve : (Heap.get s.heap a).own? "_resolve_store" = none)
    (run : outcome (save (.object a)) s = (.error e, s')) :
    (s'.heap = s.heap ∨ (Heap.get s.heap a).own? idField = some .null ∧
      s'.heap = s.heap.put a idField (.str (identifier (s.serial + 1)))) ∧
    ((∀ j < s.stores.length, Spared a s s' j) ∨
      ∃ i < s.stores.length, (∀ j < s.stores.length, j ≠ i → Spared a s s' j) ∧
        ∃ rs key, s.store i = .memory rs ∧ s'.store i = .memory (rs.without key) ∧
          Loses s' i a key) := by
  have method : Heap.attribute? s.catalog s.heap 0 (.object a) "save" =
      some (.method (.object a) "save") := by
    rw [Heap.attribute?, Heap.objectAttribute?_of_species species (by decide), unhidden]
    rfl
  have told : Heap.objectAttribute? s.catalog s.heap a idField =
      (Heap.get s.heap a).own? idField := by
    rw [Heap.objectAttribute?_of_species species (by decide)]
    exact Option.or_none
  rw [save, send, outcome_get_bind, method] at run
  dsimp only at run
  rw [depth, outcome_perform_save] at run
  cases hid : (Heap.get s.heap a).own? idField with
  | none =>
    -- an entity that cannot tell an identifier is left as it is
    have fails : outcome (identify a) s = (.error (.noAttribute idField), s) := by
      rw [identify, outcome_get_bind, Method.needed, told, hid]
      rfl
    rw [outcome_bind_error fails] at run
    cases run
    exact ⟨.inl rfl, .inl fun _ _ _ _ _ _ =>
      ⟨fun _ => ⟨rfl, fun _ _ => rfl⟩, fun _ => ⟨rfl, fun _ _ => rfl⟩⟩⟩
  | some id =>
    rw [outcome_bind_ok (outcome_identify_of_told (told.trans hid))] at run
    have left := leaves_of_error (species_identified species id)
      ((own?_identified species id (by decide)).trans resolve) _ run
    have known : (s.identified a id).heap = s.heap ∨ some id = some Value.null ∧
        (s.identified a id).heap = s.heap.put a idField (.str (identifier (s.serial + 1))) := by
      unfold identified identifierOf
      cases id with
      | null => exact .inr ⟨rfl, rfl⟩
      | _ => exact .inl rfl
    obtain ⟨heap, spared⟩ := spared_of_leaves species left
    exact ⟨heap ▸ known, spared⟩

/-- A class of people, who need a name, and which uses the first store. -/
def people : Catalog where
  classes := [⟨"Entity", "Entity", [0], [], none, some (some 0)⟩,
    ⟨"Person", "Person", [1, 0], [("name", Checker.string.require)], none, none⟩]
  names := [("Person", 1)]

/-- A person without a name, under an identifier or none. -/
def unnamed (id : Value) : Heap := [.entity 1 id [] [("name", .null)]]

/-- A person without a name and without an identifier, and the record of another one. -/
def nameless : Session :=
  { initial with
    catalog := people
    heap := unnamed .null
    stores := [.memory
      [⟨⟨.text "Person", "1"⟩, [(.str "_id", .str "1"), (.str "name", .str "Ann")]⟩]] }

/-- The session after the person was saved in vain. -/
def notSaved : Session := (outcome (save (.object 0)) nameless).2

theorem notSaved_heap : notSaved.heap = unnamed (.str "00000000000000000000000000000001") := rfl

/-- A person whose identifier is an object that cannot be copied, and the record under its text. -/
def oddlyNamed : Session :=
  { initial with
    catalog := people
    heap := [.entity 1 (.object 1) [] [("name", .str "Ann")], .plain [("__deepcopy__", .int 5)]]
    stores := [.memory [⟨⟨.text "Person", "<Obj object at 1>"⟩, [(.str "name", .str "Ann")]⟩]] }

/-- **An entity that is not valid is given an identifier when it is saved in vain**; and one that
cannot be copied loses its record in memory. -/
theorem identifier_of_save_error :
    (∃ e, outcome (save (.object 0)) nameless = (.error e, notSaved) ∧
      (Heap.get nameless.heap 0).own? idField = some .null ∧
      (Heap.get notSaved.heap 0).own? idField = some (.str "00000000000000000000000000000001")) ∧
    ∃ e s', outcome (save (.object 0)) oddlyNamed = (.error e, s') ∧
      (∃ es, (outcome (fetchRecord 0 (.str "Person") (.object 1)) oddlyNamed).1 = .ok (some es)) ∧
      (outcome (fetchRecord 0 (.str "Person") (.object 1)) s').1 = .ok none :=
  ⟨⟨_, rfl, rfl, rfl⟩, _, _, rfl, ⟨_, rfl⟩, rfl⟩

/-- The person has an identifier then and is the same otherwise, and the record of the other one is
fetched as before. -/
theorem save_error_nameless : ∃ e, outcome (save (.object 0)) nameless = (.error e, notSaved) ∧
    notSaved.heap = nameless.heap.put 0 idField (.str (identifier (nameless.serial + 1))) ∧
    Query.Alike (.fetch (.str "Person") (.str "1")) 0 nameless notSaved := by
  obtain ⟨e, run⟩ : ∃ e, outcome (save (.object 0)) nameless = (.error e, notSaved) := ⟨_, rfl⟩
  have aloof : nameless.Aloof 0 0 := by
    intro rs hs
    cases hs
    have sound : nameless.heap.Sound := Heap.sound_of_forall (by decide)
    refine ⟨sound, List.forall_mem_singleton.2 ?_⟩
    have covers :
        nameless.heap.Covers (.dict [(.str "_id", .str "1"), (.str "name", .str "Ann")]) :=
      Heap.covers_of_forall (by decide)
    exact ⟨covers, fun comprised =>
      List.not_mem_nil ((Heap.mem_reach_iff fun _ ha => ha.lt sound covers).2 comprised)⟩
  have copyable : ∀ i key, ¬ Loses notSaved i 0 key := by
    rintro i key ⟨kind, id, raw, hkind, hid, hraw, lost⟩
    cases hkind
    cases hid
    cases hraw
    match i, lost with
    | 0, lost => cases lost
    | i + 1, lost => cases lost
  obtain ⟨heap, spared⟩ := save_error rfl rfl rfl run
  refine ⟨e, run, heap.elim (fun same => ?_) And.right, ?_⟩
  · rw [notSaved_heap] at same
    have id := congrArg (fun h => (Heap.get h 0).own? idField) same
    cases id
  · have table : nameless.HasTable 0 := nofun
    have spared : Spared 0 nameless notSaved 0 := by
      rcases spared with all | ⟨i, -, -, rs, key, -, -, loses⟩
      · exact all 0 (by decide)
      · exact absurd loses (copyable i key)
    refine (spared table aloof _ ?_).ready rfl
    have names : ∀ h, Method.toText people h (.str "1") = .ok "1" := fun _ => rfl
    exact (names _).trans (names _).symm

end Persistence

end EntitySchema
