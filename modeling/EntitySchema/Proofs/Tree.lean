/-
**What a value holds, apart from where it is.**

A *tree* says what an entity or a container holds without a heap: of an entity its class, its
identifier, what is put aside, and a tree for each of its fields; of an array or a dictionary a tree
for each member.  A value of the heap *reads* as a tree if the tree says what it holds.

Two values are *alike* if they hold the same, entity by entity.  Raw data do not tell them apart, so
either equals the other as it equals itself.

Main definitions:

* `Tree` — what a value holds;
* `Heap.Reads` — **a value that holds what a tree says**;
* `Heap.Alike` — values that hold the same.

Main results:

* `Heap.Reads.mono` — what a value reads as, it reads as in every larger heap;
* `Heap.Reads.alike` — what reads as the same tree is alike;
* `Heap.Alike.encode` — **what is alike has the same raw form**;
* `Heap.Alike.toRaw`, `Heap.Alike.equal` — entities that are alike tell the same raw data, and equal
  what equals them.
-/

import EntitySchema.Proofs.RoundTrip

set_option autoImplicit false

namespace EntitySchema

/-! ### Trees -/

/-- What a value holds: itself, or an entity with its class, its identifier, what is put aside and a
tree for each field, or an array or a dictionary of trees. -/
inductive Tree where
  | leaf (v : Value)
  | entity (cls : ClassId) (id : Value) (pending : Entries) (fields : String → Tree)
  | array (items : List Tree)
  | dictionary (keys : List Value) (items : List Tree)

namespace Heap

/-- A value of the heap that holds what a tree says. -/
inductive Reads (g : Catalog) (h : Heap) : Value → Tree → Prop
  | leaf (v : Value) : Reads g h v (.leaf v)
  | entity {a : Address} {cls : ClassId} {id : Value} {pending : Entries} {v : String → Value}
      {fields : String → Tree} :
      get h a = Cell.ofFields cls id pending (Table.names (g.schemaOf cls)) v →
      (∀ name ∈ Table.names (g.schemaOf cls), Reads g h (v name) (fields name)) →
      Reads g h (.object a) (.entity cls id pending fields)
  | array {xs : List Value} {ts : List Tree} : xs.length = ts.length →
      (∀ p ∈ xs.zip ts, Reads g h p.1 p.2) → Reads g h (.list xs) (.array ts)
  | dictionary {es : Entries} {ts : List Tree} : es.length = ts.length →
      (∀ p ∈ (es.map Prod.snd).zip ts, Reads g h p.1 p.2) →
      Reads g h (.dict es) (.dictionary (es.map Prod.fst) ts)

/-- Two values of the heap that hold the same: they are the same, or entities of one class with the
same identifier, the same put aside, and fields that are alike, or containers of what is alike. -/
inductive Alike (g : Catalog) (h : Heap) : Value → Value → Prop
  | refl (v : Value) : Alike g h v v
  | entity {a b : Address} {cls : ClassId} {id : Value} {pending : Entries}
      {v w : String → Value} :
      get h a = Cell.ofFields cls id pending (Table.names (g.schemaOf cls)) v →
      get h b = Cell.ofFields cls id pending (Table.names (g.schemaOf cls)) w →
      (∀ name ∈ Table.names (g.schemaOf cls), Alike g h (v name) (w name)) →
      Alike g h (.object a) (.object b)
  | array {xs ys : List Value} : xs.length = ys.length →
      (∀ p ∈ xs.zip ys, Alike g h p.1 p.2) → Alike g h (.list xs) (.list ys)
  | dictionary {es fs : Entries} : es.map Prod.fst = fs.map Prod.fst →
      (∀ p ∈ (es.map Prod.snd).zip (fs.map Prod.snd), Alike g h p.1 p.2) →
      Alike g h (.dict es) (.dict fs)

variable {g : Catalog} {h : Heap} {v w : Value} {t : Tree}

/-- Only a value itself reads as a leaf. -/
theorem Reads.eq_of_leaf (hr : Reads g h v (.leaf w)) : v = w := by
  cases hr
  rfl

/-- What reads as an entity is an object whose cell has its parts. -/
theorem Reads.exists_cell {cls : ClassId} {id : Value}
    {pending : Entries} {fields : String → Tree}
    (hr : Reads g h v (.entity cls id pending fields)) :
    ∃ a w, v = .object a ∧
      get h a = Cell.ofFields cls id pending (Table.names (g.schemaOf cls)) w ∧
      ∀ name ∈ Table.names (g.schemaOf cls), Reads g h (w name) (fields name) := by
  cases hr with
  | entity hc hv => exact ⟨_, _, rfl, hc, hv⟩

/-- Values under keys, as many as there are. -/
theorem Reads.dictionary_zip {keys xs : List Value} {ts : List Tree}
    (hkeys : keys.length = xs.length)
    (hlen : xs.length = ts.length) (hx : ∀ p ∈ xs.zip ts, Reads g h p.1 p.2) :
    Reads g h (.dict (keys.zip xs)) (.dictionary keys ts) := by
  have fst : (keys.zip xs).map Prod.fst = keys := List.map_fst_zip hkeys.le
  have snd : (keys.zip xs).map Prod.snd = xs := List.map_snd_zip hkeys.ge
  have reads : Reads g h (.dict (keys.zip xs)) (.dictionary ((keys.zip xs).map Prod.fst) ts) := by
    refine .dictionary (by simp [hkeys, hlen]) ?_
    rwa [snd]
  rwa [fst] at reads

/-- What a value reads as, it reads as in every heap that has the same entities. -/
theorem Reads.mono {h' : Heap} (hle : h.Within h') (hr : Reads g h v t) : Reads g h' v t := by
  induction hr with
  | leaf v => exact .leaf v
  | entity hc _ ih => exact .entity ((hle _ (isEntity_of_cell hc)).trans hc) ih
  | array hlen _ ih => exact .array hlen ih
  | dictionary hlen _ ih => exact .dictionary hlen ih

end Heap

/-- The members in one place of three lists, the second as long as the third. -/
theorem exists_mem_zip_of_zip {α β γ : Type} {xs : List α} {ys : List β} {zs : List γ}
    (hlen : ys.length = zs.length) {p : α × β} (hp : p ∈ xs.zip ys) :
    ∃ z, (p.1, z) ∈ xs.zip zs ∧ (p.2, z) ∈ ys.zip zs := by
  induction xs generalizing ys zs with
  | nil => cases hp
  | cons x xs ih =>
    match ys, zs, hlen, hp with
    | y :: ys, z :: zs, hlen, hp =>
      rcases List.mem_cons.1 hp with rfl | hp
      · exact ⟨z, List.mem_cons_self .., List.mem_cons_self ..⟩
      · obtain ⟨z', left, right⟩ := ih (Nat.succ.inj hlen) hp
        exact ⟨z', List.mem_cons_of_mem _ left, List.mem_cons_of_mem _ right⟩

/-- Of two lists as long as a third, members in one place have a member of the third in common. -/
theorem exists_mem_zip_zip {α β γ : Type} {xs : List α} {ys : List β} {zs : List γ}
    (hx : xs.length = zs.length) (hy : ys.length = zs.length) {p : α × β} (hp : p ∈ xs.zip ys) :
    ∃ z, (p.1, z) ∈ xs.zip zs ∧ (p.2, z) ∈ ys.zip zs := by
  induction zs generalizing xs ys with
  | nil =>
    cases List.length_eq_zero_iff.1 hx
    cases hp
  | cons z zs ih =>
    match xs, ys, hx, hy, hp with
    | x :: xs, y :: ys, hx, hy, hp =>
      rcases List.mem_cons.1 hp with rfl | hp
      · exact ⟨z, List.mem_cons_self .., List.mem_cons_self ..⟩
      · obtain ⟨z', left, right⟩ := ih (Nat.succ.inj hx) (Nat.succ.inj hy) hp
        exact ⟨z', List.mem_cons_of_mem _ left, List.mem_cons_of_mem _ right⟩

namespace Heap

variable {g : Catalog} {h : Heap} {v w : Value} {t : Tree}

/-- What reads as the same tree is alike. -/
theorem Reads.alike (hv : Reads g h v t) (hw : Reads g h w t) : Alike g h v w := by
  induction hv generalizing w with
  | leaf v =>
    cases hw
    exact .refl v
  | entity hc _ ih =>
    cases hw with
    | entity hc' hw => exact .entity hc hc' fun name hname => ih name hname (hw name hname)
  | array hlen _ ih =>
    cases hw with
    | array hlen' hw =>
      refine .array (hlen.trans hlen'.symm) ?_
      intro p hp
      obtain ⟨t, left, right⟩ := exists_mem_zip_zip hlen hlen' hp
      exact ih _ left (hw _ right)
  | @dictionary es ts hlen _ ih =>
    generalize hkeys : es.map Prod.fst = keys at hw
    cases hw with
    | @dictionary fs _ hlen' hw =>
      refine .dictionary hkeys ?_
      intro p hp
      obtain ⟨t, left, right⟩ := exists_mem_zip_zip (by simpa using hlen) (by simpa using hlen') hp
      exact ih _ left (hw _ right)

theorem Alike.isNull (ha : Alike g h v w) : v.isNull = w.isNull := by
  cases ha <;> rfl

end Heap

/-! ### Raw forms -/

namespace Encoding

variable {h : Heap} {visit : Address → Except Failure Value} {byId : Bool}

theorem encodeItems_congr_zip {xs ys : List Value} (hlen : xs.length = ys.length)
    (same : ∀ p ∈ xs.zip ys, encodeWith h visit byId p.1 = encodeWith h visit byId p.2) :
    encodeItems h visit byId xs = encodeItems h visit byId ys := by
  induction xs generalizing ys with
  | nil =>
    cases List.length_eq_zero_iff.1 hlen.symm
    rfl
  | cons x xs ih =>
    cases ys with
    | nil => cases hlen
    | cons y ys =>
      rw [List.zip_cons_cons, List.forall_mem_cons] at same
      rw [encodeItems, encodeItems, same.1, ih (Nat.succ.inj hlen) same.2]

theorem encodeEntries_congr_zip {es fs : Entries} (hkeys : es.map Prod.fst = fs.map Prod.fst)
    (same : ∀ p ∈ (es.map Prod.snd).zip (fs.map Prod.snd),
      encodeWith h visit byId p.1 = encodeWith h visit byId p.2) :
    encodeEntries h visit byId es = encodeEntries h visit byId fs := by
  induction es generalizing fs with
  | nil =>
    cases List.map_eq_nil_iff.1 hkeys.symm
    rfl
  | cons e es ih =>
    cases fs with
    | nil => cases hkeys
    | cons f fs =>
      obtain ⟨k, v⟩ := e
      obtain ⟨l, w⟩ := f
      rw [List.map_cons, List.map_cons] at hkeys
      obtain ⟨hkey, hrest⟩ := List.cons_eq_cons.1 hkeys
      obtain rfl : k = l := hkey
      rw [List.map_cons, List.map_cons, List.zip_cons_cons, List.forall_mem_cons] at same
      rw [encodeEntries, encodeEntries, same.1, ih hrest same.2]

end Encoding

namespace Heap

open Encoding

variable {g : Catalog} {h : Heap} {v w : Value}

/-- **What is alike has the same raw form**, if entities that are alike tell the same. -/
theorem Alike.encode {visit : Address → Except Failure Value}
    (hvisit : ∀ a b, Alike g h (.object a) (.object b) → visit a = visit b) (byId : Bool)
    (ha : Alike g h v w) : encodeWith h visit byId v = encodeWith h visit byId w := by
  induction ha with
  | refl v => rfl
  | @entity a b cls id pending v w hv hw hvw _ =>
    have told : visit a = visit b := hvisit a b (.entity hv hw hvw)
    rw [encodeWith, encodeWith, isEntity_of_cell hv, isEntity_of_cell hw, told]
    cases byId with
    | true =>
      simp only [if_true, identifierOnly, hv, hw]
      rfl
    | false => rfl
  | array hlen _ ih => rw [encodeWith, encodeWith, encodeItems_congr_zip hlen ih]
  | dictionary hkeys _ ih => rw [encodeWith, encodeWith, encodeEntries_congr_zip hkeys ih]

/-- Entities that are alike have the same raw data, if what they hold tells the same. -/
theorem Alike.rawWith (hg : g.WellFormed) {visit : Address → Except Failure Value}
    (hvisit : ∀ a b, Alike g h (.object a) (.object b) → visit a = visit b) {a b : Address}
    (hab : Alike g h (.object a) (.object b)) :
    Encoding.rawWith g h visit a = Encoding.rawWith g h visit b := by
  cases hab with
  | refl => rfl
  | @entity _ _ cls id pending v w hv hw hvw =>
    have fields : ∀ r ∈ classRules g cls, encodeField g h visit a r =
        encodeField g h visit b r := by
      intro r hr
      obtain ⟨f, hf, rfl⟩ := List.mem_map.1 hr
      have hname : f.1 ∈ Table.names (g.schemaOf cls) := List.mem_map_of_mem hf
      have alike := hvw f.1 hname
      simp only [encodeField, unloaded, field_of_cell hg hv hname, field_of_cell hg hw hname,
        objectAttribute?_pending hv, objectAttribute?_pending hw, alike.isNull,
        alike.encode hvisit]
    rw [Encoding.rawWith, Encoding.rawWith, idEntry, idEntry, objectAttribute?_id hv,
      objectAttribute?_id hw, rules_of_cell hg hv, rules_of_cell hg hw]
    simp only [bind, Except.bind, mapM_congr fields]

end Heap

namespace Method

open Heap

variable {g : Catalog} {h : Heap}

/-- Entities that are alike answer alike when they are asked for their raw data. -/
theorem ask_toRaw_congr (hg : g.WellFormed) (fuel : Nat) {a b : Address}
    (hab : Alike g h (.object a) (.object b)) :
    ask g h (call g h fuel) "to_raw" a = ask g h (call g h fuel) "to_raw" b := by
  induction fuel generalizing a b with
  | zero =>
    cases hab with
    | refl => rfl
    | entity hv hw _ =>
      rw [ask, ask, objectAttribute?_toRaw hg hv, objectAttribute?_toRaw hg hw]
      rfl
  | succ fuel ih =>
    cases hab with
    | refl => rfl
    | entity hv hw hvw =>
      have visits : ∀ a b, Alike g h (.object a) (.object b) →
          (do .ok (← ask g h (call g h fuel) "to_raw" a).toValue : Except Failure Value) =
            (do .ok (← ask g h (call g h fuel) "to_raw" b).toValue : Except Failure Value) :=
        fun a b hab => by rw [ih hab]
      have told := (Alike.entity hv hw hvw).rawWith hg visits
      rw [ask, ask, objectAttribute?_toRaw hg hv, objectAttribute?_toRaw hg hw]
      simp only [call]
      simp only [told]
      rfl

end Method

namespace Heap

variable {g : Catalog} {h : Heap}

/-- Entities that are alike tell the same raw data. -/
theorem Alike.toRaw (hg : g.WellFormed) {a b : Address} (hab : Alike g h (.object a) (.object b)) :
    Method.toRaw g h a = Method.toRaw g h b := by
  have told : Method.send g h (.object a) "to_raw" = Method.send g h (.object b) "to_raw" :=
    Method.ask_toRaw_congr hg (Method.depth h) hab
  rw [Method.toRaw, Method.toRaw, told]

/-- An entity equals one that is alike as that one equals itself. -/
theorem Alike.equal (hg : g.WellFormed) {a b : Address}
    (hab : Alike g h (.object a) (.object b)) :
    Method.equal g h (.object a) (.object b) = Method.equal g h (.object b) (.object b) := by
  cases hab with
  | refl => rfl
  | @entity _ _ cls id pending v w hv hw hvw =>
    have told := (Alike.entity hv hw hvw).toRaw hg
    obtain ⟨n, hn⟩ : ∃ n, Method.depth h = n + 1 := ⟨3 * List.length h + 1, rfl⟩
    rw [Method.equal, Method.equal, isEntity_of_cell hv, isEntity_of_cell hw, hn,
      Method.sameObjects, Method.sameObjects, hv, hw, told]
    rfl

end Heap

end EntitySchema
