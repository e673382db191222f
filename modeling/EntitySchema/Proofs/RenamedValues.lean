/-
**Values with other addresses.**

What a value makes does not depend on where the objects are that it leads to.  A value with other
addresses counts as true just where the value does, has the same items and entries with other
addresses, and makes the same dictionary with other addresses: if objects stay apart, so do keys,
and a key that can be one still can.

Main results:

* `Value.truthy_rename`, `Value.items?_rename`, `Value.entries?_rename` — parts;
* `Value.sameKey_rename` — **keys are told apart alike**;
* `Value.toEntries_rename`, `Value.toMoment_rename` — dictionaries and moments.
-/

import EntitySchema.Proofs.Copying
import EntitySchema.Proofs.Inert

set_option autoImplicit false

namespace EntitySchema

open Heap

variable {f : Address → Address}

namespace Heap

theorem renameItems_eq_map (f : Address → Address) (xs : List Value) :
    renameItems f xs = xs.map (rename f) := by
  induction xs with
  | nil => rfl
  | cons x xs ih => rw [renameItems, ih, List.map_cons]

theorem renameEntries_eq_map (f : Address → Address) (es : Entries) :
    renameEntries f es = es.map fun e => (rename f e.1, rename f e.2) := by
  induction es with
  | nil => rfl
  | cons e es ih => rw [renameEntries, ih, List.map_cons]

end Heap

/-! ### Renamings that are the same -/

namespace Heap

mutual

/-- A value is renamed alike by what is the same on the cells that it refers to. -/
theorem rename_congr {f' : Address → Address} : (v : Value) → (∀ a ∈ refs v, f a = f' a) →
    rename f v = rename f' v
  | .object a, h => congrArg Value.object (h a (List.mem_singleton_self a))
  | .method (.object a) n, h => by rw [rename, rename, h a (List.mem_singleton_self a)]
  | .list xs, h => congrArg Value.list (renameItems_congr xs h)
  | .tuple xs, h => congrArg Value.tuple (renameItems_congr xs h)
  | .set xs, h => congrArg Value.set (renameItems_congr xs h)
  | .dict es, h => congrArg Value.dict (renameEntries_congr es h)
  | .ordered es, h => congrArg Value.ordered (renameEntries_congr es h)
  | .method (.cls _) _, _ | .method (.value _) _, _ | .method (.constant _) _, _ | .null, _
  | .bool _, _ | .int _, _ | .float _, _ | .nan _, _ | .str _, _ | .bytes _, _ | .date _, _
  | .moment _, _ | .stamp _, _ | .zone _, _ | .function _, _ | .cls _, _ | .checker _ _, _
  | .store _, _ | .thing _, _ => rfl

theorem renameItems_congr {f' : Address → Address} : (xs : List Value) →
    (∀ a ∈ refsItems xs, f a = f' a) → renameItems f xs = renameItems f' xs
  | [], _ => rfl
  | x :: xs, h => by
    rw [renameItems, renameItems, rename_congr x fun a ha => h a (List.mem_append_left _ ha),
      renameItems_congr xs fun a ha => h a (List.mem_append_right _ ha)]

theorem renameEntries_congr {f' : Address → Address} : (es : Entries) →
    (∀ a ∈ refsEntries es, f a = f' a) → renameEntries f es = renameEntries f' es
  | [], _ => rfl
  | (k, v) :: es, h => by
    have key := rename_congr k fun a ha => h a (List.mem_append_left _ (List.mem_append_left _ ha))
    have value :=
      rename_congr v fun a ha => h a (List.mem_append_left _ (List.mem_append_right _ ha))
    have rest := renameEntries_congr es fun a ha => h a (List.mem_append_right _ ha)
    rw [renameEntries, renameEntries, key, value, rest]

end

mutual

theorem rename_id : (v : Value) → rename id v = v
  | .object _ | .method (.object _) _ => rfl
  | .list xs => congrArg Value.list (renameItems_id xs)
  | .tuple xs => congrArg Value.tuple (renameItems_id xs)
  | .set xs => congrArg Value.set (renameItems_id xs)
  | .dict es => congrArg Value.dict (renameEntries_id es)
  | .ordered es => congrArg Value.ordered (renameEntries_id es)
  | .method (.cls _) _ | .method (.value _) _ | .method (.constant _) _ | .null | .bool _ | .int _
  | .float _ | .nan _ | .str _ | .bytes _ | .date _ | .moment _ | .stamp _ | .zone _ | .function _
  | .cls _ | .checker _ _ | .store _ | .thing _ => rfl

theorem renameItems_id : (xs : List Value) → renameItems id xs = xs
  | [] => rfl
  | x :: xs => by rw [renameItems, rename_id x, renameItems_id xs]

theorem renameEntries_id : (es : Entries) → renameEntries id es = es
  | [] => rfl
  | (k, v) :: es => by rw [renameEntries, rename_id k, rename_id v, renameEntries_id es]

end

theorem renameCell_id (c : Cell) : renameCell id c = c := by
  simp [renameCell, rename_id]

end Heap

/-! ### Parts of values -/

namespace Value

theorem isNull_rename (v : Value) : (rename f v).isNull = v.isNull := by
  cases v with
  | method o n => cases o <;> rfl
  | _ => rfl

theorem truthy_rename (v : Value) : (rename f v).truthy = v.truthy := by
  cases v with
  | list xs | tuple xs | set xs => simp [rename, truthy, renameItems_eq_map]
  | dict es | ordered es => simp [rename, truthy, renameEntries_eq_map]
  | method o n => cases o <;> rfl
  | _ => rfl

theorem entries?_rename (v : Value) : (rename f v).entries? = v.entries?.map (renameEntries f) := by
  cases v with
  | method o n => cases o <;> rfl
  | _ => rfl

theorem items?_rename (v : Value) : (rename f v).items? = v.items?.map (List.map (rename f)) := by
  cases v with
  | list xs | tuple xs | set xs => simp [rename, items?, renameItems_eq_map]
  | dict es | ordered es => simp [rename, items?, renameEntries_eq_map]
  | str s => simp [rename, items?]
  | bytes bs => simp [rename, items?]
  | method o n => cases o <;> rfl
  | _ => rfl

theorem isText_rename (name : String) (v : Value) :
    isText name (rename f v) = isText name v := by
  cases v with
  | method o n => cases o <;> rfl
  | _ => rfl

end Value

namespace Entries

theorem getStr?_renameEntries (es : Entries) (name : String) :
    getStr? (renameEntries f es) name = (getStr? es name).map (rename f) := by
  induction es with
  | nil => rfl
  | cons e es ih =>
    obtain ⟨k, v⟩ := e
    rw [renameEntries, getStr?_cons, getStr?_cons, ih, Value.isText_rename]
    split <;> rfl

theorem getStr_renameEntries (es : Entries) (name : String) :
    getStr (renameEntries f es) name = rename f (getStr es name) := by
  rw [getStr, getStr, getStr?_renameEntries]
  cases getStr? es name <;> rfl

end Entries

namespace Value

/-! ### Keys -/

theorem isQuantity_rename (q : Quantity) (v : Value) :
    isQuantity q (rename f v) = isQuantity q v := by
  cases v with
  | method o n => cases o <;> rfl
  | _ => rfl

theorem isMoment_rename (m : Moment) (v : Value) : isMoment m (rename f v) = isMoment m v := by
  cases v with
  | method o n => cases o <;> rfl
  | _ => rfl

/-- Objects are keys by their identity. -/
private abbrev identity (a b : Address) : Id Bool := pure (a == b)

mutual

theorem sameWith_rename (hf : f.Injective) : (v w : Value) →
    sameWith identity (rename f v) (rename f w) = sameWith identity v w
  | .null, w => by
    cases w with
    | method o n => cases o <;> rfl
    | _ => rfl
  | .bool b, w => congrArg (pure (f := Id)) (isQuantity_rename _ w)
  | .int n, w => congrArg (pure (f := Id)) (isQuantity_rename _ w)
  | .float x, w => congrArg (pure (f := Id)) (isQuantity_rename _ w)
  | .moment m, w => congrArg (pure (f := Id)) (isMoment_rename m w)
  | .stamp m, w => congrArg (pure (f := Id)) (isMoment_rename m w)
  | .list xs, w => by
    cases w with
    | list ys => exact sameItems_rename hf xs ys
    | method o n => cases o <;> rfl
    | _ => rfl
  | .tuple xs, w => by
    cases w with
    | tuple ys => exact sameItems_rename hf xs ys
    | method o n => cases o <;> rfl
    | _ => rfl
  | .set xs, w => by
    cases w with
    | set ys => exact sameItems_rename hf xs ys
    | method o n => cases o <;> rfl
    | _ => rfl
  | .dict xs, w => by
    cases w with
    | dict ys | ordered ys =>
      simp only [rename, sameWith, entries?, renameEntries_eq_map, List.length_map]
      rw [← renameEntries_eq_map, ← renameEntries_eq_map, sameEntries_rename hf xs ys]
    | method o n => cases o <;> rfl
    | _ => rfl
  | .ordered xs, w => by
    cases w with
    | dict ys | ordered ys =>
      simp only [rename, sameWith, renameEntries_eq_map, List.length_map]
      simp only [← renameEntries_eq_map, sameEntries_rename hf xs ys, sameKeys_rename hf xs ys]
    | method o n => cases o <;> rfl
    | _ => rfl
  | .object a, w => by
    cases w with
    | object b =>
      have same : (f a == f b) = (a == b) := by rw [Bool.eq_iff_iff]; simp [hf.eq_iff]
      simp only [rename, sameWith, identity, hf.eq_iff, same]
    | method o n => cases o <;> rfl
    | _ => rfl
  | .method o n, w => by
    cases w with
    | method o' n' =>
      cases o with
      | object a =>
        cases o' with
        | object b =>
          have same : (Owner.object (f a) == .object (f b)) = (Owner.object a == .object b) := by
            rw [Bool.eq_iff_iff]
            simp [hf.eq_iff]
          exact congrArg (fun b => (pure (b && n == n') : Id Bool)) same
        | _ => rfl
      | _ => cases o' <;> rfl
    | _ => cases o <;> rfl
  | .nan _, w | .str _, w | .bytes _, w | .date _, w | .zone _, w | .function _, w | .cls _, w
  | .checker _ _, w | .store _, w | .thing _, w => by
    cases w with
    | method o n => cases o <;> rfl
    | _ => rfl

theorem sameItems_rename (hf : f.Injective) : (xs ys : List Value) →
    sameItems identity (renameItems f xs) (renameItems f ys) = sameItems identity xs ys
  | [], ys => by cases ys <;> rfl
  | x :: xs, [] => rfl
  | x :: xs, y :: ys => by
    rw [renameItems, renameItems, sameItems, sameItems, sameWith_rename hf x y,
      sameItems_rename hf xs ys]

theorem sameEntries_rename (hf : f.Injective) : (xs ys : Entries) →
    sameEntries identity (renameEntries f xs) (renameEntries f ys) = sameEntries identity xs ys
  | [], ys => rfl
  | (k, v) :: xs, ys => by
    have found : ((renameEntries f ys).findM? fun e => sameWith identity (rename f k) e.1) =
        ((ys.findM? fun e => sameWith identity k e.1).map
          fun e => (rename f e.1, rename f e.2) : Id (Option (Value × Value))) := by
      induction ys with
      | nil => rfl
      | cons e ys ih =>
        obtain ⟨l, w⟩ := e
        rw [renameEntries, List.findM?, List.findM?, sameWith_rename hf k l, ih]
        cases sameWith identity k l <;> rfl
    rw [renameEntries, sameEntries, sameEntries, found]
    generalize (ys.findM? fun e => sameWith identity k e.1) = r
    rcases (r : Option (Value × Value)) with _ | e
    · rfl
    · change (do if ← sameWith identity (rename f v) (rename f e.2) then
          sameEntries identity (renameEntries f xs) (renameEntries f ys) else pure false) =
        (do if ← sameWith identity v e.2 then sameEntries identity xs ys else pure false : Id Bool)
      rw [sameWith_rename hf v e.2, sameEntries_rename hf xs ys]

theorem sameKeys_rename (hf : f.Injective) : (xs ys : Entries) →
    sameKeys identity (renameEntries f xs) (renameEntries f ys) = sameKeys identity xs ys
  | [], ys => by cases ys <;> rfl
  | (k, v) :: xs, [] => rfl
  | (k, v) :: xs, (l, w) :: ys => by
    rw [renameEntries, renameEntries, sameKeys, sameKeys, sameWith_rename hf k l,
      sameKeys_rename hf xs ys]

end

/-- **Keys are told apart alike**, if objects stay apart. -/
theorem sameKey_rename (hf : f.Injective) (v w : Value) :
    sameKey (rename f v) (rename f w) = sameKey v w :=
  congrArg Id.run (sameWith_rename hf v w)

end Value

namespace Entries

theorem insert_rename (hf : f.Injective) (es : Entries) (k v : Value) :
    insert (renameEntries f es) (rename f k) (rename f v) = renameEntries f (insert es k v) := by
  induction es with
  | nil => rfl
  | cons e es ih =>
    obtain ⟨l, w⟩ := e
    rw [renameEntries, insert, insert, Value.sameKey_rename hf]
    split
    · rfl
    · rw [ih]
      rfl

theorem ofPairs_rename (hf : f.Injective) (ps : Entries) :
    ofPairs (renameEntries f ps) = renameEntries f (ofPairs ps) := by
  have from_any : ∀ es : Entries, insertAll (renameEntries f es) (renameEntries f ps) =
      renameEntries f (insertAll es ps) := by
    induction ps with
    | nil => exact fun _ => rfl
    | cons p ps ih =>
      intro es
      have first := insert_rename hf es p.1 p.2
      exact (congrArg (insertAll · (renameEntries f ps)) first).trans (ih _)
  exact from_any []

end Entries

namespace Value

/-! ### Dictionaries and moments -/

variable {isEntity isEntity' : Address → Bool}

mutual

/-- A key at other addresses can be one if the key can. -/
theorem hashable_rename : (v : Value) → (∀ a ∈ refs v, isEntity' (f a) = isEntity a) →
    (rename f v).hashable isEntity' = v.hashable isEntity
  | .object a, h => congrArg not (h a (List.mem_singleton_self a))
  | .tuple xs, h => hashableItems_rename xs h
  | .method o _, _ => by cases o <;> rfl
  | .list _, _ | .set _, _ | .dict _, _ | .ordered _, _ | .null, _ | .bool _, _ | .int _, _
  | .float _, _ | .nan _, _ | .str _, _ | .bytes _, _ | .date _, _ | .moment _, _ | .stamp _, _
  | .zone _, _ | .function _, _ | .cls _, _ | .checker _ _, _ | .store _, _ | .thing _, _ => rfl

theorem hashableItems_rename : (xs : List Value) →
    (∀ a ∈ refsItems xs, isEntity' (f a) = isEntity a) →
    hashable.hashableItems isEntity' (renameItems f xs) = hashable.hashableItems isEntity xs
  | [], _ => rfl
  | x :: xs, h => by
    rw [renameItems, hashable.hashableItems, hashable.hashableItems,
      hashable_rename x fun a ha => h a (List.mem_append_left _ ha),
      hashableItems_rename xs fun a ha => h a (List.mem_append_right _ ha)]

end

variable {v : Value}

theorem toItems_rename : (rename f v).toItems = v.toItems.map (List.map (rename f)) := by
  rw [toItems, toItems, items?_rename]
  cases v.items? <;> rfl

/-- An item at other addresses makes an entry at other addresses. -/
theorem toEntry_rename (same : ∀ a, v.LeadsTo a → isEntity' (f a) = isEntity a) :
    (rename f v).toEntry isEntity' =
      (v.toEntry isEntity).map fun e => (rename f e.1, rename f e.2) := by
  rw [toEntry, toEntry, toItems_rename]
  cases hxs : v.toItems with
  | error e => rfl
  | ok xs =>
    have items := toItems_eq_ok_iff.1 hxs
    match xs with
    | [k, w] =>
      have key : (rename f k).hashable isEntity' = k.hashable isEntity :=
        hashable_rename k fun a ha =>
          same a (leadsTo_of_items items (List.mem_cons_self ..) (.of_refs ha))
      change (if (rename f k).hashable isEntity' = true then _ else _) =
        Except.map _ (if k.hashable isEntity = true then _ else _)
      rw [key]
      split <;> rfl
    | [] | [_] | _ :: _ :: _ :: _ => rfl

/-- **A value at other addresses makes the same dictionary** at other addresses. -/
theorem toEntries_rename (hf : f.Injective)
    (same : ∀ a, v.LeadsTo a → isEntity' (f a) = isEntity a) :
    (rename f v).toEntries isEntity' = (v.toEntries isEntity).map (renameEntries f) := by
  rw [toEntries, toEntries, entries?_rename]
  cases v.entries? with
  | some es => rfl
  | none =>
    dsimp only [Option.map_none]
    rw [toItems_rename]
    cases hxs : v.toItems with
    | error e => rfl
    | ok xs =>
      have items := toItems_eq_ok_iff.1 hxs
      have pairs : (xs.map (rename f)).mapM (toEntry isEntity') =
          (xs.mapM (toEntry isEntity)).map (List.map fun e => (rename f e.1, rename f e.2)) := by
        clear hxs
        have each : ∀ x ∈ xs, (rename f x).toEntry isEntity' =
            (x.toEntry isEntity).map fun e => (rename f e.1, rename f e.2) := fun x hx =>
          toEntry_rename fun a ha => same a (leadsTo_of_items items hx ha)
        clear items
        induction xs with
        | nil => rfl
        | cons x xs ih =>
          obtain ⟨first, rest⟩ := List.forall_mem_cons.1 each
          rw [List.map_cons, List.mapM_cons, List.mapM_cons, first, ih rest]
          cases x.toEntry isEntity with
          | error e => rfl
          | ok e => cases xs.mapM (toEntry isEntity) <;> rfl
      change (xs.map (rename f)).mapM (toEntry isEntity') >>= _ = Except.map _
        (xs.mapM (toEntry isEntity) >>= _)
      rw [pairs]
      cases xs.mapM (toEntry isEntity) with
      | error e => rfl
      | ok ps =>
        refine congrArg Except.ok ?_
        rw [← renameEntries_eq_map]
        exact Entries.ofPairs_rename hf ps

/-- What a value at other addresses makes a moment of is what the value makes. -/
theorem toMoment_rename {objectName objectName' : Address → String}
    (same : ∀ a, v.LeadsTo a → objectName' (f a) = objectName a) :
    (rename f v).toMoment objectName' = (v.toMoment objectName).map (rename f) := by
  cases v with
  | object a =>
    have name := same a (.object a)
    simp [rename, toMoment, typeName, name, Except.map]
  | method o n =>
    cases o <;> rfl
  | int n =>
    simp only [rename, toMoment]
    split <;> rfl
  | float x =>
    simp only [rename, toMoment]
    split <;> rfl
  | str s =>
    simp only [rename, toMoment]
    split <;> rfl
  | _ => rfl

end Value

end EntitySchema
