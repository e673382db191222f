/-
**Values whose dictionaries have different keys.**

A dictionary has only keys that may be keys, no two of them equal.  Nothing keeps a list of entries
from being otherwise, so what holds only of dictionaries as they are is said of values that are
*well keyed*.  Such a value equals itself; and values that are alike are equal if the raw form of
one of them is well keyed.  Data are well keyed.

Main definitions:

* `Value.WellKeyed` — a value whose dictionaries have different keys.

Main results:

* `Value.wellKeyed_congr` — it depends on the objects that a value leads to;
* `Value.sameWith_of_hashable` — keys are compared without asking objects;
* `Value.sameWith_self` — what is well keyed equals itself;
* `Heap.Alike.equal_of_encode` — **what is alike is equal**, if its raw form is well keyed.
-/

import EntitySchema.Proofs.Tree

set_option autoImplicit false

namespace EntitySchema

namespace Value

mutual

/-- A value in which all keys of dictionaries may be keys and no two keys of one are equal. -/
def WellKeyed (isEntity : Address → Bool) : Value → Prop
  | .list xs => WellKeyedItems isEntity xs
  | .tuple xs => WellKeyedItems isEntity xs
  | .set xs => WellKeyedItems isEntity xs
  | .dict es => (es.map Prod.fst).Pairwise (fun k l => sameKey l k = false) ∧
      WellKeyedEntries isEntity es
  | .ordered es => (es.map Prod.fst).Pairwise (fun k l => sameKey l k = false) ∧
      WellKeyedEntries isEntity es
  | _ => True
termination_by structural v => v

/-- The same of the values of a list. -/
def WellKeyedItems (isEntity : Address → Bool) : List Value → Prop
  | [] => True
  | x :: xs => WellKeyed isEntity x ∧ WellKeyedItems isEntity xs
termination_by structural xs => xs

/-- The same of the keys and the values of a dictionary. -/
def WellKeyedEntries (isEntity : Address → Bool) : Entries → Prop
  | [] => True
  | (k, v) :: es => (k.hashable isEntity = true ∧ WellKeyed isEntity k) ∧ WellKeyed isEntity v ∧
      WellKeyedEntries isEntity es
termination_by structural es => es

end

section

variable {isEntity : Address → Bool}

theorem wellKeyedItems_iff {xs : List Value} :
    WellKeyedItems isEntity xs ↔ ∀ x ∈ xs, x.WellKeyed isEntity := by
  induction xs with
  | nil => simp [WellKeyedItems]
  | cons x xs ih => rw [WellKeyedItems, List.forall_mem_cons, ih]

theorem wellKeyedEntries_iff {es : Entries} : WellKeyedEntries isEntity es ↔
    ∀ e ∈ es, (e.1.hashable isEntity = true ∧ e.1.WellKeyed isEntity) ∧
      e.2.WellKeyed isEntity := by
  induction es with
  | nil => simp [WellKeyedEntries]
  | cons e es ih => rw [WellKeyedEntries, List.forall_mem_cons, ih, ← and_assoc]

/-- Data are well keyed. -/
theorem IsData.wellKeyed {v : Value} (hv : v.IsData) : v.WellKeyed isEntity := by
  induction hv with
  | @atom v hv => cases v <;> simp [isAtom] at hv <;> exact trivial
  | list _ ih => exact wellKeyedItems_iff.2 ih
  | dict atoms _ distinct ih =>
    refine ⟨List.pairwise_map.2 ?_, wellKeyedEntries_iff.2 fun e he => ⟨?_, ih e he⟩⟩
    · exact distinct.imp_of_mem fun he hf hne =>
        (sameKey_comm_of_isAtom (atoms _ hf) (atoms _ he)).trans hne
    · have atom := atoms e he
      cases hk : e.1 <;> rw [hk] at atom <;> simp [isAtom] at atom <;> exact ⟨rfl, trivial⟩

end

section

variable {isEntity isEntity' : Address → Bool}

mutual

/-- Whether a value is well keyed depends on the objects that it leads to. -/
theorem wellKeyed_congr : (v : Value) → (∀ a, v.LeadsTo a → isEntity' a = isEntity a) →
    (v.WellKeyed isEntity' ↔ v.WellKeyed isEntity)
  | .list xs, same => wellKeyedItems_congr xs fun _ hx a ha => same a (.list hx ha)
  | .tuple xs, same => wellKeyedItems_congr xs fun _ hx a ha => same a (.tuple hx ha)
  | .set xs, same => wellKeyedItems_congr xs fun _ hx a ha => same a (.set hx ha)
  | .dict es, same => and_congr_right fun _ => wellKeyedEntries_congr es fun _ he a ha =>
    same a (ha.elim (.dictKey he) (.dict he))
  | .ordered es, same => and_congr_right fun _ => wellKeyedEntries_congr es fun _ he a ha =>
    same a (ha.elim (.orderedKey he) (.ordered he))
  | .null, _ | .bool _, _ | .int _, _ | .float _, _ | .nan _, _ | .str _, _ | .bytes _, _
  | .object _, _ | .date _, _ | .moment _, _ | .stamp _, _ | .zone _, _ | .function _, _
  | .method _ _, _ | .cls _, _ | .checker _ _, _ | .store _, _ | .thing _, _ => Iff.rfl
termination_by structural v => v

theorem wellKeyedItems_congr : (xs : List Value) →
    (∀ x ∈ xs, ∀ a, x.LeadsTo a → isEntity' a = isEntity a) →
      (WellKeyedItems isEntity' xs ↔ WellKeyedItems isEntity xs)
  | [], _ => Iff.rfl
  | x :: xs, same => by
    obtain ⟨first, rest⟩ := List.forall_mem_cons.1 same
    exact and_congr (wellKeyed_congr x first) (wellKeyedItems_congr xs rest)
termination_by structural xs => xs

theorem wellKeyedEntries_congr : (es : Entries) →
    (∀ e ∈ es, ∀ a, e.1.LeadsTo a ∨ e.2.LeadsTo a → isEntity' a = isEntity a) →
      (WellKeyedEntries isEntity' es ↔ WellKeyedEntries isEntity es)
  | [], _ => Iff.rfl
  | (k, v) :: es, same => by
    obtain ⟨first, rest⟩ := List.forall_mem_cons.1 same
    have key : ∀ a, k.LeadsTo a → isEntity' a = isEntity a := fun a ha => first a (.inl ha)
    rw [WellKeyedEntries, WellKeyedEntries, hashable_congr k key, wellKeyed_congr k key,
      wellKeyed_congr v fun a ha => first a (.inr ha), wellKeyedEntries_congr es rest]
termination_by structural es => es

end

end

/-! ### Equality with itself -/

section

variable {g : Catalog} {h : Heap} (n : Nat)

/-- A plain object is no other object. -/
theorem sameObjects_of_plain {a : Address} (ha : Heap.isEntity h a = false) (b : Address) :
    Method.sameObjects g h (n + 1) a b = .ok false := by
  unfold Heap.isEntity at ha
  rw [Method.sameObjects]
  split at ha
  · cases ha
  · next species =>
    rw [species]

mutual

/-- Keys are compared without asking objects. -/
theorem sameWith_of_hashable : (k : Value) → k.hashable (Heap.isEntity h) = true → (l : Value) →
    sameWith (Method.sameObjects g h (n + 1)) k l = .ok (sameKey k l)
  | .object a, hk, l => by
    have plain : Heap.isEntity h a = false := by simpa [hashable] using hk
    cases l with
    | object b =>
      rw [sameWith, sameKey, sameWith, sameObjects_of_plain n plain]
      by_cases hab : a = b
      · rw [if_pos hab, if_pos hab]
        rfl
      · rw [if_neg hab, if_neg hab, beq_false_of_ne hab]
        rfl
    | _ => rfl
  | .tuple xs, hk, l => by
    cases l with
    | tuple ys =>
      rw [sameWith]
      exact sameItems_of_hashable xs hk ys
    | _ => rfl
  | .list _, hk, _ | .set _, hk, _ | .dict _, hk, _ | .ordered _, hk, _ => nomatch hk
  | .bool _, _, _ | .int _, _, _ | .float _, _, _ | .moment _, _, _ | .stamp _, _, _ => rfl
  | .null, _, l | .nan _, _, l | .str _, _, l | .bytes _, _, l | .date _, _, l | .zone _, _, l
  | .function _, _, l | .method _ _, _, l | .cls _, _, l | .checker _ _, _, l | .store _, _, l
  | .thing _, _, l => by cases l <;> rfl

theorem sameItems_of_hashable : (xs : List Value) →
    hashable.hashableItems (Heap.isEntity h) xs = true → (ys : List Value) →
    sameItems (Method.sameObjects g h (n + 1)) xs ys =
      .ok (Id.run (sameItems (fun r s => pure (r == s)) xs ys))
  | [], _, ys => by cases ys <;> rfl
  | x :: xs, hx, ys => by
    rw [hashable.hashableItems, Bool.and_eq_true] at hx
    cases ys with
    | nil => rfl
    | cons y ys =>
      rw [sameItems, sameWith_of_hashable x hx.1 y, ok_bind]
      show _ = Except.ok (Id.run (if sameKey x y then sameItems _ xs ys else pure false))
      cases sameKey x y with
      | true => exact sameItems_of_hashable xs hx.2 ys
      | false => rfl

end

/-- The entry found under a key of a dictionary with different keys is the one that has it. -/
theorem findM?_of_pairwise {es : Entries}
    (keys : ∀ e ∈ es, e.1.hashable (Heap.isEntity h) = true ∧
      sameWith (Method.sameObjects g h (n + 1)) e.1 e.1 = .ok true)
    (distinct : (es.map Prod.fst).Pairwise fun k l => sameKey l k = false) {e : Value × Value}
    (he : e ∈ es) :
    (es.findM? fun f => sameWith (Method.sameObjects g h (n + 1)) e.1 f.1) = .ok (some e) := by
  induction es with
  | nil => cases he
  | cons f es ih =>
    obtain ⟨-, keys'⟩ := List.forall_mem_cons.1 keys
    rw [List.map_cons, List.pairwise_cons] at distinct
    rw [List.findM?]
    rcases List.mem_cons.1 he with rfl | mem
    · rw [(keys e he).2]
      rfl
    · rw [sameWith_of_hashable n e.1 (keys e he).1, distinct.1 e.1 (List.mem_map_of_mem mem)]
      exact ih keys' distinct.2 mem

/-- Dictionaries with the same keys, all different, and values that are equal one by one. -/
theorem sameEntries_of_zip {es fs : Entries} (hkeys : es.map Prod.fst = fs.map Prod.fst)
    (keys : ∀ f ∈ fs, f.1.hashable (Heap.isEntity h) = true ∧
      sameWith (Method.sameObjects g h (n + 1)) f.1 f.1 = .ok true)
    (distinct : (fs.map Prod.fst).Pairwise fun k l => sameKey l k = false)
    (same : ∀ p ∈ (es.map Prod.snd).zip (fs.map Prod.snd),
      sameWith (Method.sameObjects g h (n + 1)) p.1 p.2 = .ok true) :
    sameEntries (Method.sameObjects g h (n + 1)) es fs = .ok true := by
  have further : ∀ (es' fs' : Entries), es'.map Prod.fst = fs'.map Prod.fst →
      (∀ f ∈ fs', f ∈ fs) →
      (∀ p ∈ (es'.map Prod.snd).zip (fs'.map Prod.snd),
        sameWith (Method.sameObjects g h (n + 1)) p.1 p.2 = .ok true) →
      sameEntries (Method.sameObjects g h (n + 1)) es' fs = .ok true := by
    intro es'
    induction es' with
    | nil => exact fun _ _ _ _ => rfl
    | cons e es' ih =>
      intro fs' hkeys' among same'
      cases fs' with
      | nil => cases hkeys'
      | cons f fs' =>
        obtain ⟨k, v⟩ := e
        obtain ⟨l, w⟩ := f
        obtain ⟨here, others⟩ := List.forall_mem_cons.1 among
        rw [List.map_cons, List.map_cons] at hkeys'
        obtain ⟨hkey, hrest⟩ := List.cons_eq_cons.1 hkeys'
        obtain rfl : k = l := hkey
        rw [List.map_cons, List.map_cons, List.zip_cons_cons, List.forall_mem_cons] at same'
        have found := findM?_of_pairwise n keys distinct here
        simp only [sameEntries, found, same'.1, ok_bind, if_true]
        exact ih fs' hrest others same'.2
  exact further es fs hkeys (fun _ hf => hf) same

theorem sameItems_of_zip {ask : Address → Address → Except Failure Bool} {xs ys : List Value}
    (hlen : xs.length = ys.length) (same : ∀ p ∈ xs.zip ys, sameWith ask p.1 p.2 = .ok true) :
    sameItems ask xs ys = .ok true := by
  induction xs generalizing ys with
  | nil =>
    cases List.length_eq_zero_iff.1 hlen.symm
    rfl
  | cons x xs ih =>
    cases ys with
    | nil => cases hlen
    | cons y ys =>
      rw [List.zip_cons_cons, List.forall_mem_cons] at same
      simp only [sameItems, same.1, ok_bind, if_true]
      exact ih (Nat.succ.inj hlen) same.2

/-- A dictionary with different keys equals itself, entry by entry. -/
theorem sameEntries_self {es : Entries}
    (distinct : (es.map Prod.fst).Pairwise fun k l => sameKey l k = false)
    (keys : ∀ e ∈ es, (e.1.hashable (Heap.isEntity h) = true ∧ e.1.WellKeyed (Heap.isEntity h)) ∧
      e.2.WellKeyed (Heap.isEntity h))
    (same : ∀ e ∈ es, sameWith (Method.sameObjects g h (n + 1)) e.1 e.1 = .ok true ∧
      sameWith (Method.sameObjects g h (n + 1)) e.2 e.2 = .ok true) :
    sameEntries (Method.sameObjects g h (n + 1)) es es = .ok true := by
  refine sameEntries_of_zip n rfl (fun e he => ⟨(keys e he).1.1, (same e he).1⟩) distinct ?_
  intro p hp
  obtain ⟨x, hx, rfl⟩ := mem_zip_self hp
  obtain ⟨e, he, rfl⟩ := List.mem_map.1 hx
  exact (same e he).2

theorem sameKeys_self {ask : Address → Address → Except Failure Bool} {es : Entries}
    (same : ∀ e ∈ es, sameWith ask e.1 e.1 = .ok true) : sameKeys ask es es = .ok true := by
  induction es with
  | nil => rfl
  | cons e es ih =>
    obtain ⟨here, rest⟩ := List.forall_mem_cons.1 same
    rw [sameKeys, here, ok_bind, if_pos rfl]
    exact ih rest

mutual

/-- **What is well keyed equals itself.** -/
theorem sameWith_self : (v : Value) → v.WellKeyed (Heap.isEntity h) →
    sameWith (Method.sameObjects g h (n + 1)) v v = .ok true
  | .list xs, hv => sameItems_self xs hv
  | .tuple xs, hv => sameItems_self xs hv
  | .set xs, hv => sameItems_self xs hv
  | .dict es, hv => by
    rw [sameWith, entries?]
    dsimp only
    rw [if_pos rfl]
    exact sameEntries_self n hv.1 (wellKeyedEntries_iff.1 hv.2) (entries_self es hv.2)
  | .ordered es, hv => by
    rw [sameWith, if_pos rfl,
      sameEntries_self n hv.1 (wellKeyedEntries_iff.1 hv.2) (entries_self es hv.2), ok_bind,
      if_pos rfl]
    exact sameKeys_self fun e he => (entries_self es hv.2 e he).1
  | .null, _ => rfl
  | .object a, _ => by
    rw [sameWith, if_pos rfl]
    rfl
  | .bool _, _ | .int _, _ | .float _, _ => by
    simp [sameWith, isQuantity, quantity?, Quantity.same, pure, Except.pure]
  | .moment m, _ | .stamp m, _ => by
    rw [sameWith, isMoment, Moment.same_self]
    rfl
  | .nan _, _ | .str _, _ | .bytes _, _ | .date _, _ | .zone _, _ | .function _, _
  | .method _ _, _ | .cls _, _ | .checker _ _, _ | .store _, _ | .thing _, _ => by
    simp [sameWith, pure, Except.pure]

theorem sameItems_self : (xs : List Value) → WellKeyedItems (Heap.isEntity h) xs →
    sameItems (Method.sameObjects g h (n + 1)) xs xs = .ok true
  | [], _ => rfl
  | x :: xs, hx => by
    rw [sameItems, sameWith_self x hx.1, ok_bind, if_pos rfl]
    exact sameItems_self xs hx.2

theorem entries_self : (es : Entries) → WellKeyedEntries (Heap.isEntity h) es → ∀ e ∈ es,
    sameWith (Method.sameObjects g h (n + 1)) e.1 e.1 = .ok true ∧
      sameWith (Method.sameObjects g h (n + 1)) e.2 e.2 = .ok true
  | [], _ => nofun
  | (k, v) :: es, he => List.forall_mem_cons.2
    ⟨⟨sameWith_self k he.1.2, sameWith_self v he.2.1⟩, entries_self es he.2.2⟩

end

end

end Value

/-! ### The raw form of what is well keyed -/

namespace Encoding

variable {h : Heap} {visit : Address → Except Failure Value} {byId : Bool}
  {isEntity : Address → Bool}

/-- The raw forms of entries stand under the same keys. -/
theorem keys_of_encodeEntries {es fs : Entries} (he : encodeEntries h visit byId es = .ok fs) :
    fs.map Prod.fst = es.map Prod.fst := by
  induction es generalizing fs with
  | nil =>
    cases he
    rfl
  | cons e es ih =>
    obtain ⟨k, v⟩ := e
    obtain ⟨w, -, he⟩ := bind_eq_ok.1 he
    obtain ⟨rest, hrest, he⟩ := bind_eq_ok.1 he
    cases he
    rw [List.map_cons, List.map_cons, ih hrest]

/-- Each item has its raw form among the raw forms. -/
theorem exists_of_encodeItems {xs ys : List Value} (hxs : encodeItems h visit byId xs = .ok ys) :
    ∀ x ∈ xs, ∃ y ∈ ys, encodeWith h visit byId x = .ok y := by
  induction xs generalizing ys with
  | nil => exact fun _ hx => nomatch hx
  | cons x xs ih =>
    obtain ⟨y, hy, hxs⟩ := bind_eq_ok.1 hxs
    obtain ⟨rest, hrest, hxs⟩ := bind_eq_ok.1 hxs
    cases hxs
    refine List.forall_mem_cons.2 ⟨⟨y, List.mem_cons_self .., hy⟩, fun z hz => ?_⟩
    obtain ⟨w, hw, told⟩ := ih hrest z hz
    exact ⟨w, List.mem_cons_of_mem y hw, told⟩

/-- Each value of a dictionary has its raw form among the raw forms. -/
theorem exists_of_encodeEntries {es fs : Entries} (hes : encodeEntries h visit byId es = .ok fs) :
    ∀ e ∈ es, ∃ f ∈ fs, encodeWith h visit byId e.2 = .ok f.2 := by
  induction es generalizing fs with
  | nil => exact fun _ he => nomatch he
  | cons e es ih =>
    obtain ⟨k, v⟩ := e
    obtain ⟨w, hw, hes⟩ := bind_eq_ok.1 hes
    obtain ⟨rest, hrest, hes⟩ := bind_eq_ok.1 hes
    cases hes
    refine List.forall_mem_cons.2 ⟨⟨(k, w), List.mem_cons_self .., hw⟩, fun e he => ?_⟩
    obtain ⟨f, hf, told⟩ := ih hrest e he
    exact ⟨f, List.mem_cons_of_mem _ hf, told⟩

mutual

/-- What has a well keyed raw form is well keyed itself. -/
theorem wellKeyed_of_encode : (v : Value) → (form : Value) →
    encodeWith h visit byId v = .ok form → form.WellKeyed isEntity → v.WellKeyed isEntity
  | .list xs, form, hv, hform => by
    obtain ⟨ys, hys, hv⟩ := bind_eq_ok.1 hv
    cases hv
    exact wellKeyedItems_of_encode xs ys hys hform
  | .tuple xs, form, hv, hform => by
    obtain ⟨ys, hys, hv⟩ := bind_eq_ok.1 hv
    cases hv
    exact wellKeyedItems_of_encode xs ys hys hform
  | .dict es, form, hv, hform => by
    obtain ⟨fs, hfs, hv⟩ := bind_eq_ok.1 hv
    cases hv
    exact ⟨keys_of_encodeEntries hfs ▸ hform.1, wellKeyedEntries_of_encode es fs hfs hform.2⟩
  | .ordered es, form, hv, hform => by
    obtain ⟨fs, hfs, hv⟩ := bind_eq_ok.1 hv
    cases hv
    exact ⟨keys_of_encodeEntries hfs ▸ hform.1, wellKeyedEntries_of_encode es fs hfs hform.2⟩
  | .set xs, form, hv, hform => by
    cases hv
    exact hform
  | .null, _, _, _ | .bool _, _, _, _ | .int _, _, _, _ | .float _, _, _, _ | .nan _, _, _, _
  | .str _, _, _, _ | .bytes _, _, _, _ | .date _, _, _, _ | .moment _, _, _, _
  | .stamp _, _, _, _ | .zone _, _, _, _ | .object _, _, _, _ | .function _, _, _, _
  | .method _ _, _, _, _ | .cls _, _, _, _ | .checker _ _, _, _, _ | .store _, _, _, _
  | .thing _, _, _, _ => trivial

theorem wellKeyedItems_of_encode : (xs ys : List Value) → encodeItems h visit byId xs = .ok ys →
    Value.WellKeyedItems isEntity ys → Value.WellKeyedItems isEntity xs
  | [], _, _, _ => trivial
  | x :: xs, ys, hxs, hys => by
    obtain ⟨y, hy, hxs⟩ := bind_eq_ok.1 hxs
    obtain ⟨rest, hrest, hxs⟩ := bind_eq_ok.1 hxs
    cases hxs
    exact ⟨wellKeyed_of_encode x y hy hys.1, wellKeyedItems_of_encode xs rest hrest hys.2⟩

theorem wellKeyedEntries_of_encode : (es fs : Entries) → encodeEntries h visit byId es = .ok fs →
    Value.WellKeyedEntries isEntity fs → Value.WellKeyedEntries isEntity es
  | [], _, _, _ => trivial
  | (k, v) :: es, fs, hes, hfs => by
    obtain ⟨w, hw, hes⟩ := bind_eq_ok.1 hes
    obtain ⟨rest, hrest, hes⟩ := bind_eq_ok.1 hes
    cases hes
    exact ⟨hfs.1, wellKeyed_of_encode v w hw hfs.2.1,
      wellKeyedEntries_of_encode es rest hrest hfs.2.2⟩

end

end Encoding

/-! ### What is alike is equal -/

namespace Heap

variable {g : Catalog} {h : Heap} {v w form : Value}

/-- What is alike is equal inside a container, if its raw form is well keyed. -/
theorem Alike.same_of_encode (hg : g.WellFormed) (ha : Alike g h v w)
    (hform : Encoding.encodeWith h (Method.toRaw g h) false w = .ok form)
    (keyed : form.WellKeyed (isEntity h)) (n : Nat) :
    Value.sameWith (Method.sameObjects g h (n + 2)) v w = .ok true := by
  induction ha generalizing form with
  | refl v => exact Value.sameWith_self (n + 1) v (Encoding.wellKeyed_of_encode v form hform keyed)
  | @entity a b cls id pending v w hv hw hvw _ =>
    have alike := Alike.entity hv hw hvw
    have told : Method.toRaw g h b = .ok form := by
      rw [Encoding.encodeWith, isEntity_of_cell hw] at hform
      exact hform
    rw [Value.sameWith]
    split
    · rfl
    · rw [Method.sameObjects, hv, hw, (alike.toRaw hg).trans told, told]
      simp only [Cell.ofFields, if_true, ok_bind]
      exact Value.sameWith_self n form keyed
  | @array xs ys hlen _ ih =>
    obtain ⟨zs, hzs, hform⟩ := bind_eq_ok.1 hform
    cases hform
    rw [Value.sameWith]
    refine Value.sameItems_of_zip hlen fun p hp => ?_
    obtain ⟨z, hz, told⟩ := Encoding.exists_of_encodeItems hzs p.2 (List.of_mem_zip hp).2
    exact ih p hp told (Value.wellKeyedItems_iff.1 keyed z hz)
  | @dictionary es fs hkeys _ ih =>
    have keyed_fs := Encoding.wellKeyed_of_encode _ form hform keyed
    obtain ⟨ds, hds, hform⟩ := bind_eq_ok.1 hform
    cases hform
    have size : es.length = fs.length := by simpa using congrArg List.length hkeys
    have keys := Value.wellKeyedEntries_iff.1 keyed_fs.2
    rw [Value.sameWith, Value.entries?]
    dsimp only
    rw [if_pos size]
    refine Value.sameEntries_of_zip (n + 1) hkeys (fun f hf => ⟨(keys f hf).1.1,
      Value.sameWith_self (n + 1) f.1 (keys f hf).1.2⟩) keyed_fs.1 fun p hp => ?_
    obtain ⟨f, hf, heq⟩ := List.mem_map.1 (List.of_mem_zip hp).2
    obtain ⟨d, hd, told⟩ := Encoding.exists_of_encodeEntries hds f hf
    rw [heq] at told
    exact ih p hp told (Value.wellKeyedEntries_iff.1 keyed.2 d hd).2

/-- Only an entity is alike another value that is an object. -/
theorem Alike.exists_object {b : Address} (ha : Alike g h v (.object b)) : ∃ a, v = .object a := by
  cases ha with
  | refl => exact ⟨b, rfl⟩
  | entity => exact ⟨_, rfl⟩

/-- Objects that are alike are of one class. -/
theorem Alike.species {a b : Address} (ha : Alike g h (.object a) (.object b)) :
    (get h a).species = (get h b).species := by
  cases ha with
  | refl => rfl
  | entity hv hw _ =>
    rw [hv, hw]
    rfl

/-- **What is alike is equal**, if it has a raw form and that is well keyed.  A "not a number"
equals nothing on its own. -/
theorem Alike.equal_of_encode (hg : g.WellFormed) (ha : Alike g h v w) (hn : ∀ n, w ≠ .nan n)
    (hform : Encoding.encodeWith h (Method.toRaw g h) false w = .ok form)
    (keyed : form.WellKeyed (isEntity h)) : Method.equal g h v w = .ok true := by
  have inside : Method.same g h v w = .ok true :=
    ha.same_of_encode hg hform keyed (3 * List.length h)
  cases w with
  | nan n => exact absurd rfl (hn n)
  | object b =>
    obtain ⟨a, rfl⟩ := ha.exists_object
    have species := ha.species
    cases hb : (get h b).species with
    | plain =>
      cases ha with
      | refl => simp [Method.equal, isEntity, hb]
      | entity _ hw _ => rw [hw] at hb; cases hb
    | entity cls =>
      have entity : isEntity h b = true := by simp [isEntity, hb]
      have told : Method.toRaw g h b = .ok form := by
        rw [Encoding.encodeWith, entity] at hform
        exact hform
      rw [hb] at species
      rw [Method.equal, if_pos (by simp [isEntity, species])]
      show Method.sameObjects g h (3 * List.length h + 1 + 1) a b = .ok true
      rw [Method.sameObjects, species, hb, (ha.toRaw hg).trans told, told]
      simp only [if_true, ok_bind]
      exact Value.sameWith_self (3 * List.length h) form keyed
  | _ => cases ha <;> exact inside

end Heap

end EntitySchema
