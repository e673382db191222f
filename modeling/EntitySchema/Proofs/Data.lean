/-
**Data: values that hold no objects and stay as they are.**

Data are what raw data are made of: the absent value, truth values, finite numbers, texts, lists of
data, and dictionaries of data.  The keys of a dictionary of plain data are texts.  A dictionary
that is made of pairs may have other keys; they are *atoms*, and no two of them are equal.  That is
what is called data here, so that all that comes of plain data are data again.

Data lead to no object.  Their raw form is themselves, they equal themselves, and what they make, a
list or a dictionary, is made of data.

Main definitions:

* `Value.isAtom`, `Entries.Distinct`, `Value.IsData` — data.

Main results:

* `Value.isData_of_isPlain` — plain data are data;
* `Encoding.encodeWith_of_isData` — **the raw form of data is themselves**;
* `Value.sameWith_self_of_isData` — **data equal themselves**;
* `Value.isData_of_toEntries` — data make dictionaries of data;
* `Value.depthEntries_lt_of_toEntries` — the entries that a value makes are less deep than the
  value.
-/

import EntitySchema.Construction
import EntitySchema.Proofs.Containment
import EntitySchema.Value.Plain

set_option autoImplicit false

namespace EntitySchema

/-! ### Data -/

/-- Whether a value is data that can be a key: the absent value, a truth value, a finite number or a
text. -/
def Value.isAtom : Value → Bool
  | .null | .bool _ | .int _ | .str _ => true
  | .float x => x.isFinite
  | _ => false

/-- No two keys of a dictionary are equal. -/
def Entries.Distinct (es : Entries) : Prop :=
  es.Pairwise fun e f => Value.sameKey e.1 f.1 = false

/-- Data: atoms, lists of data, and dictionaries of data whose keys are atoms, no two of them
equal. -/
inductive Value.IsData : Value → Prop
  | atom {v : Value} : v.isAtom = true → IsData v
  | list {xs : List Value} : (∀ x ∈ xs, IsData x) → IsData (.list xs)
  | dict {es : Entries} : (∀ e ∈ es, e.1.isAtom = true) → (∀ e ∈ es, IsData e.2) → es.Distinct →
      IsData (.dict es)

namespace Value

theorem isData_null : IsData .null := .atom rfl

theorem isData_str (s : String) : IsData (.str s) := .atom rfl


end Value

namespace Entries

theorem exists_text_of_textKeyed {es : Entries} (h : textKeyed es = true) :
    ∀ e ∈ es, ∃ name, e.1 = .str name := by
  induction es with
  | nil => nofun
  | cons e es ih =>
    obtain ⟨k, v⟩ := e
    cases k with
    | str name =>
      simp only [textKeyed, Bool.and_eq_true] at h
      exact List.forall_mem_cons.2 ⟨⟨name, rfl⟩, ih h.2⟩
    | _ => simp [textKeyed] at h

theorem distinct_of_textKeyed {es : Entries} (h : textKeyed es = true) :
    (∀ e ∈ es, e.1.isAtom = true) ∧ es.Distinct := by
  induction es with
  | nil => exact ⟨nofun, .nil⟩
  | cons e es ih =>
    obtain ⟨k, v⟩ := e
    cases k with
    | str s =>
      simp only [textKeyed, Bool.and_eq_true, Option.isNone_iff_eq_none] at h
      obtain ⟨atoms, distinct⟩ := ih h.2
      refine ⟨?_, .cons ?_ distinct⟩
      · intro e he
        rcases List.mem_cons.1 he with rfl | he
        · rfl
        · exact atoms e he
      · intro e he
        have absent := h.1
        simp only [getStr?, Option.map_eq_none_iff, List.find?_eq_none] at absent
        have other : Value.isText s e.1 ≠ true := absent e he
        cases hk : e.1 with
        | str t =>
          rw [hk] at other
          rw [Value.sameKey_str_right, Value.isText, beq_eq_false_iff_ne]
          intro hst
          exact other (by simp [Value.isText, hst])
        | _ => rfl
    | _ => simp [textKeyed] at h

end Entries

namespace Value

mutual

/-- Plain data are data. -/
theorem isData_of_isPlain : (v : Value) → v.isPlain = true → v.IsData
  | .null, _ | .bool _, _ | .int _, _ | .str _, _ => .atom rfl
  | .float _, h => .atom h
  | .list xs, h => .list (isData_of_plainItems xs h)
  | .dict es, h => by
    simp only [isPlain, Bool.and_eq_true] at h
    obtain ⟨atoms, distinct⟩ := Entries.distinct_of_textKeyed h.1
    exact .dict atoms (isData_of_plainEntries es h.2) distinct

theorem isData_of_plainItems : (xs : List Value) → plainItems xs = true → ∀ x ∈ xs, x.IsData
  | [], _ => nofun
  | x :: xs, h => by
    simp only [plainItems, Bool.and_eq_true] at h
    exact List.forall_mem_cons.2 ⟨isData_of_isPlain x h.1, isData_of_plainItems xs h.2⟩

theorem isData_of_plainEntries : (es : Entries) → plainEntries es = true → ∀ e ∈ es, e.2.IsData
  | [], _ => nofun
  | (k, v) :: es, h => by
    simp only [plainEntries, Bool.and_eq_true] at h
    exact List.forall_mem_cons.2 ⟨isData_of_isPlain v h.1, isData_of_plainEntries es h.2⟩

end

/-- Data lead to no object. -/
theorem IsData.inert {v : Value} (hv : v.IsData) : v.Inert := by
  induction hv with
  | @atom v h =>
    intro a ha
    cases ha <;> simp [isAtom] at h
  | list _ ih =>
    intro a ha
    cases ha with
    | list hx hl => exact ih _ hx a hl
  | dict hk _ _ ih =>
    refine inert_dict ?_
    intro e he
    refine ⟨?_, ih e he⟩
    intro a ha
    have key := hk e he
    cases hke : e.1 <;> rw [hke] at ha key <;> simp [isAtom] at key <;> cases ha

end Value

/-! ### The raw form of data -/

namespace Encoding

variable {h : Heap} {visit : Address → Except Failure Value} {byId : Bool}

theorem encodeItems_of_forall {xs : List Value} (hx : ∀ x ∈ xs, encodeWith h visit byId x = .ok x) :
    encodeItems h visit byId xs = .ok xs := by
  induction xs with
  | nil => rfl
  | cons x xs ih =>
    rw [encodeItems, hx x (List.mem_cons_self ..), ih fun y hy => hx y (List.mem_cons_of_mem x hy)]
    rfl

theorem encodeEntries_of_forall {es : Entries}
    (he : ∀ e ∈ es, encodeWith h visit byId e.2 = .ok e.2) :
    encodeEntries h visit byId es = .ok es := by
  induction es with
  | nil => rfl
  | cons e es ih =>
    obtain ⟨k, v⟩ := e
    rw [encodeEntries, he (k, v) (List.mem_cons_self ..),
      ih fun f hf => he f (List.mem_cons_of_mem _ hf)]
    rfl

/-- The raw form of data is themselves. -/
theorem encodeWith_of_isData {v : Value} (hv : v.IsData) : encodeWith h visit byId v = .ok v := by
  induction hv with
  | @atom v hv => cases v <;> simp [Value.isAtom] at hv <;> rfl
  | list _ ih =>
    rw [encodeWith, encodeItems_of_forall ih]
    rfl
  | dict _ _ _ ih =>
    rw [encodeWith, encodeEntries_of_forall ih]
    rfl

end Encoding

/-! ### Equality of data -/

namespace Value

/-- Atoms are compared as keys are. -/
theorem sameWith_of_isAtom {ask : Address → Address → Except Failure Bool} {v w : Value}
    (hv : v.isAtom = true) (hw : w.isAtom = true) : sameWith ask v w = .ok (sameKey v w) := by
  cases v <;> simp [isAtom] at hv <;> cases w <;> simp [isAtom] at hw <;> rfl

theorem sameKey_self_of_isAtom {v : Value} (hv : v.isAtom = true) : sameKey v v = true := by
  cases v <;> simp [isAtom] at hv <;>
    simp [sameKey, sameWith, isQuantity, quantity?, Quantity.same]

/-- Which of two atoms is compared with the other does not matter. -/
theorem sameKey_comm_of_isAtom {v w : Value} (hv : v.isAtom = true) (hw : w.isAtom = true) :
    sameKey v w = sameKey w v := by
  cases v <;> simp [isAtom] at hv <;> cases w <;> simp [isAtom] at hw <;>
    simp [sameKey, sameWith, isQuantity, quantity?, Quantity.same, Binary64.eqNumber_comm, BEq.comm]

variable {ask : Address → Address → Except Failure Bool}

theorem sameItems_self_of_forall {xs : List Value} (hx : ∀ x ∈ xs, sameWith ask x x = .ok true) :
    sameItems ask xs xs = .ok true := by
  induction xs with
  | nil => rfl
  | cons x xs ih =>
    simp only [sameItems, hx x (List.mem_cons_self ..), bind, Except.bind, if_true]
    exact ih fun y hy => hx y (List.mem_cons_of_mem x hy)

/-- The entry found under a key of a dictionary without equal keys is the one that has it. -/
theorem findM?_of_distinct {es : Entries} (hk : ∀ e ∈ es, e.1.isAtom = true) (hd : es.Distinct)
    {e : Value × Value} (he : e ∈ es) :
    (es.findM? fun f => sameWith ask e.1 f.1) = .ok (some e) := by
  induction es with
  | nil => cases he
  | cons f es ih =>
    have atoms := List.forall_mem_cons.1 hk
    obtain ⟨later, distinct⟩ := List.pairwise_cons.1 hd
    rw [List.findM?, sameWith_of_isAtom (hk e he) atoms.1]
    rcases List.mem_cons.1 he with rfl | he
    · rw [sameKey_self_of_isAtom atoms.1]
      rfl
    · rw [sameKey_comm_of_isAtom (atoms.2 e he) atoms.1, later e he]
      exact ih atoms.2 distinct he

theorem sameEntries_of_forall {xs ys : Entries}
    (hf : ∀ e ∈ xs, (ys.findM? fun f => sameWith ask e.1 f.1) = .ok (some e))
    (hv : ∀ e ∈ xs, sameWith ask e.2 e.2 = .ok true) : sameEntries ask xs ys = .ok true := by
  induction xs with
  | nil => rfl
  | cons e xs ih =>
    obtain ⟨k, v⟩ := e
    have found := List.forall_mem_cons.1 hf
    have same := List.forall_mem_cons.1 hv
    simp only [sameEntries, found.1, same.1, bind, Except.bind, if_true]
    exact ih found.2 same.2

/-- Data equal themselves. -/
theorem sameWith_self_of_isData {v : Value} (hv : v.IsData) : sameWith ask v v = .ok true := by
  induction hv with
  | @atom v h => rw [sameWith_of_isAtom h h, sameKey_self_of_isAtom h]
  | list _ ih =>
    rw [sameWith]
    exact sameItems_self_of_forall ih
  | dict hk _ hd ih =>
    simp only [sameWith, entries?, if_true]
    exact sameEntries_of_forall (fun e he => findM?_of_distinct hk hd he) ih

/-! ### What data make -/

/-- The items of data are data. -/
theorem isData_of_items? {v : Value} (hv : v.IsData) {xs : List Value} (hxs : v.items? = some xs) :
    ∀ x ∈ xs, x.IsData := by
  cases hv with
  | @atom v h =>
    cases v with
    | null | bool | int | float => cases hxs
    | str s =>
      cases hxs
      intro x hx
      obtain ⟨c, -, rfl⟩ := List.mem_map.1 hx
      exact isData_str _
    | _ => simp [isAtom] at h
  | list h =>
    cases hxs
    exact h
  | dict hk hv hd =>
    cases hxs
    intro x hx
    obtain ⟨e, he, rfl⟩ := List.mem_map.1 hx
    exact .atom (hk e he)

/-- Of data, the atoms can be keys. -/
theorem hashable_of_isData {v : Value} (hv : v.IsData) (isEntity : Address → Bool) :
    v.hashable isEntity = v.isAtom := by
  cases hv with
  | @atom v h =>
    rw [h]
    cases v <;> simp [isAtom] at h <;> rfl
  | list _ => rfl
  | dict _ _ _ => rfl

/-- An entry that data make is made of data, and its key is an atom. -/
theorem isData_of_toEntry {isEntity : Address → Bool} {v : Value} (hv : v.IsData)
    {e : Value × Value} (he : v.toEntry isEntity = .ok e) : e.1.isAtom = true ∧ e.2.IsData := by
  obtain ⟨items, can⟩ := toEntry_eq_ok_iff.1 he
  have parts := isData_of_items? hv items
  have key : e.1.IsData := parts e.1 (by simp)
  exact ⟨hashable_of_isData key isEntity ▸ can, parts e.2 (by simp)⟩

end Value

namespace Entries

/-- After a write, the key of an entry was there before or is the one written, and so is its
value. -/
theorem mem_insert {es : Entries} {k v : Value} {e : Value × Value} (he : e ∈ insert es k v) :
    ((∃ f ∈ es, f.1 = e.1) ∨ e.1 = k) ∧ ((∃ f ∈ es, f.2 = e.2) ∨ e.2 = v) := by
  induction es with
  | nil =>
    rw [insert, List.mem_singleton] at he
    subst he
    exact ⟨Or.inr rfl, Or.inr rfl⟩
  | cons f es ih =>
    have old : ∀ e ∈ es, ((∃ f' ∈ f :: es, f'.1 = e.1) ∨ e.1 = k) ∧
        ((∃ f' ∈ f :: es, f'.2 = e.2) ∨ e.2 = v) := fun e he =>
      ⟨Or.inl ⟨e, List.mem_cons_of_mem f he, rfl⟩, Or.inl ⟨e, List.mem_cons_of_mem f he, rfl⟩⟩
    have here : f ∈ f :: es := List.mem_cons_self ..
    rw [insert] at he
    split at he
    · rcases List.mem_cons.1 he with rfl | he
      · exact ⟨Or.inl ⟨f, here, rfl⟩, Or.inr rfl⟩
      · exact old e he
    · rcases List.mem_cons.1 he with rfl | he
      · exact ⟨Or.inl ⟨_, here, rfl⟩, Or.inl ⟨_, here, rfl⟩⟩
      · obtain ⟨key, value⟩ := ih he
        refine ⟨key.imp_left ?_, value.imp_left ?_⟩
        · rintro ⟨f', hf', heq⟩
          exact ⟨f', List.mem_cons_of_mem f hf', heq⟩
        · rintro ⟨f', hf', heq⟩
          exact ⟨f', List.mem_cons_of_mem f hf', heq⟩

/-- What holds of the keys and of the values of a dictionary and of some pairs holds of those of the
dictionary after the pairs were written. -/
theorem forall_mem_insertAll {P Q : Value → Prop} {ps : List (Value × Value)}
    (hps : ∀ p ∈ ps, P p.1 ∧ Q p.2) {es : Entries} (hes : ∀ e ∈ es, P e.1 ∧ Q e.2) :
    ∀ e ∈ insertAll es ps, P e.1 ∧ Q e.2 := by
  induction ps generalizing es with
  | nil => exact hes
  | cons p ps ih =>
    have parts := List.forall_mem_cons.1 hps
    refine ih parts.2 ?_
    intro e he
    obtain ⟨key, value⟩ := mem_insert he
    constructor
    · rcases key with ⟨f, hf, heq⟩ | heq
      · exact heq ▸ (hes f hf).1
      · exact heq ▸ parts.1.1
    · rcases value with ⟨f, hf, heq⟩ | heq
      · exact heq ▸ (hes f hf).2
      · exact heq ▸ parts.1.2

theorem forall_mem_ofPairs {P Q : Value → Prop} {ps : List (Value × Value)}
    (hps : ∀ p ∈ ps, P p.1 ∧ Q p.2) : ∀ e ∈ ofPairs ps, P e.1 ∧ Q e.2 :=
  forall_mem_insertAll hps (fun _ he => nomatch he)

/-- A write keeps the keys distinct. -/
theorem distinct_insert {es : Entries} (hd : es.Distinct) (k v : Value) :
    (insert es k v).Distinct := by
  induction es with
  | nil => exact List.pairwise_singleton _ _
  | cons f es ih =>
    obtain ⟨k', w⟩ := f
    obtain ⟨later, distinct⟩ := List.pairwise_cons.1 hd
    rw [insert]
    split
    · exact .cons later distinct
    · next hne =>
      refine .cons ?_ (ih distinct)
      intro e he
      rcases (mem_insert he).1 with ⟨f, hf, heq⟩ | heq
      · exact heq ▸ later f hf
      · rw [heq]
        exact Bool.eq_false_of_not_eq_true hne

theorem distinct_insertAll (ps : List (Value × Value)) {es : Entries} (hd : es.Distinct) :
    (insertAll es ps).Distinct := by
  induction ps generalizing es with
  | nil => exact hd
  | cons p ps ih => exact ih (distinct_insert hd p.1 p.2)

/-- What is under a name in a dictionary of data is data. -/
theorem isData_getStr {es : Entries} (hes : (Value.dict es).IsData) (name : String) :
    (getStr es name).IsData := by
  cases hes with
  | atom h => cases h
  | dict _ values _ => exact getStr_of_forall Value.isData_null values name

end Entries

namespace Value

/-- The members of a list that is made one by one come of the members of another. -/
theorem exists_of_mapM {α β : Type} {f : α → Except Failure β} {xs : List α} {ys : List β}
    (h : xs.mapM f = .ok ys) {y : β} (hy : y ∈ ys) : ∃ x ∈ xs, f x = .ok y := by
  induction xs generalizing ys with
  | nil =>
    cases h
    cases hy
  | cons x xs ih =>
    rw [List.mapM_cons] at h
    obtain ⟨z, hx, h⟩ := bind_eq_ok.1 h
    obtain ⟨zs, hxs, h⟩ := bind_eq_ok.1 h
    cases h
    rcases List.mem_cons.1 hy with rfl | hy
    · exact ⟨x, List.mem_cons_self .., hx⟩
    · obtain ⟨x', hx', heq⟩ := ih hxs hy
      exact ⟨x', List.mem_cons_of_mem x hx', heq⟩

/-- The entries that a value makes are those that it has, or pairs that its items make, written one
after the other. -/
theorem entries_or_pairs {isEntity : Address → Bool} {v : Value} {es : Entries}
    (h : v.toEntries isEntity = .ok es) : v.entries? = some es ∨
      ∃ xs ps, v.items? = some xs ∧ xs.mapM (toEntry isEntity) = .ok ps ∧
        es = Entries.ofPairs ps := by
  unfold toEntries at h
  split at h
  · next fs hm =>
    cases h
    exact .inl hm
  · obtain ⟨xs, hxs, h⟩ := bind_eq_ok.1 h
    obtain ⟨ps, hps, h⟩ := bind_eq_ok.1 h
    cases h
    exact .inr ⟨xs, ps, toItems_eq_ok_iff.1 hxs, hps, rfl⟩

/-- What holds of the keys and of the values of a mapping, and of the two items of an item, holds of
the keys and of the values that a value makes. -/
theorem forall_mem_toEntries {isEntity : Address → Bool} {v : Value} {es : Entries}
    (h : v.toEntries isEntity = .ok es) {P Q : Value → Prop}
    (entries : v.entries? = some es → ∀ e ∈ es, P e.1 ∧ Q e.2)
    (pairs : ∀ xs, v.items? = some xs → ∀ x ∈ xs, ∀ k w, x.items? = some [k, w] → P k ∧ Q w) :
    ∀ e ∈ es, P e.1 ∧ Q e.2 := by
  rcases entries_or_pairs h with hes | ⟨xs, ps, hxs, hps, rfl⟩
  · exact entries hes
  · refine Entries.forall_mem_ofPairs fun p hp => ?_
    obtain ⟨x, hx, heq⟩ := exists_of_mapM hps hp
    exact pairs xs hxs x hx _ _ (toEntry_eq_ok_iff.1 heq).1

/-- Data make dictionaries of data. -/
theorem isData_of_toEntries {isEntity : Address → Bool} {v : Value} (hv : v.IsData) {es : Entries}
    (hes : v.toEntries isEntity = .ok es) : (dict es).IsData := by
  rcases entries_or_pairs hes with hm | ⟨xs, ps, hxs, hps, rfl⟩
  · cases hv with
    | atom h => cases v <;> simp [isAtom, entries?] at h hm
    | list => cases hm
    | dict keys values distinct =>
      cases hm
      exact .dict keys values distinct
  · -- a write keeps a key and replaces a value, so both come from the pairs
    have parts : ∀ e ∈ Entries.ofPairs ps, e.1.isAtom = true ∧ e.2.IsData := by
      refine Entries.forall_mem_ofPairs (P := fun k => k.isAtom = true) fun p hp => ?_
      obtain ⟨x, hx, heq⟩ := exists_of_mapM hps hp
      exact isData_of_toEntry (isData_of_items? hv hxs x hx) heq
    exact .dict (fun e he => (parts e he).1) (fun e he => (parts e he).2)
      (Entries.distinct_insertAll ps .nil)

/-! ### The depth of what a value makes -/

theorem depthItems_lt_iff {xs : List Value} {n : Nat} :
    depthItems xs < n ↔ 0 < n ∧ ∀ x ∈ xs, depth x < n := by
  induction xs with
  | nil => simp [depthItems]
  | cons x xs ih =>
    rw [depthItems, Nat.max_lt, ih, List.forall_mem_cons]
    constructor
    · rintro ⟨hx, hn, hxs⟩
      exact ⟨hn, hx, hxs⟩
    · rintro ⟨hn, hx, hxs⟩
      exact ⟨hx, hn, hxs⟩

theorem depthEntries_lt_iff {es : Entries} {n : Nat} :
    depthEntries es < n ↔ 0 < n ∧ ∀ e ∈ es, depth e.1 < n ∧ depth e.2 < n := by
  induction es with
  | nil => simp [depthEntries]
  | cons e es ih =>
    obtain ⟨k, v⟩ := e
    rw [depthEntries, Nat.max_lt, Nat.max_lt, ih, List.forall_mem_cons]
    constructor
    · rintro ⟨he, hn, hes⟩
      exact ⟨hn, he, hes⟩
    · rintro ⟨hn, he, hes⟩
      exact ⟨he, hn, hes⟩

theorem depth_pos (v : Value) : 0 < depth v := by
  cases v <;> simp [depth]

/-- The items of a value are no deeper than the value, and less deep if it is no text and no
bytes. -/
theorem depth_of_items? {v : Value} {xs : List Value} (h : v.items? = some xs) {x : Value}
    (hx : x ∈ xs) : depth x < depth v ∨ (depth x = depth v ∧ ((∃ c, x = .str (String.singleton c)) ∨
      ∃ n, x = .int n)) := by
  cases v with
  | list ys | tuple ys | set ys =>
    cases h
    refine Or.inl ?_
    rw [depth]
    exact (depthItems_lt_iff.1 (Nat.lt_succ_self _)).2 x hx
  | dict es | ordered es =>
    cases h
    obtain ⟨e, he, rfl⟩ := List.mem_map.1 hx
    refine Or.inl ?_
    rw [depth]
    exact ((depthEntries_lt_iff.1 (Nat.lt_succ_self _)).2 e he).1
  | str s =>
    cases h
    obtain ⟨c, -, rfl⟩ := List.mem_map.1 hx
    exact Or.inr ⟨rfl, Or.inl ⟨c, rfl⟩⟩
  | bytes bs =>
    cases h
    obtain ⟨b, -, rfl⟩ := List.mem_map.1 hx
    exact Or.inr ⟨rfl, Or.inr ⟨_, rfl⟩⟩
  | _ => cases h

theorem depth_le_of_items? {v : Value} {xs : List Value} (h : v.items? = some xs) {x : Value}
    (hx : x ∈ xs) : depth x ≤ depth v := by
  rcases depth_of_items? h hx with hlt | ⟨heq, -⟩
  · exact hlt.le
  · exact heq.le

/-- The entries that a value makes are less deep than the value. -/
theorem depthEntries_lt_of_toEntries {isEntity : Address → Bool} {v : Value} {es : Entries}
    (h : v.toEntries isEntity = .ok es) : depthEntries es < depth v := by
  refine depthEntries_lt_iff.2 ⟨depth_pos v, ?_⟩
  refine forall_mem_toEntries h (P := fun k => k.depth < v.depth) (Q := fun w => w.depth < v.depth)
    (fun hm => ?_) fun xs hxs x hx k w two => ?_
  · have less : depthEntries es < depth v := by
      cases v <;> cases hm <;> exact Nat.lt_succ_self _
    exact (depthEntries_lt_iff.1 less).2
  · have key := depth_le_of_items? two (List.mem_cons_self ..)
    have value := depth_le_of_items? two (List.mem_cons_of_mem _ (List.mem_cons_self ..))
    rcases depth_of_items? hxs hx with hlt | ⟨-, ⟨c, rfl⟩ | ⟨n, rfl⟩⟩
    · exact ⟨key.trans_lt hlt, value.trans_lt hlt⟩
    · -- one character has no two items
      simp [items?] at two
    · cases two

end Value

namespace Entries

/-- What is under a name in a dictionary is no deeper than its entries, if it is there. -/
theorem depth_getStr_le {es : Entries} {name : String} (h : (getStr es name).isNull = false) :
    (getStr es name).depth ≤ Value.depthEntries es := by
  have bound := Value.depthEntries_lt_iff.1 (Nat.lt_succ_self (Value.depthEntries es))
  revert h
  exact getStr_of_forall (P := fun v => v.isNull = false → v.depth ≤ Value.depthEntries es)
    (fun h => by cases h) (fun e he _ => Nat.le_of_lt_succ (bound.2 e he).2) name

end Entries

end EntitySchema
