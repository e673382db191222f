/-
**What an object contains, and why every walk through entities ends.**

Entities may hold each other in circles, so the library walks through them with a bound on the depth
(`Method.depth`).  This module shows that the bound is idle wherever it may be: if no entity in
reach contains itself, the bound is never met, and validation, reports and raw data obey the
equations that one would write down without any bound.

A value *leads to* the objects that it is or is made of.  It *holds* these and whatever is held by
their attributes.  An object *contains* what the values of the fields of its schema hold.  To
contain is transitive, so along a chain of objects without circle, each containing the next, the
number of objects contained drops at every step.  That number is the *rank* of an object, and it is
below the bound.

Main definitions:

* `Value.LeadsTo`, `Heap.Holds` — what a value leads to, and what it holds;
* `Heap.Contains` — what an object contains through its fields;
* `Heap.SelfFree` — no object that a value holds contains itself;
* `Heap.rank` — the number of objects that an object contains, with itself.

Main results:

* `Heap.Contains.trans` — **containing is transitive**;
* `Checker.presentWith_congr`, `Encoding.encodeWith_congr` — a check and an encoding visit only what
  the value holds;
* `Method.call_eq_invoke` — **the bound on the depth is never met**;
* `Method.invoke_validate`, `Method.invoke_check`, `Method.invoke_toRaw` — validation, reports and
  raw data without a bound.
-/

import EntitySchema.Method
import Mathlib.Data.Finset.Card

set_option autoImplicit false

namespace EntitySchema

/-! ### What a value leads to -/

/-- The objects that a value is or is made of.  A function leads to the cell of its attributes, and
a method to the object that it belongs to. -/
inductive Value.LeadsTo : Value → Address → Prop
  | object (a : Address) : LeadsTo (.object a) a
  | function (a : Address) : LeadsTo (.function a) a
  | method (a : Address) (name : String) : LeadsTo (.method (.object a) name) a
  | list {xs : List Value} {x : Value} {a : Address} : x ∈ xs → LeadsTo x a → LeadsTo (.list xs) a
  | tuple {xs : List Value} {x : Value} {a : Address} : x ∈ xs → LeadsTo x a → LeadsTo (.tuple xs) a
  | set {xs : List Value} {x : Value} {a : Address} : x ∈ xs → LeadsTo x a → LeadsTo (.set xs) a
  | dictKey {es : Entries} {e : Value × Value} {a : Address} :
      e ∈ es → LeadsTo e.1 a → LeadsTo (.dict es) a
  | dict {es : Entries} {e : Value × Value} {a : Address} :
      e ∈ es → LeadsTo e.2 a → LeadsTo (.dict es) a
  | orderedKey {es : Entries} {e : Value × Value} {a : Address} :
      e ∈ es → LeadsTo e.1 a → LeadsTo (.ordered es) a
  | ordered {es : Entries} {e : Value × Value} {a : Address} :
      e ∈ es → LeadsTo e.2 a → LeadsTo (.ordered es) a

namespace Value

/-- What the entries of a mapping lead to, the mapping leads to. -/
theorem leadsTo_of_entries {v : Value} {es : Entries} (hes : v.entries? = some es)
    {e : Value × Value} (he : e ∈ es) :
    (∀ a, e.1.LeadsTo a → v.LeadsTo a) ∧ ∀ a, e.2.LeadsTo a → v.LeadsTo a := by
  cases v with
  | dict es' =>
    cases hes
    exact ⟨fun _ => .dictKey he, fun _ => .dict he⟩
  | ordered es' =>
    cases hes
    exact ⟨fun _ => .orderedKey he, fun _ => .ordered he⟩
  | _ => cases hes

/-- What the items of a value lead to, the value leads to. -/
theorem leadsTo_of_items {v : Value} {xs : List Value} (hxs : v.items? = some xs) {x : Value}
    (hx : x ∈ xs) {a : Address} (ha : x.LeadsTo a) : v.LeadsTo a := by
  cases v with
  | list ys =>
    cases hxs
    exact .list hx ha
  | tuple ys =>
    cases hxs
    exact .tuple hx ha
  | set ys =>
    cases hxs
    exact .set hx ha
  | dict es | ordered es =>
    cases hxs
    obtain ⟨e, he, rfl⟩ := List.mem_map.1 hx
    exact (leadsTo_of_entries rfl he).1 a ha
  | str s =>
    cases hxs
    obtain ⟨c, -, rfl⟩ := List.mem_map.1 hx
    cases ha
  | bytes bs =>
    cases hxs
    obtain ⟨b, -, rfl⟩ := List.mem_map.1 hx
    cases ha
  | _ => cases hxs

end Value

namespace Heap

/-- The objects that a value holds: those that it leads to, and those that their attributes lead to,
and so on. -/
inductive Holds (h : Heap) (v : Value) : Address → Prop
  | direct {a : Address} : v.LeadsTo a → Holds h v a
  | through {a b : Address} {p : String × Value} :
      Holds h v a → p ∈ (get h a).attributes → p.2.LeadsTo b → Holds h v b

/-- What leads only to objects that a value holds, holds nothing else. -/
theorem Holds.of_leads {h : Heap} {v w : Value} (hw : ∀ a, w.LeadsTo a → h.Holds v a) {b : Address}
    (hb : h.Holds w b) : h.Holds v b := by
  induction hb with
  | direct ha => exact hw _ ha
  | through _ hp hl ih => exact .through ih hp hl

end Heap

/-! ### Attributes that lead nowhere -/

/-- A value that leads to no object. -/
def Value.Inert (v : Value) : Prop := ∀ a, ¬ v.LeadsTo a

namespace Value

theorem inert_null : Inert .null := nofun
theorem inert_str (s : String) : Inert (.str s) := nofun
theorem inert_moment (m : Moment) : Inert (.moment m) := nofun
theorem inert_cls (c : ClassValue) : Inert (.cls c) := nofun
theorem inert_checker (c : ClassId) (f : String) : Inert (.checker c f) := nofun
theorem inert_store (i : Nat) : Inert (.store i) := nofun
theorem inert_thing (t : String) : Inert (.thing t) := nofun

theorem inert_method {o : Owner} (ho : ∀ a, o ≠ .object a) (name : String) :
    Inert (.method o name) := by
  intro a h
  cases h
  exact ho a rfl

theorem inert_tuple {xs : List Value} (h : ∀ x ∈ xs, Inert x) : Inert (.tuple xs) := by
  intro a ha
  cases ha with
  | tuple hx hl => exact h _ hx a hl

theorem inert_dict {es : Entries} (h : ∀ e ∈ es, Inert e.1 ∧ Inert e.2) : Inert (.dict es) := by
  intro a ha
  cases ha with
  | dictKey he hl => exact (h _ he).1 a hl
  | dict he hl => exact (h _ he).2 a hl

/-- What the methods of a value belong to is no object. -/
theorem owner_ne_object (token : Nat) (v : Value) (a : Address) : v.owner token ≠ .object a := by
  unfold owner
  repeat' split
  all_goals simp

theorem inert_of_dateAttribute? {d : Date} {name : String} {w : Value}
    (h : dateAttribute? d name = some w) : Inert w := by
  unfold dateAttribute? at h
  split_ifs at h <;> cases h <;> nofun

theorem inert_of_momentAttribute? {m : Moment} {name : String} {w : Value}
    (h : momentAttribute? m name = some w) : Inert w := by
  unfold momentAttribute? at h
  split_ifs at h
  case neg => exact inert_of_dateAttribute? h
  all_goals
    cases h
    try split
    all_goals nofun

theorem inert_of_integerAttribute? {n : Int} {name : String} {w : Value}
    (h : integerAttribute? n name = some w) : Inert w := by
  unfold integerAttribute? at h
  split_ifs at h <;> cases h <;> nofun

/-- The parts of a value that is no object lead to no object. -/
theorem inert_of_dataAttribute? {v : Value} {name : String} {w : Value}
    (h : v.dataAttribute? name = some w) : Inert w := by
  cases v with
  | bool b => exact inert_of_integerAttribute? h
  | int n => exact inert_of_integerAttribute? h
  | date d => exact inert_of_dateAttribute? h
  | moment m => exact inert_of_momentAttribute? h
  | stamp m =>
    simp only [dataAttribute?] at h
    split_ifs at h
    · cases h
      exact inert_dict (by simp)
    · cases h
      exact inert_null
    · exact inert_of_momentAttribute? h
  | ordered es =>
    simp only [dataAttribute?] at h
    split_ifs at h
    · cases h
      exact inert_null
    · cases h
      exact inert_dict (by simp)
  | _ =>
    simp only [dataAttribute?, reduceCtorEq] at h <;> split_ifs at h <;> cases h <;> nofun

/-- The attributes of a value that is no object lead to no object. -/
theorem inert_of_attribute? {token : Nat} {v : Value} {name : String} {w : Value}
    (h : v.attribute? token name = some w) : Inert w := by
  unfold attribute? at h
  split at h
  · cases h
    exact inert_cls _
  · split at h
    · next x hx =>
      cases h
      exact inert_of_dataAttribute? hx
    · split_ifs at h
      · cases h
        exact inert_method (owner_ne_object token v) name
      · cases h
        split <;> nofun

end Value

namespace Heap

variable {g : Catalog} {h : Heap}

/-- What a class of entities gives leads to no object. -/
theorem inert_of_sharedAttribute? {c : ClassId} {name : String} {w : Value}
    (hw : sharedAttribute? g c name = some w) : w.Inert := by
  unfold sharedAttribute? at hw
  split_ifs at hw <;> cases hw
  · exact Value.inert_str _
  · refine Value.inert_dict ?_
    intro e he
    obtain ⟨f, _, rfl⟩ := List.mem_map.1 he
    exact ⟨Value.inert_str _, Value.inert_checker _ _⟩
  · unfold storeValue
    split
    · exact Value.inert_store _
    · exact Value.inert_null
  · exact Value.inert_null
  · exact Value.inert_str _
  · exact Value.inert_null
  · exact Value.inert_str _
  · refine Value.inert_dict ?_
    intro e he
    obtain ⟨f, _, rfl⟩ := List.mem_map.1 he
    exact ⟨Value.inert_str _, Value.inert_thing _⟩
  · exact Value.inert_method (by simp) name
  · exact Value.inert_method (by simp) name

/-- What its class gives an entity leads at most to the entity itself. -/
theorem eq_of_givenAttribute? {a b : Address} {c : ClassId} {name : String} {w : Value}
    (hw : givenAttribute? g a c name = some w) (hb : w.LeadsTo b) : b = a := by
  unfold givenAttribute? at hw
  split at hw
  · next v hv =>
    cases hw
    exact absurd hb (inert_of_sharedAttribute? hv b)
  · split_ifs at hw
    cases hw
    cases hb
    rfl

/-- What its class gives a plain object leads at most to the object itself. -/
theorem eq_of_plainAttribute? {a b : Address} {name : String} {w : Value}
    (hw : plainAttribute? a name = some w) (hb : w.LeadsTo b) : b = a := by
  unfold plainAttribute? at hw
  split_ifs at hw <;> cases hw <;> cases hb
  rfl

/-- An attribute that an object has itself is among its attributes. -/
theorem mem_of_own? {c : Cell} {name : String} {w : Value} (hw : c.own? name = some w) :
    (name, w) ∈ c.attributes := by
  unfold Cell.own? at hw
  generalize c.attributes = t at hw ⊢
  induction t with
  | nil => cases hw
  | cons e t ih =>
    obtain ⟨k, v⟩ := e
    simp only [Table.get?] at hw
    split_ifs at hw with hk
    · cases hw
      simp [hk]
    · exact List.mem_cons_of_mem _ (ih hw)

/-- The attributes of an object as a whole lead to what they lead to one by one. -/
theorem leads_of_attributes {t : Table Value} {b : Address}
    (hb : (Value.dict (t.map fun p => (.str p.1, p.2))).LeadsTo b) :
    ∃ p ∈ t, p.2.LeadsTo b := by
  cases hb with
  | dictKey he hl =>
    obtain ⟨p, _, rfl⟩ := List.mem_map.1 he
    cases hl
  | dict he hl =>
    obtain ⟨p, hp, rfl⟩ := List.mem_map.1 he
    exact ⟨p, hp, hl⟩

/-- An attribute of an object leads to the object itself, or to what one of its own attributes leads
to. -/
theorem leads_of_objectAttribute? {a b : Address} {name : String} {w : Value}
    (hw : objectAttribute? g h a name = some w) (hb : w.LeadsTo b) :
    b = a ∨ ∃ p ∈ (get h a).attributes, p.2.LeadsTo b := by
  have own {w : Value} {n : String} (hn : (get h a).own? n = some w) (hb : w.LeadsTo b) :
      ∃ p ∈ (get h a).attributes, p.2.LeadsTo b := ⟨_, mem_of_own? hn, hb⟩
  simp only [objectAttribute?] at hw
  split at hw
  · cases hw
    cases hb
  split at hw
  · cases hw
    exact Or.inr (leads_of_attributes hb)
  split at hw
  · cases hw
    cases hb
  split at hw
  · split at hw
    · exact Or.inr (own hw hb)
    · rcases Option.or_eq_some_iff.1 hw with hw | ⟨_, hw⟩
      · exact Or.inr (own hw hb)
      · exact Or.inl (eq_of_givenAttribute? hw hb)
  · rcases Option.or_eq_some_iff.1 hw with hw | ⟨_, hw⟩
    · exact Or.inr (own hw hb)
    · exact Or.inl (eq_of_plainAttribute? hw hb)

/-- What a class tells about its place among the classes leads to no object. -/
theorem inert_of_placeAttribute? {c : ClassValue} {name : String} {w : Value}
    (hw : placeAttribute? g c name = some w) : w.Inert := by
  have classes {cs : List ClassValue} : (Value.tuple (cs.map Value.cls)).Inert := by
    refine Value.inert_tuple ?_
    intro x hx
    obtain ⟨d, _, rfl⟩ := List.mem_map.1 hx
    exact Value.inert_cls d
  simp only [placeAttribute?] at hw
  split_ifs at hw <;> cases hw
  · exact classes
  · exact classes
  · cases List.head? ((ancestry g c).drop 1) with
    | none => exact Value.inert_null
    | some d => exact Value.inert_cls d
  · exact Value.inert_null
  · exact Value.inert_method (by simp) name

/-- What a class gives by itself leads to no object. -/
theorem inert_of_ownClassAttribute? {c : ClassValue} {name : String} {w : Value}
    (hw : ownClassAttribute? g c name = some w) : w.Inert := by
  cases c with
  | entity k =>
    simp only [ownClassAttribute?] at hw
    split at hw
    · next v hv =>
      cases hw
      exact inert_of_sharedAttribute? hv
    · split_ifs at hw <;> cases hw
      · exact Value.inert_thing _
      · exact Value.inert_method (by simp) name
  | plain =>
    simp only [ownClassAttribute?] at hw
    split_ifs at hw <;> cases hw
    · exact Value.inert_str _
    · exact Value.inert_null
  | builtin => cases hw

/-- What a class tells of itself leads to no object. -/
theorem inert_of_classAttribute? {c : ClassValue} {name : String} {w : Value}
    (hw : classAttribute? g c name = some w) : w.Inert := by
  simp only [classAttribute?] at hw
  split at hw
  · cases hw
    exact Value.inert_cls _
  split at hw
  · cases hw
    exact Value.inert_thing _
  split at hw
  · cases hw
    exact Value.inert_str _
  split at hw
  · next v hv =>
    cases hw
    exact inert_of_ownClassAttribute? hv
  · split at hw
    · cases hw
      exact Value.inert_method (by simp) name
    · exact inert_of_placeAttribute? hw

/-- An attribute of a method leads at most to what the method belongs to. -/
theorem leads_of_methodAttribute? {owner : Owner} {method name : String} {w : Value} {b : Address}
    (hw : methodAttribute? owner method name = some w) (hb : w.LeadsTo b) :
    (Value.method owner method).LeadsTo b := by
  have none_of_inert {w' : Value} (hi : w'.Inert) (hb' : w'.LeadsTo b) :
      (Value.method owner method).LeadsTo b := absurd hb' (hi b)
  cases owner with
  | object a =>
    simp only [methodAttribute?] at hw
    split_ifs at hw <;> cases hw
    · exact none_of_inert (Value.inert_str _) hb
    · cases hb
      exact .method _ method
    · exact none_of_inert (Value.inert_str _) hb
    · exact none_of_inert (Value.inert_str _) hb
    · exact none_of_inert (Value.inert_method (by simp) _) hb
  | cls c =>
    simp only [methodAttribute?] at hw
    split_ifs at hw <;> cases hw
    · exact none_of_inert (Value.inert_str _) hb
    · exact none_of_inert (Value.inert_cls _) hb
    · exact none_of_inert (Value.inert_str _) hb
    · exact none_of_inert (Value.inert_str _) hb
    · exact none_of_inert (Value.inert_method (by simp) _) hb
  | value t =>
    simp only [methodAttribute?] at hw
    split_ifs at hw
    cases hw
    exact none_of_inert (Value.inert_str _) hb
  | constant s =>
    simp only [methodAttribute?] at hw
    split_ifs at hw
    cases hw
    exact none_of_inert (Value.inert_str _) hb

/-- An attribute of a value leads to what the value holds already. -/
theorem holds_of_attribute? {token : Nat} {v w : Value} {name : String} {b : Address}
    (hw : attribute? g h token v name = some w) (hb : w.LeadsTo b) : h.Holds v b := by
  cases v with
  | object a =>
    rcases leads_of_objectAttribute? hw hb with rfl | ⟨p, hp, hl⟩
    · exact .direct (.object _)
    · exact .through (.direct (.object a)) hp hl
  | cls c => exact absurd hb (inert_of_classAttribute? hw b)
  | method owner method =>
    rcases Option.or_eq_some_iff.1 hw with hw | ⟨_, hw⟩
    · exact .direct (leads_of_methodAttribute? hw hb)
    · exact absurd hb (Value.inert_of_attribute? hw b)
  | function a =>
    simp only [attribute?] at hw
    split at hw
    · cases hw
      obtain ⟨p, hp, hl⟩ := leads_of_attributes hb
      exact .through (.direct (.function a)) hp hl
    · rcases Option.or_eq_some_iff.1 hw with hw | ⟨_, hw⟩
      · exact .through (.direct (.function a)) (mem_of_own? hw) hb
      · exact absurd hb (Value.inert_of_attribute? hw b)
  | _ => exact absurd hb (Value.inert_of_attribute? hw b)

end Heap

/-! ### What an object contains -/

namespace Heap

variable (g : Catalog) (h : Heap)

/-- An object contains what the values of the fields of its schema hold. -/
def Contains (a b : Address) : Prop :=
  ∃ rs, rules g h a = .ok rs ∧ ∃ name r, (.str name, r) ∈ rs ∧ h.Holds (field g h a name) b

/-- No object that a value holds contains itself. -/
def SelfFree (v : Value) : Prop := ∀ a, h.Holds v a → ¬ Contains g h a a

variable {g h}

theorem holds_of_field {a b : Address} {name : String} (hb : h.Holds (field g h a name) b)
    {v : Value} (ha : h.Holds v a) : h.Holds v b := by
  refine Holds.of_leads ?_ hb
  intro c hc
  unfold field at hc
  cases hw : objectAttribute? g h a name with
  | none =>
    rw [hw] at hc
    cases hc
  | some w =>
    rw [hw] at hc
    rcases leads_of_objectAttribute? hw hc with rfl | ⟨p, hp, hl⟩
    · exact ha
    · exact .through ha hp hl

/-- What a value holds contains nothing that the value does not hold. -/
theorem Contains.holds {a b : Address} (hab : Contains g h a b) {v : Value} (ha : h.Holds v a) :
    h.Holds v b := by
  obtain ⟨rs, _, name, r, _, hb⟩ := hab
  exact holds_of_field hb ha

/-- Containing is transitive. -/
theorem Contains.trans {a b c : Address} (hab : Contains g h a b) (hbc : Contains g h b c) :
    Contains g h a c := by
  obtain ⟨rs, hrs, name, r, hr, hb⟩ := hab
  exact ⟨rs, hrs, name, r, hr, hbc.holds hb⟩

/-- An object that a value holds, holds nothing that the value does not hold. -/
theorem Holds.trans {v : Value} {a b : Address} (ha : h.Holds v a) (hb : h.Holds (.object a) b) :
    h.Holds v b := by
  refine Holds.of_leads ?_ hb
  intro c hc
  cases hc
  exact ha

/-- No object in reach of one that a self-free value holds contains itself. -/
theorem SelfFree.object {v : Value} (hv : SelfFree g h v) {a : Address} (ha : h.Holds v a) :
    SelfFree g h (.object a) := fun b hb => hv b (ha.trans hb)

/-- What a value holds is held by one of the objects that the value leads to. -/
theorem Holds.exists_leads {v : Value} {b : Address} (hb : h.Holds v b) :
    ∃ a, v.LeadsTo a ∧ h.Holds (.object a) b := by
  induction hb with
  | @direct a ha => exact ⟨a, ha, .direct (.object a)⟩
  | through _ hp hl ih =>
    obtain ⟨a, ha, hheld⟩ := ih
    exact ⟨a, ha, .through hheld hp hl⟩

/-- What leads to self-free objects only is self-free. -/
theorem SelfFree.of_leads {v : Value} (hv : ∀ a, v.LeadsTo a → SelfFree g h (.object a)) :
    SelfFree g h v := by
  intro b hb
  obtain ⟨a, ha, hheld⟩ := hb.exists_leads
  exact hv a ha b hheld

theorem SelfFree.of_inert {v : Value} (hv : v.Inert) : SelfFree g h v :=
  SelfFree.of_leads fun a ha => absurd ha (hv a)

/-- An object is self-free if its attributes and the values of its fields are. -/
theorem SelfFree.of_attributes {a : Address} (hp : ∀ p ∈ (get h a).attributes, SelfFree g h p.2)
    (hf : ∀ rs, rules g h a = .ok rs → ∀ name r, (.str name, r) ∈ rs →
      SelfFree g h (field g h a name)) : SelfFree g h (.object a) := by
  intro b hb hbb
  have held : b = a ∨ ∃ p ∈ (get h a).attributes, h.Holds p.2 b := by
    clear hbb
    induction hb with
    | direct hl =>
      cases hl
      exact Or.inl rfl
    | through _ hq hl ih =>
      rcases ih with rfl | ⟨p, hp, hheld⟩
      · exact Or.inr ⟨_, hq, .direct hl⟩
      · exact Or.inr ⟨p, hp, .through hheld hq hl⟩
  rcases held with rfl | ⟨p, hmem, hheld⟩
  · -- what contains itself is held by one of its fields
    obtain ⟨rs, hrs, name, r, hr, hheld⟩ := id hbb
    exact hf rs hrs name r hr b hheld hbb
  · exact hp p hmem b hheld hbb

/-- Only an object of the heap contains anything. -/
theorem Contains.lt {a b : Address} (hab : Contains g h a b) : a < h.length := by
  by_contra hlt
  obtain ⟨rs, hrs, -⟩ := hab
  have empty : get h a = ⟨.plain, []⟩ := by
    simp [get, List.getElem?_eq_none (Nat.le_of_not_lt hlt)]
  simp [rules, empty, Cell.own?] at hrs

/-! ### The rank of an object -/

open Classical in
/-- The number of objects that an object contains, with itself. -/
noncomputable def rank (g : Catalog) (h : Heap) (a : Address) : Nat :=
  if a < h.length then ((Finset.range h.length).filter (Contains g h a)).card + 1 else 0

theorem rank_le (a : Address) : rank g h a ≤ h.length + 1 := by
  classical
  unfold rank
  split
  · have := Finset.card_filter_le (Finset.range h.length) (Contains g h a)
    rw [Finset.card_range] at this
    omega
  · omega

/-- What an object contains has a lower rank, unless it contains itself. -/
theorem rank_lt {a b : Address} (hab : Contains g h a b) (hb : ¬ Contains g h b b) :
    rank g h b < rank g h a := by
  classical
  have ha : a < h.length := hab.lt
  unfold rank
  rw [if_pos ha]
  split
  · next hlt =>
    -- `b` is among what `a` contains and not among what `b` contains
    have sub : (Finset.range h.length).filter (Contains g h b) ⊂
        (Finset.range h.length).filter (Contains g h a) := by
      refine Finset.ssubset_iff_subset_ne.2 ⟨?_, ?_⟩
      · intro c hc
        rw [Finset.mem_filter] at hc ⊢
        exact ⟨hc.1, hab.trans hc.2⟩
      · intro heq
        have mem : b ∈ (Finset.range h.length).filter (Contains g h a) :=
          Finset.mem_filter.2 ⟨Finset.mem_range.2 hlt, hab⟩
        rw [← heq] at mem
        exact hb (Finset.mem_filter.1 mem).2
    have := Finset.card_lt_card sub
    omega
  · omega

end Heap

/-! ### A walk visits only what is held -/

/-- Two traversals of a list that agree on its members have the same outcome. -/
theorem forM_congr {α : Type} {f f' : α → Except Failure Unit} {xs : List α}
    (hf : ∀ x ∈ xs, f x = f' x) : xs.forM f = xs.forM f' := by
  induction xs with
  | nil => rfl
  | cons x xs ih =>
    simp only [List.forM, hf x (List.mem_cons_self ..)]
    rw [ih fun y hy => hf y (List.mem_cons_of_mem x hy)]

namespace Checker

variable {g : Catalog} {h : Heap}

/-- What a shape looks up in a value is held by it. -/
theorem holds_of_shapeItem {v : Value} {field : String} {b : Address}
    (hb : h.Holds (shapeItem g h v field) b) : h.Holds v b := by
  refine Heap.Holds.of_leads ?_ hb
  intro a ha
  unfold shapeItem at ha
  split at ha
  · next es hes =>
    have under := Entries.getStr_of_forall (P := fun w => ∀ a, w.LeadsTo a → v.LeadsTo a)
      (fun b hb => by cases hb) (fun e he => (Value.leadsTo_of_entries hes he).2) field
    exact .direct (under a ha)
  · cases hw : Heap.attribute? g h 0 v field with
    | none =>
      rw [hw] at ha
      cases ha
    | some w =>
      rw [hw] at ha
      exact Heap.holds_of_attribute? hw ha

/-- What an element of an array holds, the array holds. -/
theorem holds_of_element {v x : Value} {xs : List Value} (hv : v.elements? = some xs) (hx : x ∈ xs)
    {b : Address} (hb : h.Holds x b) : h.Holds v b := by
  refine Heap.Holds.of_leads ?_ hb
  intro a ha
  cases v with
  | list ys =>
    cases hv
    exact .direct (.list hx ha)
  | tuple ys =>
    cases hv
    exact .direct (.tuple hx ha)
  | _ => cases hv

/-- What a value of a dictionary holds, the dictionary holds. -/
theorem holds_of_entry {es : Entries} {e : Value × Value} (he : e ∈ es) {b : Address}
    (hb : h.Holds e.2 b) : h.Holds (.dict es) b :=
  Heap.Holds.of_leads (fun _ ha => .direct (.dict he ha)) hb

section

variable {visit visit' : Address → Except Failure Unit}

theorem presentEntity_congr {v : Value} (hv : ∀ a, h.Holds v a → visit a = visit' a) (t : Target)
    (name : String) : presentEntity g h visit t v name = presentEntity g h visit' t v name := by
  cases v with
  | object a => simp only [presentEntity, hv a (.direct (.object a))]
  | _ => rfl

mutual

/-- A check visits only what the value holds. -/
theorem presentWith_congr : (c : Checker) → (v : Value) → (name : String) →
    (∀ a, h.Holds v a → visit a = visit' a) →
      presentWith g h visit c v name = presentWith g h visit' c v name
  | .scalar _ _ _, _, _, _ => rfl
  | .date _, _, _, _ => rfl
  | .arrayOf e _, v, name, hv => by
    simp only [presentWith]
    cases hxs : v.elements? with
    | none => rfl
    | some xs =>
      refine forM_congr ?_
      intro p hp
      have mem : p.1 ∈ xs := (List.mem_zipIdx' hp).2 ▸ List.getElem_mem _
      rw [presentWith_congr e p.1 _ fun a ha => hv a (holds_of_element hxs mem ha)]
  | .dictOf e _, v, name, hv => by
    cases v with
    | dict es =>
      simp only [presentWith]
      refine forM_congr ?_
      intro p hp
      rw [presentWith_congr e p.2 _ fun a ha => hv a (holds_of_entry hp ha)]
    | _ => rfl
  | .shape fs _, v, name, hv => by
    simp only [presentWith]
    rw [presentFields_congr fs v name hv]
  | .reference t _ _, v, name, hv => presentEntity_congr hv t name

/-- The check of the fields of a shape visits only what the value holds. -/
theorem presentFields_congr : (fs : List (String × Checker)) → (v : Value) → (name : String) →
    (∀ a, h.Holds v a → visit a = visit' a) →
      presentFields g h visit fs v name = presentFields g h visit' fs v name
  | [], _, _, _ => rfl
  | (field, c) :: fs, v, name, hv => by
    simp only [presentFields]
    rw [presentWith_congr c _ _ fun a ha => hv a (holds_of_shapeItem ha),
      presentFields_congr fs v name hv]

end

theorem checkWith_congr (required : Bool) (c : Checker) {v : Value} (name : String)
    (hv : ∀ a, h.Holds v a → visit a = visit' a) :
    checkWith g h visit required c v name = checkWith g h visit' required c v name := by
  simp only [checkWith]
  rw [presentWith_congr c v name hv]

end

end Checker

/-- Two transformations of a list that agree on its members have the same outcome. -/
theorem mapM_congr {m : Type → Type} [Monad m] [LawfulMonad m] {α β : Type} {f f' : α → m β}
    {xs : List α} (hf : ∀ x ∈ xs, f x = f' x) : xs.mapM f = xs.mapM f' := by
  induction xs with
  | nil => rfl
  | cons x xs ih =>
    rw [List.mapM_cons, List.mapM_cons, hf x (List.mem_cons_self ..),
      ih fun y hy => hf y (List.mem_cons_of_mem x hy)]

namespace Validation

variable {g : Catalog} {h : Heap} {visit visit' : Address → Except Failure Unit} {a : Address}

/-- The check of a field visits only what the object contains. -/
theorem checkField_congr {rs : List (Value × Heap.Rule)} (hrs : Heap.rules g h a = .ok rs)
    (hv : ∀ b, Heap.Contains g h a b → visit b = visit' b) {r : Value × Heap.Rule} (hr : r ∈ rs) :
    checkField g h visit a r = checkField g h visit' a r := by
  obtain ⟨k, rule⟩ := r
  cases rule with
  | checker c =>
    cases k with
    | str name =>
      refine Checker.checkWith_congr c.required c name ?_
      intro b hb
      exact hv b ⟨rs, hrs, name, .checker c, hr, hb⟩
    | _ => rfl
  | other w => cases k <;> rfl

/-- The validation of an object visits only what the object contains. -/
theorem validateWith_congr (hv : ∀ b, Heap.Contains g h a b → visit b = visit' b) :
    validateWith g h visit a = validateWith g h visit' a := by
  unfold validateWith
  cases hrs : Heap.rules g h a with
  | error e => rfl
  | ok rs =>
    refine forM_congr ?_
    intro r hr
    exact checkField_congr hrs hv hr

theorem fieldFailures_congr {h' : Heap} {rs : List (Value × Heap.Rule)}
    (hv : ∀ r ∈ rs, checkField g h visit a r = checkField g h' visit' a r) :
    fieldFailures g h visit a rs = fieldFailures g h' visit' a rs := by
  induction rs with
  | nil => rfl
  | cons r rs ih =>
    simp only [fieldFailures]
    rw [hv r (List.mem_cons_self ..), ih fun s hs => hv s (List.mem_cons_of_mem r hs)]

/-- The report of an object visits only what the object contains. -/
theorem failuresWith_congr (hv : ∀ b, Heap.Contains g h a b → visit b = visit' b) :
    failuresWith g h visit a = failuresWith g h visit' a := by
  unfold failuresWith
  cases hrs : Heap.rules g h a with
  | error e => rfl
  | ok rs =>
    refine fieldFailures_congr ?_
    intro r hr
    exact checkField_congr hrs hv hr

end Validation

namespace Encoding

variable {h : Heap} {visit visit' : Address → Except Failure Value}

mutual

/-- The encoding of a value visits only what the value leads to. -/
theorem encodeWith_congr (byId : Bool) : (v : Value) →
    (∀ a, v.LeadsTo a → visit a = visit' a) → encodeWith h visit byId v = encodeWith h visit' byId v
  | .object a, hv => by
    simp only [encodeWith]
    rw [hv a (.object a)]
  | .list xs, hv => by
    simp only [encodeWith]
    rw [encodeItems_congr byId xs fun x hx a ha => hv a (.list hx ha)]
  | .tuple xs, hv => by
    simp only [encodeWith]
    rw [encodeItems_congr byId xs fun x hx a ha => hv a (.tuple hx ha)]
  | .dict es, hv => by
    simp only [encodeWith]
    rw [encodeEntries_congr byId es fun e he a ha => hv a (.dict he ha)]
  | .ordered es, hv => by
    simp only [encodeWith]
    rw [encodeEntries_congr byId es fun e he a ha => hv a (.ordered he ha)]
  | .null, _ | .bool _, _ | .int _, _ | .float _, _ | .nan _, _ | .str _, _ | .bytes _, _
  | .set _, _ | .date _, _ | .moment _, _ | .stamp _, _ | .zone _, _ | .function _, _
  | .method _ _, _ | .cls _, _ | .checker _ _, _ | .store _, _ | .thing _, _ => rfl

/-- The encoding of items visits only what they lead to. -/
theorem encodeItems_congr (byId : Bool) : (xs : List Value) →
    (∀ x ∈ xs, ∀ a, x.LeadsTo a → visit a = visit' a) →
      encodeItems h visit byId xs = encodeItems h visit' byId xs
  | [], _ => rfl
  | x :: xs, hv => by
    simp only [encodeItems]
    rw [encodeWith_congr byId x (hv x (List.mem_cons_self ..)),
      encodeItems_congr byId xs fun y hy => hv y (List.mem_cons_of_mem x hy)]

/-- The encoding of entries visits only what their values lead to. -/
theorem encodeEntries_congr (byId : Bool) : (es : Entries) →
    (∀ e ∈ es, ∀ a, e.2.LeadsTo a → visit a = visit' a) →
      encodeEntries h visit byId es = encodeEntries h visit' byId es
  | [], _ => rfl
  | (k, v) :: es, hv => by
    simp only [encodeEntries]
    rw [encodeWith_congr byId v (hv (k, v) (List.mem_cons_self ..)),
      encodeEntries_congr byId es fun e he => hv e (List.mem_cons_of_mem _ he)]

end

variable {g : Catalog} {a : Address}

/-- The raw data of an object visit only what the object contains. -/
theorem rawWith_congr (hv : ∀ b, Heap.Contains g h a b → visit b = visit' b) :
    rawWith g h visit a = rawWith g h visit' a := by
  unfold rawWith
  cases hrs : Heap.rules g h a with
  | error e => rfl
  | ok rs =>
    have fields : rs.mapM (encodeField g h visit a) = rs.mapM (encodeField g h visit' a) := by
      refine mapM_congr ?_
      intro r hr
      obtain ⟨k, rule⟩ := r
      cases k with
      | str name =>
        have same : encodeWith h visit (byId rule) (Heap.field g h a name) =
            encodeWith h visit' (byId rule) (Heap.field g h a name) := by
          refine encodeWith_congr (byId rule) (Heap.field g h a name) ?_
          intro b hb
          exact hv b ⟨rs, hrs, name, rule, hr, .direct hb⟩
        simp only [encodeField, same]
      | _ => rfl
    simp only [bind, Except.bind, fields]

end Encoding

/-! ### The bound on the depth -/

namespace Method

variable {g : Catalog} {h : Heap}

/-- What an object has in place of a method is a method of an object that a value holds, if the
value holds the object. -/
theorem holds_of_asked {b c : Address} {name method : String}
    (hm : Heap.objectAttribute? g h b name = some (.method (.object c) method)) {v : Value}
    (hb : h.Holds v b) : h.Holds v c := by
  rcases Heap.leads_of_objectAttribute? hm (.method c method) with rfl | ⟨p, hp, hl⟩
  · exact hb
  · exact .through hb hp hl

/-- With more fuel than the rank of an object a call of its methods has one outcome. -/
theorem call_method_congr : ∀ (k : Nat) (a : Address), Heap.rank g h a ≤ k →
    (∀ b, Heap.Contains g h a b → ¬ Heap.Contains g h b b) → ∀ (name : String) (m n : Nat),
      k < m → k < n →
        call g h m (.method (.object a) name) = call g h n (.method (.object a) name) := by
  intro k
  induction k using Nat.strong_induction_on with
  | _ k ih =>
    intro a ha free name m n hm hn
    obtain ⟨m, rfl⟩ : ∃ m', m = m' + 1 := ⟨m - 1, by omega⟩
    obtain ⟨n, rfl⟩ : ∃ n', n = n' + 1 := ⟨n - 1, by omega⟩
    -- what `a` contains is asked with the same outcome
    have asked : ∀ method b, Heap.Contains g h a b →
        ask g h (call g h m) method b = ask g h (call g h n) method b := by
      intro method b hab
      have rank_b := Heap.rank_lt hab (free b hab)
      -- what `b` has in place of a method may be a method of another object, which `a` contains
      simp only [ask]
      cases hw : Heap.objectAttribute? g h b method with
      | none => rfl
      | some w =>
        obtain ⟨m, rfl⟩ : ∃ m', m = m' + 1 := ⟨m - 1, by omega⟩
        obtain ⟨n, rfl⟩ : ∃ n', n = n' + 1 := ⟨n - 1, by omega⟩
        cases w with
        | method owner method' =>
          cases owner with
          | object c =>
            have hac : Heap.Contains g h a c := by
              obtain ⟨rs, hrs, field, r, hr, hb⟩ := hab
              exact ⟨rs, hrs, field, r, hr, holds_of_asked hw hb⟩
            have rank_c := Heap.rank_lt hac (free c hac)
            exact ih (Heap.rank g h c) (by omega) c le_rfl
              (fun d hd => free d (hac.trans hd)) method' (m + 1) (n + 1) (by omega) (by omega)
          | _ => rfl
        | _ => rfl
    simp only [call]
    split
    · rw [Validation.validateWith_congr fun b hb => by rw [asked "validate" b hb]]
    · split
      · rw [Validation.failuresWith_congr fun b hb => by rw [asked "validate" b hb]]
      · split
        · rw [Encoding.rawWith_congr fun b hb => by rw [asked "to_raw" b hb]]
        · rfl

/-- **The bound on the depth is never met**: with enough fuel a call has the outcome that it has
with the bound. -/
theorem call_eq_invoke {v : Value} (hv : Heap.SelfFree g h v) {fuel : Nat}
    (hf : h.length + 1 < fuel) : call g h fuel v = invoke g h v := by
  obtain ⟨n, rfl⟩ : ∃ n, fuel = n + 1 := ⟨fuel - 1, by omega⟩
  cases v with
  | method owner name =>
    cases owner with
    | object a =>
      have le : Heap.rank g h a ≤ h.length + 1 := Heap.rank_le a
      have zero : h.length = 0 → Heap.rank g h a = 0 := fun hz => by simp [Heap.rank, hz]
      refine call_method_congr (Heap.rank g h a) a le_rfl ?_ name _ _ (by omega) ?_
      · intro b hb
        exact hv b (hb.holds (.direct (.method a name)))
      · unfold depth
        omega
    | _ => rfl
  | _ => rfl

/-- What an object contains is asked as it is from outside. -/
theorem ask_call_eq {a b : Address} (ha : Heap.SelfFree g h (.object a))
    (hab : Heap.Contains g h a b) (name : String) {fuel : Nat} (hf : h.length + 1 < fuel) :
    ask g h (call g h fuel) name b = send g h (.object b) name := by
  simp only [ask, send, Heap.attribute?]
  cases hw : Heap.objectAttribute? g h b name with
  | none => rfl
  | some w =>
    refine call_eq_invoke ?_ hf
    intro c hc
    refine ha c (Heap.Holds.of_leads ?_ hc)
    intro d hd
    have hb : h.Holds (.object a) b := hab.holds (.direct (.object a))
    rcases Heap.leads_of_objectAttribute? hw hd with rfl | ⟨p, hp, hl⟩
    · exact hb
    · exact .through hb hp hl

section

variable {a : Address} (ha : Heap.SelfFree g h (.object a))
include ha

/-- A call of a method of an object may be taken to have any fuel that is enough, and some to
spare. -/
theorem invoke_method (name : String) : ∃ n, h.length + 1 < n ∧
    invoke g h (.method (.object a) name) = call g h (n + 1) (.method (.object a) name) := by
  refine ⟨h.length + 2, by omega, (call_eq_invoke ?_ (by omega)).symm⟩
  intro b hb
  refine ha b (Heap.Holds.of_leads ?_ hb)
  intro c hc
  cases hc
  exact .direct (.object a)

/-- The method of validation validates the fields, and each entity in them in turn. -/
theorem invoke_validate : invoke g h (.method (.object a) "validate") = (do
    Validation.validateWith g h (validate g h) a
    .ok (.value .null)) := by
  obtain ⟨n, hn, heq⟩ := invoke_method ha _
  rw [heq]
  have same : Validation.validateWith g h (fun b => discard (ask g h (call g h n) "validate" b)) a =
      Validation.validateWith g h (validate g h) a := by
    refine Validation.validateWith_congr ?_
    intro b hb
    rw [ask_call_eq ha hb "validate" hn]
    rfl
  simp only [call, if_true, same]

/-- The method of reporting checks every field, and validates each entity in them. -/
theorem invoke_check : invoke g h (.method (.object a) "check") = (do
    let errors ← Validation.failuresWith g h (validate g h) a
    .ok (.report { valid := errors.isEmpty, errors := errors })) := by
  obtain ⟨n, hn, heq⟩ := invoke_method ha _
  rw [heq]
  have same : Validation.failuresWith g h (fun b => discard (ask g h (call g h n) "validate" b)) a =
      Validation.failuresWith g h (validate g h) a := by
    refine Validation.failuresWith_congr ?_
    intro b hb
    rw [ask_call_eq ha hb "validate" hn]
    rfl
  simp only [call, String.reduceEq, if_false, if_true, same]

/-- The method of raw data encodes the fields, and each entity in them in turn. -/
theorem invoke_toRaw : invoke g h (.method (.object a) "to_raw") = (do
    .ok (.value (← Encoding.rawWith g h (toRaw g h) a))) := by
  obtain ⟨n, hn, heq⟩ := invoke_method ha _
  rw [heq]
  have same : Encoding.rawWith g h (fun b => do .ok (← ask g h (call g h n) "to_raw" b).toValue) a =
      Encoding.rawWith g h (toRaw g h) a := by
    refine Encoding.rawWith_congr ?_
    intro b hb
    rw [ask_call_eq ha hb "to_raw" hn]
    rfl
  simp only [call, String.reduceEq, if_false, if_true, same]

end

end Method

end EntitySchema
