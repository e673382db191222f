/-
**Loading ends where references do not come back.**

Nothing keeps records from referring to each other in circles, and a loading that comes back to a
record enters it again without end.  Where no chain of references comes back to a record of a class
that it has been at, a loading ends.  How many entities it enters one after the other depends only
on the records and the classes then: it is never stopped by the bound that there is.

What is done where the bound is reached is made a parameter here.  That the bound is never reached
is to say that nothing depends on this parameter.

Main definitions:

* `Catalog.Refers` — the classes and identifiers that raw data refer to;
* `Session.Leads`, `Session.Straight` — records that lead to records, and **chains that do not come
  back**;
* `Session.Within` — how many entities are entered one after the other, at most;
* `Loading.loadFrom` — loading that goes on in some way where its bound is reached;
* `Session.Agree` — actions that do the same, whatever was made before.

Main results:

* `Session.within_of_straight` — where chains do not come back, records are loaded within the bound;
* `Loading.agree_loadFrom` — what is within a bound does not depend on what is done at it;
* `Loading.find_bounded` — **finding never reaches its bound** where chains do not come back;
* `Loading.find_endless_of_friends` — **two records that refer to each other are loaded without
  end.**
-/

import EntitySchema.Proofs.AgreeingActions
import EntitySchema.Proofs.LoadingDepth
import EntitySchema.Proofs.Settled
import Mathlib.Data.Fintype.EquivFin
import Mathlib.Data.Finite.Prod
import Mathlib.Data.Set.Finite.List
import Mathlib.Order.WellFounded

set_option autoImplicit false

namespace EntitySchema

open Relation

/-- Where the relation holds only from a finite set on and no chain from a start comes back to where
it was, every chain from the start ends. -/
theorem acc_of_straight {α : Type} {r : α → α → Prop} {start : α} {S : Set α} (finite : S.Finite)
    (inside : ∀ p q, r p q → p ∈ S)
    (straight : ∀ p, ReflTransGen r start p → ¬ TransGen r p p) : Acc (fun q p => r p q) start := by
  have outside : ∀ p, p ∉ S → Acc (fun q p => r p q) p := fun p hp =>
    .intro p fun q hq => absurd (inside p q hq) hp
  let later : {p // p ∈ S ∧ ReflTransGen r start p} →
    {p // p ∈ S ∧ ReflTransGen r start p} → Prop :=
    fun q p => TransGen r p.1 q.1
  have : Finite {p // p ∈ S ∧ ReflTransGen r start p} := (finite.subset fun p hp => hp.1).to_subtype
  have : IsTrans _ later := ⟨fun _ _ _ hqp hpo => TransGen.trans hpo hqp⟩
  have : Std.Irrefl later := ⟨fun p back => straight p.1 p.2.2 back⟩
  have ends : ∀ p : {p // p ∈ S ∧ ReflTransGen r start p}, Acc (fun q p => r p q) p.1 := by
    intro p
    induction p using (Finite.wellFounded_of_trans_of_irrefl later).induction with
    | _ p ih =>
      refine .intro p.1 fun q hq => ?_
      by_cases hS : q ∈ S
      · exact ih ⟨q, hS, p.2.2.tail hq⟩ (.single hq)
      · exact outside q hS
  by_cases hS : start ∈ S
  · exact ends ⟨start, hS, .refl⟩
  · exact outside start hS

/-! ### What raw data refer to -/

/-- The class and the identifier that the raw data of an entity refer to, in a field of the entity
or of one that is embedded in it. -/
inductive Catalog.Refers (g : Catalog) : ClassId → Value → ClassId → Value → Prop
  | field {cls d : ClassId} {raw id : Value} {data : Entries} {f : String × Checker} :
      Construction.entriesOf [] raw = .ok data → f ∈ g.schemaOf cls →
      Checker.Names g f.2 (Entries.getStr data f.1) d id → Refers g cls raw d id
  | embedded {cls c d : ClassId} {raw x id : Value} {data : Entries} {f : String × Checker} :
      Construction.entriesOf [] raw = .ok data → f ∈ g.schemaOf cls →
      Checker.Enters g f.2 (Entries.getStr data f.1) c x → Refers g c x d id → Refers g cls raw d id

namespace Session

variable {s : Session}

/-- A record, as one of a class, refers to another, as one of another class: under the kind of that
class and the text of an identifier that the data refer to. -/
def Leads (s : Session) (p q : ClassId × Record) : Prop :=
  s.Has p.2 ∧ s.Has q.2 ∧ ∃ id, s.catalog.Refers p.1 (.dict p.2.data) q.1 id ∧
    q.2.key = ⟨.text (s.catalog.kindOf q.1), id.toText⟩

/-- No chain of references from a record comes back to a record of a class that it has been at. -/
def Straight (s : Session) (p : ClassId × Record) : Prop :=
  ∀ q, ReflTransGen s.Leads p q → ¬ TransGen s.Leads q q

/-- A loading enters at most so many entities one after the other: embedded ones, and those of
records that are referred to. -/
def Within (s : Session) : Nat → ClassId → Value → Prop
  | 0, _, _ => False
  | n + 1, cls, raw => ∀ data, Construction.entriesOf [] raw = .ok data →
      ∀ f ∈ s.catalog.schemaOf cls,
        (∀ d x, Checker.Enters s.catalog f.2 (Entries.getStr data f.1) d x → s.Within n d x) ∧
        ∀ d id r, Checker.Names s.catalog f.2 (Entries.getStr data f.1) d id → s.Has r →
          r.key = ⟨.text (s.catalog.kindOf d), id.toText⟩ → s.Within n d (.dict r.data)

theorem Within.mono : ∀ {n m : Nat} {cls : ClassId} {raw : Value}, s.Within n cls raw → n ≤ m →
    s.Within m cls raw
  | n + 1, m + 1, cls, raw, h, hle => by
    intro data hdata f hf
    obtain ⟨entered, found⟩ := h data hdata f hf
    have less : n ≤ m := Nat.le_of_succ_le_succ hle
    exact ⟨fun d x hx => (entered d x hx).mono less,
      fun d id r hid hr key => (found d id r hid hr key).mono less⟩

/-- If all records that are referred to are loaded within a bound, the raw value is loaded within
one that is larger by its depth. -/
theorem within_of_refers {m n : Nat} {cls : ClassId} {raw : Value}
    (found : ∀ d id r, s.catalog.Refers cls raw d id → s.Has r →
      r.key = ⟨.text (s.catalog.kindOf d), id.toText⟩ → s.Within m d (.dict r.data))
    (deep : raw.depth ≤ n) : s.Within (n + m) cls raw := by
  induction n generalizing cls raw with
  | zero => exact absurd deep (Nat.not_le.2 raw.depth_pos)
  | succ n ih =>
    rw [Nat.succ_add]
    intro data hdata f hf
    have less := Construction.depth_of_entriesOf hdata
    refine ⟨fun d x hx => ih (fun d' id r hid => found d' id r (.embedded hdata hf hx hid)) ?_,
      fun d id r hid hr key => (found d id r (.field hdata hf hid) hr key).mono
        (Nat.le_add_left m n)⟩
    obtain ⟨there, le⟩ := hx.depth_le
    have small := Entries.depth_getStr_le there
    omega

/-- What is entered or named is so by a field, so a class that there is not refers to nothing. -/
theorem Leads.lt_classes {p q : ClassId × Record} (h : s.Leads p q) :
    p.1 < s.catalog.classes.length := by
  obtain ⟨-, -, id, refers, -⟩ := h
  by_contra habs
  have none : s.catalog.schemaOf p.1 = [] := by
    rw [Catalog.schemaOf, List.getElem?_eq_none (Nat.not_lt.1 habs)]
    rfl
  cases refers with
  | field _ hf => exact List.not_mem_nil (none ▸ hf)
  | embedded _ hf => exact List.not_mem_nil (none ▸ hf)

/-! ### The records of a session -/

/-- All records of a session: those of its stores and those of the files. -/
def records (s : Session) : List Record :=
  (s.stores.map fun st =>
    match st with
    | .memory records => records
    | .file _ (.own db) => db.rows
    | .file _ _ => []).flatten ++ s.disk.tables.flatten

theorem Has.mem_records {r : Record} (h : s.Has r) : r ∈ s.records := by
  unfold records
  rw [List.mem_append, List.mem_flatten, List.mem_flatten]
  cases h with
  | memory hs hr => exact .inl ⟨_, List.mem_map.2 ⟨_, List.mem_of_getElem? hs, rfl⟩, hr⟩
  | own hs hr => exact .inl ⟨_, List.mem_map.2 ⟨_, List.mem_of_getElem? hs, rfl⟩, hr⟩
  | @file p hr =>
    rw [Disk.table, Disk.database] at hr
    split at hr
    · next db hd =>
      cases ht : db.records? with
      | some t => exact .inr ⟨_, Disk.mem_tables hd ht, Database.rows_of_records? ht ▸ hr⟩
      | none =>
        rw [Database.rows, ht] at hr
        cases hr
    · cases hr

theorem length_eq_foldl (xss : List (List Record)) :
    (xss.map List.length).foldl (· + ·) 0 = xss.flatten.length := by
  rw [List.length_flatten, List.sum_eq_foldl]

/-- The records are as many, and no deeper, than is told. -/
theorem records_extent (s : Session) : s.records.length = (Loading.recordExtent s).2 ∧
    ∀ r ∈ s.records, (Value.dict r.data).depth ≤ (Loading.recordExtent s).1 + 1 := by
  unfold records Loading.recordExtent
  dsimp only
  rw [← List.flatten_append]
  generalize List.map _ s.stores ++ s.disk.tables = all
  refine ⟨(length_eq_foldl all).symm, fun r hr => Nat.succ_le_succ ?_⟩
  obtain ⟨rs, hrs, hr⟩ := List.mem_flatten.1 hr
  have inner : Value.depthEntries r.data ≤ Loading.recordDepth rs :=
    Loading.le_foldl_max (List.mem_map_of_mem (f := fun r : Record => Value.depthEntries r.data) hr)
  exact inner.trans (Loading.le_foldl_max (List.mem_map_of_mem hrs))

/-! ### Straight chains -/

open Classical in
/-- The classes and the records, by their numbers, that are loaded within a bound. -/
noncomputable def withinSet (s : Session) (n : Nat) : Finset (Nat × Nat) :=
  (Finset.range s.catalog.classes.length ×ˢ Finset.range s.records.length).filter fun p =>
    ∃ r, s.records[p.2]? = some r ∧ s.Within n p.1 (.dict r.data)

theorem mem_withinSet {n c k : Nat} : (c, k) ∈ s.withinSet n ↔
    c < s.catalog.classes.length ∧ ∃ r, s.records[k]? = some r ∧ s.Within n c (.dict r.data) := by
  classical
  simp only [withinSet, Finset.mem_filter, Finset.mem_product, Finset.mem_range]
  constructor
  · rintro ⟨⟨hc, -⟩, r, hr, within⟩
    exact ⟨hc, r, hr, within⟩
  · rintro ⟨hc, r, hr, within⟩
    exact ⟨⟨hc, (List.getElem?_eq_some_iff.1 hr).1⟩, r, hr, within⟩

theorem withinSet_mono {n m : Nat} (hle : n ≤ m) : s.withinSet n ⊆ s.withinSet m := by
  rintro ⟨c, k⟩ h
  obtain ⟨hc, r, hr, within⟩ := mem_withinSet.1 h
  exact mem_withinSet.2 ⟨hc, r, hr, within.mono hle⟩

theorem card_withinSet_le (n : Nat) :
    (s.withinSet n).card ≤ s.catalog.classes.length * s.records.length := by
  classical
  refine (Finset.card_filter_le _ _).trans ?_
  rw [Finset.card_product, Finset.card_range, Finset.card_range]

/-- After as many rounds as there are classes and records, each of which adds the depth of the
deepest record to the bound, every record is loaded from which all chains end. -/
theorem exists_rounds_within {depth : Nat}
    (hdepth : ∀ r ∈ s.records, (Value.dict r.data).depth ≤ depth) :
    ∃ j ≤ s.catalog.classes.length * s.records.length, ∀ p : ClassId × Record, s.Has p.2 →
      Acc (fun q p => s.Leads p q) p → s.Within (1 + depth * j) p.1 (.dict p.2.data) := by
  have bounded : ∀ j, (s.withinSet (1 + depth * j)).card ≤
      s.catalog.classes.length * s.records.length := fun _ => card_withinSet_le _
  obtain ⟨j, hj, halt⟩ := exists_stationary bounded
  have next : 1 + depth * (j + 1) = depth + (1 + depth * j) := by rw [Nat.mul_succ]; omega
  have same : s.withinSet (1 + depth * j) = s.withinSet (1 + depth * (j + 1)) :=
    Finset.eq_of_subset_of_card_le (withinSet_mono (by omega)) halt
  refine ⟨j, hj, fun p hp ends => ?_⟩
  -- along the chains: what a record leads to is loaded within the bound already
  induction ends with
  | intro p _ ih =>
    have reached : s.Within (depth + (1 + depth * j)) p.1 (.dict p.2.data) := by
      refine within_of_refers (fun d id r refers hr key => ?_) (hdepth _ hp.mem_records)
      exact ih (d, r) ⟨hp, hr, id, refers, key⟩ hr
    obtain ⟨k, hk⟩ := List.getElem?_of_mem hp.mem_records
    by_cases hc : p.1 < s.catalog.classes.length
    · have mem : (p.1, k) ∈ s.withinSet (1 + depth * (j + 1)) :=
        mem_withinSet.2 ⟨hc, p.2, hk, next ▸ reached⟩
      rw [← same] at mem
      obtain ⟨-, r, hr, within⟩ := mem_withinSet.1 mem
      cases hk.symm.trans hr
      exact within
    · have none : s.catalog.schemaOf p.1 = [] := by
        rw [Catalog.schemaOf, List.getElem?_eq_none (Nat.not_lt.1 hc)]
        rfl
      have within : s.Within 1 p.1 (.dict p.2.data) := fun _ _ f hf => by
        rw [none] at hf
        cases hf
      exact within.mono (Nat.le_add_right 1 _)

/-- **Where chains do not come back, records are loaded within the bound** that there is. -/
theorem within_of_straight {p : ClassId × Record} (hp : s.Has p.2) (straight : s.Straight p) :
    s.Within (Loading.bound s .null) p.1 (.dict p.2.data) := by
  obtain ⟨many, deep⟩ := records_extent s
  obtain ⟨j, hj, rounds⟩ := exists_rounds_within deep
  have finite : ({c | c < s.catalog.classes.length} ×ˢ {r | r ∈ s.records}).Finite :=
    Set.Finite.prod (Set.finite_lt_nat _) (List.finite_toSet _)
  have ends : Acc (fun q p => s.Leads p q) p := acc_of_straight finite
    (fun p q h => ⟨h.lt_classes, h.1.mem_records⟩) straight
  refine (rounds p hp ends).mono ?_
  rw [Loading.bound]
  dsimp only
  have product : ((Loading.recordExtent s).1 + 1) * j ≤ ((Loading.recordExtent s).1 + 2) *
      ((Loading.recordExtent s).2 * s.catalog.classes.length + 1) := by
    refine Nat.mul_le_mul (Nat.le_succ _) ((hj.trans ?_).trans (Nat.le_succ _))
    rw [many, Nat.mul_comm]
  omega

/-! ### Actions that do the same -/

/-- From every session that extends one, two actions do the same, and the session afterwards extends
it again. -/
def Agree {α : Type} (s : Session) (a a' : Action α) : Prop :=
  ∀ s₁, s.Extends s₁ → outcome a s₁ = outcome a' s₁ ∧ s.Extends (outcome a' s₁).2

section

variable {α β γ : Type} {a a' : Action α}

theorem agree_pure (x : α) : s.Agree (pure x) (pure x) := agreeOn_pure x

/-- An action may be replaced by one that does the same with these classes. -/
theorem Agree.of_outcome {b b' : Action α} (hb : s.Agree b b')
    (h : ∀ s₁, s₁.catalog = s.catalog → outcome a s₁ = outcome b s₁)
    (h' : ∀ s₁, s₁.catalog = s.catalog → outcome a' s₁ = outcome b' s₁) : s.Agree a a' := by
  intro s₁ hs
  rw [h s₁ hs.catalog, h' s₁ hs.catalog]
  exact hb s₁ hs

/-- One action after another; of the second it is known what the result of the first is. -/
theorem Agree.bind (ha : s.Agree a a') {f f' : α → Action β}
    (hf : ∀ x s₁, s.Extends s₁ → (outcome a' s₁).1 = .ok x → s.Agree (f x) (f' x)) :
    s.Agree (a >>= f) (a' >>= f') :=
  AgreeOn.bind ha hf

theorem agree_ofExcept_bind {e : Except Failure α} {f f' : α → Action β}
    (hf : ∀ x, e = .ok x → s.Agree (f x) (f' x)) :
    s.Agree (ofExcept e >>= f) (ofExcept e >>= f') :=
  agreeOn_ofExcept_bind hf

/-- **Actions side by side** do the same if each of them does. -/
theorem agree_gather {f f' : γ → Action α} {xs : List γ} (h : ∀ x ∈ xs, s.Agree (f x) (f' x)) :
    s.Agree (gather f xs) (gather f' xs) :=
  agreeOn_gather (fun _ _ hs => hs.trans (extends_of_grown List.prefix_rfl _))
    (List.forall₂_same.2 h)

end

end Session

/-! ### Loading that goes on where its bound is reached -/

namespace Loading

open Session

/-- Loads an entity from raw data as `loadWithin` does, and does `stop` where more than `fuel`
entities would be entered one after the other. -/
def loadFrom (stop : ClassId → Value → Action Value) : Nat → ClassId → Value → Action Value
  | 0, cls, raw => stop cls raw
  | fuel + 1, cls, raw => do
    let g := (← get).catalog
    let v ← Session.build (Construction.ofRaw g cls raw)
    match v with
    | .object a =>
      let enter := loadFrom stop fuel
      loadFields (Checker.loadWith enter (findWith enter)) a raw (g.schemaOf cls)
      pure v
    | v => pure v

/-- Loading fails where its bound is reached. -/
theorem loadFrom_endless (fuel : Nat) :
    loadFrom (fun _ _ => throw .endless) fuel = loadWithin fuel := by
  induction fuel with
  | zero => rfl
  | succ fuel ih =>
    funext cls raw
    rw [loadFrom, ih]
    rfl

/-- With a larger bound it goes on to load. -/
theorem loadFrom_add (n fuel : Nat) : loadFrom (loadWithin n) fuel = loadWithin (n + fuel) := by
  induction fuel with
  | zero => rfl
  | succ fuel ih =>
    funext cls raw
    rw [loadFrom, ih]
    rfl

section

variable {s : Session}

/-- Raw values are loaded to the same, if what is entered and what is looked up is. -/
theorem agree_loadWith {enter enter' seek seek' : ClassId → Value → Action Value} :
    (c : Checker) → c.producesEntity = true → (raw : Value) → raw.Inert →
      (∀ d x, Checker.Enters s.catalog c raw d x → x.Inert → s.Agree (enter d x) (enter' d x)) →
      (∀ d id, Checker.Names s.catalog c raw d id → id.Inert → s.Agree (seek d id) (seek' d id)) →
      s.Agree (Checker.loadWith enter seek c raw) (Checker.loadWith enter' seek' c raw)
  | .reference t e r, _, raw, hraw, henter, hseek => by
    rw [Checker.loadWith, Checker.loadWith]
    cases he : e.truthy with
    | true =>
      rw [if_pos rfl, if_pos rfl]
      refine Agree.of_outcome ?_ (fun s₁ hs => Checker.outcome_fetchWith hs hraw seek t)
        (fun s₁ hs => Checker.outcome_fetchWith hs hraw seek' t)
      split
      · exact agree_pure _
      · next there =>
        exact agree_ofExcept_bind fun cls hcls => hseek cls _
          (.reference r he (Bool.eq_false_of_not_eq_true there) hcls)
          (Checker.inert_identifierIn hraw)
    | false =>
      rw [if_neg Bool.false_ne_true, if_neg Bool.false_ne_true]
      refine Agree.of_outcome ?_ (fun s₁ hs => Checker.outcome_enterWith hs hraw.ne_object enter t)
        (fun s₁ hs => Checker.outcome_enterWith hs hraw.ne_object enter' t)
      split
      · exact agree_pure _
      · next there =>
        exact agree_ofExcept_bind fun cls hcls => henter cls raw
          (.reference r he (Bool.eq_false_of_not_eq_true there) hcls) hraw
  | .arrayOf c r, hp, raw, hraw, henter, hseek => by
    rw [Checker.loadWith, Checker.loadWith]
    refine agree_ofExcept_bind fun items hitems => ?_
    have inert := Checker.inert_of_itemsOf hraw hitems
    refine (agree_gather fun x hx => ?_).bind fun _ _ _ _ => agree_pure _
    exact agree_loadWith c hp x (inert x hx)
      (fun d y entered => henter d y (.array r hitems hx entered))
      fun d id named => hseek d id (.array r hitems hx named)
  | .dictOf c r, hp, raw, hraw, henter, hseek => by
    intro s₁ hs
    rw [Checker.loadWith, Checker.loadWith, outcome_get_bind, outcome_get_bind,
      Checker.entriesOf_of_inert hraw s₁.heap []]
    refine agree_ofExcept_bind (fun es hes => ?_) s₁ hs
    have inert := Value.inert_dict_iff.1 (Checker.inert_of_entriesOf hraw hes)
    refine (agree_gather fun p hp' => ?_).bind fun _ _ _ _ => agree_pure _
    exact agree_loadWith c hp p.2 (inert p hp').2
      (fun d y entered => henter d y (.dictionary r hes hp' entered))
      fun d id named => hseek d id (.dictionary r hes hp' named)

variable (inert : s.InertRecords) (own : ∀ cls, s.catalog.lookupOf? cls = none)

include inert own in
/-- What is found is the same, if the records that may be found are loaded to the same. -/
theorem agree_findWith {load load' : ClassId → Value → Action Value} {cls : ClassId} {id : Value}
    (hid : id.Inert) (hload : ∀ r, s.Has r → r.key = ⟨.text (s.catalog.kindOf cls), id.toText⟩ →
      s.Agree (load cls (.dict r.data)) (load' cls (.dict r.data))) :
    s.Agree (findWith load cls id) (findWith load' cls id) := by
  have run (load : ClassId → Value → Action Value) (s₁ : Session) (hs : s₁.catalog = s.catalog) :=
    @outcome_findWith s₁ id load cls (by rw [hs, own])
  have sought : ∀ s₁, s.Extends s₁ → Apart (seekRecord cls id) s₁ ∧
      ∀ d, (outcome (seekRecord cls id) s₁).1 = .ok (some d) → ∃ r, s₁.Has r ∧
        r.key = ⟨.text (s₁.catalog.kindOf cls), id.toText⟩ ∧ d = .dict r.data := fun s₁ hs =>
    apart_seekRecord (fun r hr => inert r (hs.has hr)) hid cls
  refine Agree.of_outcome (Agree.bind (a := seekRecord cls id) ?_ fun record? s₁ hs hrun => ?_)
    (run load) (run load')
  · exact fun s₁ hs => ⟨rfl, hs.trans (sought s₁ hs).1.opens.extends⟩
  · cases record? with
    | none => exact agree_pure Value.null
    | some d =>
      obtain ⟨r, hr, key, rfl⟩ := (sought s₁ hs).2 d hrun
      exact hload r (hs.has hr) (hs.catalog ▸ key)

/-- The fields of a new entity are loaded to the same, if each raw value is. -/
theorem agree_loadFields {value value' : Checker → Value → Action Value} {a : Address}
    (added : s.heap.length ≤ a) {raw : Value} {fs : Schema}
    (hvalue : ∀ f ∈ fs, f.2.producesEntity = true → ∀ x, rawField raw f.1 = .ok x →
      s.Agree (value f.2 x) (value' f.2 x)) :
    s.Agree (loadFields value a raw fs) (loadFields value' a raw fs) := by
  induction fs with
  | nil => exact agree_pure _
  | cons f fs ih =>
    obtain ⟨hf, hfs⟩ := List.forall_mem_cons.1 hvalue
    rw [loadFields, loadFields]
    cases hp : f.2.producesEntity with
    | false => exact ih hfs
    | true =>
      rw [if_pos rfl, if_pos rfl]
      refine agree_ofExcept_bind fun x hx => (hf hp x hx).bind fun y _ _ _ => ?_
      have settled : s.Agree (settle a f.1 y) (settle a f.1 y) := by
        intro s₁ hs
        rw [outcome_settle]
        exact ⟨rfl, hs.catalog, Heap.prefix_settle hs.heap added f.1 y,
          fun hr => hs.has (hr.of_stores (fun _ _ hj => .inl hj) fun _ => rfl)⟩
      exact settled.bind fun _ _ _ _ => ih hfs

include inert own

/-- **What is within a bound does not depend on what is done at it.** -/
theorem agree_loadFrom (hg : s.catalog.WellFormed) {stop stop' : ClassId → Value → Action Value} :
    ∀ (fuel : Nat) (cls : ClassId) (raw : Value), raw.Inert → s.Within fuel cls raw →
      s.Agree (loadFrom stop fuel cls raw) (loadFrom stop' fuel cls raw)
  | fuel + 1, cls, raw, hraw, within => by
    intro s₁ hs
    have empty : ∀ r ∈ ([] : List Record), (Value.dict r.data).Inert := List.forall_mem_nil _
    have made := Construction.refines_ofRaw (s.catalog.tame_drawnInert cls empty) hg le_rfl
      ⟨hraw, .refl⟩
    rw [loadFrom, loadFrom, outcome_get_bind, outcome_get_bind, hs.catalog]
    cases hbuilt : Construction.ofRaw s.catalog cls raw s₁.heap with
    | error e =>
      have run := outcome_build_error hbuilt
      rw [outcome_bind_error run, outcome_bind_error run]
      exact ⟨rfl, hs⟩
    | ok p =>
      obtain ⟨v, h₁⟩ := p
      obtain ⟨t, ht, hle, reads⟩ := made.of_ok hbuilt
      obtain ⟨m, hm⟩ : ∃ m, raw.depth = m + 1 := ⟨raw.depth - 1, by have := raw.depth_pos; omega⟩
      rw [hm] at ht
      obtain ⟨data, trees, hdata, -, rfl⟩ := Catalog.built_succ_eq_some.1 ht
      have inertData := Construction.inert_of_entriesOf hraw hdata
      rw [outcome_bind_ok (outcome_build_ok hbuilt), outcome_bind_ok (outcome_build_ok hbuilt)]
      cases reads with
      | @entity a _ _ _ _ _ cell _ =>
        have added := hs.heap.length_le.trans (Heap.cell_of_above cell).1
        dsimp only
        refine (agree_loadFields added fun f hf hp x hx => ?_).bind (fun _ _ _ _ => agree_pure _) _
          (hs.trans (extends_of_grown hle s₁.now))
        obtain ⟨entered, found⟩ := within data hdata f hf
        rw [Catalog.eq_getStr_of_rawField hx hdata]
        refine agree_loadWith f.2 hp _ (Value.inert_getStr inertData f.1) ?_ ?_
        · exact fun d y hy hinert => agree_loadFrom hg fuel d y hinert (entered d y hy)
        · exact fun d id hid hinert => agree_findWith inert own hinert fun r hr key =>
            agree_loadFrom hg fuel d _ (inert r hr) (found d id r hid hr key)

/-- **Finding never reaches its bound** where no chain of references from the record that is found
comes back to a record of a class that it has been at.  Whatever would be done if more entities were
entered one after the other than the bound allows, which is told by the records and the number of
the classes, the outcome is that of finding; and so it is with every larger bound. -/
theorem find_bounded (hg : s.catalog.WellFormed) {cls : ClassId} {id : Value}
    (straight : ∀ name, Method.toText s.catalog s.heap id = .ok name → ∀ r, s.Has r →
      r.key = ⟨.text (s.catalog.kindOf cls), name⟩ → s.Straight (cls, r)) :
    (∀ stop, outcome (arrange (findWith (loadFrom stop (bound s .null)) cls id)) s =
      outcome (find cls id) s) ∧
    ∀ n, outcome (arrange (findWith (loadWithin (bound s .null + n)) cls id)) s =
      outcome (find cls id) s := by
  have same : ∀ stop s₁, s.Extends s₁ → s₁.heap = s.heap →
      outcome (findWith (loadFrom stop (bound s .null)) cls id) s₁ =
        outcome (findWith (loadWithin (bound s .null)) cls id) s₁ := by
    intro stop s₁ hs heap
    have own₁ : s₁.catalog.lookupOf? cls = none := by rw [hs.catalog, own]
    cases hname : Method.toText s.catalog s.heap id with
    | error e =>
      rw [← hs.catalog, ← heap] at hname
      exact outcome_findWith_of_textless own₁ hname
    | ok name =>
      have found : s.Agree (findWith (loadFrom stop (bound s .null)) cls (.str name))
          (findWith (loadWithin (bound s .null)) cls (.str name)) := by
        rw [← loadFrom_endless]
        exact agree_findWith inert own (Value.inert_str name) fun r hr key =>
          agree_loadFrom inert own hg _ cls _ (inert r hr)
            (within_of_straight hr (straight name hname r hr key))
      rw [← hs.catalog, ← heap] at hname
      rw [outcome_findWith_of_text own₁ hname, outcome_findWith_of_text own₁ hname]
      exact (found s₁ hs).1
  have whole : ∀ stop, outcome (arrange (findWith (loadFrom stop (bound s .null)) cls id)) s =
      outcome (find cls id) s := by
    intro stop
    have surveyed : s.Extends { s with survey := some [] } :=
      ⟨rfl, List.prefix_rfl, fun hr => hr.of_stores (fun _ _ hj => .inl hj) fun _ => rfl⟩
    have asked : firstRequest? (findWith (loadFrom stop (bound s .null)) cls id) s =
        firstRequest? (findWith (loadWithin (bound s .null)) cls id) s :=
      congrArg (fun p : Except Failure Value × Session => earliest? (p.2.survey.getD []))
        (same stop _ surveyed rfl)
    rw [find, outcome_get_bind, outcome_arrange, outcome_arrange, asked]
    have opens := (opens_arranged s (firstRequest?
      (findWith (loadWithin (bound s .null)) cls id) s)).1
    exact same stop _ opens.extends opens.heap
  refine ⟨whole, fun n => ?_⟩
  rw [Nat.add_comm, ← loadFrom_add]
  exact whole _

end

/-- A class of authors and a class of readers, each of whom has a friend among the others.  Friends
are looked up. -/
def friends : Catalog where
  classes := (Catalog.initial.classes ++ [⟨"Author", "Author", [1, 0],
      [("friend", .reference (.named "Reader") (.bool true) false)], none, some (some 0)⟩]) ++
    [⟨"Reader", "Reader", [2, 0],
      [("friend", .reference (.named "Author") (.bool true) false)], none, some (some 0)⟩]
  names := [("Author", 1), ("Reader", 2)]

theorem wellFormed_friends : friends.WellFormed := by
  have authors : (⟨Catalog.initial.classes ++ [⟨"Author", "Author", [1, 0],
      [("friend", .reference (.named "Reader") (.bool true) false)], none, some (some 0)⟩],
      []⟩ : Catalog).WellFormed := Catalog.wellFormed_initial.append (by decide) (by decide)
  exact authors.append (by decide) (by decide)

/-- The data of somebody with a friend. -/
def friendOf (me other : String) : Entries :=
  [(.str "_id", .str me), (.str "friend", .dict [(.str "_id", .str other)])]

/-- An author and a reader who are friends of each other. -/
def circle : List Record :=
  [⟨⟨.text "Author", "a"⟩, friendOf "a" "b"⟩, ⟨⟨.text "Reader", "b"⟩, friendOf "b" "a"⟩]

/-- A session with a store in memory that keeps records of friends. -/
def befriended (rs : List Record) : Session :=
  { Session.initial with catalog := friends, stores := [.memory rs] }

/-- An author with a friend who has none. -/
def line : List Record :=
  [⟨⟨.text "Author", "a"⟩, friendOf "a" "b"⟩, ⟨⟨.text "Reader", "b"⟩, [(.str "_id", .str "b")]⟩]

theorem mem_of_has_befriended {rs : List Record} {r : Record} (h : (befriended rs).Has r) :
    r ∈ rs := mem_of_has rfl rfl h

/-- Whatever fields there are, they are for a friend, and are deferred and not required. -/
theorem eager_of_friends {c : ClassId} {f : String × Checker} (hf : f ∈ friends.schemaOf c) :
    f.1 = "friend" ∧ ∃ t, f.2 = .reference t (.bool true) false := by
  match c, hf with
  | 1, hf | 2, hf =>
    obtain rfl := List.mem_singleton.1 hf
    exact ⟨rfl, _, rfl⟩

/-- What raw data refer to is the friend in them. -/
theorem friend_of_refers {c d : ClassId} {data : Entries} {id : Value}
    (h : friends.Refers c (.dict data) d id) :
    id = Checker.identifierIn (Entries.getStr data "friend") ∧ id.isNull = false := by
  cases h with
  | @field _ _ _ _ data' f hdata hf named =>
    cases (Construction.entriesOf_dict [] data).symm.trans hdata
    obtain ⟨name, t, checker⟩ := eager_of_friends hf
    rw [name, checker] at named
    cases named with
    | reference _ _ there _ => exact ⟨rfl, there⟩
  | @embedded _ c _ _ x _ data' f hdata hf entered _ =>
    obtain ⟨-, t, checker⟩ := eager_of_friends hf
    rw [checker] at entered
    cases entered with
    | reference _ lazy => cases lazy

/-- The author leads to the reader, and the reader leads to nobody. -/
theorem ids_of_leads {p q : ClassId × Record} (h : (befriended line).Leads p q) :
    p.2.key.id = "a" ∧ q.2.key.id = "b" := by
  obtain ⟨hp, -, id, refers, key⟩ := h
  obtain ⟨rfl, there⟩ := friend_of_refers refers
  rw [key]
  rcases List.mem_cons.1 (mem_of_has_befriended hp) with heq | hmem
  · rw [heq]
    exact ⟨rfl, rfl⟩
  · rw [List.mem_singleton.1 hmem] at there
    cases there

/-- The author is found within the bound, with a friend who has none. -/
theorem find_bounded_line : (outcome (find 1 (.str "a")) (befriended line)).1.toBool = true ∧
    ∀ n, outcome (arrange (findWith (loadWithin (bound (befriended line) .null + n)) 1 (.str "a")))
      (befriended line) = outcome (find 1 (.str "a")) (befriended line) := by
  have inert : (befriended line).InertRecords := by
    intro r hr
    refine (Value.isData_of_isPlain _ ?_).inert
    have mem := mem_of_has_befriended hr
    clear hr
    revert r
    decide
  have straight : ∀ p, (befriended line).Straight p := by
    intro p q _ back
    obtain ⟨_, first, -⟩ := Relation.TransGen.head'_iff.1 back
    obtain ⟨_, -, last⟩ := Relation.TransGen.tail'_iff.1 back
    have same := (ids_of_leads first).1.symm.trans (ids_of_leads last).2
    exact absurd same (by decide)
  exact ⟨by decide +kernel,
    (find_bounded inert (Catalog.lookupOf?_eq_none (by decide)) wellFormed_friends
    fun _ _ r _ _ => straight (1, r)).2⟩

/-- One of two friends is found by loading the other. -/
theorem findWith_of_friend {c : ClassId} {me other : String}
    (h : (c, me, other) = (1, "a", "b") ∨ (c, me, other) = (2, "b", "a")) {s : Session}
    (catalog : s.catalog = friends) (stores : s.stores = [.memory circle])
    (load : ClassId → Value → Action Value) : ∃ now, outcome (findWith load c (.str me)) s =
      outcome (load c (.dict (friendOf me other))) { s with now := now } := by
  have uses : s.Uses 0 c := .assigned (by rw [catalog]; rcases h with h | h <;> cases h <;> rfl)
  have keeps : s.Keeps 0 circle := .memory (by rw [stores]; rfl)
  have own : s.catalog.lookupOf? c = none := by
    rw [catalog]
    exact Catalog.lookupOf?_eq_none (by decide) c
  have inert : ∀ r ∈ circle, (Value.dict r.data).Inert := by
    intro r hr
    refine (Value.isData_of_isPlain _ ?_).inert
    revert r
    decide
  obtain ⟨rounds, found⟩ := findWith_eq load uses own keeps inert
    (Method.toText_of_inert s.catalog s.heap (Value.inert_str me))
  have there : MemoryStore.get? circle ⟨.text (s.catalog.kindOf c), (Value.str me).toText⟩ =
      some (friendOf me other) := by
    rw [catalog]
    rcases h with h | h <;> cases h <;> rfl
  rw [there] at found
  exact ⟨s.now.after rounds, found⟩

/-- Who has a friend is loaded by looking the friend up. -/
theorem endless_of_friend {c d : ClassId} {me other : String}
    (h : (c, me, other, d) = (1, "a", "b", 2) ∨ (c, me, other, d) = (2, "b", "a", 1)) {fuel : Nat}
    (next : ∀ s, s.catalog = friends → s.stores = [.memory circle] →
      ∃ s', outcome (findWith (loadWithin fuel) d (.str other)) s = (.error .endless, s') ∧
        s'.survey = s.survey) {s : Session}
    (catalog : s.catalog = friends) (stores : s.stores = [.memory circle]) :
    ∃ s', outcome (loadWithin (fuel + 1) c (.dict (friendOf me other))) s = (.error .endless, s') ∧
      s'.survey = s.survey := by
  have made : ∃ cell, Construction.ofRaw friends c (.dict (friendOf me other)) s.heap =
      .ok (.object s.heap.length, s.heap ++ [cell]) := by
    rcases h with h | h <;> cases h <;> exact ⟨_, rfl⟩
  obtain ⟨cell, made⟩ := made
  obtain ⟨s', fails, survey⟩ := next { s with heap := s.heap ++ [cell] } catalog stores
  refine ⟨s', ?_, survey⟩
  obtain ⟨t, schema, resolved⟩ : ∃ t,
      friends.schemaOf c = [("friend", .reference t (.bool true) false)] ∧
        friends.resolve t = .ok d := by
    rcases h with h | h <;> cases h <;> exact ⟨_, rfl, rfl⟩
  have payload : (Value.dict [(.str "_id", .str other)]).Inert :=
    (Value.isData_of_isPlain _ rfl).inert
  have looked := Checker.outcome_fetchWith (s := { s with heap := s.heap ++ [cell] })
    catalog payload
    (findWith (loadWithin fuel)) t
  have asked : Checker.identifierIn (.dict [(.str "_id", .str other)]) = .str other := rfl
  have given : (Value.str other).isNull = false := rfl
  rw [asked, given, resolved, if_neg Bool.false_ne_true] at looked
  have fetched := looked.trans fails
  rw [loadWithin, outcome_get_bind, catalog, outcome_bind_ok (outcome_build_ok made)]
  dsimp only
  have producing : (Checker.reference t (.bool true) false).producesEntity = true := rfl
  rw [schema, loadFields, producing, if_pos rfl]
  refine outcome_bind_error ?_
  have field : rawField (.dict (friendOf me other)) "friend" =
      .ok (.dict [(.str "_id", .str other)]) := rfl
  rw [field]
  exact (outcome_bind_ok rfl).trans (outcome_bind_error fetched)

/-- **Two records that refer to each other are loaded without end**: whatever the bound is, it is
reached, and so finding fails. -/
theorem find_endless_of_friends : (∀ fuel, (outcome (findWith (loadWithin fuel) 1 (.str "a"))
      (befriended circle)).1 = .error .endless) ∧
    (outcome (find 1 (.str "a")) (befriended circle)).1 = .error .endless := by
  have endless : ∀ fuel s, s.catalog = friends → s.stores = [.memory circle] →
      ∀ c me other, (c, me, other) = (1, "a", "b") ∨ (c, me, other) = (2, "b", "a") →
      ∃ s', outcome (findWith (loadWithin fuel) c (.str me)) s = (.error .endless, s') ∧
        s'.survey = s.survey := by
    intro fuel
    induction fuel with
    | zero =>
      intro s catalog stores c me other h
      obtain ⟨now, found⟩ := findWith_of_friend h catalog stores (loadWithin 0)
      exact ⟨_, found, rfl⟩
    | succ fuel ih =>
      intro s catalog stores c me other h
      obtain ⟨now, found⟩ := findWith_of_friend h catalog stores (loadWithin (fuel + 1))
      have pair : (c, me, other, if c = 1 then 2 else 1) = (1, "a", "b", 2) ∨
          (c, me, other, if c = 1 then 2 else 1) = (2, "b", "a", 1) := by
        rcases h with h | h <;> cases h
        · exact .inl rfl
        · exact .inr rfl
      have back : (if c = 1 then 2 else 1, other, me) = (1, "a", "b") ∨
          (if c = 1 then 2 else 1, other, me) = (2, "b", "a") := by
        rcases h with h | h <;> cases h
        · exact .inr rfl
        · exact .inl rfl
      obtain ⟨s', fails, survey⟩ := endless_of_friend pair
        (fun s catalog stores => ih s catalog stores _ other me back) catalog stores
        (s := { s with now := now })
      exact ⟨s', found.trans fails, survey⟩
  have start := fun fuel => endless fuel (befriended circle) rfl rfl 1 "a" "b" (.inl rfl)
  refine ⟨fun fuel => ?_, ?_⟩
  · obtain ⟨s', fails, -⟩ := start fuel
    rw [fails]
  · have uses : (befriended circle).Uses 0 1 := .assigned rfl
    rw [find, outcome_get_bind, uses.outcome_arrange]
    · obtain ⟨s', fails, -⟩ := start (bound (befriended circle) .null)
      rw [fails]
    · intro _
      obtain ⟨s', fails, survey⟩ := endless (bound (befriended circle) .null)
        { befriended circle with survey := some [] } rfl rfl 1 "a" "b" (.inl rfl)
      rw [fails]
      exact survey

end Loading

end EntitySchema
