/-
**What is embedded is made.**

When an entity is constructed, every entity that is embedded in its raw data is constructed with it,
and each adds a cell to the heap.  So of entities that are embedded one inside the other there are
no more than cells that construction adds; and loading, which enters them one after the other, needs
no more to be entered than that, besides what is found on the way.

Main definitions:

* `Build.Adds` — a construction that takes nothing from the heap;
* `Build.Makes` — a construction that succeeds somewhere and adds so many cells at most.

Main results:

* `Checker.Enters.makes` — decoding constructs what is entered;
* `Construction.exists_of_makes` — of the cells that an entity adds one is its own;
* `Catalog.loaded_of_makes` — **the cells that construction adds bound the loading.**
-/

import EntitySchema.Proofs.BuildingTrees

set_option autoImplicit false

namespace EntitySchema

/-! ### Constructions that add cells -/

namespace Build

variable {α β : Type}

/-- A construction that takes nothing from the heap. -/
def Adds (b : Build α) : Prop := ∀ h x h', b h = .ok (x, h') → List.length h ≤ List.length h'

/-- From some heap on a construction succeeds, and it adds so many cells at most. -/
def Makes (n : Nat) (b : Build α) : Prop :=
  ∃ h x h', b h = .ok (x, h') ∧ List.length h' ≤ List.length h + n

theorem adds_pure (x : α) : Adds (pure x : Build α) := by
  intro h y h' hy
  cases hy
  exact le_rfl

theorem adds_throw (e : Failure) : Adds (throw e : Build α) := nofun

theorem adds_get : Adds (get : Build Heap) := by
  intro h y h' hy
  cases hy
  exact le_rfl

theorem adds_lift (e : Except Failure α) : Adds (liftM e : Build α) := by
  intro h y h' hy
  cases e with
  | error f => cases hy
  | ok x =>
    cases hy
    exact le_rfl

theorem Adds.bind {b : Build α} {f : α → Build β} (hb : Adds b) (hf : ∀ x, Adds (f x)) :
    Adds (b >>= f) := by
  intro h y h' hy
  rw [bind_apply] at hy
  obtain ⟨p, hp, hy⟩ := bind_eq_ok.1 hy
  exact (hb h p.1 p.2 hp).trans (hf p.1 p.2 y h' hy)

theorem adds_mapM {f : α → Build β} (hf : ∀ x, Adds (f x)) (xs : List α) : Adds (xs.mapM f) := by
  induction xs with
  | nil => exact adds_pure []
  | cons x xs ih =>
    rw [List.mapM_cons]
    exact (hf x).bind fun _ => ih.bind fun _ => adds_pure _

/-- Of what is made of a list each member adds no more cells than all together. -/
theorem Makes.of_mapM {f : α → Build β} (hf : ∀ x, Adds (f x)) {xs : List α} {n : Nat}
    (h : Makes n (xs.mapM f)) {x : α} (hx : x ∈ xs) : Makes n (f x) := by
  induction xs generalizing n with
  | nil => cases hx
  | cons z xs ih =>
    obtain ⟨h, ys, h', hm, size⟩ := h
    rw [mapM_cons_apply] at hm
    obtain ⟨p, hp, hm⟩ := bind_eq_ok.1 hm
    obtain ⟨q, hq, hm⟩ := bind_eq_ok.1 hm
    cases hm
    have first := hf z h p.1 p.2 hp
    have rest := adds_mapM hf xs p.2 q.1 q.2 hq
    rcases List.mem_cons.1 hx with rfl | hx
    · exact ⟨h, p.1, p.2, hp, rest.trans size⟩
    · exact ih ⟨p.2, q.1, q.2, hq, by omega⟩ hx

end Build

/-! ### Decoding -/

namespace Checker

variable {g : Catalog} {make : ClassId → Value → Build Value}

/-- Decoding takes nothing from the heap, if the construction of entities does not. -/
theorem adds_decodeWith (hmake : ∀ cls raw, (make cls raw).Adds) :
    (c : Checker) → (raw : Value) → (decodeWith g make c raw).Adds
  | .scalar _ _ _, raw | .shape _ _, raw => Build.adds_pure raw
  | .date _, raw => Build.adds_get.bind fun h => Build.adds_lift _
  | .reference t eager r, raw => by
    rw [decodeWith, decodeEntity]
    split
    · exact Build.adds_pure _
    · refine (Build.adds_lift _).bind fun cls => Build.adds_get.bind fun h => ?_
      cases raw with
      | object a =>
        dsimp only
        split
        · exact Build.adds_pure _
        · exact hmake cls _
      | _ => exact hmake cls _
  | .arrayOf e r, raw => by
    rw [decodeWith]
    exact (Build.adds_lift _).bind fun items =>
      (Build.adds_mapM (adds_decodeWith hmake e) items).bind fun _ => Build.adds_pure _
  | .dictOf e r, raw => by
    rw [decodeWith]
    refine Build.adds_get.bind fun h => (Build.adds_lift _).bind fun entries => ?_
    refine (Build.adds_mapM ?_ entries).bind fun _ => Build.adds_pure _
    exact fun p => (adds_decodeWith hmake e p.2).bind fun _ => Build.adds_pure _

variable {look : Lookups} {kind : Subject → Value → Prop} (tame : g.Tame look kind) {c : Checker}
  {raw x : Value} {cls : ClassId}

include tame

/-- What is entered in a tame raw value is tame. -/
theorem kind_of_enters (h : Enters g c raw cls x) (hraw : kind (.decoded c) raw) :
    kind (.entity cls) x := by
  induction h with
  | reference r lazy there hcls => exact tame.embedded hraw lazy there hcls
  | array r hitems hx entered ih => exact ih (tame.items entered.embeds.1 hraw hitems _ hx)
  | dictionary r hes hp entered ih => exact ih (tame.values entered.embeds.1 hraw hes _ hp)

/-- **Decoding constructs what is entered.** -/
theorem Enters.makes (hmake : ∀ cls raw, (make cls raw).Adds) (h : Enters g c raw cls x)
    (hraw : kind (.decoded c) raw) {n : Nat} (made : (decodeWith g make c raw).Makes n) :
    (make cls x).Makes n := by
  induction h with
  | @reference t eager r raw cls lazy there hcls =>
    obtain ⟨h, v, h', hv, size⟩ := made
    rw [decodeWith_reference t eager r there (tame.payload hraw lazy), hcls] at hv
    exact ⟨h, v, h', hv, size⟩
  | @array e r raw x y items cls hitems hx entered ih =>
    obtain ⟨h, v, h', hv, size⟩ := made
    rw [decodeWith_arrayOf, hitems, ok_bind] at hv
    obtain ⟨p, hp, hv⟩ := bind_eq_ok.1 hv
    cases hv
    have members : (items.mapM fun x => decodeWith g make e x).Makes n := ⟨h, p.1, p.2, hp, size⟩
    exact ih (tame.items entered.embeds.1 hraw hitems _ hx)
      (members.of_mapM (adds_decodeWith hmake e) hx)
  | @dictionary e r raw y es p cls hes hp entered ih =>
    obtain ⟨h, v, h', hv, size⟩ := made
    rw [decodeWith_dictOf, tame.mapping entered.embeds.1 hraw h, hes, ok_bind] at hv
    obtain ⟨q, hq, hv⟩ := bind_eq_ok.1 hv
    cases hv
    have members : ((es.map Prod.snd).mapM fun x => decodeWith g make e x).Makes n :=
      ⟨h, q.1, q.2, hq, size⟩
    exact ih (tame.values entered.embeds.1 hraw hes _ hp)
      (members.of_mapM (adds_decodeWith hmake e) (List.mem_map_of_mem hp))

end Checker

/-! ### Entities -/

namespace Construction

open Build

variable {g : Catalog}

theorem adds_initialValue {decode : Checker → Value → Build Value}
    (hd : ∀ c raw, (decode c raw).Adds)
    (c : Checker) (raw : Value) : (initialValue decode c raw).Adds := by
  unfold initialValue
  split_ifs
  · exact adds_pure _
  · exact hd c raw
  · exact adds_pure _

theorem adds_fieldsFrom {decode : Checker → Value → Build Value} (hd : ∀ c raw, (decode c raw).Adds)
    (data : Entries) (fs : Schema) : (fieldsFrom decode data fs).Adds := by
  induction fs with
  | nil => exact adds_pure _
  | cons f fs ih =>
    exact (adds_initialValue hd f.2 _).bind fun _ => ih.bind fun _ => adds_pure _

/-- The construction of an entity takes nothing from the heap. -/
theorem adds_ofEntries : ∀ (fuel : Nat) (cls : ClassId) (data : Entries),
    (ofEntries g fuel cls data).Adds
  | 0, _, _ => adds_throw _
  | fuel + 1, cls, data => by
    rw [ofEntries]
    refine (adds_fieldsFrom (Checker.adds_decodeWith fun cls raw => ?_) _ _).bind fun p => ?_
    · exact adds_get.bind fun h => (adds_lift _).bind fun es => adds_ofEntries fuel cls es
    · intro h v h' hv
      cases hv
      simp

theorem adds_ofRaw (cls : ClassId) (raw : Value) : (ofRaw g cls raw).Adds :=
  adds_get.bind fun _ => (adds_lift _).bind fun _ => adds_ofEntries _ cls _

/-- Of fields that are made each adds no more cells than all together. -/
theorem makes_of_fieldsFrom {decode : Checker → Value → Build Value}
    (hd : ∀ c raw, (decode c raw).Adds) {data : Entries} {fs : Schema} {n : Nat}
    (h : (fieldsFrom decode data fs).Makes n) {f : String × Checker} (hf : f ∈ fs) :
    (initialValue decode f.2 (Entries.getStr data f.1)).Makes n := by
  induction fs generalizing n with
  | nil => cases hf
  | cons f' fs ih =>
    obtain ⟨h, p, h', hp, size⟩ := h
    rw [fieldsFrom_cons_apply] at hp
    obtain ⟨v, hv, hp⟩ := bind_eq_ok.1 hp
    obtain ⟨q, hq, hp⟩ := bind_eq_ok.1 hp
    cases hp
    have first := adds_initialValue hd _ _ h v.1 v.2 hv
    have rest := adds_fieldsFrom hd data fs v.2 q.1 q.2 hq
    rcases List.mem_cons.1 hf with rfl | hf
    · exact ⟨h, v.1, v.2, hv, rest.trans size⟩
    · exact ih ⟨v.2, q.1, q.2, hq, by omega⟩ hf

/-- **Of the cells that an entity adds one is its own**; the others are left for its fields. -/
theorem exists_of_makes {cls : ClassId} {raw : Value} {n : Nat} (made : (ofRaw g cls raw).Makes n) :
    ∃ m h data, n = m + 1 ∧ entriesOf h raw = .ok data ∧
      ∀ f ∈ g.schemaOf cls, (initialValue (decode g) f.2 (Entries.getStr data f.1)).Makes m := by
  obtain ⟨h, v, h', hv, size⟩ := made
  rw [ofRaw_apply] at hv
  obtain ⟨data, hdata, hv⟩ := bind_eq_ok.1 hv
  obtain ⟨p, hp, hv⟩ := bind_eq_ok.1 hv
  cases hv
  have adds : ∀ c raw, (decode g c raw).Adds := Checker.adds_decodeWith adds_ofRaw
  have before := adds_fieldsFrom adds data (g.schemaOf cls) h p.1 p.2 hp
  rw [List.length_append, List.length_singleton] at size
  obtain ⟨m, rfl⟩ : ∃ m, n = m + 1 := ⟨n - 1, by omega⟩
  exact ⟨m, h, data, rfl, hdata, fun f hf =>
    makes_of_fieldsFrom adds ⟨h, p.1, p.2, hp, by omega⟩ hf⟩

end Construction

/-- **The cells that construction adds bound the loading**: if all that is found on the way can be
loaded with a bound, what can be loaded at all is loaded with a bound that is larger by the number
of these cells. -/
theorem Catalog.loaded_of_makes {g : Catalog} {look : Lookups} {kind : Subject → Value → Prop}
    (tame : g.Tame look kind) {n m k : Nat} {cls : ClassId} {raw : Value} {t : Tree}
    (found : ∀ c id es k u, k < n → look c id = some es → g.loaded look k c (.dict es) = some u →
      g.loaded look m c (.dict es) = some u)
    (hraw : kind (.entity cls) raw) (made : (Construction.ofRaw g cls raw).Makes k)
    (h : g.loaded look n cls raw = some t) : g.loaded look (k + m) cls raw = some t := by
  induction n generalizing k cls raw t with
  | zero => cases h
  | succ n ih =>
    obtain ⟨data, trees, hdata, htrees, rfl⟩ := loaded_succ_eq_some.1 h
    obtain ⟨k, h₀, data', rfl, hdata', fields⟩ := Construction.exists_of_makes made
    rw [tame.data hraw h₀] at hdata'
    cases hdata.symm.trans hdata'
    have bound : k + 1 + m = (k + m) + 1 := by omega
    rw [bound]
    refine loaded_succ_eq_some.2 ⟨data, trees, hdata, fieldTrees_mono ?_ htrees, rfl⟩
    intro f hf u hu
    refine loadedField_mono hdata ?_ ?_ hu
    · intro c x v entered hx
      have before := fun c id es k u (hk : k < n) => found c id es k u (Nat.lt_succ_of_lt hk)
      have hkind := tame.field hraw hdata f hf
      obtain ⟨hp, hd⟩ := entered.embeds
      have field := fields f hf
      rw [Construction.initialValue_of_decodes hd (Checker.decodes_of_producesEntity hp)] at field
      exact ih before (Checker.kind_of_enters tame entered hkind)
        (entered.makes tame Construction.adds_ofRaw hkind field) hx
    · intro c id v hv
      refine foundWith_mono (fun es hes w hw => ?_) hv
      exact loaded_mono (Nat.le_add_left m k) (found c id es n w (Nat.lt_succ_self n) hes hw)

namespace Loading

/-- What can be constructed makes as many objects as are counted. -/
theorem makes_made {s : Session} {cls : ClassId} {raw v : Value} {h : Heap}
    (hv : Construction.ofRaw s.catalog cls raw s.heap = .ok (v, h)) :
    (Construction.ofRaw s.catalog cls raw).Makes (made s cls raw) := by
  refine ⟨s.heap, v, h, hv, ?_⟩
  rw [made, hv]
  dsimp only
  omega

end Loading

end EntitySchema
