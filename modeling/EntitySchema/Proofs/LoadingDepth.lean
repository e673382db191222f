/-
**The bound of loading suffices.**

Records may refer to each other in circles, so loading has a bound on how many entities are entered
one after the other.  What can be loaded with any bound at all can be loaded with the one that there
is.  For consider which classes can load which records with a bound that grows by the depth of the
deepest record at each round.  As long as a round adds something there are as many rounds, at most,
as there are classes and records; and once a round adds nothing, none does so any more.

Main definitions:

* `Catalog.loadable` — the classes and records that can be loaded with a bound.

Main results:

* `Catalog.loaded_of_found` — what is found along with a raw value, and its depth, bound its
  loading;
* `Catalog.exists_rounds` — after as many rounds as there are classes and records all is loaded that
  ever is;
* `Loading.loaded_bound_of_mem` — **what can be loaded of a record with any bound is loaded with the
  one that there is**;
* `Loading.find_of_loaded` — what can be loaded of a record is found.
-/

import EntitySchema.Proofs.CallDepth
import EntitySchema.Proofs.Embedded
import EntitySchema.Proofs.StoredLookups
import Mathlib.Data.Finset.Prod
import Mathlib.Data.Finset.Card

set_option autoImplicit false

namespace EntitySchema

namespace Catalog

variable {g : Catalog} {look : Lookups} {cls : ClassId} {raw : Value} {t : Tree}

/-- A class and a raw value have one tree at most, whatever the bounds are. -/
theorem loaded_unique {n m : Nat} {u : Tree} (ht : g.loaded look n cls raw = some t)
    (hu : g.loaded look m cls raw = some u) : t = u :=
  Option.some.inj
    ((loaded_mono (le_max_left n m) ht).symm.trans (loaded_mono (le_max_right n m) hu))

/-- A class that there is not has no fields, so whatever makes a dictionary is loaded for it. -/
theorem loaded_of_absent (habs : g.classes.length ≤ cls) {n : Nat}
    (ht : g.loaded look n cls raw = some t) : g.loaded look 1 cls raw = some t := by
  have none : g.schemaOf cls = [] := by rw [schemaOf, List.getElem?_eq_none habs]; rfl
  cases n with
  | zero => cases ht
  | succ n =>
    obtain ⟨data, trees, hdata, htrees, rfl⟩ := loaded_succ_eq_some.1 ht
    refine loaded_succ_eq_some.2 ⟨data, trees, hdata, ?_, rfl⟩
    rw [none] at htrees ⊢
    exact htrees

/-- If all that is found on the way can be loaded with a bound, the raw value can be loaded with a
bound that is larger by its depth. -/
theorem loaded_of_found {n m : Nat}
    (found : ∀ c id es k u, k < n → look c id = some es → g.loaded look k c (.dict es) = some u →
      g.loaded look m c (.dict es) = some u)
    (h : g.loaded look n cls raw = some t) : g.loaded look (raw.depth + m) cls raw = some t := by
  induction n generalizing cls raw t with
  | zero => cases h
  | succ n ih =>
    obtain ⟨data, trees, hdata, htrees, rfl⟩ := loaded_succ_eq_some.1 h
    have deep := Construction.depth_of_entriesOf hdata
    obtain ⟨d, hd⟩ : ∃ d, raw.depth = d + 1 := ⟨raw.depth - 1, by omega⟩
    have bound : raw.depth + m = (d + m) + 1 := by omega
    rw [bound]
    refine loaded_succ_eq_some.2 ⟨data, trees, hdata, fieldTrees_mono ?_ htrees, rfl⟩
    intro f _ u hu
    refine loadedField_mono hdata ?_ ?_ hu
    · intro c x v entered hx
      obtain ⟨there, le⟩ := entered.depth_le
      have less := Entries.depth_getStr_le there
      have before := fun c id es k u (hk : k < n) => found c id es k u (Nat.lt_succ_of_lt hk)
      exact loaded_mono (by omega) (ih before hx)
    · intro c id v hv
      refine foundWith_mono (fun es hes w hw => ?_) hv
      exact loaded_mono (Nat.le_add_left m d) (found c id es n w (Nat.lt_succ_self n) hes hw)

end Catalog

namespace Catalog

variable (g : Catalog) (look : Lookups) (rs : List Record)

/-- The classes and the records, by their numbers, that can be loaded with a bound. -/
def loadable (n : Nat) : Finset (Nat × Nat) :=
  (Finset.range g.classes.length ×ˢ Finset.range rs.length).filter fun p =>
    (rs[p.2]?.bind fun r => g.loaded look n p.1 (.dict r.data)).isSome

variable {g look rs}

theorem mem_loadable {n c k : Nat} : (c, k) ∈ g.loadable look rs n ↔
    c < g.classes.length ∧ ∃ r t, rs[k]? = some r ∧ g.loaded look n c (.dict r.data) = some t := by
  simp only [loadable, Finset.mem_filter, Finset.mem_product, Finset.mem_range,
    Option.isSome_iff_exists, Option.bind_eq_some_iff]
  constructor
  · rintro ⟨⟨hc, -⟩, t, r, hr, ht⟩
    exact ⟨hc, r, t, hr, ht⟩
  · rintro ⟨hc, r, t, hr, ht⟩
    exact ⟨⟨hc, (List.getElem?_eq_some_iff.1 hr).1⟩, t, r, hr, ht⟩

theorem loadable_mono {n m : Nat} (hle : n ≤ m) : g.loadable look rs n ⊆ g.loadable look rs m := by
  rintro ⟨c, k⟩ h
  obtain ⟨hc, r, t, hr, ht⟩ := mem_loadable.1 h
  exact mem_loadable.2 ⟨hc, r, t, hr, loaded_mono hle ht⟩

theorem card_loadable_le (n : Nat) :
    (g.loadable look rs n).card ≤ g.classes.length * rs.length := by
  refine (Finset.card_filter_le _ _).trans ?_
  rw [Finset.card_product, Finset.card_range, Finset.card_range]

/-- After as many rounds as there are classes and records, each of which adds the depth of the
deepest record to the bound, every record is loaded that is loaded ever. -/
theorem exists_rounds {depth : Nat} (hlook : ∀ c id es, look c id = some es → ∃ r ∈ rs, r.data = es)
    (hdepth : ∀ r ∈ rs, (Value.dict r.data).depth ≤ depth) :
    ∃ j ≤ g.classes.length * rs.length, ∀ n, ∀ r ∈ rs, ∀ c t,
      g.loaded look n c (.dict r.data) = some t →
      g.loaded look (1 + depth * j) c (.dict r.data) = some t := by
  have bounded : ∀ j, (g.loadable look rs (1 + depth * j)).card ≤ g.classes.length * rs.length :=
    fun _ => card_loadable_le _
  obtain ⟨j, hj, halt⟩ := exists_stationary bounded
  have next : 1 + depth * (j + 1) = depth + (1 + depth * j) := by rw [Nat.mul_succ]; omega
  have same : g.loadable look rs (1 + depth * j) = g.loadable look rs (1 + depth * (j + 1)) :=
    Finset.eq_of_subset_of_card_le (loadable_mono (by omega)) halt
  refine ⟨j, hj, fun n => ?_⟩
  -- along the bounds: what is found on the way is loaded with a smaller one
  induction n using Nat.strong_induction_on with
  | _ n ih =>
    intro r hr c t ht
    rcases Nat.lt_or_ge c g.classes.length with hc | habs
    · have reached : g.loaded look (depth + (1 + depth * j)) c (.dict r.data) = some t := by
        refine loaded_mono (Nat.add_le_add_right (hdepth r hr) _) (loaded_of_found ?_ ht)
        intro c' id es k u hk hes hu
        obtain ⟨r', hr', rfl⟩ := hlook c' id es hes
        exact ih k hk r' hr' c' u hu
      obtain ⟨k, hk⟩ := List.getElem?_of_mem hr
      have mem : (c, k) ∈ g.loadable look rs (1 + depth * (j + 1)) :=
        mem_loadable.2 ⟨hc, r, t, hk, next ▸ reached⟩
      rw [← same] at mem
      obtain ⟨-, r', t', hr', ht'⟩ := mem_loadable.1 mem
      cases hk.symm.trans hr'
      rwa [loaded_unique ht ht']
    · exact loaded_mono (Nat.le_add_right 1 _) (loaded_of_absent habs ht)

end Catalog

namespace Loading

variable {g : Catalog} {s : Session} {i : StoreId} {rs : List Record}

/-- What can be loaded of a record with any bound is loaded with the one of a look-up. -/
theorem loaded_bound_of_mem (catalog : s.catalog = g) (h : s.Keeps i rs) {n : Nat} {r : Record}
    (hr : r ∈ rs) {cls : ClassId} {t : Tree}
    (ht : g.loaded (g.lookIn rs) n cls (.dict r.data) = some t) :
    g.loaded (g.lookIn rs) (bound s .null) cls (.dict r.data) = some t := by
  obtain ⟨deep, many⟩ := le_recordExtent h
  have depth : ∀ r ∈ rs, (Value.dict r.data).depth ≤ (recordExtent s).1 + 1 := fun r hr =>
    Nat.succ_le_succ ((le_foldl_max (List.mem_map_of_mem hr)).trans deep)
  have records : ∀ c id es, g.lookIn rs c id = some es → ∃ r ∈ rs, r.data = es := by
    intro c id es hes
    obtain ⟨r, hr, hdata, -⟩ := Catalog.exists_of_lookIn hes
    exact ⟨r, hr, hdata⟩
  obtain ⟨j, hj, rounds⟩ := Catalog.exists_rounds (g := g) records depth
  refine Catalog.loaded_mono ?_ (rounds n r hr cls t ht)
  have product : ((recordExtent s).1 + 1) * j ≤ ((recordExtent s).1 + 2) *
      ((recordExtent s).2 * s.catalog.classes.length + 1) := by
    refine Nat.mul_le_mul (Nat.le_succ _) ((hj.trans ?_).trans (Nat.le_succ _))
    rw [catalog, Nat.mul_comm]
    exact Nat.mul_le_mul_right _ many
  rw [bound]
  dsimp only
  omega

/-- What can be loaded of a record is found under its kind and identifier. -/
theorem find_of_loaded (hg : g.WellFormed) (catalog : s.catalog = g) {cls : ClassId}
    (draws : s.DrawsOn cls i rs) (inert : ∀ r ∈ rs, (Value.dict r.data).Inert) {id : Value}
    (hid : id.Inert) {es : Entries} (there : g.lookIn rs cls id = some es) {n : Nat} {t : Tree}
    (ht : g.loaded (g.lookIn rs) n cls (.dict es) = some t) :
    ∃ v s', Session.outcome (find cls id) s = (.ok v, s') ∧ Heap.Reads g s'.heap v t := by
  obtain ⟨r, hr, rfl, -⟩ := Catalog.exists_of_lookIn there
  have bounded := loaded_bound_of_mem catalog draws.keeps hr ht
  have finds := refines_find_of_draws hg inert hid catalog draws
  rcases hrun : Session.outcome (find cls id) s with ⟨result, s'⟩
  rw [hrun, Catalog.foundWith, there] at finds
  dsimp only at finds
  rw [bounded] at finds
  obtain ⟨-, ⟨v, _, rfl, ⟨⟩, reads⟩ | ⟨-, ⟨⟩⟩⟩ := finds
  exact ⟨v, s', rfl, reads.mono (Heap.only_within_self _ _)⟩

end Loading

end EntitySchema
