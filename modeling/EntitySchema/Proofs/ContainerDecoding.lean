/-
**Decoding of a container is the map of the decoding of its leaves.**

A checker for nested containers over a reference decodes a raw value that fits it just if the
reference decodes every leaf, and what it makes is the raw value with each leaf replaced by what the
reference makes of it.  Of an embedded reference the leaves are decoded at once, each on the heap
that those before it have left.  Of an eager one they are looked up side by side; if every class
that can be reached replies, each leaf has a tree, or has none, whenever it is looked up, and so the
outcome is the same in every order.

Main definitions:

* `Loading.Unordered` — **a decoding that has the same outcome in every order of its lookups.**

Main results:

* `Loading.decode_nested_atOnce` — decoding at once;
* `Loading.attempts_decode`, `Loading.unordered_decode` — decoding by lookups;
* `Loading.decode_container` — **what decoding of a container makes of the leaves.**
-/

import EntitySchema.Proofs.FirmConstruction
import EntitySchema.Proofs.LookupOrders
import EntitySchema.Proofs.Settled

set_option autoImplicit false

namespace EntitySchema

namespace Checker

variable {t : Target} {e : Value} {r : Bool}

/-- A chain of containers is deferred if the reference at its end is. -/
theorem deferred_of_base : (c : Checker) → c.base = .reference t e r → c.deferred = e.truthy
  | .reference _ _ _, hc => by
    cases hc
    rfl
  | .arrayOf c _, hc => deferred_of_base c hc
  | .dictOf c _, hc => deferred_of_base c hc

/-- The leaves of a raw value lead nowhere else. -/
theorem covers_leaves {h : Heap} : (c : Checker) → c.base = .reference t e r → (raw : Value) →
    h.Covers raw → ∀ x ∈ c.leaves raw, h.Covers x
  | .reference _ _ _, _, raw, covers, x, hx => by
    cases List.mem_singleton.1 hx
    exact covers
  | .arrayOf c _, hc, raw, covers, x, hx => by
    obtain ⟨y, hy, hx⟩ := List.mem_flatMap.1 hx
    cases hys : raw.elements? with
    | none =>
      rw [hys] at hy
      cases hy
    | some ys =>
      rw [hys] at hy
      refine covers_leaves c hc y (fun a ha => covers a ?_) x hx
      rcases itemsOf_cases (Value.itemsOf_of_elements? hys) with rfl | ⟨-, items⟩
      · cases hy
      · exact Value.leadsTo_of_items items hy ha
  | .dictOf c _, hc, raw, covers, x, hx => by
    obtain ⟨p, hp, hx⟩ := List.mem_flatMap.1 hx
    cases hes : raw.entries? with
    | none =>
      rw [hes] at hp
      cases hp
    | some es =>
      rw [hes] at hp
      refine covers_leaves c hc p.2 (fun a ha => covers a ?_) x hx
      exact (Value.leadsTo_of_entries hes hp).2 a ha

end Checker

namespace Loading

variable {s s' : Session} {c : Checker} {t : Target} {e : Value} {r : Bool} {raw v : Value}

/-! ### At once -/

/-- A checker that is not deferred decodes at once. -/
theorem outcome_decode_atOnce (hc : c.deferred = false) (raw : Value) (s : Session) :
    Session.outcome (decode c raw) s =
      Session.outcome (Session.build (Construction.decode s.catalog c raw)) s := by
  rw [decode, Session.outcome_get_bind, hc]
  rfl

/-- **Decoding at once** succeeds if it does of every leaf, and makes of each what is made of it
alone, after those before it. -/
theorem decode_nested_atOnce (hc : c.base = .reference t e r) (nested : c.Nested raw)
    (covers : s.heap.Covers raw) (he : e.truthy = false) :
    ((∃ v s', Session.outcome (decode c raw) s = (.ok v, s')) ↔ ∀ x ∈ c.leaves raw,
      ∃ y s', Session.outcome (decode (.reference t e r) x) s = (.ok y, s')) ∧
    ∀ v s', Session.outcome (decode c raw) s = (.ok v, s') → ∃ ys, v = c.refill raw ys ∧
      List.Forall₂ (fun x y => s.Meanwhile s' (decode (.reference t e r) x) (.ok y)) (c.leaves raw)
        ys := by
  have lazy : c.deferred = false := (c.deferred_of_base hc).trans he
  have lazy' : (Checker.reference t e r).deferred = false := he
  have parts : Construction.decode s.catalog c raw = (do
      pure (c.refill raw (← (c.leaves raw).mapM
        (Construction.decode s.catalog (.reference t e r))))) :=
    Checker.decodeWith_nested c hc raw nested
  have firm : ∀ x ∈ c.leaves raw,
      (Construction.decode s.catalog (.reference t e r) x).Firm s.heap := fun x hx =>
    Construction.firm_decode _ (c.covers_leaves hc raw covers x hx)
  rw [outcome_decode_atOnce lazy]
  simp only [outcome_decode_atOnce lazy', parts]
  -- all leaves are made, or there is a first one that is not
  rcases Build.mapM_cases firm with ⟨whole, each⟩ | ⟨failing, x, hx, fails⟩
  · refine ⟨⟨fun _ x hx => ?_, fun _ => ?_⟩, fun v s' hv => ?_⟩
    · obtain ⟨y, h, hy, -⟩ := each x hx s.heap List.prefix_rfl
      exact ⟨y, _, Session.outcome_build_ok hy⟩
    · obtain ⟨ys, h, hys, -⟩ := whole s.heap List.prefix_rfl
      exact ⟨c.refill raw ys, _, Session.outcome_build_ok
        (by rw [Build.bind_apply, hys]; rfl)⟩
    · obtain ⟨h, hb, rfl⟩ := Session.exists_of_outcome_build hv
      obtain ⟨⟨ys, h'⟩, hys, hb⟩ := bind_eq_ok.1 hb
      cases hb
      refine ⟨ys, rfl, (Build.forall₂_of_mapM each List.prefix_rfl hys).1.imp ?_⟩
      rintro x y ⟨h₁, h₂, before, hy, after⟩
      have run := (outcome_decode_atOnce lazy' x { s with heap := h₁ }).trans
        (Session.outcome_build_ok hy)
      refine ⟨{ s with heap := h₁ }, ⟨⟨before, rfl, rfl, rfl, rfl, rfl⟩, .refl _⟩, ?_, ?_⟩
      · rw [run]
      · rw [run]
        exact ⟨after, rfl, rfl, rfl, rfl, rfl⟩
  · have none : ∀ v s', Session.outcome (Session.build (do
        pure (c.refill raw (← (c.leaves raw).mapM
          (Construction.decode s.catalog (.reference t e r)))))) s ≠ (.ok v, s') := by
      intro v s' hv
      obtain ⟨h, hb, -⟩ := Session.exists_of_outcome_build hv
      obtain ⟨f, hf⟩ := failing s.heap List.prefix_rfl
      obtain ⟨p, hp, -⟩ := bind_eq_ok.1 hb
      cases hf.symm.trans hp
    refine ⟨⟨fun ⟨v, s', hv⟩ => absurd hv (none v s'), fun each => ?_⟩,
      fun v s' hv => absurd hv (none v s')⟩
    obtain ⟨y, s', hy⟩ := each x hx
    obtain ⟨h, hb, -⟩ := Session.exists_of_outcome_build hy
    obtain ⟨f, hf⟩ := fails s.heap List.prefix_rfl
    cases hf.symm.trans hb

/-! ### By lookups -/

/-- **Decoding by lookups** makes attempts to decode the leaves, one after the other, and puts the
results in their places. -/
theorem attempts_decode (hg : s.catalog.WellFormed) (hc : c.base = .reference t e r)
    (nested : c.Nested raw) (he : e.truthy = true) (rest : s.AtRest t)
    (askable : ∀ x ∈ c.leaves raw, s.Askable x) :
    ∃ rs, Session.Attempts (decode (.reference t e r)) s.now s (c.leaves raw) rs
        (Session.outcome (decode c raw) s).2 ∧
      ((∃ ys, rs = ys.map .ok ∧ (Session.outcome (decode c raw) s).1 = .ok (c.refill raw ys)) ∨
        ∃ f, .error f ∈ rs ∧ (Session.outcome (decode c raw) s).1 = .error f) := by
  have eager : c.deferred = true := (c.deferred_of_base hc).trans he
  have shaped : s.catalog.Shaped (.decoded c) raw := Checker.Nested.shaped he c hc raw nested
  -- the leaves are looked up as the whole is, with the bound of the whole
  let seek := findWith (loadWithin (bound s .null))
  let together := Checker.loadWith (fun _ _ => pure .null) seek c raw
  have collects : Session.Collects (Checker.fetchWith seek t) (c.leaves raw) (c.refill raw)
      together :=
    Checker.collects_loadWith _ seek he c hc raw nested
  have ahead : ∀ s₁ : Session, s₁.catalog.WellFormed → s₁.AtRest t →
      (∀ x ∈ c.leaves raw, s₁.Askable x) → ∀ x ∈ c.leaves raw, ∀ s', s₁.Ahead s' →
        s'.Ahead (Session.outcome (Checker.fetchWith seek t x) s').2 := by
    intro s₁ hg₁ rest₁ askable₁ x hx s' hs'
    obtain ⟨o, ho⟩ := steady_fetchWith hg₁ rest₁ (askable₁ x hx) (bound s .null)
    exact (ho s' hs').1
  have run : Session.outcome (decode c raw) s = Session.outcome together s := by
    rw [decode, Session.outcome_get_bind, if_pos eager,
      Checker.awaitWith_eq (fun _ _ => pure .null) seek c raw shaped eager,
      Session.outcome_ofExcept_ok_bind]
    refine rest.outcome_arrange together fun rest' => ?_
    obtain ⟨rs, attempts, -⟩ := collects { s with survey := some [] }
    have askable' : ∀ x ∈ c.leaves raw, Session.Askable { s with survey := some [] } x :=
      fun x hx => ⟨(askable x hx).covers, (askable x hx).legible⟩
    exact (attempts.meanwhile (.refl _) (ahead { s with survey := some [] } hg rest' askable')
      (Session.Sequel.refl _)).2.survey
  rw [run]
  obtain ⟨rs, attempts, told⟩ := collects s
  refine ⟨rs, attempts.congr (.refl _) (ahead s hg rest askable) ?_ (Session.Sequel.refl s), told⟩
  intro x hx s' hs'
  exact (outcome_decode_reference hg rest (askable x hx) he hs').symm

/-- A decoding of the leaves of a raw value, which have trees or none, has the same outcome in every
order of its lookups. -/
structure Unordered (s : Session) (R c : Checker) (raw : Value) (o : Value → Option Tree) :
    Prop where
  /-- Of each leaf alone the reference makes what reads as its tree, or fails if there is none. -/
  leaf : ∀ x ∈ c.leaves raw,
    Session.Refines s.Ahead (decode R x) (Heap.Reads s.catalog) (o x) Session.Ahead
  /-- One order is that of the decoding itself. -/
  own : ∃ p rs, Relation.ReflTransGen (Gathering.Step (decode R) s.now)
      (Gathering.start s (c.leaves raw)) p ∧ p.Concludes rs ∧
    Session.outcome (decode c raw) s = (rs.map (c.refill raw),
      { p.session with now := (Session.outcome (decode c raw) s).2.now })
  /-- Every order comes to an end. -/
  ends : ∀ p, Relation.ReflTransGen (Gathering.Step (decode R) s.now)
      (Gathering.start s (c.leaves raw)) p →
    ∃ q rs, Relation.ReflTransGen (Gathering.Step (decode R) s.now) p q ∧ q.Concludes rs
  /-- In the end each leaf has been replaced by what reads as its tree, or one has none and the
  outcome is a failure. -/
  same : ∀ p rs, Relation.ReflTransGen (Gathering.Step (decode R) s.now)
      (Gathering.start s (c.leaves raw)) p → p.Concludes rs →
    (∃ ys, rs = .ok ys ∧ (∀ x ∈ c.leaves raw, ∃ tree, o x = some tree) ∧
      c.Mapped (fun x y => ∃ tree, o x = some tree ∧
        Heap.Reads s.catalog p.session.heap y tree) raw (c.refill raw ys)) ∨
    (∃ f, rs = .error f) ∧ ∃ x ∈ c.leaves raw, o x = none

/-- **Decoding by lookups has the same outcome in every order**, if every class that can be reached
replies. -/
theorem unordered_decode (hg : s.catalog.WellFormed) (hc : c.base = .reference t e r)
    (nested : c.Nested raw) (he : e.truthy = true) (rest : s.AtRest t)
    (askable : ∀ x ∈ c.leaves raw, s.Askable x) :
    ∃ o, Unordered s (.reference t e r) c raw o := by
  obtain ⟨o, trees⟩ := Session.Steady.choose s (decode (.reference t e r))
  have leaf : ∀ x ∈ c.leaves raw, Session.Refines s.Ahead (decode (.reference t e r) x)
      (Heap.Reads s.catalog) (o x) Session.Ahead := fun x hx =>
    trees x (steady_decode hg rest (askable x hx) he)
  have faithful : ∀ p, Relation.ReflTransGen (Gathering.Step (decode (.reference t e r)) s.now)
      (Gathering.start s (c.leaves raw)) p → Gathering.Faithful s (c.leaves raw) o p := fun p run =>
    (Gathering.faithful_start s (c.leaves raw) o).run (.refl _) leaf run
  refine ⟨o, leaf, ?_, fun p run => (faithful p run).exists_concludes (.refl _) leaf,
    fun p rs run concludes => ?_⟩
  · obtain ⟨rs, attempts, told⟩ := attempts_decode hg hc nested he rest askable
    generalize Session.outcome (decode c raw) s = out at attempts told
    obtain ⟨result, s'⟩ := out
    rcases told with ⟨ys, hrs, rfl⟩ | ⟨f, hf, rfl⟩
    · obtain ⟨p, now, run, concludes, there⟩ := Gathering.of_attempts attempts (.inl ⟨ys, hrs, rfl⟩)
      exact ⟨p, .ok ys, run, concludes, by rw [there]; rfl⟩
    · obtain ⟨p, now, run, concludes, there⟩ := Gathering.of_attempts attempts (.inr ⟨f, hf, rfl⟩)
      exact ⟨p, .error f, run, concludes, by rw [there]; rfl⟩
  · refine ((faithful p run).concludes concludes).imp ?_ id
    rintro ⟨ys, rfl, reads⟩
    have each : (∀ x ∈ c.leaves raw, ∃ tree, o x = some tree) ∧ _ := (List.forall₂_and_left _ _).1
      (reads.imp fun x y hy => ⟨hy.imp fun _ => And.left, hy⟩)
    exact ⟨ys, rfl, each.1, c.mapped_refill hc raw nested ys reads⟩

/-- Decoding by lookups succeeds if every leaf has a tree. -/
theorem Unordered.exists_ok_iff {o : Value → Option Tree}
    (h : Unordered s (.reference t e r) c raw o) :
    (∃ v s', Session.outcome (decode c raw) s = (.ok v, s')) ↔ ∀ x ∈ c.leaves raw,
      ∃ y s', Session.outcome (decode (.reference t e r) x) s = (.ok y, s') := by
  obtain ⟨p, rs, run, concludes, own⟩ := h.own
  have alone : ∀ x ∈ c.leaves raw, (∃ tree, o x = some tree) ↔
      ∃ y s', Session.outcome (decode (.reference t e r) x) s = (.ok y, s') := by
    intro x hx
    have leaf := h.leaf x hx
    constructor
    · rintro ⟨tree, ho⟩
      rw [ho] at leaf
      obtain ⟨y, s', hy, -⟩ := leaf.exists_ok (Session.Sequel.refl s)
      exact ⟨y, s', hy⟩
    · rintro ⟨y, s', hy⟩
      obtain ⟨tree, ho, -⟩ := leaf.of_ok (Session.Sequel.refl s) hy
      exact ⟨tree, ho⟩
  rw [own]
  rcases h.same p rs run concludes with ⟨ys, rfl, each, -⟩ | ⟨⟨f, rfl⟩, x, hx, none⟩
  · exact ⟨fun _ x hx => (alone x hx).1 (each x hx), fun _ => ⟨_, _, rfl⟩⟩
  · refine ⟨?_, fun each => ?_⟩
    · rintro ⟨v, s', hv⟩
      cases hv
    · obtain ⟨tree, ho⟩ := (alone x hx).2 (each x hx)
      cases none.symm.trans ho

/-- What decoding by lookups makes of each leaf is made of it alone somewhat later. -/
theorem meanwhile_of_decode (hg : s.catalog.WellFormed) (hc : c.base = .reference t e r)
    (nested : c.Nested raw) (he : e.truthy = true) (rest : s.AtRest t)
    (askable : ∀ x ∈ c.leaves raw, s.Askable x) {v : Value} {s' : Session}
    (h : Session.outcome (decode c raw) s = (.ok v, s')) : ∃ ys, v = c.refill raw ys ∧
      List.Forall₂ (fun x y => s.Meanwhile s' (decode (.reference t e r) x) (.ok y)) (c.leaves raw)
        ys := by
  obtain ⟨rs, attempts, told⟩ := attempts_decode hg hc nested he rest askable
  rw [h] at attempts told
  rcases told with ⟨ys, rfl, made⟩ | ⟨f, -, made⟩
  · refine ⟨ys, Except.ok.inj made, ?_⟩
    have ahead : ∀ x ∈ c.leaves raw, ∀ s₁, s.Ahead s₁ →
        s₁.Ahead (Session.outcome (decode (.reference t e r) x) s₁).2 := by
      intro x hx s₁ hs₁
      obtain ⟨o, ho⟩ := steady_decode hg rest (askable x hx) he
      exact (ho s₁ hs₁).1
    exact List.forall₂_map_right_iff.1
      (attempts.meanwhile (.refl _) ahead (Session.Sequel.refl s)).1
  · cases made

/-! ### Both -/

/-- **Decoding of a container is the map of the decoding of its leaves.**  It succeeds just if the
reference decodes every leaf, and makes the raw value with each leaf replaced by what the reference
makes of it; and if the leaves are looked up, where every class that can be reached replies, the
outcome is the same in every order. -/
theorem decode_container (hg : s.catalog.WellFormed) (hc : c.base = .reference t e r)
    (nested : c.Nested raw) (covers : s.heap.Covers raw)
    (ready : e.truthy = true → s.AtRest t ∧
      ∀ x ∈ c.leaves raw, s.heap.Legible s.catalog (Checker.payloadId s x)) :
    ((∃ v s', Session.outcome (decode c raw) s = (.ok v, s')) ↔ ∀ x ∈ c.leaves raw,
      ∃ y s', Session.outcome (decode (.reference t e r) x) s = (.ok y, s')) ∧
    (∀ v s', Session.outcome (decode c raw) s = (.ok v, s') →
      c.Mapped (fun x y => s.Meanwhile s' (decode (.reference t e r) x) (.ok y)) raw v) ∧
    (e.truthy = true → ∃ o, Unordered s (.reference t e r) c raw o) := by
  cases he : e.truthy with
  | false =>
    obtain ⟨verdict, made⟩ := decode_nested_atOnce hc nested covers he
    refine ⟨verdict, fun v s' hv => ?_, nofun⟩
    obtain ⟨ys, rfl, tells⟩ := made v s' hv
    exact c.mapped_refill hc raw nested ys tells
  | true =>
    obtain ⟨rest, legible⟩ := ready he
    have askable : ∀ x ∈ c.leaves raw, s.Askable x := fun x hx =>
      ⟨c.covers_leaves hc raw covers x hx, legible x hx⟩
    obtain ⟨o, unordered⟩ := unordered_decode hg hc nested he rest askable
    refine ⟨unordered.exists_ok_iff, fun v s' hv => ?_, fun _ => ⟨o, unordered⟩⟩
    obtain ⟨ys, rfl, tells⟩ := meanwhile_of_decode hg hc nested he rest askable hv
    exact c.mapped_refill hc raw nested ys tells

/-- A reference to a writer that is looked up. -/
def shelvedWriter : Checker := .reference (.named "Writer") (.bool true) false

/-- Dictionaries of arrays of writers. -/
def writersByShelf : Checker := .dictOf (.arrayOf shelvedWriter false) false

/-- The writer and nobody on one shelf, and no array on the other. -/
def rawWriters : Value :=
  .dict [(.str "top", .list [.dict [(.str "_id", .str "w")], .null]), (.str "low", .null)]

/-- Writers are looked up in the store in memory, and embed nothing. -/
theorem atRest_shelving : shelving.AtRest (.named "Writer") where
  inert := plain_shelving.inert
  replies cls d hcls hd := by
    cases hcls
    have alone : ∀ d, ¬ shelves.Embeds 1 d := by
      rintro d ⟨f, hf, u, hu, -⟩
      cases List.mem_singleton.1 hf
      cases hu
    rcases Relation.ReflTransGen.cases_head hd with rfl | ⟨d', hd', -⟩
    · exact .stored rfl (.assigned rfl) rfl
    · exact absurd hd' (alone d')

/-- The writer is found on the one shelf, and the other is empty; and so it is in every order. -/
theorem decode_container_shelved : ∃ v s' o,
    Session.outcome (decode writersByShelf rawWriters) shelving = (.ok v, s') ∧
    writersByShelf.Mapped (fun x y => shelving.Meanwhile s' (decode shelvedWriter x) (.ok y))
      rawWriters v ∧ Unordered shelving shelvedWriter writersByShelf rawWriters o := by
  have plain : rawWriters.Inert := (Value.isData_of_isPlain _ (by decide)).inert
  have nested : writersByShelf.Nested rawWriters :=
    .inr ⟨_, rfl, List.forall_mem_cons.2 ⟨.inr ⟨_, rfl, fun _ _ => trivial⟩,
      List.forall_mem_singleton.2 (.inl rfl)⟩⟩
  have legible : ∀ x ∈ writersByShelf.leaves rawWriters,
      shelving.heap.Legible shelving.catalog (Checker.payloadId shelving x) := by
    have plain : ∀ x ∈ writersByShelf.leaves rawWriters, x.isPlain = true := by decide
    intro x hx
    have inert := (Value.isData_of_isPlain x (plain x hx)).inert
    rw [Checker.payloadId_of_inert shelving inert]
    exact Heap.legible_of_inert _ _ (Checker.inert_identifierIn inert)
  obtain ⟨verdict, made, orders⟩ := decode_container (s := shelving) (c := writersByShelf)
    wellFormed_shelves rfl nested (Heap.covers_of_inert plain)
    fun _ => ⟨atRest_shelving, legible⟩
  have found : ∀ x ∈ writersByShelf.leaves rawWriters,
      (Session.outcome (decode shelvedWriter x) shelving).1.toBool = true := by decide +kernel
  obtain ⟨v, s', hv⟩ := verdict.2 fun x hx => Session.exists_of_toBool (found x hx)
  obtain ⟨o, unordered⟩ := orders rfl
  exact ⟨v, s', o, hv, made v s' hv, unordered⟩

end Loading

end EntitySchema
