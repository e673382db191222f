/-
**Loading of normal forms.**

If no eager reference is met on the way, loading looks nothing up: it constructs an entity and then
loads each embedded entity once more, in turn.  From raw data in normal form this succeeds, and what
is loaded shows the raw data, as what is constructed does.  What was in the session before is left
as it was, but for the clock.

Main definitions:

* `Catalog.EagerFree` — **no eager reference can be reached from a class through embedded
  references**;
* `Session.Grows` — a session to which only cells of the heap were added;
* `Loading.Progress` — how far the fields of an entity have been loaded.

Main results:

* `Session.gather_ok` — actions side by side that all succeed;
* `Loading.Progress.settle` — one more field is loaded;
* `Catalog.makes_entity`, `Catalog.makes_array`, `Catalog.makes_dictionary` — what is loaded if its
  parts are;
* `Catalog.Normal.loads` — **loading a normal form succeeds, and what is loaded shows it.**
-/

import EntitySchema.Loading
import EntitySchema.Proofs.Running
import EntitySchema.Proofs.Showing
import Mathlib.Logic.Relation

set_option autoImplicit false

namespace EntitySchema

/-! ### Classes without eager references -/

/-- Entities of one class embed entities of another. -/
def Catalog.Embeds (g : Catalog) (c d : ClassId) : Prop :=
  ∃ f ∈ g.schemaOf c, ∃ t, f.2.target? = some t ∧ g.resolve t = .ok d

/-- No eager reference can be reached from a class through embedded references. -/
def Catalog.EagerFree (g : Catalog) (c : ClassId) : Prop :=
  ∀ d, Relation.ReflTransGen g.Embeds c d → ∀ f ∈ g.schemaOf d, f.2.deferred = false

theorem Catalog.EagerFree.embedded {g : Catalog} {c d : ClassId} (h : g.EagerFree c)
    (he : g.Embeds c d) : g.EagerFree d :=
  fun e hd => h e (.head he hd)

/-- No eager reference can be reached where no class has one. -/
theorem Catalog.eagerFree_of_classes {g : Catalog}
    (h : ∀ cls ∈ g.classes, ∀ f ∈ cls.schema, f.2.deferred = false) (c : ClassId) :
    g.EagerFree c := by
  intro d _ f hf
  rw [schemaOf] at hf
  cases hd : g.classes[d]? with
  | none =>
    rw [hd] at hf
    cases hf
  | some cls =>
    rw [hd] at hf
    exact h cls (List.mem_of_getElem? hd) f hf

/-- No eager reference is met on the way when a value is loaded. -/
def Subject.EagerFree (g : Catalog) : Subject → Prop
  | .entity cls => g.EagerFree cls
  | .decoded c => c.deferred = false ∧
      ∀ t cls, c.target? = some t → g.resolve t = .ok cls → g.EagerFree cls

theorem Catalog.EagerFree.field {g : Catalog} {c : ClassId} (h : g.EagerFree c)
    {f : String × Checker} (hf : f ∈ g.schemaOf c) : Subject.EagerFree g (.decoded f.2) :=
  ⟨h c .refl f hf, fun t _ ht hr => h.embedded ⟨f, hf, t, ht, hr⟩⟩

/-! ### Sessions that grow -/

namespace Session

/-- A session to which only cells of the heap were added, however late it may be. -/
structure Grows (s s' : Session) : Prop where
  heap : s.heap <+: s'.heap
  catalog : s'.catalog = s.catalog
  stores : s'.stores = s.stores
  disk : s'.disk = s.disk
  shared : s'.shared = s.shared
  survey : s'.survey = s.survey

theorem Grows.refl (s : Session) : s.Grows s := ⟨List.prefix_rfl, rfl, rfl, rfl, rfl, rfl⟩

theorem Grows.trans {s s' s'' : Session} (h : s.Grows s') (h' : s'.Grows s'') : s.Grows s'' :=
  ⟨h.heap.trans h'.heap, h'.catalog.trans h.catalog, h'.stores.trans h.stores,
    h'.disk.trans h.disk, h'.shared.trans h.shared, h'.survey.trans h.survey⟩

/-- The clock may be set. -/
theorem Grows.at_now {s s' : Session} (h : s.Grows s') (now : Instant) :
    s.Grows { s' with now := now } :=
  ⟨h.heap, h.catalog, h.stores, h.disk, h.shared, h.survey⟩

theorem Grows.on {s s' : Session} (h : s.Grows s') (now : s.now.Precedes s'.now) : s.MovesOn s' :=
  ⟨h.catalog, h.shared, h.survey, now⟩

theorem outcome_build_ok {α : Type} {b : Build α} {s : Session} {x : α} {h : Heap}
    (hb : b s.heap = .ok (x, h)) : outcome (build b) s = (.ok x, { s with heap := h }) := by
  rw [build, outcome_get_bind, hb]
  rfl

/-- What cannot be constructed leaves the session as it is. -/
theorem outcome_build_error {α : Type} {b : Build α} {s : Session} {e : Failure}
    (hb : b s.heap = .error e) : outcome (build b) s = (.error e, s) := by
  rw [build, outcome_get_bind, hb]
  rfl

/-! ### Actions side by side -/

section

variable {α β : Type} {f : α → Action β} {R : Heap → α → β → Prop}

/-- One of several actions starts at an instant of its own, and tells what became of it and when. -/
theorem outcome_branch {a : Action β} {s s' : Session} {result : Except Failure β} {start : Instant}
    {i : Nat} (h : outcome a { s with now := start.branch i } = (result, s')) :
    outcome (branch start i a) s = (.ok (result, s'.now), s') := by
  rw [branch, outcome_modify_bind]
  have run : outcome (attempt a) { s with now := start.branch i } = (.ok result, s') := by
    rw [outcome_attempt, h]
  rw [outcome_bind_ok run]
  rfl

/-- Actions that succeed in whatever the session grows to, one after the other on clocks of their
own. -/
theorem branches_ok (mono : ∀ h h' x y, h <+: h' → R h x y → R h' x y) (start : Instant)
    {s : Session} (ps : List (α × Nat))
    (hf : ∀ p ∈ ps, ∀ s', s.Grows s' →
      ∃ y s'', outcome (f p.1) s' = (.ok y, s'') ∧ s'.Grows s'' ∧ R s''.heap p.1 y)
    {s₁ : Session} (hs : s.Grows s₁) :
    ∃ (rs : List (β × Instant)) (s₂ : Session),
      outcome (ps.mapM fun p => branch start p.2 (f p.1)) s₁ =
        (.ok (rs.map fun r => (.ok r.1, r.2)), s₂) ∧ s₁.Grows s₂ ∧ ps.length = rs.length ∧
      ∀ q ∈ ps.zip rs, R s₂.heap q.1.1 q.2.1 := by
  induction ps generalizing s₁ with
  | nil => exact ⟨[], s₁, rfl, .refl s₁, rfl, fun _ hq => nomatch hq⟩
  | cons p ps ih =>
    obtain ⟨hp, hrest⟩ := List.forall_mem_cons.1 hf
    obtain ⟨y, s₂, hy, grows, hR⟩ := hp _ (hs.at_now (start.branch p.2))
    have grows' : s₁.Grows s₂ := (Grows.refl s₁).at_now (start.branch p.2) |>.trans grows
    obtain ⟨rs, s₃, hrs, grows'', size, hRs⟩ := ih hrest (hs.trans grows')
    refine ⟨(y, s₂.now) :: rs, s₃, ?_, grows'.trans grows'', by simp [size], ?_⟩
    · rw [List.mapM_cons, outcome_bind_ok (outcome_branch hy), outcome_bind_ok hrs]
      rfl
    · rw [List.zip_cons_cons, List.forall_mem_cons]
      exact ⟨mono _ _ _ _ grows''.heap hR, hRs⟩

theorem precedes_lastEnd {γ : Type} (start : Instant)
    (outcomes : List (Except Failure γ × Instant)) :
    start.Precedes (lastEnd start outcomes) := by
  have further : ∀ t : Instant, start.Precedes t → start.Precedes
      (outcomes.foldl (fun t o => t.later { o.2 with path := start.path }) t) := by
    induction outcomes with
    | nil => exact fun _ h => h
    | cons o outcomes ih => exact fun t h => ih _ (h.trans (Instant.precedes_later t _))
  exact further start (.refl start)

/-- Actions side by side that all succeed have their results, in order. -/
theorem gather_ok (mono : ∀ h h' x y, h <+: h' → R h x y → R h' x y) {s : Session} (xs : List α)
    (hf : ∀ x ∈ xs, ∀ s', s.Grows s' →
      ∃ y s'', outcome (f x) s' = (.ok y, s'') ∧ s'.Grows s'' ∧ R s''.heap x y) :
    ∃ ys s', outcome (gather f xs) s = (.ok ys, s') ∧ s.Grows s' ∧ s.now.Precedes s'.now ∧
      xs.length = ys.length ∧ ∀ p ∈ xs.zip ys, R s'.heap p.1 p.2 := by
  rw [gather]
  cases xs with
  | nil => exact ⟨[], s, rfl, .refl s, .refl _, rfl, fun _ hp => nomatch hp⟩
  | cons x xs =>
    have members : ∀ p ∈ (x :: xs).zipIdx, ∀ s', s.Grows s' →
        ∃ y s'', outcome (f p.1) s' = (.ok y, s'') ∧ s'.Grows s'' ∧ R s''.heap p.1 y := by
      intro p hp
      exact hf p.1 (List.fst_mem_of_mem_zipIdx hp)
    obtain ⟨rs, s₁, hrs, grows, size, hRs⟩ :=
      branches_ok mono s.now _ members (.refl s)
    -- none of the outcomes is a failure: the session goes on when the last action has ended
    generalize houts : (rs.map fun r => ((.ok r.1 : Except Failure β), r.2)) = outcomes at hrs
    have settled : settle s.now outcomes =
        (.ok (rs.map Prod.fst), (lastEnd s.now outcomes).told) := by
      rw [← houts]
      refine Prod.ext (settle_ok s.now rs) ?_
      rw [settle, firstFailure?_ok]
    have now : s.now.Precedes (lastEnd s.now outcomes).told :=
      (precedes_lastEnd s.now outcomes).trans (Instant.precedes_told _)
    refine ⟨rs.map Prod.fst, { s₁ with now := (lastEnd s.now outcomes).told }, ?_,
      grows.at_now _, now, by simpa using size, ?_⟩
    · rw [List.isEmpty_cons, if_neg Bool.false_ne_true, outcome_get_bind, outcome_bind_ok hrs,
        settled, outcome_modify_bind, outcome_ofExcept]
    · intro p hp
      have pairs : (x :: xs).zip (rs.map Prod.fst) =
          ((x :: xs).zipIdx.zip rs).map (Prod.map Prod.fst Prod.fst) := by
        rw [← List.zip_map, List.zipIdx_map_fst]
      rw [pairs] at hp
      obtain ⟨q, hq, rfl⟩ := List.mem_map.1 hp
      exact hRs q hq

end

end Session

/-! ### Fields that are loaded one after the other -/

namespace Table

/-- A write under a name that a table has. -/
theorem put_map {α : Type} {names : List String} (hn : names.Nodup) (v : String → α) {name : String}
    (hname : name ∈ names) (x : α) : put (names.map fun n => (n, v n)) name x =
      names.map fun n => (n, if n = name then x else v n) := by
  induction names with
  | nil => cases hname
  | cons n names ih =>
    obtain ⟨fresh, nodup⟩ := List.nodup_cons.1 hn
    rw [List.map_cons, List.map_cons, put]
    by_cases heq : n = name
    · subst heq
      have rest : (names.map fun m => (m, if m = n then x else v m)) =
          names.map fun m => (m, v m) := by
        refine List.map_congr_left ?_
        intro m hm
        have hne : m ≠ n := by
          rintro rfl
          exact fresh hm
        rw [if_neg hne]
      rw [if_pos rfl, if_pos rfl, rest]
    · rw [if_neg heq, if_neg heq]
      rcases List.mem_cons.1 hname with rfl | hname
      · exact absurd rfl heq
      · rw [ih nodup hname]

end Table

namespace Cell

variable {cls : ClassId} {id : Value} {pending : Entries} {names : List String}
  {v : String → Value}

/-- A field of an entity as it is constructed takes another value. -/
theorem put_field (hn : names.Nodup) {name : String} (hname : name ∈ names) (hid : name ≠ idField)
    (hp : name ≠ pendingField) (x : Value) : (ofFields cls id pending names v).put name x =
      ofFields cls id pending names fun n => if n = name then x else v n := by
  rw [put, ofFields, Table.put, if_neg hid.symm, Table.put, if_neg hp.symm,
    Table.put_map hn v hname, ofFields]

/-- Something else is put aside. -/
theorem put_pending (es : Entries) : (ofFields cls id pending names v).put pendingField (.dict es) =
    ofFields cls id es names v := rfl

/-- The identifier is another. -/
theorem put_id (x : Value) : (ofFields cls id pending names v).put idField x =
    ofFields cls x pending names v := rfl

end Cell

namespace Heap

@[simp] theorem length_put (h : Heap) (a : Address) (name : String) (v : Value) :
    (put h a name v).length = h.length := by simp [put, write]

theorem get_put_self (h : Heap) {a : Address} (ha : a < h.length) (name : String) (v : Value) :
    get (put h a name v) a = (get h a).put name v := get_write_self h ha _

theorem get_put_of_ne (h : Heap) {a b : Address} (hab : a ≠ b) (name : String) (v : Value) :
    get (put h a name v) b = get h b := get_write_of_ne h hab _

/-- A write to a cell that was added leaves the heap before it as it was. -/
theorem prefix_put {h h' : Heap} (hle : h <+: h') {a : Address} (ha : h.length ≤ a) (name : String)
    (v : Value) : h <+: put h' a name v := by
  obtain ⟨cells, rfl⟩ := hle
  rw [put, write, List.set_append_right _ _ ha]
  exact List.prefix_append h _

/-! ### Fields that are settled -/

/-- The heap in which a field of an entity has the value that was loaded, and nothing is put aside
for it any more. -/
def settle (h : Heap) (a : Address) (name : String) (x : Value) : Heap :=
  let h := h.put a name x
  match (h.get a).own? pendingField with
  | some (.dict es) => h.put a pendingField (.dict (es.filter fun e => !Value.isText name e.1))
  | _ => h

/-- A field is settled without any cell being added. -/
@[simp] theorem length_settle (h : Heap) (a : Address) (name : String) (x : Value) :
    (h.settle a name x).length = h.length := by
  unfold settle
  dsimp only
  split <;> simp

/-- A field is settled in whatever entity was added to the heap. -/
theorem prefix_settle {h h' : Heap} (hle : h <+: h') {a : Address} (added : h.length ≤ a)
    (name : String) (x : Value) : h <+: h'.settle a name x := by
  unfold settle
  dsimp only
  split
  · exact prefix_put (prefix_put hle added _ _) added _ _
  · exact prefix_put hle added _ _

/-- A field that is settled leaves the other cells as they are. -/
theorem get_settle_of_ne (h : Heap) {a b : Address} (hab : a ≠ b) (name : String) (x : Value) :
    get (h.settle a name x) b = get h b := by
  unfold settle
  dsimp only
  split
  · rw [get_put_of_ne _ hab, get_put_of_ne _ hab]
  · rw [get_put_of_ne _ hab]

/-- The cell of an entity of which a field was settled. -/
theorem get_settle_self {g : Catalog} (hg : g.WellFormed) {h : Heap} {a : Address} {cls : ClassId}
    {id : Value} {pending : Entries} {v : String → Value} (there : a < h.length)
    (cell : get h a = Cell.ofFields cls id pending (Table.names (g.schemaOf cls)) v) {name : String}
    (hname : name ∈ Table.names (g.schemaOf cls)) (x : Value) : get (h.settle a name x) a =
      Cell.ofFields cls id (pending.filter fun e => !Value.isText name e.1)
        (Table.names (g.schemaOf cls)) fun n => if n = name then x else v n := by
  have hid : name ≠ idField := fun heq => hg.unreserved cls name hname (heq ▸ by decide)
  have hp : name ≠ pendingField := fun heq => hg.unreserved cls name hname (heq ▸ by decide)
  have filled : get (h.put a name x) a = Cell.ofFields cls id pending (Table.names (g.schemaOf cls))
      fun n => if n = name then x else v n := by
    rw [get_put_self _ there, cell, Cell.put_field (hg.nodup cls) hname hid hp]
  have settled : h.settle a name x = (h.put a name x).put a pendingField
      (.dict (pending.filter fun e => !Value.isText name e.1)) := by
    rw [settle, filled]
    rfl
  rw [settled, get_put_self _ (by simpa using there), filled, Cell.put_pending]

end Heap

namespace Loading

open Catalog

/-- A field is settled in the heap. -/
theorem outcome_settle (a : Address) (name : String) (x : Value) (s : Session) :
    Session.outcome (settle a name x) s =
      (.ok ⟨⟩, { s with heap := s.heap.settle a name x }) := by
  rw [settle, Session.outcome_modify]
  unfold Heap.settle
  dsimp only
  generalize ((s.heap.put a name x).get a).own? pendingField = aside?
  rcases aside? with _ | aside
  · rfl
  · cases aside <;> rfl

/-- How far an entity has been loaded since a session: its cell is there and was added to the heap,
and the fields that it has show raw data by other cells that were added. -/
structure Progress (g : Catalog) (s : Session) (cls : ClassId) (id : Value) (w : String → Value)
    (a : Address) (s' : Session) (v : String → Value) : Prop where
  grows : s.Grows s'
  now : s.now.Precedes s'.now
  added : s.heap.length ≤ a
  there : a < s'.heap.length
  cell : Heap.get s'.heap a = Cell.ofFields cls id [] (Table.names (g.schemaOf cls)) v
  fields : ∀ f ∈ g.schemaOf cls,
    Field.Shows g w (s'.heap.only fun b => decide (s.heap.length ≤ b) && b != a) f (v f.1)

variable {g : Catalog} {s : Session} {cls : ClassId} {id : Value} {w : String → Value} {a : Address}

/-- **One more field of an entity is loaded.** -/
theorem Progress.settle (hg : g.WellFormed) {s₁ s₂ : Session} {v : String → Value}
    (h : Progress g s cls id w a s₁ v) {f : String × Checker} (hf : f ∈ g.schemaOf cls)
    (hk : f.2.keeps = false) {x : Value} (grows : s₁.Grows s₂) (now : s₁.now.Precedes s₂.now)
    (hx : Heap.Shows g (s₂.heap.above s₁.heap.length) (.decoded f.2) x (w f.1)) :
    ∃ s₃, Session.outcome (settle a f.1 x) s₂ = (.ok ⟨⟩, s₃) ∧
      Progress g s cls id w a s₃ fun n => if n = f.1 then x else v n := by
  have hname : f.1 ∈ Table.names (g.schemaOf cls) := List.mem_map_of_mem hf
  have there : a < s₂.heap.length := h.there.trans_le grows.heap.length_le
  have cell : Heap.get s₂.heap a = Cell.ofFields cls id [] (Table.names (g.schemaOf cls)) v :=
    (Heap.get_of_extended grows.heap h.there).trans h.cell
  have other : ∀ b, b ≠ a → Heap.get (s₂.heap.settle a f.1 x) b = Heap.get s₂.heap b :=
    fun b hb => Heap.get_settle_of_ne _ hb.symm _ _
  refine ⟨_, outcome_settle a f.1 x s₂, ⟨?_, ?_, ?_, ?_, ?_, ?_⟩⟩
  · have all := h.grows.trans grows
    exact ⟨Heap.prefix_settle all.heap h.added _ _, all.catalog, all.stores, all.disk, all.shared,
      all.survey⟩
  · exact h.now.trans now
  · exact h.added
  · simpa using there
  · exact Heap.get_settle_self hg there cell hname x
  · intro f' hf'
    by_cases heq : f'.1 = f.1
    · rw [if_pos heq]
      obtain rfl : f' = f := List.inj_on_of_nodup_map (hg.nodup cls) hf' hf heq
      have decodes := Checker.of_keeps hk
      refine ⟨by simp [decodes.1], by simp [decodes.2], fun _ => ?_⟩
      -- the cells of what was loaded came after the entity, so the writes spare them
      refine hx.mono (Heap.only_within ?_ ?_)
      · intro b hb _
        have size : s₁.heap.length ≤ b := by simpa using hb
        have later : b ≠ a := Nat.ne_of_gt (Nat.lt_of_lt_of_le h.there size)
        have added : s.heap.length ≤ b := h.grows.heap.length_le.trans size
        simp [later, added]
      · intro b hb _
        have size : s₁.heap.length ≤ b := by simpa using hb
        exact other b (Nat.ne_of_gt (Nat.lt_of_lt_of_le h.there size))
    · rw [if_neg heq]
      refine (h.fields f' hf').mono (Heap.only_within (fun _ hb _ => hb) ?_)
      intro b hb he
      have hne : b ≠ a := by simpa using (Bool.and_eq_true_iff.1 hb).2
      rw [other b hne]
      exact Heap.Within.of_extended grows.heap b he

/-- An action makes, in every session with these classes, something that shows raw data, by cells
that it adds. -/
def Makes (g : Catalog) (x : Action Value) (subject : Subject) (raw : Value) : Prop :=
  ∀ s : Session, s.catalog = g → ∃ v s', Session.outcome x s = (.ok v, s') ∧ s.Grows s' ∧
    s.now.Precedes s'.now ∧ Heap.Shows g (s'.heap.above s.heap.length) subject v raw

/-- Fields are loaded one after the other, those that produce entities. -/
theorem Progress.loadFields (hg : g.WellFormed) (hs : s.catalog = g)
    {value : Checker → Value → Action Value} {raw : Value} {fs : Schema}
    (hfs : ∀ f ∈ fs, f ∈ g.schemaOf cls) (hdef : ∀ f ∈ fs, f.2.deferred = false)
    (hraw : ∀ f ∈ fs, rawField raw f.1 = .ok (w f.1))
    (hvalue : ∀ f ∈ fs, f.2.producesEntity = true →
      Makes g (value f.2 (w f.1)) (.decoded f.2) (w f.1))
    {s₁ : Session} {v : String → Value} (h : Progress g s cls id w a s₁ v) :
    ∃ s₂ v', Session.outcome (loadFields value a raw fs) s₁ = (.ok ⟨⟩, s₂) ∧
      Progress g s cls id w a s₂ v' := by
  induction fs generalizing s₁ v with
  | nil => exact ⟨s₁, v, rfl, h⟩
  | cons f fs ih =>
    obtain ⟨name, c⟩ := f
    obtain ⟨hf, hfs⟩ := List.forall_mem_cons.1 hfs
    obtain ⟨hd, hdef⟩ := List.forall_mem_cons.1 hdef
    obtain ⟨hr, hraw⟩ := List.forall_mem_cons.1 hraw
    obtain ⟨hx, hvalue⟩ := List.forall_mem_cons.1 hvalue
    rw [Loading.loadFields]
    cases hp : c.producesEntity with
    | false => exact ih hfs hdef hraw hvalue h
    | true =>
      have keeps : c.keeps = false := by
        have decodes : c.decodes = true := Checker.decodes_of_producesEntity hp
        simp only [Checker.keeps, decodes, Bool.not_true, Bool.or_false]
        exact hd
      have catalog : s₁.catalog = g := h.grows.catalog.trans hs
      obtain ⟨x, s₂, hout, grows, now, shows_x⟩ := hx hp s₁ catalog
      obtain ⟨s₃, hset, h'⟩ := h.settle hg hf keeps grows now shows_x
      obtain ⟨s₄, v', hrest, h''⟩ := ih hfs hdef hraw hvalue h'
      refine ⟨s₄, v', ?_, h''⟩
      have field : Session.outcome (Session.ofExcept (rawField raw name)) s₁ =
          (.ok (w name), s₁) := by
        rw [Session.outcome_ofExcept, hr]
      simp only [if_true]
      rw [Session.outcome_bind_ok field, Session.outcome_bind_ok hout,
        Session.outcome_bind_ok hset]
      exact hrest

/-- What is loaded for a subject, entering a bounded number of entities one after the other. -/
def value (fuel : Nat) : Subject → Value → Action Value
  | .entity cls, raw => loadWithin fuel cls raw
  | .decoded c, raw => Checker.loadWith (loadWithin fuel) (findWith (loadWithin fuel)) c raw

end Loading

/-! ### Loading of normal forms -/

namespace Construction

theorem asideEntries_eq_nil (data : Entries) {fs : Schema} (h : ∀ f ∈ fs, f.2.deferred = false) :
    asideEntries data fs = [] := by
  have none : putAside data fs = [] := by
    refine List.filterMap_eq_nil_iff.2 ?_
    intro f hf
    simp [h f hf]
  rw [asideEntries, none]
  rfl

end Construction

namespace Catalog

open Loading

variable {g : Catalog}

/-- An entity is loaded from raw data in normal form if its fields are. -/
theorem makes_entity (hg : g.WellFormed) {cls : ClassId} (free : g.EagerFree cls) {id : Value}
    {w : String → Value} (hid : id.IsData)
    (hw : ∀ f ∈ g.schemaOf cls, (w f.1).IsData)
    (normal : ∀ f ∈ g.schemaOf cls, f.2.keeps = false →
      g.Normal (.decoded f.2) (w f.1) (w f.1)) {fuel : Nat}
    (hfields : ∀ f ∈ g.schemaOf cls, f.2.keeps = false →
      Makes g (value fuel (.decoded f.2) (w f.1)) (.decoded f.2) (w f.1)) :
    Makes g (loadWithin (fuel + 1) cls
        (.dict (rawEntries id (Table.names (g.schemaOf cls)) w)))
      (.entity cls) (.dict (rawEntries id (Table.names (g.schemaOf cls)) w)) := by
  intro s hs
  have hnot := hg.id_not_mem cls
  have undeferred : ∀ f ∈ g.schemaOf cls, f.2.deferred = false := free cls .refl
  generalize hform : rawEntries id (Table.names (g.schemaOf cls)) w = form
  have field : ∀ f ∈ g.schemaOf cls, Entries.getStr form f.1 = w f.1 := by
    intro f hf
    rw [← hform]
    exact getStr_rawEntries_field (List.mem_map_of_mem hf) hnot
  have data : (Value.dict form).IsData := by
    rw [← hform]
    refine isData_rawEntries (hg.nodup cls) hnot hid ?_
    intro name hname
    obtain ⟨f, hf, rfl⟩ := List.mem_map.1 hname
    exact hw f hf
  have same : Entries.getStr form idField = id := by
    rw [← hform]
    exact getStr_rawEntries_id hnot
  obtain ⟨v, h₁, hmade, hle, hshown⟩ := exists_cell_of_fields hg data
    (Construction.entriesOf_dict [] form) (w := w) (n := s.heap.length)
    (fun f hf _ => (field f hf).symm)
    (fun f hf hk h hsize => by
      rw [field f hf]
      exact (normal f hf hk).builds hg (hw f hf) h hsize) s.heap le_rfl
  rw [same, Construction.asideEntries_eq_nil form undeferred] at hmade
  generalize hcell : Cell.ofFields cls id [] (Table.names (g.schemaOf cls)) v = cell at hmade
  -- the entity as it is constructed, before any field is loaded
  have start : Progress g s cls id w h₁.length { s with heap := h₁ ++ [cell] } v := by
    refine ⟨⟨hle.trans (List.prefix_append h₁ _), rfl, rfl, rfl, rfl, rfl⟩, .refl _,
      hle.length_le, by simp, ?_, ?_⟩
    · rw [hcell]
      exact Heap.get_alloc_self h₁ cell
    · intro f hf
      refine (hshown f hf).mono (Heap.only_within ?_ ?_)
      · intro b hb he
        have before : b ≠ h₁.length := Nat.ne_of_lt (Heap.lt_of_isEntity he)
        have after : s.heap.length ≤ b := by simpa using hb
        simp [before, after]
      · intro b _ he
        exact Heap.Within.of_extended (List.prefix_append h₁ _) b he
  have raws : ∀ f ∈ g.schemaOf cls, rawField (.dict form) f.1 = .ok (w f.1) := fun f hf =>
    congrArg Except.ok (field f hf)
  obtain ⟨s₂, v', hloaded, done⟩ := start.loadFields hg hs (fun f hf => hf) undeferred raws
    (fun f hf hp => hfields f hf (by
      have decodes := Checker.decodes_of_producesEntity hp
      simp [Checker.keeps, undeferred f hf, decodes]))
  refine ⟨.object h₁.length, s₂, ?_, done.grows, done.now, ?_⟩
  · rw [loadWithin, Session.outcome_get_bind, hs,
      Session.outcome_bind_ok (Session.outcome_build_ok hmade)]
    exact Session.outcome_bind_ok hloaded
  · rw [← hform]
    refine Field.Shows.entity_self undeferred (v := v') hid hw ?_ ?_
    · rw [Heap.above, Heap.get_only, if_pos (by simpa using done.added), done.cell]
    · intro f hf
      refine (done.fields f hf).mono (Heap.only_within ?_ fun _ _ _ => rfl)
      intro b hb _
      exact (Bool.and_eq_true_iff.1 hb).1

/-- Actions side by side that each make something make all of it. -/
theorem gather_makes {α : Type} {f : α → Action Value} {subject : Subject} {form : α → Value}
    (xs : List α) (hf : ∀ x ∈ xs, Makes g (f x) subject (form x)) {s : Session}
    (hs : s.catalog = g) :
    ∃ vs s', Session.outcome (Session.gather f xs) s = (.ok vs, s') ∧ s.Grows s' ∧
      s.now.Precedes s'.now ∧ xs.length = vs.length ∧
      ∀ p ∈ xs.zip vs, Heap.Shows g (s'.heap.above s.heap.length) subject p.2 (form p.1) := by
  refine Session.gather_ok
    (R := fun h x v => Heap.Shows g (h.above s.heap.length) subject v (form x))
    (fun _ _ _ _ hle hv => hv.mono (Heap.above_within le_rfl hle)) xs ?_
  intro x hx s₁ hs₁
  obtain ⟨v, s₂, hv, grows, -, shown⟩ := hf x hx s₁ (hs₁.catalog.trans hs)
  exact ⟨v, s₂, hv, grows, shown.mono (Heap.above_within hs₁.heap.length_le List.prefix_rfl)⟩

/-- An array is loaded if its elements are. -/
theorem makes_array {e : Checker} (r : Bool) {fuel : Nat} {ys : List Value}
    (hys : ∀ y ∈ ys, Makes g (value fuel (.decoded e) y) (.decoded e) y) :
    Makes g (value fuel (.decoded (.arrayOf e r)) (.list ys)) (.decoded (.arrayOf e r))
      (.list ys) := by
  intro s hs
  obtain ⟨vs, s', hout, grows, now, size, shown⟩ := gather_makes ys hys hs
  refine ⟨.list vs, s', ?_, grows, now, .array size.symm ?_⟩
  · have parts : Session.outcome (Session.ofExcept (Checker.itemsOf (.list ys))) s =
        (.ok ys, s) := rfl
    rw [value, Checker.loadWith, Session.outcome_bind_ok parts]
    exact Session.outcome_bind_ok hout
  · intro p hp
    rw [← List.zip_swap] at hp
    obtain ⟨q, hq, rfl⟩ := List.mem_map.1 hp
    exact shown q hq

/-- A dictionary is loaded if its values are. -/
theorem makes_dictionary {e : Checker} (r : Bool) {fuel : Nat} {ds : Entries}
    (keys : ∀ d ∈ ds, d.1.isAtom = true)
    (hds : ∀ d ∈ ds, Makes g (value fuel (.decoded e) d.2) (.decoded e) d.2) :
    Makes g (value fuel (.decoded (.dictOf e r)) (.dict ds)) (.decoded (.dictOf e r))
      (.dict ds) := by
  intro s hs
  obtain ⟨vs, s', hout, grows, now, size, shown⟩ := gather_makes ds hds hs
  have same : (ds.map Prod.fst).zip (ds.map Prod.snd) = ds := by
    rw [List.zip_map', List.map_id']
  have shows_ds : Heap.Shows g (s'.heap.above s.heap.length) (.decoded (.dictOf e r))
      (.dict ((ds.map Prod.fst).zip vs)) (.dict ((ds.map Prod.fst).zip (ds.map Prod.snd))) := by
    refine .dictionary (by simpa using size.symm) (List.forall_mem_map.2 keys) ?_
    intro p hp
    rw [← List.zip_swap, List.zip_map_left] at hp
    obtain ⟨q, hq, rfl⟩ := List.mem_map.1 hp
    obtain ⟨q', hq', rfl⟩ := List.mem_map.1 hq
    exact shown q' hq'
  rw [same] at shows_ds
  refine ⟨.dict ((ds.map Prod.fst).zip vs), s', ?_, grows, now, shows_ds⟩
  have parts : Session.outcome (Session.ofExcept (Checker.entriesOf s.heap (.dict ds))) s =
      (.ok ds, s) := rfl
  rw [value, Checker.loadWith, Session.outcome_get_bind, Session.outcome_bind_ok parts]
  exact Session.outcome_bind_ok hout

/-- An embedded entity is loaded as one of its class. -/
theorem makes_embedded {t : Target} {e : Value} (r : Bool) (lazy : e.truthy = false)
    {cls : ClassId} (hr : g.resolve t = .ok cls) {fuel : Nat} {es : Entries}
    (hes : Makes g (value fuel (.entity cls) (.dict es)) (.entity cls) (.dict es)) :
    Makes g (value fuel (.decoded (.reference t e r)) (.dict es)) (.decoded (.reference t e r))
      (.dict es) := by
  intro s hs
  obtain ⟨v, s', hout, grows, now, shown⟩ := hes s hs
  refine ⟨v, s', ?_, grows, now, .embedded hr shown⟩
  have target : Session.outcome (Session.ofExcept (s.catalog.resolve t)) s = (.ok cls, s) := by
    rw [Session.outcome_ofExcept, hs, hr]
  rw [value, Checker.loadWith, lazy, Checker.enterWith]
  simp only [Value.isNull, Bool.false_eq_true, if_false, Session.outcome_get_bind,
    Session.outcome_bind_ok target]
  exact hout

/-- The values of a dictionary are no deeper than the dictionary. -/
theorem depth_le_of_dict {es : Entries} {e : Value × Value} (he : e ∈ es) {k : Nat}
    (hk : (Value.dict es).depth ≤ k + 1) : e.2.depth ≤ k := by
  have deep := (Value.depthEntries_lt_iff.1 (Nat.lt_succ_self (Value.depthEntries es))).2 e he
  rw [Value.depth] at hk
  omega

/-- The elements of an array are no deeper than the array. -/
theorem depth_le_of_list {xs : List Value} {x : Value} (hx : x ∈ xs) {k : Nat}
    (hk : (Value.list xs).depth ≤ k + 1) : x.depth ≤ k := by
  have deep := (Value.depthItems_lt_iff.1 (Nat.lt_succ_self (Value.depthItems xs))).2 x hx
  rw [Value.depth] at hk
  omega

/-- **Loading a normal form succeeds, and what is loaded shows it**, if no eager reference is met
and there is room for as many entities one inside the other as the form is deep. -/
theorem Normal.loads (hg : g.WellFormed) {subject : Subject} {raw form : Value}
    (hn : g.Normal subject raw form) (hraw : raw.IsData) (free : subject.EagerFree g) {fuel : Nat}
    (hfuel : form.depth ≤ fuel) : Makes g (value fuel subject form) subject form := by
  -- along the derivation of the normal form; only an entity uses up fuel
  induction hn generalizing fuel with
  | @entity cls raw data w hdata hkeeps hnot ih =>
    have entries := Construction.isData_of_entriesOf hraw hdata
    have fields : ∀ f ∈ g.schemaOf cls, (w f.1).IsData :=
      isData_fields entries hkeeps fun f hf hk =>
        (hnot f hf hk).isData hg (Entries.isData_getStr entries _)
    cases fuel with
    | zero =>
      have deep := Value.depth_pos
        (.dict (rawEntries (Entries.getStr data idField) (Table.names (g.schemaOf cls)) w))
      omega
    | succ fuel =>
      refine makes_entity hg free (Entries.isData_getStr entries _) fields ?_ ?_
      · intro f hf hk
        exact (hnot f hf hk).fixed hg (Entries.isData_getStr entries _)
      · intro f hf hk
        refine ih f hf hk (Entries.isData_getStr entries _) (Catalog.EagerFree.field free hf) ?_
        have mem : (Value.str f.1, w f.1) ∈
            rawEntries (Entries.getStr data idField) (Table.names (g.schemaOf cls)) w :=
          List.mem_append_right _ (List.mem_map.2 ⟨f.1, List.mem_map_of_mem hf, rfl⟩)
        exact depth_le_of_dict mem hfuel
  | noDate r =>
    intro s _
    exact ⟨.null, s, rfl, .refl s, .refl _, .nothing _⟩
  | @date r raw m hm =>
    intro s _
    refine ⟨.moment m, s, ?_, .refl s, .refl _, .date r m⟩
    rw [value, Checker.loadWith, Session.outcome_get_bind, Session.outcome_ofExcept,
      Value.toMoment_isoText (Value.readable_of_toMoment hraw hm)]
  | noEntity t e r =>
    intro s _
    refine ⟨.null, s, ?_, .refl s, .refl _, .nothing _⟩
    have lazy : e.truthy = false := free.1
    rw [value, Checker.loadWith, lazy]
    rfl
  | @embedded t e r raw form cls hnull hr hform ih =>
    have loaded := ih hraw (free.2 t cls rfl hr) hfuel
    cases hform with
    | entity _ _ _ => exact makes_embedded r free.1 hr loaded
  | @array e r raw xs ys hxs hlen hys ih =>
    have items := Checker.isData_of_itemsOf hraw hxs
    refine makes_array r ?_
    intro y hy
    obtain ⟨x, hxy⟩ := exists_mem_zip_of_mem_right hlen hy
    exact ih (x, y) hxy (items x (List.of_mem_zip hxy).1) free (depth_le_of_list hy (by omega))
  | @dictionary e r raw es ys hes hlen hys ih =>
    have entries := Checker.isData_of_entriesOf hraw hes
    have size : (es.map Prod.snd).length = ys.length := by simpa using hlen
    have data : (Value.dict ((es.map Prod.fst).zip ys)).IsData :=
      (Catalog.Normal.dictionary (r := r) hes hlen hys).isData hg hraw
    refine makes_dictionary r (fun d hd => data.key hd) ?_
    intro d hd
    obtain ⟨x, hxy⟩ := exists_mem_zip_of_mem_right size (List.of_mem_zip hd).2
    obtain ⟨q, hq, heq⟩ := List.mem_map.1 (List.of_mem_zip hxy).1
    exact ih (x, d.2) hxy (heq ▸ entries.value hq) free (depth_le_of_dict hd (by omega))

end Catalog

end EntitySchema
