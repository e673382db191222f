/-
**Finding what a store keeps.**

A class that uses a store finds there what is kept under its kind and the text of an identifier.  If
that is in normal form, and no eager reference is met on the way, it is loaded: no record is deeper
than the bound on how many entities are entered, so the bound is never met.

Main definitions:

* `Session.Uses` — a class that uses a store, which is open;
* `Session.Kept` — a session that goes on to another, of which a store keeps records.

Main results:

* `Session.Uses.storeOf`, `Session.Uses.later` — the store that a class uses, now and later;
* `Loading.depth_le_bound` — **the bound is larger than every record is deep**;
* `Loading.find_eq` — **what is found shows what is kept.**
-/

import EntitySchema.Proofs.LoadingNormal
import EntitySchema.Proofs.Refinement

set_option autoImplicit false

namespace EntitySchema

/-- The table of a file is among those of all files. -/
theorem Disk.mem_tables {d : Disk} {p : Place} {db : Database} {t : FileTable}
    (h : d.node? p = some (.file db)) (ht : db.records? = some t) : t ∈ d.tables := by
  induction d with
  | nil => cases h
  | cons e d ih =>
    obtain ⟨q, n⟩ := e
    rw [node?] at h
    split at h
    · cases h
      simp only [tables, List.filterMap_cons, ht]
      exact List.mem_cons_self ..
    · cases n with
      | directory => exact ih h
      | file db' =>
        simp only [tables, List.filterMap_cons]
        split
        · exact ih h
        · exact List.mem_cons_of_mem _ (ih h)

namespace Session

variable {s s' : Session} {i : StoreId} {cls : ClassId}

/-! ### The store that a class uses -/

/-- A class uses a store: it is assigned the store, or it is assigned none and the store is the
shared one, which was opened before, or just now and was connected at once. -/
inductive Uses (s : Session) (i : StoreId) (cls : ClassId) : Prop
  | assigned : s.catalog.assignedStore? cls = some i → Uses s i cls
  | shared {sh : Shared} : s.catalog.assignedStore? cls = none → s.shared = some sh →
      sh.store = i → s.survey = none →
      sh.opened.before s.now = true ∨ sh = ⟨i, s.now, s.now, none⟩ → Uses s i cls

/-- What was opened before is the shared store. -/
theorem outcome_sharedStore_of_before {sh : Shared} (hs : s.shared = some sh)
    (hq : s.survey = none) (ho : sh.opened.before s.now = true) :
    outcome sharedStore s = (.ok sh.store, s) := by
  rw [sharedStore, outcome_get_bind, hq, hs]
  dsimp only
  rw [if_pos ho, outcome_pure]

/-- What was opened just now and was connected at once is the shared store. -/
theorem outcome_sharedStore_of_now (hs : s.shared = some ⟨i, s.now, s.now, none⟩)
    (hq : s.survey = none) : outcome sharedStore s = (.ok i, s) := by
  have same : { s with now := s.now, shared := some ⟨i, s.now, s.now, none⟩ } = s := by rw [← hs]
  rw [sharedStore, outcome_get_bind, hq, hs]
  dsimp only
  rw [if_neg (by rw [Instant.not_before_self]; exact Bool.false_ne_true), if_pos rfl, joinShared,
    outcome_get_bind, hs]
  dsimp only
  have set_same : outcome (set { s with
      now := s.now, shared := some ⟨i, s.now, s.now, none⟩ } : Action PUnit) s = (.ok ⟨⟩, s) := by
    rw [outcome_set, same]
  rw [outcome_bind_ok set_same, outcome_pure]

theorem Uses.storeOf (h : s.Uses i cls) : outcome (storeOf cls) s = (.ok i, s) := by
  rw [Session.storeOf, outcome_get_bind]
  cases h with
  | assigned h => rw [h, outcome_pure]
  | shared h hs hi hq ho =>
    rw [h]
    rcases ho with ho | rfl
    · rw [← hi]
      exact outcome_sharedStore_of_before hs hq ho
    · exact outcome_sharedStore_of_now hs hq

/-- A class goes on to use its store while time passes. -/
theorem Uses.later (h : s.Uses i cls) (on : s.MovesOn s') : s'.Uses i cls := by
  cases h with
  | assigned h => exact .assigned (on.catalog ▸ h)
  | @shared sh h hs hi hq ho =>
    refine .shared (on.catalog ▸ h) (on.shared.trans hs) hi (on.survey.trans hq) ?_
    rcases ho with ho | rfl
    · exact .inl (on.now.before ho)
    · cases hb : s.now.before s'.now with
      | true => exact .inl rfl
      | false =>
        have same : s.now = s'.now := Instant.eq_of_not_before hb on.now
        rw [same]
        exact .inr rfl

/-- Where the shared store is open, nothing is found out beforehand. -/
theorem outcome_arrange_of_open {α : Type} (a : Action α) {sh : Shared} (hs : s.shared = some sh)
    (ho : s.now.before sh.opened = false) : outcome (arrange a) s = outcome a s := by
  rw [arrange, outcome_get_bind, hs]
  simp only [ho]
  rfl

/-- Nothing is opened for an action that does not ask for the shared store. -/
theorem outcome_arrange_of_quiet {α : Type} (a : Action α)
    (ha : (outcome a { s with survey := some [] }).2.survey = some []) :
    outcome (arrange a) s = outcome a s := by
  have none : firstRequest? a s = none := by
    show earliest? ((outcome a { s with survey := some [] }).2.survey.getD []) = none
    rw [ha]
    rfl
  rw [arrange, outcome_get_bind, none]
  dsimp only
  split <;> split <;> rfl

/-- For a class that uses a store nothing is opened. -/
theorem Uses.outcome_arrange {α : Type} (h : s.Uses i cls) (a : Action α)
    (quiet : s.catalog.assignedStore? cls = some i →
      (outcome a { s with survey := some [] }).2.survey = some []) :
    outcome (arrange a) s = outcome a s := by
  cases h with
  | assigned h => exact outcome_arrange_of_quiet a (quiet h)
  | shared _ hs _ _ ho =>
    refine outcome_arrange_of_open a hs ?_
    rcases ho with ho | rfl
    · exact Instant.precedes_of_before ho
    · exact Instant.not_before_self _

/-! ### Sessions in which a store keeps records -/

/-- What a session has become by work of which a store keeps these records: other cells may have
been added to the heap. -/
structure Kept (s : Session) (i : StoreId) (rs : List Record) (s' : Session) : Prop where
  keeps : s'.Keeps i rs
  place : s'.inFile i = s.inFile i
  on : s.MovesOn s'
  heap : s.heap <+: s'.heap

theorem Served.kept {rs : List Record} (h : Served s i rs s') : Kept s i rs s' :=
  ⟨h.keeps, h.place, h.on, h.heap ▸ List.prefix_rfl⟩

theorem inFile_of_stores (stores : s'.stores = s.stores) : s'.inFile i = s.inFile i := by
  rw [inFile, store, stores, inFile, store]

theorem Kept.grows {s'' : Session} {rs : List Record} (h : Kept s i rs s') (hg : s'.Grows s'')
    (now : s'.now.Precedes s''.now) : Kept s i rs s'' :=
  ⟨h.keeps.of_stores hg.stores hg.disk (hg.on now).awaited,
    (inFile_of_stores hg.stores).trans h.place, h.on.trans (hg.on now), h.heap.trans hg.heap⟩

end Session

namespace Loading

variable {s : Session} {i : StoreId} {cls : ClassId} {rs : List Record}

/-! ### The depth of records -/

/-- An operation that takes the larger of two, or more, takes the largest of several. -/
theorem le_foldl_of_le {op : Nat → Nat → Nat} (hop : ∀ m n, m ≤ op m n ∧ n ≤ op m n) {ns : List Nat}
    {n : Nat} (h : n ∈ ns) : n ≤ ns.foldl op 0 := by
  have further : ∀ (ns : List Nat) (m : Nat), m ≤ ns.foldl op m ∧
      ∀ n ∈ ns, n ≤ ns.foldl op m := by
    intro ns
    induction ns with
    | nil => exact fun m => ⟨le_rfl, List.forall_mem_nil _⟩
    | cons k ns ih =>
      intro m
      obtain ⟨start, rest⟩ := ih (op m k)
      refine ⟨(hop m k).1.trans start, List.forall_mem_cons.2 ⟨?_, rest⟩⟩
      exact (hop m k).2.trans start
  exact (further ns 0).2 n h

theorem le_foldl_max {ns : List Nat} {n : Nat} (h : n ∈ ns) : n ≤ ns.foldl max 0 :=
  le_foldl_of_le (fun m n => ⟨le_max_left m n, le_max_right m n⟩) h

/-- The records that a store keeps are among those of the session: these are as deep, and
as many. -/
theorem le_recordExtent (h : s.Keeps i rs) :
    recordDepth rs ≤ (recordExtent s).1 ∧ rs.length ≤ (recordExtent s).2 := by
  unfold recordExtent
  dsimp only
  generalize hall : List.map _ s.stores ++ s.disk.tables = all
  have mem : rs ∈ all := by
    rw [← hall]
    refine List.mem_append.2 ?_
    cases h with
    | memory h => exact .inl (List.mem_map.2 ⟨_, List.mem_of_getElem? h, rfl⟩)
    | file h =>
      cases h with
      | own h _ hr =>
        exact .inl (List.mem_map.2 ⟨_, List.mem_of_getElem? h, Database.rows_of_records? hr⟩)
      | file h _ hd hr => exact .inr (Disk.mem_tables hd hr)
  exact ⟨le_foldl_max (List.mem_map_of_mem mem),
    le_foldl_of_le (fun m n => ⟨Nat.le_add_right m n, Nat.le_add_left n m⟩)
      (List.mem_map_of_mem mem)⟩

/-- The bound on how many entities are entered is larger than every record is deep. -/
theorem depth_le_bound (h : s.Keeps i rs) {r : Record} (hr : r ∈ rs) (raw : Value) :
    (Value.dict r.data).depth ≤ bound s raw := by
  have deep : Value.depthEntries r.data ≤ (recordExtent s).1 :=
    (le_foldl_max (List.mem_map_of_mem hr)).trans (le_recordExtent h).1
  have more : (recordExtent s).1 + 2 ≤ ((recordExtent s).1 + 2) *
      ((recordExtent s).2 * s.catalog.classes.length + 1) := Nat.le_mul_of_pos_right _ (by omega)
  rw [Value.depth, bound]
  dsimp only
  omega

/-! ### Finding -/

section

variable {g : Catalog} {id : Value} {name : String}

/-- What is kept under a key is loaded, and where nothing is kept nothing is found. -/
theorem findWith_eq (load : ClassId → Value → Action Value) (uses : s.Uses i cls)
    (own : s.catalog.lookupOf? cls = none) (h : s.Keeps i rs)
    (inert : ∀ r ∈ rs, (Value.dict r.data).Inert)
    (hname : Method.toText s.catalog s.heap id = .ok name) :
    ∃ rounds, Session.outcome (findWith load cls id) s =
      match MemoryStore.get? rs ⟨.text (s.catalog.kindOf cls), name⟩ with
      | none => (.ok .null, { s with now := s.now.after rounds })
      | some es =>
        Session.outcome (load cls (.dict es)) { s with now := s.now.after rounds } := by
  have text : Session.outcome (Session.textOf id) s = (.ok name, s) := by
    rw [Session.outcome_textOf, hname]
  have again : Method.toText s.catalog s.heap (.str name) = .ok name := rfl
  obtain ⟨rounds, fetched⟩ := Session.fetchRecord_eq (s.catalog.kindOf cls) again h inert
  refine ⟨rounds, ?_⟩
  rw [findWith, Session.outcome_get_bind]
  simp only [own, Session.outcome_bind_ok uses.storeOf, Session.outcome_bind_ok text,
    Session.outcome_bind_ok fetched]
  cases MemoryStore.get? rs ⟨.text (s.catalog.kindOf cls), name⟩ <;> rfl

/-- Nothing is found under an identifier that has no text. -/
theorem find_of_text_error (uses : s.Uses i cls) (own : s.catalog.lookupOf? cls = none)
    {e : Failure} (he : Method.toText s.catalog s.heap id = .error e) :
    Session.outcome (find cls id) s = (.error e, s) := by
  have fails : ∀ (load : ClassId → Value → Action Value) (s' : Session),
      s'.catalog = s.catalog → s'.heap = s.heap → s'.Uses i cls →
      Session.outcome (findWith load cls id) s' = (.error e, s') := by
    intro load s' hcat hheap uses
    have text : Session.outcome (Session.textOf id) s' = (.error e, s') := by
      rw [Session.outcome_textOf, hcat, hheap, he]
    rw [findWith, Session.outcome_get_bind]
    simp only [hcat, own, Session.outcome_bind_ok uses.storeOf]
    exact Session.outcome_bind_error text
  rw [find, Session.outcome_get_bind, uses.outcome_arrange]
  · exact fails _ s rfl rfl uses
  · intro hc
    rw [fails _ { s with survey := some [] } rfl rfl (.assigned hc)]

/-- What a class finds among the records of its store that are in normal form: nothing, or an entity
that shows what is kept. -/
theorem findWithin_eq (hg : g.WellFormed) (hs : s.catalog = g) (uses : s.Uses i cls)
    (own : g.lookupOf? cls = none) (free : g.EagerFree cls) (h : s.Keeps i rs)
    (data : ∀ r ∈ rs, (Value.dict r.data).IsData)
    (normal : ∀ r ∈ rs, r.key.kind = .text (g.kindOf cls) →
      g.Normal (.entity cls) (.dict r.data) (.dict r.data))
    (hname : Method.toText g s.heap id = .ok name) {fuel : Nat}
    (hfuel : ∀ r ∈ rs, (Value.dict r.data).depth ≤ fuel) :
    ∃ v s', Session.outcome (findWith (loadWithin fuel) cls id) s = (.ok v, s') ∧ s.Kept i rs s' ∧
      match MemoryStore.get? rs ⟨.text (g.kindOf cls), name⟩ with
      | none => v = .null
      | some es => Heap.Shows g s'.heap (.entity cls) v (.dict es) := by
  subst hs
  obtain ⟨rounds, found⟩ :=
    findWith_eq (loadWithin fuel) uses own h (fun r hr => (data r hr).inert) hname
  have served := h.served_wait rounds
  rw [found]
  cases hget : MemoryStore.get? rs ⟨.text (s.catalog.kindOf cls), name⟩ with
  | none => exact ⟨.null, _, rfl, served.kept, rfl⟩
  | some es =>
    obtain ⟨r, hr, rfl⟩ := Option.map_eq_some_iff.1 hget
    have mem := List.mem_of_find?_eq_some hr
    have key : r.key = ⟨.text (s.catalog.kindOf cls), name⟩ := by simpa using List.find?_some hr
    obtain ⟨v, s₂, hv, grows, now, shown⟩ := (normal r mem (by rw [key])).loads hg (data r mem) free
      (hfuel r mem) _ served.on.catalog
    exact ⟨v, s₂, hv, served.kept.grows grows now, shown.mono (Heap.only_within_self _ _)⟩

/-- **What is found shows what is kept**: a class finds under an identifier nothing if its store
keeps nothing under its kind and the text of the identifier, and else an entity that shows what is
kept there. -/
theorem find_eq (hg : g.WellFormed) (hs : s.catalog = g) (uses : s.Uses i cls)
    (own : g.lookupOf? cls = none) (free : g.EagerFree cls) (h : s.Keeps i rs)
    (data : ∀ r ∈ rs, (Value.dict r.data).IsData)
    (normal : ∀ r ∈ rs, r.key.kind = .text (g.kindOf cls) →
      g.Normal (.entity cls) (.dict r.data) (.dict r.data))
    (hname : Method.toText g s.heap id = .ok name) :
    ∃ v s', Session.outcome (find cls id) s = (.ok v, s') ∧ s.Kept i rs s' ∧
      match MemoryStore.get? rs ⟨.text (g.kindOf cls), name⟩ with
      | none => v = .null
      | some es => Heap.Shows g s'.heap (.entity cls) v (.dict es) := by
  rw [find, Session.outcome_get_bind, uses.outcome_arrange]
  case quiet =>
    -- a class that is assigned its store does not ask for the shared one
    intro hc
    obtain ⟨v, s', hv, kept, -⟩ := findWithin_eq (s := { s with survey := some [] }) hg hs
      (.assigned hc) own free (h.of_stores rfl rfl fun ha => ha) data normal hname
      fun r hr => depth_le_bound h hr .null
    rw [hv]
    exact kept.on.survey
  exact findWithin_eq hg hs uses own free h data normal hname fun r hr => depth_le_bound h hr .null

end

end Loading

end EntitySchema
