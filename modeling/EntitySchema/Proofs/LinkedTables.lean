/-
**The tables of the files that stores are linked to.**

A store is linked to a file when it has been connected, and connecting brings the file up to date.
No call takes a table away, and whatever is written to a file is written to the table that it has.
So in every run of a session, whatever is done there, a file that a store is linked to has its
table.

Main definitions:

* `Session.Tabled` — sessions with given classes in which stores are linked to files with a table;
* `Session.Goes` — **what may be done in a session**.

Main results:

* `Session.openShared_cases` — what opening the shared store does;
* `Session.Goes.hasTable` — whatever is done, the files that stores are linked to have their tables;
* `Session.hasTable_of_run` — **and so they have in every run.**
-/

import EntitySchema.Persistence
import EntitySchema.Proofs.EquivalentCheckers
import EntitySchema.Proofs.FailedPuts

set_option autoImplicit false

namespace EntitySchema

namespace Session

variable {α : Type} {g : Catalog} {s s' : Session} {i : StoreId}

/-! ### Opening the shared store -/

/-- Opening the shared store reads the settings, and if they can be read it connects a store that
comes last. -/
theorem openShared_cases (s : Session) (time : Instant) :
    (∃ kept?, (outcome (openShared time) s).2 = { s with settings := kept? }) ∨
    ∃ kept? x t failure?,
      (outcome (connect s.stores.length)
        { s with settings := kept?, stores := s.stores ++ [storeFor x], now := time }).2 = t ∧
      (outcome (openShared time) s).2 =
        { t with now := s.now, shared := some ⟨s.stores.length, time, t.now, failure?⟩ } := by
  rw [openShared, outcome_bind]
  have read : ∃ kept?, (outcome currentSettings s).2 = { s with settings := kept? } := by
    rw [currentSettings, outcome_get_bind]
    cases hs : s.settings with
    | some x => exact ⟨some x, congrArg (fun kept? => { s with settings := kept? }) hs⟩
    | none =>
      dsimp only
      rw [outcome_bind, outcome_ofExcept]
      cases Settings.read [] s.environment [] with
      | error e => exact ⟨none, by rw [← hs]⟩
      | ok x => exact ⟨some x, rfl⟩
  obtain ⟨kept?, read⟩ := read
  rcases hr : outcome currentSettings s with ⟨e | x, t⟩ <;> rw [hr] at read <;> cases read
  · exact .inl ⟨kept?, rfl⟩
  · have opened : outcome (openStore (storeFor x)) { s with settings := kept? } =
        (.ok s.stores.length, { s with settings := kept?, stores := s.stores ++ [storeFor x] }) :=
      rfl
    dsimp only
    rw [outcome_bind_ok opened, outcome_get_bind, outcome_modify_bind,
      outcome_bind_ok (outcome_attempt _ _)]
    rcases hc : outcome (connect s.stores.length)
      { s with settings := kept?, stores := s.stores ++ [storeFor x], now := time } with ⟨e | _, t⟩
    · exact .inr ⟨kept?, x, t, some e, congrArg Prod.snd hc, rfl⟩
    · exact .inr ⟨kept?, x, t, none, congrArg Prod.snd hc, rfl⟩

/-! ### Links and tables -/

/-- A session with given classes in which every store has its table, if it is linked to a file. -/
structure Tabled (g : Catalog) (s : Session) : Prop where
  catalog : s.catalog = g
  table (i : StoreId) : s.HasTable i

/-- Tables stay if no file loses its own, and a store that is newly linked has one. -/
theorem Tabled.of_links (h : Tabled g s) (catalog : s'.catalog = s.catalog)
    (links : ∀ (i : StoreId) (path : String) (p : Place),
      s'.stores[i]? = some (.file path (.file p)) → s.stores[i]? = some (.file path (.file p)) ∨
        ∃ t, (s'.disk.database p).records? = some t)
    (made : ∀ p t, (s.disk.database p).records? = some t →
      ∃ t', (s'.disk.database p).records? = some t') : Tabled g s' := by
  refine ⟨catalog.trans h.catalog, fun i path p hs => ?_⟩
  rcases links i path p hs with old | new
  · obtain ⟨t, ht⟩ := h.table i path p old
    exact made p t ht
  · exact new

/-- Tables stay where stores and files do. -/
theorem Tabled.of_same (h : Tabled g s) (catalog : s'.catalog = s.catalog)
    (stores : s'.stores = s.stores) (disk : s'.disk = s.disk) : Tabled g s' :=
  h.of_links catalog (fun _ _ _ hs => .inl (stores ▸ hs)) fun _ t ht => ⟨t, disk ▸ ht⟩

/-- One store becomes another, which is not linked to a file unless that has its table. -/
theorem Tabled.setStore (h : Tabled g s) {st : Store} (link : ∀ path p, st = .file path (.file p) →
    ∃ t, (s.disk.database p).records? = some t) : Tabled g (s.setStore i st) := by
  refine h.of_links rfl (fun j path p hs => ?_) fun _ t ht => ⟨t, ht⟩
  by_cases same : i = j
  · subst same
    by_cases lt : i < s.stores.length
    · rw [Session.setStore, List.getElem?_set_self lt] at hs
      exact .inr (link path p (Option.some.inj hs))
    · rw [Session.setStore, List.getElem?_eq_none (by simpa using lt)] at hs
      cases hs
  · rw [Session.setStore, List.getElem?_set_ne same] at hs
    exact .inl hs

/-- A session may have one more store, which is not linked to a file. -/
theorem Tabled.append (h : Tabled g s) (st : Store)
    (link : ∀ path p, st ≠ .file path (.file p)) :
    Tabled g { s with stores := s.stores ++ [st] } := by
  refine h.of_links rfl (fun j path p hs => ?_) fun _ t ht => ⟨t, ht⟩
  rw [List.getElem?_append] at hs
  split at hs
  · exact .inl hs
  · obtain ⟨lt, same⟩ := List.getElem?_eq_some_iff.1 hs
    exact absurd (by simpa using same) (link path p)

/-- A session of the kind may be set. -/
theorem agreeOn_set (h : Tabled g s) :
    AgreeOn (Tabled g) (set s : Action PUnit) (set s) := fun _ _ => ⟨rfl, h⟩

theorem untimed_tabled (g : Catalog) : Untimed (Tabled g) := fun _ _ h => h.of_same rfl rfl rfl

/-! ### The life of a store -/

section

variable (g)

theorem tabled_wait (rounds : Nat) : AgreeOn (Tabled g) (wait rounds) (wait rounds) :=
  agreeOn_modify fun s hs => untimed_tabled g s _ hs

/-- A store that is connected to a file has its table. -/
theorem tabled_connect (i : StoreId) : AgreeOn (Tabled g) (connect i) (connect i) := by
  refine agreeOn_get_bind fun s hs => ?_
  cases s.store i with
  | memory rs => exact agreeOn_pure _
  | file path link =>
    have saves := Disk.saves_connect s.disk path
    rcases hc : s.disk.connect path with ⟨b | l, d⟩ <;> rw [hc] at saves <;> simp only [hc]
    · have stays : Tabled g { s with disk := d } :=
        hs.of_links rfl (fun _ _ _ => .inl) fun _ t ht => ⟨t, saves.made ht⟩
      refine (agreeOn_set stays).bind fun _ _ _ _ => ?_
      exact (tabled_wait g _).bind fun _ _ _ _ => agreeOn_throw _
    · have stays : Tabled g { s with disk := d } :=
        hs.of_links rfl (fun _ _ _ => .inl) fun _ t ht => ⟨t, saves.made ht⟩
      have linked : Tabled g ({ s with disk := d }.setStore i (.file path l)) := by
        refine stays.setStore fun path' p same => ?_
        cases same
        obtain ⟨-, none⟩ | none | ⟨there, db, hdb, current⟩ := Disk.exists_database_of_connect hc
        · cases none
        · cases none
        · cases there
          have made : (d.database (Path.ofText path).place).records? = some db.rows := by
            rw [Disk.database, hdb]
            exact current.records?
          exact ⟨_, made⟩
      refine (agreeOn_set linked).bind fun _ _ _ _ => ?_
      refine (tabled_wait g _).bind fun _ _ _ _ => ?_
      cases l with
      | unusable => exact agreeOn_throw _
      | _ => exact agreeOn_pure _

theorem tabled_disconnect (i : StoreId) : AgreeOn (Tabled g) (disconnect i) (disconnect i) := by
  refine agreeOn_get_bind fun s hs => ?_
  cases s.store i with
  | memory rs => exact agreeOn_set (hs.setStore (by rintro _ _ ⟨⟩))
  | file path link =>
    dsimp only
    split
    · exact agreeOn_pure _
    · refine (agreeOn_set (hs.setStore (by rintro _ _ ⟨⟩))).bind fun _ _ _ _ => ?_
      exact tabled_wait g 1

/-- What a file holds may be changed where a table stays a table. -/
theorem tabled_changeFile (i : StoreId) {change : Database → Database}
    (keeps : ∀ db t, db.records? = some t → ∃ t', (change db).records? = some t') :
    AgreeOn (Tabled g) (changeFile i change) (changeFile i change) := by
  refine agreeOn_modify fun s hs => ?_
  split
  · exact hs.setStore (by rintro _ _ ⟨⟩)
  · next path p _ =>
    refine hs.of_links rfl (fun _ _ _ => .inl) fun q t ht => ?_
    by_cases same : q = p
    · subst same
      dsimp only
      rw [Disk.database, Disk.node?_put_self]
      exact keeps _ t ht
    · exact ⟨t, by rwa [Disk.database_put_of_ne same]⟩
  · exact hs

theorem tabled_setRows (i : StoreId) (t : FileTable) :
    AgreeOn (Tabled g) (setRows i t) (setRows i t) :=
  tabled_changeFile g i fun _ _ ht => ⟨t, Database.records?_withRows ht t⟩

theorem tabled_requireUse (i : StoreId) : AgreeOn (Tabled g) (requireUse i) (requireUse i) := by
  refine agreeOn_get_bind fun s _ => ?_
  cases s.linkOf i with
  | closed => exact agreeOn_throw _
  | unusable => exact (tabled_wait g 1).bind fun _ _ _ _ => agreeOn_throw _
  | _ => exact agreeOn_pure _

theorem tabled_migrate (i : StoreId) : AgreeOn (Tabled g) (migrate i) (migrate i) := by
  refine agreeOn_get_bind fun s _ => ?_
  cases s.store i with
  | memory rs => exact agreeOn_throw _
  | file path link =>
    refine (tabled_requireUse g i).bind fun _ _ _ _ => ?_
    refine (tabled_changeFile g i fun db _ _ => ⟨_, db.records?_migrate⟩).bind fun _ _ _ _ => ?_
    exact tabled_wait g 3

/-! ### The shared store -/

/-- A store that settings ask for is not linked to a file yet. -/
theorem tabled_openShared (time : Instant) :
    AgreeOn (Tabled g) (openShared time) (openShared time) := by
  refine fun s hs => ⟨rfl, ?_⟩
  obtain ⟨kept?, read⟩ | ⟨kept?, x, t, failure?, connected, opened⟩ := openShared_cases s time
  · rw [read]
    exact hs.of_same rfl rfl rfl
  · have began : Tabled g
        { s with settings := kept?, stores := s.stores ++ [storeFor x], now := time } := by
      refine (hs.append (storeFor x) fun path p => ?_).of_same rfl rfl rfl
      rw [storeFor]
      split <;> rintro ⟨⟩
    have went := (tabled_connect g s.stores.length _ began).2
    rw [connected] at went
    rw [opened]
    exact went.of_same rfl rfl rfl

theorem tabled_joinShared : AgreeOn (Tabled g) joinShared joinShared := by
  refine agreeOn_get_bind fun s hs => ?_
  cases s.shared with
  | none => exact agreeOn_throw _
  | some sh =>
    have joined : Tabled g
        { s with now := sh.ready, shared := some { sh with failure? := none } } :=
      hs.of_same rfl rfl rfl
    refine (agreeOn_set joined).bind fun _ _ _ _ => ?_
    cases sh.failure? with
    | some f => exact agreeOn_throw f
    | none => exact agreeOn_pure _

theorem tabled_sharedStore : AgreeOn (Tabled g) sharedStore sharedStore := by
  have anew : ∀ s : Session, AgreeOn (Tabled g) (do openShared s.now; joinShared)
      (do openShared s.now; joinShared) := fun s =>
    (tabled_openShared g s.now).bind fun _ _ _ _ => tabled_joinShared g
  refine agreeOn_get_bind fun s hs => ?_
  cases s.survey with
  | some asked =>
    have surveyed : Tabled g
        { s with survey := some (s.now :: asked), now := s.now.after sharedStore.never } :=
      hs.of_same rfl rfl rfl
    exact (agreeOn_set surveyed).bind fun _ _ _ _ => agreeOn_throw _
  | none =>
    cases s.shared with
    | none => exact anew s
    | some sh =>
      dsimp only
      split
      · exact agreeOn_pure _
      · split
        · exact tabled_joinShared g
        · exact anew s

instance : Loose (Tabled g) g where
  catalog hs := hs.catalog
  heap _ hs := hs.of_same rfl rfl rfl
  lookups _ hs := hs.of_same rfl rfl rfl
  timed := (untimed_tabled g).timed
  shared := tabled_sharedStore g

theorem tabled_closeShared : AgreeOn (Tabled g) closeShared closeShared := by
  refine agreeOn_get_bind fun s _ => ?_
  cases s.shared with
  | none => exact agreeOn_pure _
  | some sh =>
    refine (tabled_disconnect g sh.store).bind fun _ _ _ _ => ?_
    exact agreeOn_modify fun t ht => ht.of_same rfl rfl rfl

variable {g} in
/-- An action in whose course the shared store may be opened. -/
theorem AgreeOn.arrange_tabled {a : Action α} (ha : AgreeOn (Tabled g) a a) :
    AgreeOn (Tabled g) (Session.arrange a) (Session.arrange a) := by
  refine fun s hs => ⟨rfl, ?_⟩
  rw [outcome_arrange]
  refine (ha _ ?_).2
  unfold arranged
  split
  · exact hs
  · exact (tabled_openShared g _ s hs).2
  · split
    · exact (tabled_openShared g _ s hs).2
    · exact hs

/-! ### Records -/

variable {g} in
theorem AgreeOn.undone {a : Action α} (ha : AgreeOn (Tabled g) a a) :
    AgreeOn (Tabled g) (Session.undone a) (Session.undone a) := by
  have tried : AgreeOn (Tabled g) (attempt a) (attempt a) := fun s hs => ⟨rfl, (ha s hs).2⟩
  refine tried.bind fun r _ _ _ => ?_
  cases r with
  | ok x => exact agreeOn_pure x
  | error f => exact (tabled_wait g 1).bind fun _ _ _ _ => agreeOn_throw f

theorem tabled_requireLink (i : StoreId) : AgreeOn (Tabled g) (requireLink i) (requireLink i) := by
  refine agreeOn_get_bind fun s _ => ?_
  split
  · exact agreeOn_throw _
  · exact agreeOn_pure _

/-- Records are written in memory. -/
theorem tabled_modifyMemory (i : StoreId) (change : MemoryStore → MemoryStore) :
    AgreeOn (Tabled g)
      (modify fun s => match s.store i with
        | .memory rs => s.setStore i (.memory (change rs))
        | _ => s : Action Unit)
      (modify fun s => match s.store i with
        | .memory rs => s.setStore i (.memory (change rs))
        | _ => s) := by
  refine agreeOn_modify fun s hs => ?_
  split
  · exact hs.setStore (by rintro _ _ ⟨⟩)
  · exact hs

theorem tabled_keepRecord (i : StoreId) (r : Record) :
    AgreeOn (Tabled g) (keepRecord i r) (keepRecord i r) := by
  refine agreeOn_get_bind fun s _ => ?_
  split
  · refine (agreeOn_copy _).bind fun v _ _ _ => ?_
    split
    · exact tabled_modifyMemory g i _
    · exact agreeOn_pure _
  · exact (tabled_modifyMemory g i _).bind fun _ _ _ _ => agreeOn_throw _

theorem tabled_putRecord (i : StoreId) (kind id data : Value) :
    AgreeOn (Tabled g) (putRecord i kind id data) (putRecord i kind id data) := by
  refine (agreeOn_textOf id).bind fun name _ _ _ => agreeOn_ofExcept_bind fun r _ =>
    agreeOn_get_bind fun s _ => ?_
  cases s.store i with
  | memory rs => exact tabled_keepRecord g i r
  | file path link =>
    refine (tabled_requireLink g i).bind fun _ _ _ _ => AgreeOn.undone ?_
    refine (agreeOn_rows i).bind fun t _ _ _ => (tabled_setRows g i _).bind fun _ _ _ _ => ?_
    exact (agreeOn_bound _).bind fun _ _ _ _ => tabled_wait g 3

theorem tabled_removeRecord (i : StoreId) (kind id : Value) :
    AgreeOn (Tabled g) (removeRecord i kind id) (removeRecord i kind id) := by
  refine agreeOn_get_bind fun s hs => ?_
  cases s.store i with
  | memory rs =>
    refine (agreeOn_textOf id).bind fun name _ _ _ => agreeOn_ofExcept_bind fun k _ => ?_
    cases k with
    | none => exact agreeOn_pure _
    | some k =>
      refine AgreeOn.bind (agreeOn_modify fun t ht => ht.setStore (by rintro _ _ ⟨⟩))
        fun _ _ _ _ => agreeOn_pure _
  | file path link =>
    refine (tabled_requireLink g i).bind fun _ _ _ _ => (agreeOn_textOf id).bind fun name _ _ _ =>
      AgreeOn.undone ?_
    refine (agreeOn_rows i).bind fun t _ _ _ => (agreeOn_bound _).bind fun k _ _ _ => ?_
    exact (tabled_setRows g i _).bind fun _ _ _ _ => (tabled_wait g 2).bind fun _ _ _ _ =>
      agreeOn_pure _

theorem tabled_listRecords (i : StoreId) (kind limit offset : Value) :
    AgreeOn (Tabled g) (listRecords i kind limit offset) (listRecords i kind limit offset) := by
  have copies : ∀ ess : List Entries, AgreeOn (Tabled g) (ess.mapM fun es => copy (.dict es))
      (ess.mapM fun es => copy (.dict es)) := by
    intro ess
    induction ess with
    | nil => exact agreeOn_pure _
    | cons es ess ih =>
      rw [List.mapM_cons]
      exact (agreeOn_copy _).bind fun _ _ _ _ => ih.bind fun _ _ _ _ => agreeOn_pure _
  refine agreeOn_get_bind fun s _ => ?_
  cases s.store i with
  | memory rs =>
    refine agreeOn_ofExcept_bind fun limit _ => agreeOn_ofExcept_bind fun offset _ => ?_
    split
    · exact agreeOn_pure _
    · exact copies _
  | file path link =>
    refine (agreeOn_rows i).bind fun t _ _ _ => (agreeOn_bound _).bind fun x _ _ _ => ?_
    exact (tabled_wait g 2).bind fun _ _ _ _ => agreeOn_pure _

theorem tabled_countRecords (i : StoreId) (kind : Value) :
    AgreeOn (Tabled g) (countRecords i kind) (countRecords i kind) := by
  refine agreeOn_get_bind fun s _ => ?_
  cases s.store i with
  | memory rs => exact agreeOn_pure _
  | file path link =>
    refine (agreeOn_rows i).bind fun t _ _ _ => (agreeOn_bound _).bind fun k _ _ _ => ?_
    exact (tabled_wait g 2).bind fun _ _ _ _ => agreeOn_pure _

/-! ### Entities -/

open Loading in
theorem tabled_load (cls : ClassId) (raw : Value) :
    AgreeOn (Tabled g) (load cls raw) (load cls raw) :=
  agreeOn_get_bind fun _ _ => AgreeOn.arrange_tabled (keeps_loadWithin _ cls raw)

open Loading in
theorem tabled_find (cls : ClassId) (id : Value) : AgreeOn (Tabled g) (find cls id) (find cls id) :=
  agreeOn_get_bind fun _ _ =>
    AgreeOn.arrange_tabled (agreeOn_findWith (keeps_loadWithin _) cls id)

open Persistence

variable {g} in
theorem tabled_storeOf {run : Value → Action Value}
    (hrun : ∀ m, AgreeOn (Tabled g) (run m) (run m)) (a : Address) (needed : String) :
    AgreeOn (Tabled g) (Persistence.storeOf run a needed) (Persistence.storeOf run a needed) := by
  have told : AgreeOn (Tabled g) (attributeOf a "_resolve_store")
      (attributeOf a "_resolve_store") :=
    agreeOn_get_bind fun _ _ => agreeOn_ofExcept _
  refine told.bind fun m _ _ _ => (hrun m).bind fun st _ _ _ => ?_
  split
  · exact agreeOn_pure _
  · exact agreeOn_throw _

/-- Whatever a call yields is done. -/
theorem tabled_perform (fuel : Nat) (m : Value) :
    AgreeOn (Tabled g) (perform fuel m) (perform fuel m) := by
  have told : ∀ a name, AgreeOn (Tabled g) (attributeOf a name) (attributeOf a name) :=
    fun _ _ => agreeOn_get_bind fun _ _ => agreeOn_ofExcept _
  have identified : ∀ a, AgreeOn (Tabled g) (identify a) (identify a) := by
    refine fun a => agreeOn_get_bind fun s hs => agreeOn_ofExcept_bind fun id _ => ?_
    split
    · exact agreeOn_set (hs.of_same rfl rfl rfl)
    · exact agreeOn_pure _
  induction fuel generalizing m with
  | zero => exact agreeOn_throw _
  | succ fuel ih =>
    refine agreeOn_get_bind fun s _ => agreeOn_ofExcept_bind fun answer _ => ?_
    split
    · refine (identified _).bind fun _ _ _ _ => agreeOn_get_bind fun s _ =>
        agreeOn_ofExcept_bind fun _ _ => (tabled_storeOf ih _ _).bind fun st _ _ _ => ?_
      refine (told _ _).bind fun kind _ _ _ => (told _ _).bind fun id _ _ _ => ?_
      refine agreeOn_get_bind fun s _ => agreeOn_ofExcept_bind fun raw _ => ?_
      exact (tabled_putRecord g st kind id raw).bind fun _ _ _ _ => agreeOn_pure _
    · refine (told _ _).bind fun id _ _ _ => ?_
      split
      · exact agreeOn_pure _
      · refine (tabled_storeOf ih _ _).bind fun st _ _ _ => (told _ _).bind fun kind _ _ _ => ?_
        refine (told _ _).bind fun id _ _ _ => ?_
        exact (tabled_removeRecord g st kind id).bind fun _ _ _ _ => agreeOn_pure _
    · exact (agreeOn_storeOf _).bind fun st _ _ _ => agreeOn_pure _
    · exact tabled_load g _ _
    · exact agreeOn_throw _

/-- A method is called, and what it yields is done. -/
theorem tabled_send (v : Value) (name : String) :
    AgreeOn (Tabled g) (send v name) (send v name) := by
  refine agreeOn_get_bind fun s _ => ?_
  split
  · exact tabled_perform g _ _
  · exact agreeOn_throw _

end

/-! ### Runs -/

/-- What may be done in a session, be it that it fails: a store is opened, connected, disconnected,
brought up to date or asked; the shared store is asked for or closed; entities are loaded, found,
saved and deleted; and whatever leaves stores and files alone. -/
inductive Goes (s : Session) : Session → Prop
  | openMemory : Goes s (outcome (openStore (.memory [])) s).2
  | openFile (path : String) : Goes s (outcome (openStore (.file path .closed)) s).2
  | connect (i : StoreId) : Goes s (outcome (connect i) s).2
  | disconnect (i : StoreId) : Goes s (outcome (disconnect i) s).2
  | migrate (i : StoreId) : Goes s (outcome (migrate i) s).2
  | put (i : StoreId) (kind id data : Value) : Goes s (outcome (putRecord i kind id data) s).2
  | fetch (i : StoreId) (kind id : Value) : Goes s (outcome (fetchRecord i kind id) s).2
  | remove (i : StoreId) (kind id : Value) : Goes s (outcome (removeRecord i kind id) s).2
  | list (i : StoreId) (kind limit offset : Value) :
      Goes s (outcome (listRecords i kind limit offset) s).2
  | count (i : StoreId) (kind : Value) : Goes s (outcome (countRecords i kind) s).2
  | getStore : Goes s (outcome sharedStore s).2
  | closeStore : Goes s (outcome closeShared s).2
  | load (cls : ClassId) (raw : Value) : Goes s (outcome (Loading.load cls raw) s).2
  | find (cls : ClassId) (id : Value) : Goes s (outcome (Loading.find cls id) s).2
  | save (v : Value) : Goes s (outcome (Persistence.save v) s).2
  | delete (v : Value) : Goes s (outcome (Persistence.delete v) s).2
  | elsewhere {s' : Session} : s'.stores = s.stores → s'.disk = s.disk → Goes s s'

/-- **Whatever is done in a session, the files that stores are linked to have their tables.** -/
theorem Goes.hasTable (goes : s.Goes s') (table : ∀ i, s.HasTable i) (i : StoreId) :
    s'.HasTable i := by
  have tabled : Tabled s.catalog s := ⟨rfl, table⟩
  cases goes with
  | openMemory => exact (tabled.append (.memory []) (by rintro _ _ ⟨⟩)).table i
  | openFile path => exact (tabled.append (.file path .closed) (by rintro _ _ ⟨⟩)).table i
  | connect j => exact (tabled_connect _ j s tabled).2.table i
  | disconnect j => exact (tabled_disconnect _ j s tabled).2.table i
  | migrate j => exact (tabled_migrate _ j s tabled).2.table i
  | put j kind id data => exact (tabled_putRecord _ j kind id data s tabled).2.table i
  | fetch j kind id => exact (agreeOn_fetchRecord j kind id s tabled).2.table i
  | remove j kind id => exact (tabled_removeRecord _ j kind id s tabled).2.table i
  | list j kind limit offset => exact (tabled_listRecords _ j kind limit offset s tabled).2.table i
  | count j kind => exact (tabled_countRecords _ j kind s tabled).2.table i
  | getStore => exact (tabled_sharedStore _ s tabled).2.table i
  | closeStore => exact (tabled_closeShared _ s tabled).2.table i
  | load cls raw => exact (tabled_load _ cls raw s tabled).2.table i
  | find cls id => exact (tabled_find _ cls id s tabled).2.table i
  | save v => exact (tabled_send _ v "save" s tabled).2.table i
  | delete v => exact (tabled_send _ v "delete" s tabled).2.table i
  | elsewhere stores disk =>
    intro path p hs
    rw [disk]
    exact table i path p (stores ▸ hs)

/-- **In every run the files that stores are linked to have their tables.** -/
theorem hasTable_of_run (run : Relation.ReflTransGen Goes initial s) (i : StoreId) :
    s.HasTable i := by
  induction run generalizing i with
  | refl => exact nofun
  | tail _ goes ih => exact goes.hasTable ih i

end Session

end EntitySchema
