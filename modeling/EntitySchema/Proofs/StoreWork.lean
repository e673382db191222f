/-
**Work on the stores of a session.**

Before entities are loaded from a store the store may have to be opened and connected.  Such work is
*apart* from the entities: it does not depend on the heap and leaves it as it was, no class changes,
no lookup is noted, and it brings no record that was not there already.

Where an action made of several has a result, each of them has one, be it that they ran one after
the other or side by side.

Main definitions:

* `Session.Has` — a record of one of the stores or files of a session;
* `Session.Opens`, `Session.Apart` — **work that opens stores, apart from the entities**;
* `Session.seekRecord`, `Session.arranged` — what is done before an entity is loaded;
* `Session.Runs` — actions that have a result, one after the other.

Main results:

* `Session.apart_storeOf` — **the store of a class is made ready apart from the entities**;
* `Session.apart_seekRecord` — a record is sought apart from them, if no record leads to an object;
* `Session.outcome_arrange` — an action begins where the shared store has been opened for it;
* `Session.runs_of_gather` — **actions side by side that have results run one after the other.**
-/

import EntitySchema.Proofs.LoadingTrees
import EntitySchema.Proofs.Reopening
import EntitySchema.Session.Shared

set_option autoImplicit false

namespace EntitySchema

/-- The row under a key has this key. -/
theorem FileTable.key_of_row? {t : FileTable} {kind : Kind} {id : String} {r : Record}
    (h : t.row? (some kind) id = some r) : r.key = ⟨kind, id⟩ := by
  have same :=
    List.find?_some (p := fun r : Record => some r.key.kind == some kind && r.key.id == id) h
  obtain ⟨hkind, hid⟩ := Bool.and_eq_true_iff.1 same
  obtain ⟨⟨k, n⟩, data⟩ := r
  simp_all

/-- At the start no file is there. -/
theorem Disk.table_initial (p : Place) : Disk.initial.table p = [] := by
  simp only [Disk.table, Disk.database, Disk.initial, Disk.node?]
  split_ifs <;> rfl

/-- A store that has no records of its own. -/
structure Store.Blank (st : Store) : Prop where
  memory {rs : MemoryStore} : st = .memory rs → rs = []
  own {path : String} {db : Database} : st = .file path (.own db) → db.rows = []

namespace Session

/-! ### Records of a session -/

/-- A record of one of the stores of a session, or of one of the files. -/
inductive Has (s : Session) (r : Record) : Prop
  | memory {i : StoreId} {rs : MemoryStore} : s.stores[i]? = some (.memory rs) → r ∈ rs → Has s r
  | own {i : StoreId} {path : String} {db : Database} :
      s.stores[i]? = some (.file path (.own db)) → r ∈ db.rows → Has s r
  | file {p : Place} : r ∈ s.disk.table p → Has s r

/-- Where there is one store in memory and nothing on disk, the records are those of the store. -/
theorem mem_of_has {s : Session} {rs : MemoryStore} {r : Record} (stores : s.stores = [.memory rs])
    (disk : s.disk = .initial) (h : s.Has r) : r ∈ rs := by
  cases h with
  | @memory i rs' hs hr =>
    rw [stores] at hs
    match i, hs with
    | 0, rfl => exact hr
  | @own i _ _ hs _ =>
    rw [stores] at hs
    match i, hs with
    | 0, hs => cases hs
  | file hr =>
    rw [disk, Disk.table_initial] at hr
    cases hr

/-- No record of a session leads to an object. -/
def InertRecords (s : Session) : Prop := ∀ r, s.Has r → (Value.dict r.data).Inert

/-- Work that opens stores leads from one session to another: classes, heap and noted lookups are
what they were, and every record was there already. -/
structure Opens (s s' : Session) : Prop where
  catalog : s'.catalog = s.catalog
  heap : s'.heap = s.heap
  lookups : s'.lookups = s.lookups
  has {r : Record} : s'.Has r → s.Has r

/-- A session with another heap. -/
def withHeap (s : Session) (h : Heap) : Session := { s with heap := h }

/-- In a session an action works on stores apart from the entities: it opens stores at most, and it
does the same whatever the heap is. -/
structure Apart {α : Type} (a : Action α) (s : Session) : Prop where
  opens : s.Opens (outcome a s).2
  heap (h : Heap) : outcome a (s.withHeap h) = ((outcome a s).1, (outcome a s).2.withHeap h)

theorem Opens.refl (s : Session) : s.Opens s := ⟨rfl, rfl, rfl, id⟩

theorem Opens.trans {s s' s'' : Session} (h : s.Opens s') (h' : s'.Opens s'') : s.Opens s'' :=
  ⟨h'.catalog.trans h.catalog, h'.heap.trans h.heap, h'.lookups.trans h.lookups,
    fun hr => h.has (h'.has hr)⟩

/-- Where all stores that are new have no records of their own, and tables are the same, no record
is new. -/
theorem Has.of_stores {s s' : Session} {r : Record} (hr : s'.Has r)
    (stores : ∀ (j : StoreId) st, s'.stores[j]? = some st → s.stores[j]? = some st ∨ st.Blank)
    (table : ∀ p, s'.disk.table p = s.disk.table p) : s.Has r := by
  cases hr with
  | memory hs hr =>
    rcases stores _ _ hs with hs | blank
    · exact .memory hs hr
    · rw [blank.memory rfl] at hr
      cases hr
  | own hs hr =>
    rcases stores _ _ hs with hs | blank
    · exact .own hs hr
    · rw [blank.own rfl] at hr
      cases hr
  | file hr => exact .file (table _ ▸ hr)

/-- What keeps classes, heap, lookups, stores and tables opens nothing. -/
theorem opens_of_stores {s s' : Session} (catalog : s'.catalog = s.catalog)
    (heap : s'.heap = s.heap) (lookups : s'.lookups = s.lookups) (stores : s'.stores = s.stores)
    (table : ∀ p, s'.disk.table p = s.disk.table p) : s.Opens s' :=
  ⟨catalog, heap, lookups, fun hr => hr.of_stores (fun _ _ hj => .inl (stores ▸ hj)) table⟩

/-- A store that has no records of its own takes the place of another. -/
theorem opens_setStore (s : Session) (i : StoreId) {st : Store} (blank : st.Blank) :
    s.Opens (s.setStore i st) := by
  refine ⟨rfl, rfl, rfl, fun hr => hr.of_stores (fun j st' hj => ?_) fun _ => rfl⟩
  rw [setStore, List.getElem?_set] at hj
  split at hj
  · split at hj
    · cases hj
      exact .inr blank
    · cases hj
  · exact .inl hj

/-! ### Actions apart from the entities -/

section

variable {α β : Type}

theorem apart_pure (x : α) (s : Session) : Apart (pure x : Action α) s := ⟨.refl s, fun _ => rfl⟩

theorem apart_throw (e : Failure) (s : Session) : Apart (throw e : Action α) s :=
  ⟨.refl s, fun _ => rfl⟩

theorem apart_wait (rounds : Nat) (s : Session) : Apart (wait rounds) s :=
  ⟨opens_of_stores rfl rfl rfl rfl fun _ => rfl, fun _ => rfl⟩

/-- An action made of two is apart from the entities if both are. -/
theorem Apart.bind {a : Action α} {f : α → Action β} {s : Session} (ha : Apart a s)
    (hf : ∀ x s₁, outcome a s = (.ok x, s₁) → Apart (f x) s₁) : Apart (a >>= f) s := by
  obtain ⟨opens, heap⟩ := ha
  rcases hrun : outcome a s with ⟨e | x, s₁⟩ <;> rw [hrun] at opens heap
  · refine ⟨?_, fun h => ?_⟩
    · rw [outcome_bind_error hrun]
      exact opens
    · rw [outcome_bind_error hrun, outcome_bind_error (heap h)]
  · refine ⟨?_, fun h => ?_⟩
    · rw [outcome_bind_ok hrun]
      exact opens.trans (hf x s₁ hrun).opens
    · rw [outcome_bind_ok hrun, outcome_bind_ok (heap h)]
      exact (hf x s₁ hrun).heap h

theorem Apart.attempt {a : Action α} {s : Session} (ha : Apart a s) : Apart (attempt a) s := by
  refine ⟨?_, fun h => ?_⟩
  · rw [outcome_attempt]
    exact ha.opens
  · rw [outcome_attempt, outcome_attempt, ha.heap]

/-- An action is apart from the entities if it does, whatever the heap, what another does in a
session the stores of which have been opened. -/
theorem apart_of_steps {a k : Action α} {s : Session} (s₁ : Session) (opens : s.Opens s₁)
    (hk : Apart k s₁)
    (run : ∀ h, outcome a (s.withHeap h) = outcome k (s₁.withHeap h)) : Apart a s := by
  have same : outcome a s = outcome k s₁ := by
    have there : outcome a s = outcome k (s₁.withHeap s.heap) := run s.heap
    rw [there, ← opens.heap]
    rfl
  refine ⟨?_, fun h => ?_⟩
  · rw [same]
    exact opens.trans hk.opens
  · rw [same, run, hk.heap]

/-- An action is apart from the entities if it does what another does. -/
theorem apart_of_outcome {a k : Action α} {s : Session} (hk : Apart k s)
    (run : ∀ h, outcome a (s.withHeap h) = outcome k (s.withHeap h)) : Apart a s :=
  apart_of_steps s (.refl s) hk run

end

/-! ### Opening and connecting -/

/-- A connection that turns out to be unusable fails apart from the entities. -/
theorem apart_linked (link : Link) (s : Session) : Apart (match link with
    | .unusable => throw (.blocked .cannotOpen)
    | _ => pure () : Action Unit) s := by
  cases link with
  | unusable => exact apart_throw _ s
  | _ => exact apart_pure _ s

/-- A store is connected apart from the entities. -/
theorem apart_connect (i : StoreId) (s : Session) : Apart (connect i) s := by
  cases hs : s.store i with
  | memory rs =>
    refine apart_of_outcome (apart_pure () s) fun h => ?_
    have there : (s.withHeap h).store i = .memory rs := hs
    rw [connect, outcome_get_bind, there]
  | file path link =>
    have there : ∀ h, (s.withHeap h).store i = .file path link := fun _ => hs
    have tables := (Disk.saves_connect s.disk path).table
    rcases hc : s.disk.connect path with ⟨b | link', d⟩ <;> rw [hc] at tables
    · refine apart_of_steps { s with disk := d } (opens_of_stores rfl rfl rfl rfl tables)
        ((apart_wait (if b = .cannotOpen then 1 else 0) _).bind
          fun _ s₁ _ => apart_throw (.blocked b) s₁) fun h => ?_
      have found : (s.withHeap h).disk.connect path = (.error b, d) := hc
      rw [connect, outcome_get_bind, there]
      dsimp only
      rw [found]
      rfl
    · have blank : (Store.file path link').Blank := by
        refine ⟨@fun _ heq => ?_, fun heq => ?_⟩ <;> cases heq
        rcases Disk.exists_database_of_connect hc with ⟨-, hl⟩ | hl | ⟨hl, -⟩ <;> cases hl
        rfl
      have reached : s.Opens { s with disk := d } := opens_of_stores rfl rfl rfl rfl tables
      refine apart_of_steps _ (reached.trans (opens_setStore _ i blank))
        ((apart_wait (roundsToConnect s.disk link') _).bind fun _ s₁ _ => apart_linked link' s₁)
        fun h => ?_
      have found : (s.withHeap h).disk.connect path = (.ok link', d) := hc
      rw [connect, outcome_get_bind, there]
      dsimp only
      rw [found]
      rfl

/-- Settings are read apart from the entities. -/
theorem apart_currentSettings (s : Session) : Apart currentSettings s := by
  cases hs : s.settings with
  | some x =>
    refine apart_of_outcome (apart_pure x s) fun h => ?_
    have there : (s.withHeap h).settings = some x := hs
    rw [currentSettings, outcome_get_bind, there]
  | none =>
    have there : ∀ h, (s.withHeap h).settings = none := fun _ => hs
    cases hx : Settings.read [] s.environment [] with
    | error e =>
      refine apart_of_outcome (apart_throw e s) fun h => ?_
      have fails : Settings.read [] (s.withHeap h).environment [] = .error e := hx
      rw [currentSettings, outcome_get_bind, there]
      dsimp only
      rw [fails]
      rfl
    | ok x =>
      refine apart_of_steps { s with settings := some x }
        (opens_of_stores rfl rfl rfl rfl fun _ => rfl) (apart_pure x _) fun h => ?_
      have given : Settings.read [] (s.withHeap h).environment [] = .ok x := hx
      rw [currentSettings, outcome_get_bind, there]
      dsimp only
      rw [given]
      rfl

/-- A store that has no records is opened apart from the entities. -/
theorem apart_openStore {st : Store} (blank : st.Blank) (s : Session) : Apart (openStore st) s := by
  refine apart_of_steps { s with stores := s.stores ++ [st] }
    ⟨rfl, rfl, rfl, fun hr => hr.of_stores (fun j st' hj => ?_) fun _ => rfl⟩
    (apart_pure s.stores.length _) fun _ => rfl
  have there : (s.stores ++ [st])[j]? = some st' := hj
  rw [List.getElem?_append] at there
  split at there
  · exact .inl there
  · obtain rfl := List.mem_singleton.1 (List.mem_of_getElem? there)
    exact .inr blank

theorem blank_storeFor (x : Settings) : (storeFor x).Blank := by
  unfold storeFor
  cases x.backend with
  | memory => exact ⟨fun h => by cases h; rfl, nofun⟩
  | sqlite => exact ⟨nofun, nofun⟩

/-- It is noted apart from the entities that a store is shared, and how its connection ended. -/
theorem apart_noteShared (i : StoreId) (time now : Instant) (r : Except Failure Unit)
    (s : Session) :
    Apart (modify fun s : Session =>
      { s with
        now
        shared := some ⟨i, time, s.now, match r with
          | .ok () => none
          | .error f => some f⟩ } : Action PUnit) s :=
  ⟨opens_of_stores rfl rfl rfl rfl fun _ => rfl, fun _ => rfl⟩

/-- The shared store is opened apart from the entities. -/
theorem apart_openShared (time : Instant) (s : Session) : Apart (openShared time) s := by
  refine (apart_currentSettings s).bind fun x s₁ _ =>
    (apart_openStore (blank_storeFor x) s₁).bind fun i s₂ _ => ?_
  refine apart_of_steps { s₂ with now := time }
    (opens_of_stores rfl rfl rfl rfl fun _ => rfl)
    ((apart_connect i _).attempt.bind fun r s₃ _ => apart_noteShared i time s₂.now r s₃) fun h => ?_
  have start : ({ s₂.withHeap h with now := time } : Session) =
      ({ s₂ with now := time } : Session).withHeap h := rfl
  rw [outcome_get_bind]
  dsimp only
  rw [outcome_modify_bind, start, outcome_bind_ok (outcome_attempt _ _),
    outcome_bind_ok (outcome_attempt _ _)]
  rcases outcome (connect i) (({ s₂ with now := time } : Session).withHeap h) with
    ⟨e | r, s₃⟩ <;> rfl

/-- How the connection of the shared store ended is told apart from the entities. -/
theorem apart_answerShared (sh : Shared) (s : Session) : Apart (match sh.failure? with
    | some f => throw f
    | none => pure sh.store : Action StoreId) s := by
  cases sh.failure? with
  | some f => exact apart_throw f s
  | none => exact apart_pure _ s

/-- The shared store is waited for apart from the entities. -/
theorem apart_joinShared (s : Session) : Apart joinShared s := by
  cases hs : s.shared with
  | none =>
    refine apart_of_outcome (apart_throw .notConnected s) fun h => ?_
    have there : (s.withHeap h).shared = none := hs
    rw [joinShared, outcome_get_bind, there]
  | some sh =>
    refine apart_of_steps { s with now := sh.ready, shared := some { sh with failure? := none } }
      (opens_of_stores rfl rfl rfl rfl fun _ => rfl) (apart_answerShared sh _) fun h => ?_
    have there : (s.withHeap h).shared = some sh := hs
    rw [joinShared, outcome_get_bind, there]
    rfl

/-- The shared store is made ready apart from the entities. -/
theorem apart_sharedStore (s : Session) : Apart sharedStore s := by
  have anew : ∀ time, Apart (do openShared time; joinShared) s :=
    fun time => (apart_openShared time s).bind fun _ s₁ _ => apart_joinShared s₁
  cases hq : s.survey with
  | some asked =>
    refine apart_of_steps
      { s with survey := some (s.now :: asked), now := s.now.after sharedStore.never }
      (opens_of_stores rfl rfl rfl rfl fun _ => rfl) (apart_throw .notConnected _) fun h => ?_
    have there : (s.withHeap h).survey = some asked := hq
    rw [sharedStore, outcome_get_bind, there]
    rfl
  | none =>
    have alone : ∀ h, (s.withHeap h).survey = none := fun _ => hq
    cases hs : s.shared with
    | none =>
      refine apart_of_outcome (anew s.now) fun h => ?_
      have there : (s.withHeap h).shared = none := hs
      rw [sharedStore, outcome_get_bind, alone, there]
      rfl
    | some sh =>
      have ready : Apart (if sh.opened.before s.now then pure sh.store
          else if sh.opened = s.now then joinShared
          else do openShared s.now; joinShared) s := by
        split
        · exact apart_pure _ s
        · split
          · exact apart_joinShared s
          · exact anew s.now
      refine apart_of_outcome ready fun h => ?_
      have there : (s.withHeap h).shared = some sh := hs
      rw [sharedStore, outcome_get_bind, alone, there]
      rfl

/-- **The store of a class is made ready apart from the entities.** -/
theorem apart_storeOf (cls : ClassId) (s : Session) : Apart (storeOf cls) s := by
  cases hi : s.catalog.assignedStore? cls with
  | some i =>
    refine apart_of_outcome (apart_pure i s) fun h => ?_
    have there : (s.withHeap h).catalog.assignedStore? cls = some i := hi
    rw [storeOf, outcome_get_bind, there]
  | none =>
    refine apart_of_outcome (apart_sharedStore s) fun h => ?_
    have there : (s.withHeap h).catalog.assignedStore? cls = none := hi
    rw [storeOf, outcome_get_bind, there]

/-! ### Reading records -/

section

variable {s : Session} {id : Value} {i : StoreId} {kind : String}

theorem Opens.inertRecords {s' : Session} (h : s.Opens s') (inert : s.InertRecords) :
    s'.InertRecords := fun r hr => inert r (h.has hr)

/-- An identifier that leads to no object is shown apart from the entities. -/
theorem apart_textOf (hid : id.Inert) (s : Session) : Apart (textOf id) s := by
  refine ⟨.refl s, fun h => ?_⟩
  rw [outcome_textOf, outcome_textOf, Method.toText_of_inert _ _ hid,
    Method.toText_of_inert _ _ hid]

/-- The rows of a file are read apart from the entities, and they are among the records. -/
theorem apart_rows {path : String} {link : Link} (hs : s.stores[i]? = some (.file path link)) :
    Apart (rows i) s ∧ ∀ t, (outcome (rows i) s).1 = .ok t → ∀ r ∈ t, s.Has r := by
  have linked : s.linkOf i = .closed ∨ s.linkOf i = link := by
    rw [linkOf, store_eq hs]
    dsimp only
    split
    · exact .inl rfl
    · exact .inr rfl
  have there : ∀ h, (s.withHeap h).linkOf i = s.linkOf i := fun _ => rfl
  have waits : s.Opens { s with now := s.now.after 1 } :=
    opens_of_stores rfl rfl rfl rfl fun _ => rfl
  constructor
  · constructor
    · rw [outcome_rows]
      split
      · exact .refl s
      · exact waits
      · split
        · exact .refl s
        · exact waits
    · intro h
      rw [outcome_rows, outcome_rows, there]
      split
      · rfl
      · rfl
      · rw [show (s.withHeap h).database = s.database from rfl]
        split <;> rfl
  · intro t ht r hr
    rw [outcome_rows] at ht
    cases hl : s.linkOf i with
    | closed => rw [hl] at ht; cases ht
    | unusable => rw [hl] at ht; cases ht
    | own db =>
      obtain rfl := (linked.resolve_left (by simp [hl])).symm.trans hl
      rw [hl] at ht
      dsimp only at ht
      split at ht
      · next table =>
        cases ht
        exact .own hs (Database.rows_of_records? table ▸ hr)
      · cases ht
    | file p =>
      rw [hl] at ht
      dsimp only at ht
      split at ht
      · next table =>
        cases ht
        exact .file (Database.rows_of_records? table ▸ hr)
      · cases ht

/-- What a store in memory keeps is a record of the session. -/
theorem has_of_store {rs : MemoryStore} {r : Record} (hs : s.store i = .memory rs) (hr : r ∈ rs) :
    s.Has r := by
  rw [Session.store] at hs
  cases hi : s.stores[i]? with
  | none =>
    rw [hi] at hs
    cases hs
    cases hr
  | some st =>
    rw [hi] at hs
    cases hs
    exact .memory hi hr

/-- What a record in memory is read as is a copy of its data. -/
theorem outcome_fetchRecord_memory {rs : MemoryStore} {name : String} (hs : s.store i = .memory rs)
    (named : outcome (textOf id) s = (.ok name, s)) :
    outcome (fetchRecord i (.str kind) id) s =
      outcome (match MemoryStore.get? rs ⟨.text kind, name⟩ with
        | none => pure none
        | some data => do pure (some (← copy (.dict data)))) s := by
  rw [fetchRecord, outcome_bind_ok named, outcome_get_bind, hs]
  rfl

/-- The data that are filed under a kind and an identifier, as the store keeps them. -/
def filedRecord (i : StoreId) (kind id : Value) : Action (Option Value) := do
  let name ← textOf id
  let s ← get
  match s.store i with
  | .memory records => do
    let kind? ← ofExcept (searchedKind s.heap kind)
    pure ((kind?.bind fun k => MemoryStore.get? records ⟨k, name⟩).map Value.dict)
  | .file _ _ => do
    let t ← rows i
    let k ← bound (Kind.bind kind)
    wait 2
    pure ((t.get? k name).map Value.dict)

/-- What a store in memory gives out of the data that it keeps. -/
def copyOut (data? : Option Value) : Action (Option Value) :=
  match data? with
  | none => pure none
  | some d => do pure (some (← copy d))

/-- **To read a record is to look up what is filed**, and to copy it if it is in memory. -/
theorem outcome_fetchRecord (i : StoreId) (kind id : Value) (s : Session) :
    outcome (fetchRecord i kind id) s =
      match s.store i with
      | .memory _ => outcome (filedRecord i kind id >>= copyOut) s
      | .file _ _ => outcome (filedRecord i kind id) s := by
  rw [fetchRecord, filedRecord, outcome_bind _ _ s, outcome_bind _ copyOut s, outcome_bind _ _ s,
    outcome_textOf]
  cases Method.toText s.catalog s.heap id with
  | error e => cases s.store i <;> rfl
  | ok name =>
    dsimp only
    rw [outcome_get_bind, outcome_get_bind]
    cases hs : s.store i with
    | memory rs =>
      dsimp only
      rw [outcome_bind _ _ s, outcome_bind _ _ s, outcome_ofExcept]
      cases searchedKind s.heap kind with
      | error e => rfl
      | ok kind? =>
        dsimp only
        rw [outcome_pure]
        cases kind?.bind fun k => MemoryStore.get? rs ⟨k, name⟩ <;> rfl
    | file path link => rfl

/-- What is done with a record that is read is done with what is filed, once it is copied if it is
in memory. -/
theorem outcome_fetchRecord_bind {β : Type} (i : StoreId) (kind id : Value) (s : Session)
    (k : Option Value → Action β) : outcome (fetchRecord i kind id >>= k) s =
      outcome (filedRecord i kind id >>= fun d? =>
        match d? with
        | none => k none
        | some d => (if s.inFile i then pure d else copy d) >>= fun w => k (some w)) s := by
  rw [outcome_bind, outcome_bind, outcome_fetchRecord, inFile]
  cases s.store i with
  | memory rs =>
    dsimp only
    rw [outcome_bind]
    rcases outcome (filedRecord i kind id) s with ⟨e | d?, s₁⟩
    · rfl
    · cases d? with
      | none => rfl
      | some d => exact (outcome_bind (copyOut (some d)) k s₁).symm
  | file path link =>
    dsimp only
    rcases outcome (filedRecord i kind id) s with ⟨e | d?, s₁⟩
    · rfl
    · cases d? <;> rfl

/-- **What is filed is looked up apart from the entities.** -/
theorem apart_filedRecord (hid : id.Inert) :
    Apart (filedRecord i (.str kind) id) s ∧
      ∀ d, (outcome (filedRecord i (.str kind) id) s).1 = .ok (some d) →
        ∃ r, s.Has r ∧ r.key = ⟨.text kind, id.toText⟩ ∧ d = .dict r.data := by
  have named : ∀ h, outcome (textOf id) (s.withHeap h) = (.ok id.toText, s.withHeap h) := by
    intro h
    rw [outcome_textOf, Method.toText_of_inert _ _ hid]
  cases hs : s.store i with
  | memory rs =>
    have run : ∀ h, outcome (filedRecord i (.str kind) id) (s.withHeap h) =
        outcome (pure ((MemoryStore.get? rs ⟨.text kind, id.toText⟩).map .dict))
          (s.withHeap h) := by
      intro h
      have there : (s.withHeap h).store i = .memory rs := hs
      rw [filedRecord, outcome_bind_ok (named h), outcome_get_bind, there]
      rfl
    refine ⟨apart_of_outcome (apart_pure _ s) run, fun d hd => ?_⟩
    have told := Except.ok.inj ((congrArg Prod.fst (run s.heap)).symm.trans hd)
    obtain ⟨data, hdata, rfl⟩ := Option.map_eq_some_iff.1 told
    obtain ⟨r, hr, rfl⟩ := Option.map_eq_some_iff.1 hdata
    have key : r.key = ⟨.text kind, id.toText⟩ := by simpa using List.find?_some hr
    exact ⟨r, has_of_store hs (List.mem_of_find?_eq_some hr), key, rfl⟩
  | file path link =>
    have there : s.stores[i]? = some (.file path link) := by
      rw [Session.store] at hs
      cases hi : s.stores[i]? with
      | none =>
        rw [hi] at hs
        cases hs
      | some st =>
        rw [hi] at hs
        exact congrArg some hs
    have run : ∀ h, outcome (filedRecord i (.str kind) id) (s.withHeap h) = outcome (do
        let t ← rows i
        wait 2
        pure ((FileTable.get? t (some (.text kind)) id.toText).map Value.dict)) (s.withHeap h) := by
      intro h
      have there : (s.withHeap h).store i = .file path link := hs
      rw [filedRecord, outcome_bind_ok (named h), outcome_get_bind, there]
      rfl
    -- the rows are the same for every heap, and what is told of them is no object
    obtain ⟨apart, rows⟩ := apart_rows there
    refine ⟨apart_of_outcome (apart.bind fun t s₁ _ => (apart_wait 2 s₁).bind
      fun _ s₂ _ => apart_pure _ s₂) run, fun d hd => ?_⟩
    replace hd := (congrArg Prod.fst (run s.heap)).symm.trans hd
    rcases hrows : outcome (Session.rows i) s with ⟨e | t, s₁⟩
    · rw [show s.withHeap s.heap = s from rfl, outcome_bind_error hrows] at hd
      cases hd
    · rw [show s.withHeap s.heap = s from rfl, outcome_bind_ok hrows] at hd
      obtain ⟨data, hdata, rfl⟩ := Option.map_eq_some_iff.1 (Except.ok.inj hd)
      obtain ⟨r, hr, rfl⟩ := Option.map_eq_some_iff.1 hdata
      have key : r.key = ⟨.text kind, id.toText⟩ := FileTable.key_of_row? hr
      exact ⟨r, rows t (congrArg Prod.fst hrows) r (List.mem_of_find?_eq_some hr), key, rfl⟩

/-- **A record is read apart from the entities**, if no record leads to an object. -/
theorem apart_fetchRecord (inert : s.InertRecords) (hid : id.Inert) :
    Apart (fetchRecord i (.str kind) id) s ∧
      ∀ d, (outcome (fetchRecord i (.str kind) id) s).1 = .ok (some d) →
        ∃ r, s.Has r ∧ r.key = ⟨.text kind, id.toText⟩ ∧ d = .dict r.data := by
  obtain ⟨apart, filed⟩ := @apart_filedRecord s id i kind hid
  -- a copy of what leads to no object is the same
  have same : ∀ h, outcome (fetchRecord i (.str kind) id) (s.withHeap h) =
      outcome (filedRecord i (.str kind) id) (s.withHeap h) := by
    intro h
    rw [outcome_fetchRecord, show (s.withHeap h).store i = s.store i from rfl]
    cases s.store i with
    | file path link => rfl
    | memory rs =>
      dsimp only
      rw [outcome_bind, apart.heap]
      rcases hrun : outcome (filedRecord i (.str kind) id) s with ⟨e | d?, s'⟩
      · rfl
      · cases d? with
        | none => rfl
        | some d =>
          obtain ⟨r, hr, -, rfl⟩ := filed d (congrArg Prod.fst hrun)
          dsimp only [copyOut]
          rw [outcome_bind_ok (outcome_copy (inert r hr))]
          rfl
  refine ⟨apart_of_outcome apart same, fun d hd => filed d ?_⟩
  exact (congrArg Prod.fst (same s.heap)).symm.trans hd

/-- The record of a class under an identifier, if there is one: what is loaded to find an entity of
a class that has no lookup of its own. -/
def seekRecord (cls : ClassId) (id : Value) : Action (Option Value) := do
  let g := (← get).catalog
  let st ← storeOf cls
  let name ← textOf id
  fetchRecord st (.str (g.kindOf cls)) (.str name)

theorem outcome_seekRecord (cls : ClassId) (id : Value) (s : Session) :
    outcome (seekRecord cls id) s = outcome (do
      let st ← storeOf cls
      let name ← textOf id
      fetchRecord st (.str (s.catalog.kindOf cls)) (.str name)) s := by
  rw [seekRecord, outcome_get_bind]

/-- **A record is sought apart from the entities**, if no record leads to an object. -/
theorem apart_seekRecord (inert : s.InertRecords) (hid : id.Inert) (cls : ClassId) :
    Apart (seekRecord cls id) s ∧
      ∀ d, (outcome (seekRecord cls id) s).1 = .ok (some d) → ∃ r, s.Has r ∧
        r.key = ⟨.text (s.catalog.kindOf cls), id.toText⟩ ∧ d = .dict r.data := by
  have ready := apart_storeOf cls s
  have run : ∀ h, outcome (seekRecord cls id) (s.withHeap h) = outcome (do
      let st ← storeOf cls
      let name ← textOf id
      fetchRecord st (.str (s.catalog.kindOf cls)) (.str name)) (s.withHeap h) :=
    fun h => outcome_seekRecord cls id (s.withHeap h)
  have fetched : ∀ (st : StoreId) (s₁ : Session), s.Opens s₁ →
      Apart (fetchRecord st (.str (s.catalog.kindOf cls)) (.str id.toText)) s₁ ∧
        ∀ d, (outcome (fetchRecord st (.str (s.catalog.kindOf cls)) (.str id.toText)) s₁).1 =
          .ok (some d) → ∃ r, s₁.Has r ∧ r.key = ⟨.text (s.catalog.kindOf cls), id.toText⟩ ∧
            d = .dict r.data := fun st s₁ opens =>
    apart_fetchRecord (opens.inertRecords inert) (Value.inert_str id.toText)
  have named : ∀ s, outcome (textOf id) s = (.ok id.toText, s) := by
    intro s
    rw [outcome_textOf, Method.toText_of_inert _ _ hid]
  refine ⟨apart_of_outcome (ready.bind fun st s₁ hst => (apart_textOf hid s₁).bind
    fun name s₂ hname => ?_) run, fun d hd => ?_⟩
  · have opens : s.Opens s₁ := by
      have := ready.opens
      rwa [hst] at this
    cases (named s₁).symm.trans hname
    exact (fetched st s₁ opens).1
  · rw [outcome_seekRecord] at hd
    rcases hst : outcome (Session.storeOf cls) s with ⟨e | st, s₁⟩
    · rw [outcome_bind_error hst] at hd
      cases hd
    · have opens : s.Opens s₁ := by
        have := ready.opens
        rwa [hst] at this
      rw [outcome_bind_ok hst, outcome_bind_ok (named s₁)] at hd
      obtain ⟨r, hr, key, rfl⟩ := (fetched st s₁ opens).2 d hd
      exact ⟨r, opens.has hr, key, rfl⟩

/-- A class without a lookup of its own loads the record that it finds. -/
theorem outcome_findWith {load : ClassId → Value → Action Value} {cls : ClassId}
    (own : s.catalog.lookupOf? cls = none) :
    outcome (Loading.findWith load cls id) s = outcome (seekRecord cls id >>= fun record? =>
      match record? with
      | none => pure .null
      | some record => load cls record) s := by
  rw [Loading.findWith, outcome_get_bind]
  simp only [own]
  rw [outcome_bind _ _ s, outcome_bind (seekRecord cls id), outcome_seekRecord, outcome_bind _ _ s]
  rcases outcome (storeOf cls) s with ⟨e | st, s₁⟩
  · rfl
  · dsimp only
    rw [outcome_bind, outcome_bind]
    rcases outcome (textOf id) s₁ with ⟨e | name, s₂⟩
    · rfl
    · dsimp only
      exact outcome_bind _ _ s₂

/-- An entity is found by what its identifier is shown as. -/
theorem outcome_findWith_of_text {load : ClassId → Value → Action Value} {cls : ClassId}
    (own : s.catalog.lookupOf? cls = none) {name : String}
    (shown : Method.toText s.catalog s.heap id = .ok name) :
    outcome (Loading.findWith load cls id) s =
      outcome (Loading.findWith load cls (.str name)) s := by
  rw [outcome_findWith own, outcome_findWith own, outcome_bind, outcome_bind, outcome_seekRecord,
    outcome_seekRecord, outcome_bind, outcome_bind]
  have opens := (apart_storeOf cls s).opens
  rcases hst : outcome (storeOf cls) s with ⟨e | st, s₁⟩
  · rfl
  · rw [hst] at opens
    have named : outcome (textOf id) s₁ = outcome (textOf (.str name)) s₁ := by
      rw [outcome_textOf, outcome_textOf, opens.catalog, opens.heap, shown,
        Method.toText_of_inert _ _ (Value.inert_str name)]
      rfl
    dsimp only
    rw [outcome_bind, outcome_bind, named]

/-- Nothing is loaded for an identifier that cannot be shown. -/
theorem outcome_findWith_of_textless {load load' : ClassId → Value → Action Value} {cls : ClassId}
    (own : s.catalog.lookupOf? cls = none) {e : Failure}
    (unshown : Method.toText s.catalog s.heap id = .error e) :
    outcome (Loading.findWith load cls id) s = outcome (Loading.findWith load' cls id) s := by
  rw [outcome_findWith own, outcome_findWith own, outcome_bind, outcome_bind, outcome_seekRecord,
    outcome_bind]
  have opens := (apart_storeOf cls s).opens
  rcases hst : outcome (storeOf cls) s with ⟨e | st, s₁⟩
  · rfl
  · rw [hst] at opens
    have named : outcome (textOf id) s₁ = (.error e, s₁) := by
      rw [outcome_textOf, opens.catalog, opens.heap, unshown]
    dsimp only
    rw [outcome_bind_error named]

/-- The session in which an action begins that asks for the shared store first at an instant, if it
does: the store may have to be opened for it. -/
def arranged (s : Session) (asked? : Option Instant) : Session :=
  match asked?, s.shared with
  | none, _ => s
  | some time, none => (outcome (openShared time) s).2
  | some time, some sh => if s.now.before sh.opened then (outcome (openShared time) s).2 else s

/-- An action in whose course the shared store may be opened begins where it has been opened. -/
theorem outcome_arrange {α : Type} (a : Action α) (s : Session) :
    outcome (arrange a) s = outcome a (s.arranged (firstRequest? a s)) := by
  have opened : ∀ time, outcome (discard (attempt (openShared time)) >>= fun _ => a) s =
      outcome a (outcome (openShared time) s).2 := fun time => by
    rw [outcome_bind_ok (outcome_discard_ok (outcome_attempt _ s))]
  rw [arrange, outcome_get_bind]
  unfold arranged
  cases firstRequest? a s with
  | none => cases s.shared with
    | none => rfl
    | some sh => cases hb : s.now.before sh.opened <;> simp [hb]
  | some time => cases s.shared with
    | none => exact opened time
    | some sh =>
      dsimp only
      cases hb : s.now.before sh.opened with
      | false => simp
      | true => exact opened time

/-- The shared store is opened apart from the entities. -/
theorem opens_arranged (s : Session) (asked? : Option Instant) :
    s.Opens (s.arranged asked?) ∧
      ∀ h, (s.withHeap h).arranged asked? = (s.arranged asked?).withHeap h := by
  have opened := fun time => apart_openShared time s
  have there : ∀ h, (s.withHeap h).shared = s.shared ∧ (s.withHeap h).now = s.now :=
    fun _ => ⟨rfl, rfl⟩
  unfold arranged
  simp only [there]
  cases asked? with
  | none => exact ⟨.refl s, fun _ => rfl⟩
  | some time => cases s.shared with
    | none => exact ⟨(opened time).opens, fun h => congrArg Prod.snd ((opened time).heap h)⟩
    | some sh =>
      dsimp only
      cases hb : s.now.before sh.opened with
      | false => exact ⟨.refl s, fun _ => rfl⟩
      | true => exact ⟨(opened time).opens, fun h => congrArg Prod.snd ((opened time).heap h)⟩

end

/-! ### Actions that have a result -/

section

variable {α β : Type}

theorem exists_of_toBool {a : Action α} {s : Session} (h : (outcome a s).1.toBool = true) :
    ∃ x s', outcome a s = (.ok x, s') := by
  rcases hrun : outcome a s with ⟨e | x, s'⟩
  · rw [hrun] at h
    cases h
  · exact ⟨x, s', rfl⟩

theorem outcome_eq_of_isObject {α : Action Value} {s : Session} {a : Address}
    (h : (match (outcome α s).1 with | .ok (.object b) => b == a | _ => false) = true) :
    outcome α s = (.ok (.object a), (outcome α s).2) := by
  rcases hrun : outcome α s with ⟨result, s'⟩
  rw [hrun] at h
  split at h
  · next b heq =>
    cases heq
    rw [beq_iff_eq.1 h]
  · cases h

/-- Where an action made of two has a result, both have one. -/
theorem outcome_bind_eq_ok {a : Action α} {f : α → Action β} {s s' : Session} {y : β}
    (h : outcome (a >>= f) s = (.ok y, s')) :
    ∃ x s₁, outcome a s = (.ok x, s₁) ∧ outcome (f x) s₁ = (.ok y, s') := by
  rcases hrun : outcome a s with ⟨e | x, s₁⟩
  · rw [outcome_bind_error hrun] at h
    cases h
  · rw [outcome_bind_ok hrun] at h
    exact ⟨x, s₁, rfl, h⟩

/-- The same where the first changes nothing. -/
theorem outcome_ofExcept_bind_eq_ok {e : Except Failure α} {f : α → Action β}
    {s s' : Session} {y : β}
    (h : outcome (ofExcept e >>= f) s = (.ok y, s')) :
    ∃ x, e = .ok x ∧ outcome (f x) s = (.ok y, s') := by
  obtain ⟨x, s₁, hx, h⟩ := outcome_bind_eq_ok h
  rw [outcome_ofExcept] at hx
  obtain ⟨rfl, rfl⟩ := Prod.mk.inj hx
  exact ⟨x, rfl, h⟩

/-- Where a computation on the heap has a result, only the heap has changed. -/
theorem exists_of_outcome_build {b : Build α} {s s' : Session} {x : α}
    (h : outcome (build b) s = (.ok x, s')) :
    ∃ h', b s.heap = .ok (x, h') ∧ s' = { s with heap := h' } := by
  rw [build, outcome_get_bind] at h
  cases hb : b s.heap with
  | error e =>
    rw [hb] at h
    cases h
  | ok p =>
    rw [hb] at h
    cases h
    exact ⟨p.2, rfl, rfl⟩

/-- Actions that have a result each, one after the other, whatever the clock shows when they
start. -/
inductive Runs (f : α → Action β) : Session → List α → List β → Session → Prop
  | nil (s : Session) : Runs f s [] [] s
  | cons {s s₁ s₂ : Session} {now : Instant} {x : α} {y : β} {xs : List α} {ys : List β} :
      outcome (f x) { s with now := now } = (.ok y, s₁) → Runs f s₁ xs ys s₂ →
      Runs f s (x :: xs) (y :: ys) s₂

/-- Of outcomes none of which is a failure, the results are the outcome of all. -/
theorem runs_of_branches {f : α → Action β} (start : Instant) {s s' : Session} {ps : List (α × Nat)}
    {outcomes : List (Except Failure β × Instant)}
    (h : outcome (ps.mapM fun p => branch start p.2 (f p.1)) s = (.ok outcomes, s'))
    {ys : List β} (hys : outcomes.mapM (fun o => o.1) = .ok ys) :
    Runs f s (ps.map Prod.fst) ys s' := by
  induction ps generalizing s outcomes ys with
  | nil =>
    cases h
    cases hys
    exact .nil _
  | cons p ps ih =>
    rw [List.mapM_cons] at h
    obtain ⟨o, s₁, ho, h⟩ := outcome_bind_eq_ok h
    obtain ⟨rest, s₂, hrest, h⟩ := outcome_bind_eq_ok h
    cases h
    rw [List.mapM_cons] at hys
    obtain ⟨y, hy, hys⟩ := bind_eq_ok.1 hys
    obtain ⟨ys', hys', hys⟩ := bind_eq_ok.1 hys
    cases hys
    rw [branch, outcome_modify_bind, outcome_bind_ok (outcome_attempt _ _)] at ho
    cases ho
    exact .cons (Prod.ext hy rfl) (ih hrest hys')

/-- **Where actions side by side have results, each has its result after those before it.** -/
theorem runs_of_gather {f : α → Action β} {xs : List α} {ys : List β} {s s' : Session}
    (h : outcome (gather f xs) s = (.ok ys, s')) :
    ∃ s₁, Runs f s xs ys s₁ ∧ s' = { s₁ with now := s'.now } := by
  cases xs with
  | nil =>
    cases h
    exact ⟨s, .nil s, rfl⟩
  | cons x xs =>
    rw [gather, List.isEmpty_cons, if_neg Bool.false_ne_true, outcome_get_bind] at h
    obtain ⟨outcomes, s₁, hrun, h⟩ := outcome_bind_eq_ok h
    rw [outcome_modify_bind, outcome_ofExcept] at h
    obtain ⟨settled, rfl⟩ := Prod.mk.inj h
    refine ⟨s₁, ?_, rfl⟩
    have results : outcomes.mapM (fun o => o.1) = .ok ys := by
      rw [settle] at settled
      split at settled
      · cases settled
      · exact settled
    have runs := runs_of_branches s.now hrun results
    rwa [List.zipIdx_map_fst] at runs

end

end Session

end EntitySchema
