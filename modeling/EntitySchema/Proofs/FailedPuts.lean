/-
**Puts that fail.**

A put takes the old record away before it writes the new one.  In a file both are one change, so if
the new record cannot be written the old one is there again: nothing but time has passed.  In memory
the new record is copied when the old one is gone.  A record that is found to be one and cannot be
copied is the only thing that does harm; what was filed under its key is lost, and all the rest
stays.

Main definitions:

* `Session.Query` — what is asked of the records of a store;
* `Session.Query.Alike` — **a query that has the same answer in two sessions**, new objects
  included;
* `Session.HasTable` — a store whose file has its table, if it is linked to one;
* `Session.Idles` — a session that goes on to another while nothing becomes of its stores;
* `Session.Rests` — a session in which only time passes;
* `Session.lost` — the key whose record a put loses if it fails.

Main results:

* `Session.Query.alike` — what queries answer depends on the records, and on the objects in them;
* `Session.putRecord_error` — what a put that fails leaves behind;
* `Session.alike_of_putRecord_error` — **a put that fails leaves all answers as they were**, unless
  it loses a record.
-/

import EntitySchema.Proofs.Reopening

set_option autoImplicit false

namespace EntitySchema

namespace Session

/-! ### Queries -/

/-- What is asked of the records of a store. -/
inductive Query where
  | fetch (kind id : Value)
  | list (kind limit offset : Value)
  | count (kind : Value)

/-- What a query answers. -/
def Query.perform (i : StoreId) : Query → Action (List Value)
  | .fetch kind id => do pure (← fetchRecord i kind id).toList
  | .list kind limit offset => listRecords i kind limit offset
  | .count kind => do pure [.int (← countRecords i kind)]

/-- A query has the same answer in two sessions, and the objects that are made for the answer are
the same. -/
structure Query.Alike (q : Query) (i : StoreId) (s s' : Session) : Prop where
  answer : (outcome (q.perform i) s').1 = (outcome (q.perform i) s).1
  made : ∀ b, s.heap.length ≤ b →
    (outcome (q.perform i) s').2.heap.get b = (outcome (q.perform i) s).2.heap.get b

/-- The identifier that a query asks for, if it does, has the same text in two sessions. -/
def Query.Names (q : Query) (s s' : Session) : Prop :=
  match q with
  | .fetch _ id => Method.toText s'.catalog s'.heap id = Method.toText s.catalog s.heap id
  | _ => True

/-- A store has the same records in two sessions: the same in memory, or those of the table that it
is connected to, if there is one. -/
inductive Offers (i : StoreId) (s s' : Session) : Prop
  | memory {rs : MemoryStore} : s.store i = .memory rs → s'.store i = .memory rs → Offers i s s'
  | file {path path' : String} {link link' : Link} : s.store i = .file path link →
      s'.store i = .file path' link' → s'.linkOf i = s.linkOf i →
      (s'.database (s.linkOf i)).records? = (s.database (s.linkOf i)).records? → Offers i s s'

/-! ### The same work in two sessions -/

section

variable {α β : Type} {R : Heap → Heap → Prop} {s s' : Session}

/-- An action in one session has the same result as an action in another, and the heaps of the two
go on to be related. -/
structure SameWork (R : Heap → Heap → Prop) (a : Action α) (s : Session) (a' : Action α)
    (s' : Session) : Prop where
  result : (outcome a' s').1 = (outcome a s).1
  heap : R (outcome a s).2.heap (outcome a' s').2.heap

/-- The same is done after the same work. -/
theorem SameWork.bind {a a' : Action α} {f f' : α → Action β} (ha : SameWork R a s a' s')
    (hf : ∀ x t t', outcome a s = (.ok x, t) → outcome a' s' = (.ok x, t') → R t.heap t'.heap →
      SameWork R (f x) t (f' x) t') : SameWork R (a >>= f) s (a' >>= f') s' := by
  obtain ⟨result, heap⟩ := ha
  rcases hrun : outcome a s with ⟨r, t⟩
  rcases hrun' : outcome a' s' with ⟨r', t'⟩
  rw [hrun, hrun'] at result heap
  cases result
  cases r with
  | error e =>
    refine ⟨?_, ?_⟩ <;> rw [outcome_bind_error hrun, outcome_bind_error hrun']
    exact heap
  | ok x =>
    obtain ⟨same, after⟩ := hf x t t' hrun hrun' heap
    refine ⟨?_, ?_⟩ <;> rw [outcome_bind_ok hrun, outcome_bind_ok hrun']
    · exact same
    · exact after

/-- What is done may depend on the session. -/
theorem SameWork.get {f f' : Session → Action α} (h : SameWork R (f s) s (f' s') s') :
    SameWork R (get >>= f) s (get >>= f') s' := ⟨h.result, h.heap⟩

theorem sameWork_pure (x : α) (h : R s.heap s'.heap) : SameWork R (pure x) s (pure x) s' := ⟨rfl, h⟩

theorem sameWork_ofExcept (e : Except Failure α) (h : R s.heap s'.heap) :
    SameWork R (ofExcept e) s (ofExcept e) s' := ⟨rfl, h⟩

theorem sameWork_wait (rounds : Nat) (h : R s.heap s'.heap) :
    SameWork R (wait rounds) s (wait rounds) s' := ⟨rfl, h⟩

theorem sameWork_bound (e : Except Failure α) (h : R s.heap s'.heap) :
    SameWork R (bound e) s (bound e) s' := by
  cases e <;> exact ⟨rfl, h⟩

/-- Copies of data in related heaps are the same, and the heaps go on to be related. -/
def CopiesAlike (R : Heap → Heap → Prop) (es : Entries) : Prop := ∀ h h', R h h' →
  (h'.copy (.dict es)).1 = (h.copy (.dict es)).1 ∧
    R (h.copy (.dict es)).2 (h'.copy (.dict es)).2

theorem CopiesAlike.sameWork {es : Entries} (copies : CopiesAlike R es) (h : R s.heap s'.heap) :
    SameWork R (copy (.dict es)) s (copy (.dict es)) s' := by
  obtain ⟨same, after⟩ := copies _ _ h
  exact ⟨congrArg Except.ok same, after⟩

/-- Data are copied one after the other. -/
theorem sameWork_copies {ds : List Entries} (copies : ∀ es ∈ ds, CopiesAlike R es)
    (h : R s.heap s'.heap) : SameWork R (ds.mapM fun es => copy (.dict es)) s
      (ds.mapM fun es => copy (.dict es)) s' := by
  induction ds generalizing s s' with
  | nil => exact sameWork_pure _ h
  | cons es ds ih =>
    obtain ⟨first, others⟩ := List.forall_mem_cons.1 copies
    rw [List.mapM_cons]
    exact (first.sameWork h).bind fun _ _ _ _ _ ht => (ih others ht).bind fun _ _ _ _ _ ht' =>
      sameWork_pure _ ht'

end

/-! ### Answers that are the same -/

section

variable {R : Heap → Heap → Prop} {s s' : Session} {i : StoreId}

/-- The rows of a table are the same where the store offers the same. -/
theorem sameWork_rows (link : s'.linkOf i = s.linkOf i)
    (table : (s'.database (s.linkOf i)).records? = (s.database (s.linkOf i)).records?)
    (h : R s.heap s'.heap) : SameWork R (rows i) s (rows i) s' := by
  refine ⟨?_, ?_⟩ <;> rw [outcome_rows, outcome_rows, link] <;> split
  · rfl
  · rfl
  · rw [table]
    split <;> rfl
  · exact h
  · exact h
  · rw [table]
    split <;> exact h

/-- What is searched in memory depends on which objects are entities. -/
theorem searchedKind_congr {h h' : Heap} (entities : h'.isEntity = h.isEntity) (kind : Value) :
    searchedKind h' kind = searchedKind h kind := by
  rw [searchedKind, searchedKind, entities]

/-- What a listing holds are the data of records. -/
theorem exists_of_mem_list {rs : MemoryStore} {kind : Kind} {limit offset : Int} {es : Entries}
    (hes : es ∈ MemoryStore.list rs kind limit offset) : ∃ r ∈ rs, r.data = es := by
  have mem := List.mem_of_mem_take (List.mem_of_mem_drop hes)
  obtain ⟨r, hr, same⟩ := List.mem_map.1 mem
  exact ⟨r, List.mem_reverse.1 (List.mem_filter.1 hr).1, same⟩

variable (offers : Offers i s s') (h : R s.heap s'.heap)

include offers h

/-- The same number of records is counted. -/
theorem sameWork_countRecords (kind : Value) :
    SameWork R (countRecords i kind) s (countRecords i kind) s' := by
  refine SameWork.get ?_
  cases offers with
  | memory hs hs' =>
    simp only [hs, hs']
    exact sameWork_pure _ h
  | file hs hs' link table =>
    simp only [hs, hs']
    refine (sameWork_rows link table h).bind fun rows _ _ _ _ h₁ => ?_
    refine (sameWork_bound _ h₁).bind fun x _ _ _ _ h₂ => ?_
    exact (sameWork_wait 2 h₂).bind fun _ _ _ _ _ h₃ => sameWork_pure _ h₃

variable (copies : ∀ rs, s.store i = .memory rs → ∀ r ∈ rs, CopiesAlike R r.data)

include copies

/-- The same record is fetched. -/
theorem sameWork_fetchRecord (entities : s'.heap.isEntity = s.heap.isEntity) (kind : Value)
    {id : Value} (names : Method.toText s'.catalog s'.heap id = Method.toText s.catalog s.heap id) :
    SameWork R (fetchRecord i kind id) s (fetchRecord i kind id) s' := by
  have text : SameWork R (textOf id) s (textOf id) s' := ⟨names, h⟩
  refine text.bind fun name t t' ht ht' _ => ?_
  obtain rfl : s = t := congrArg Prod.snd ht
  obtain rfl : s' = t' := congrArg Prod.snd ht'
  refine SameWork.get ?_
  cases offers with
  | @memory rs hs hs' =>
    simp only [hs, hs', searchedKind_congr entities]
    refine (sameWork_ofExcept _ h).bind fun kind? t t' ht ht' after => ?_
    cases hfound : kind?.bind fun k => MemoryStore.get? rs ⟨k, name⟩ with
    | none => exact sameWork_pure _ after
    | some data =>
      obtain ⟨k, -, hdata⟩ := Option.bind_eq_some_iff.1 hfound
      obtain ⟨r, hr, rfl⟩ := Option.map_eq_some_iff.1 hdata
      exact ((copies rs hs r (List.mem_of_find?_eq_some hr)).sameWork after).bind
        fun _ _ _ _ _ last => sameWork_pure _ last
  | file hs hs' link table =>
    simp only [hs, hs']
    refine (sameWork_rows link table h).bind fun rows _ _ _ _ h₁ => ?_
    refine (sameWork_bound _ h₁).bind fun k _ _ _ _ h₂ => ?_
    exact (sameWork_wait 2 h₂).bind fun _ _ _ _ _ h₃ => sameWork_pure _ h₃

/-- The same records are listed. -/
theorem sameWork_listRecords (kind limit offset : Value) :
    SameWork R (listRecords i kind limit offset) s (listRecords i kind limit offset) s' := by
  refine SameWork.get ?_
  cases offers with
  | @memory rs hs hs' =>
    simp only [hs, hs']
    refine (sameWork_ofExcept _ h).bind fun limit _ _ _ _ h₁ => ?_
    refine (sameWork_ofExcept _ h₁).bind fun offset _ _ _ _ h₂ => ?_
    cases Kind.ofValue? kind with
    | none => exact sameWork_pure _ h₂
    | some k =>
      refine sameWork_copies (fun es hes => ?_) h₂
      obtain ⟨r, hr, rfl⟩ := exists_of_mem_list hes
      exact copies rs hs r hr
  | file hs hs' link table =>
    simp only [hs, hs']
    refine (sameWork_rows link table h).bind fun rows _ _ _ _ h₁ => ?_
    refine (sameWork_bound _ h₁).bind fun x _ _ _ _ h₂ => ?_
    exact (sameWork_wait 2 h₂).bind fun _ _ _ _ _ h₃ => sameWork_pure _ h₃

/-- **What queries answer depends on the records, and on the objects in them**: where a store offers
the same records, and copies of these are alike, every query has the same answer. -/
theorem Query.alike (entities : s'.heap.isEntity = s.heap.isEntity)
    (made : ∀ h h', R h h' → ∀ b, s.heap.length ≤ b → h'.get b = h.get b) (q : Query)
    (names : q.Names s s') : q.Alike i s s' := by
  have same : SameWork R (q.perform i) s (q.perform i) s' := by
    cases q with
    | fetch kind id =>
      exact (sameWork_fetchRecord offers h copies entities kind names).bind fun _ _ _ _ _ after =>
        sameWork_pure _ after
    | list kind limit offset => exact sameWork_listRecords offers h copies kind limit offset
    | count kind =>
      exact (sameWork_countRecords offers h kind).bind fun _ _ _ _ _ after => sameWork_pure _ after
  exact ⟨same.result, made _ _ same.heap⟩

end

/-! ### Puts that fail -/

/-- A store is there: if it is the shared one it has been opened, and it was connected after
that. -/
def Present (s : Session) (i : StoreId) : Prop :=
  ∀ sh, s.shared = some sh → sh.store = i →
    sh.opened.Precedes s.now ∧ sh.opened.Precedes sh.ready

/-- A file that a store is linked to has its table. -/
def HasTable (s : Session) (i : StoreId) : Prop :=
  ∀ path p, s.stores[i]? = some (.file path (.file p)) → ∃ t, (s.disk.database p).records? = some t

/-- A session goes on to another while nothing becomes of its first `n` stores: time may have
passed, others may have been opened, and files may have been brought up to date. -/
structure Idles (n : Nat) (s s' : Session) : Prop where
  catalog : s'.catalog = s.catalog
  heap : s'.heap = s.heap
  length : s.stores.length ≤ s'.stores.length
  stores : ∀ j < n, s'.stores[j]? = s.stores[j]?
  table {p : Place} {t : FileTable} : (s.disk.database p).records? = some t →
    (s'.disk.database p).records? = some t
  ready : ∀ j < n, s.awaited j = false → s'.awaited j = false
  present : ∀ j < n, s.Present j → s'.Present j
  awaited : ∀ j < n, s.Present j → ∀ time,
    awaited { s' with now := time } j = awaited { s with now := time } j

/-- What is asked of a store is answered as before, if the store was not just being connected, and
otherwise as it would be at that time anyway. -/
structure Query.Unaffected (q : Query) (i : StoreId) (s s' : Session) : Prop where
  ready : s.awaited i = false → q.Alike i s s'
  timely : s.Present i → q.Alike i { s with now := s'.now } s'

section

variable {s s' s'' : Session} {i : StoreId} {n : Nat}

theorem Idles.refl (n : Nat) (s : Session) : Idles n s s :=
  ⟨rfl, rfl, le_rfl, fun _ _ => rfl, id, fun _ _ => id, fun _ _ => id, fun _ _ _ _ => rfl⟩

theorem Idles.trans (h : Idles n s s') (h' : Idles n s' s'') : Idles n s s'' where
  catalog := h'.catalog.trans h.catalog
  heap := h'.heap.trans h.heap
  length := h.length.trans h'.length
  stores j hj := (h'.stores j hj).trans (h.stores j hj)
  table ht := h'.table (h.table ht)
  ready j hj none := h'.ready j hj (h.ready j hj none)
  present j hj there := h'.present j hj (h.present j hj there)
  awaited j hj there time :=
    (h'.awaited j hj (h.present j hj there) time).trans (h.awaited j hj there time)

/-- Where a session moves on and its stores stay, nothing becomes of them. -/
theorem MovesOn.idles (on : s.MovesOn s') (heap : s'.heap = s.heap)
    (length : s.stores.length ≤ s'.stores.length) (stores : ∀ j < n, s'.stores[j]? = s.stores[j]?)
    (table : ∀ {p t}, (s.disk.database p).records? = some t →
      (s'.disk.database p).records? = some t) : Idles n s s' where
  catalog := on.catalog
  heap := heap
  length := length
  stores := stores
  table := table
  ready _ _ := on.awaited
  present j _ there sh hsh hj := by
    obtain ⟨opened, connected⟩ := there sh (on.shared ▸ hsh) hj
    exact ⟨opened.trans on.now, connected⟩
  awaited j _ _ time := by simp only [Session.awaited, on.shared]

theorem Idles.wait (h : Idles n s s') (rounds : Nat) :
    Idles n s { s' with now := s'.now.after rounds } :=
  h.trans ((MovesOn.wait s' rounds).idles rfl le_rfl (fun _ _ => rfl) id)

/-- What a store is connected to is the link that it has, and its connection is not waited for. -/
theorem exists_of_linkOf {link : Link} (h : s.linkOf i = link) (hlink : link ≠ .closed) :
    (∃ path, s.stores[i]? = some (.file path link)) ∧ s.awaited i = false := by
  rw [linkOf, store] at h
  cases hs : s.stores[i]? with
  | none =>
    rw [hs] at h
    exact absurd h.symm hlink
  | some st =>
    rw [hs] at h
    cases st with
    | memory rs => exact absurd h.symm hlink
    | file path l =>
      dsimp only [Option.getD_some] at h
      split at h
      · exact absurd h.symm hlink
      · next ready =>
        subst h
        exact ⟨⟨path, rfl⟩, Bool.eq_false_iff.2 ready⟩

/-- A store offers the same later, if it is linked as it would have been at some time. -/
theorem Idles.offers_of_linkOf (h : Idles n s s') (hi : i < n) (table : s.HasTable i)
    {time : Instant} (link : s'.linkOf i = linkOf { s with now := time } i) :
    Offers i { s with now := time } s' := by
  have there : s'.store i = s.store i := by rw [store, h.stores i hi, store]
  cases hs : s.store i with
  | memory rs => exact .memory hs (there.trans hs)
  | file path kept =>
    refine .file hs (there.trans hs) link ?_
    cases hl : linkOf { s with now := time } i with
    | file p =>
      obtain ⟨⟨path', hp⟩, -⟩ := exists_of_linkOf hl (by simp)
      obtain ⟨t, ht⟩ := table path' p hp
      exact (h.table ht).trans ht.symm
    | _ => rfl

/-- A store offers the same as before, if its connection was not waited for, and the same as it
would at that time anyway. -/
theorem Idles.offers (h : Idles n s s') (hi : i < n) (table : s.HasTable i) :
    (s.awaited i = false → Offers i s s') ∧
      (s.Present i → Offers i { s with now := s'.now } s') := by
  have there : s'.store i = s.store i := by rw [store, h.stores i hi, store]
  have link : ∀ time, s'.awaited i = Session.awaited { s with now := time } i →
      Offers i { s with now := time } s' := by
    intro time same
    refine h.offers_of_linkOf hi table ?_
    rw [linkOf, linkOf, there, same]
    rfl
  exact ⟨fun ready => link s.now ((h.ready i hi ready).trans ready.symm),
    fun there => link s'.now (h.awaited i hi there s'.now)⟩

/-- What is asked of a store in sessions with the same classes and objects. -/
theorem alike_of_offers (offers : Offers i s s') (catalog : s'.catalog = s.catalog)
    (heap : s'.heap = s.heap) (q : Query) : q.Alike i s s' := by
  refine Query.alike (R := Eq) offers heap.symm (fun _ _ _ _ h h' same => ?_) (by rw [heap])
    (fun h h' same b _ => by rw [same]) q ?_
  · rw [same]
    exact ⟨rfl, rfl⟩
  · cases q with
    | fetch kind id =>
      show Method.toText s'.catalog s'.heap id = Method.toText s.catalog s.heap id
      rw [heap, catalog]
    | _ => trivial

/-- A session rests: time has passed at most. -/
structure Rests (s s' : Session) : Prop extends s.MovesOn s' where
  heap : s'.heap = s.heap
  stores : s'.stores = s.stores
  files (p : Place) : s'.disk.database p = s.disk.database p

theorem Rests.refl (s : Session) : s.Rests s := ⟨.refl s, rfl, rfl, fun _ => rfl⟩

theorem Rests.wait (h : s.Rests s') (rounds : Nat) :
    s.Rests { s' with now := s'.now.after rounds } :=
  ⟨h.toMovesOn.trans (.wait s' rounds), h.heap, h.stores, h.files⟩

theorem Rests.idles (h : s.Rests s') (n : Nat) : Idles n s s' :=
  h.toMovesOn.idles h.heap (h.stores ▸ le_rfl) (fun _ _ => by rw [h.stores])
    fun {p _} ht => by rwa [h.files p]

/-- What is asked of a store that is not being connected has the same answer after a rest. -/
theorem Rests.alike (h : s.Rests s') (ready : s.awaited i = false) (q : Query) :
    q.Alike i s s' := by
  have there : s'.store i = s.store i := by rw [store, h.stores, store]
  refine alike_of_offers ?_ h.catalog h.heap q
  cases hs : s.store i with
  | memory rs => exact .memory hs (there.trans hs)
  | file path link =>
    refine .file hs (there.trans hs) ?_ ?_
    · rw [linkOf, linkOf, there, hs]
      simp only [ready, h.toMovesOn.awaited ready]
    · cases s.linkOf i with
      | file p => exact congrArg Database.records? (h.files p)
      | _ => rfl

/-- While the rows of a table are read the session rests. -/
theorem rests_rows (s : Session) (i : StoreId) : s.Rests (outcome (rows i) s).2 := by
  rw [outcome_rows]
  split
  · exact .refl s
  · exact (Rests.refl s).wait 1
  · split
    · exact .refl s
    · exact (Rests.refl s).wait 1

/-- To give a table the rows that it has changes nothing. -/
theorem rests_setRows {t : FileTable} {s₁ : Session} (h : outcome (rows i) s = (.ok t, s₁)) :
    s₁ = s ∧ s.Rests (outcome (setRows i t) s).2 := by
  rw [outcome_rows] at h
  rw [setRows, changeFile, outcome_modify]
  cases hl : s.linkOf i with
  | closed => rw [hl] at h; cases h
  | unusable => rw [hl] at h; cases h
  | own db =>
    rw [hl] at h
    dsimp only [Session.database] at h
    split at h
    · next table =>
      cases h
      obtain ⟨⟨path, hs⟩, -⟩ := exists_of_linkOf hl (by simp)
      obtain ⟨lt, same⟩ := List.getElem?_eq_some_iff.1 hs
      have whole : s.setStore i (.file path (.own db)) = s := by
        rw [setStore, ← same, List.set_getElem_self]
      rw [store_eq hs]
      dsimp only
      rw [Database.withRows_self table, whole]
      exact ⟨rfl, .refl s⟩
    · cases h
  | file p =>
    rw [hl] at h
    dsimp only [Session.database] at h
    split at h
    · next table =>
      cases h
      obtain ⟨⟨path, hs⟩, -⟩ := exists_of_linkOf hl (by simp)
      rw [store_eq hs]
      dsimp only
      rw [Database.withRows_self table]
      refine ⟨rfl, ⟨rfl, rfl, rfl, .refl _⟩, rfl, rfl, fun q => ?_⟩
      by_cases same : q = p
      · subst same
        exact Disk.database_put_self ..
      · exact Disk.database_put_of_ne same _
    · cases h

/-- After a change that is undone the session rests if it did after the change. -/
theorem Rests.of_undone {α : Type} {a : Action α} {e : Failure}
    (run : outcome (undone a) s = (.error e, s'))
    (h : ∀ f t, outcome a s = (.error f, t) → s.Rests t) : s.Rests s' := by
  rcases ha : outcome a s with ⟨f | x, t⟩
  · cases (outcome_undone_error ha).symm.trans run
    exact (h _ t ha).wait 1
  · cases (outcome_undone_ok ha).symm.trans run

/-- A record that is not put into a table leaves it as it was. -/
theorem rests_put {r : Record} {e : Failure} (run : outcome (do
      requireLink i
      undone do
        let t ← rows i
        let (outcome, t) := t.put r
        setRows i t
        bound outcome
        wait 3) s = (.error e, s')) :
    (s' = s ∨ s.awaited i = false) ∧ s.Rests s' := by
  by_cases hl : s.linkOf i = .closed
  · have closed : outcome (requireLink i) s = (.error .notConnected, s) := by
      rw [requireLink, outcome_get_bind, hl]
      rfl
    cases (outcome_bind_error closed).symm.trans run
    exact ⟨.inl rfl, .refl s⟩
  · have linked : outcome (requireLink i) s = (.ok ⟨⟩, s) := by
      rw [requireLink, outcome_get_bind]
      split
      · exact absurd ‹_› hl
      · rfl
    obtain ⟨-, ready⟩ := exists_of_linkOf rfl hl
    refine ⟨.inr ready, ?_⟩
    rw [outcome_bind_ok linked] at run
    refine .of_undone run fun f s₁ change => ?_
    have read := rests_rows s i
    rw [outcome_bind] at change
    rcases hrows : outcome (rows i) s with ⟨f' | t, s₂⟩
    · rw [hrows] at change read
      cases change
      exact read
    · rw [hrows] at change
      cases hput : (t.put r).1 with
      | ok u =>
        simp only [hput] at change
        cases change
      | error f' =>
        have back : (t.put r).2 = t := FileTable.transaction_error _ _ _ hput
        obtain ⟨rfl, rests⟩ := rests_setRows hrows
        simp only [hput, back] at change
        cases change
        exact rests.wait 1

/-- The key whose record a put loses if it fails, if there is one: in memory that of a record which
is found to be one and cannot be copied. -/
def lost (s : Session) (i : StoreId) (kind id data : Value) : Option RecordKey :=
  match s.store i, Method.toText s.catalog s.heap id with
  | .memory _, .ok name =>
    match Record.examine kind name data with
    | .ok r => if s.heap.copyable (.dict r.data) then none else some r.key
    | .error _ => none
  | _, _ => none

/-- What is lost of a store in memory does not depend on its records. -/
theorem lost_of_memory {rs : MemoryStore} (hs : s.store i = .memory rs) (kind id data : Value) :
    s.lost i kind id data =
      match Method.toText s.catalog s.heap id with
      | .ok name =>
        match Record.examine kind name data with
        | .ok r => if s.heap.copyable (.dict r.data) then none else some r.key
        | .error _ => none
      | .error _ => none := by
  rw [lost, hs]
  cases Method.toText s.catalog s.heap id <;> rfl

/-- **What a put that fails leaves behind.**  Nothing becomes of any store; or a record is lost, and
that is all. -/
theorem putRecord_error {kind id data : Value} {e : Failure}
    (run : outcome (putRecord i kind id data) s = (.error e, s')) :
    (s.lost i kind id data = none ∧ (s' = s ∨ s.awaited i = false) ∧ s.Rests s') ∨
    ∃ key rs, s.lost i kind id data = some key ∧ s.store i = .memory rs ∧
      s' = s.setStore i (.memory (rs.without key)) := by
  unfold lost
  cases hname : Method.toText s.catalog s.heap id with
  | error f =>
    cases (putRecord_of_text_error hname data).symm.trans run
    refine .inl ⟨?_, .inl rfl, .refl s⟩
    cases s.store i <;> rfl
  | ok name =>
    have text : outcome (textOf id) s = (.ok name, s) := by rw [outcome_textOf, hname]
    rw [putRecord, outcome_bind_ok text, outcome_bind, outcome_ofExcept] at run
    cases hr : Record.examine kind name data with
    | error f =>
      rw [hr] at run
      cases run
      refine .inl ⟨?_, .inl rfl, .refl s⟩
      cases s.store i with
      | memory rs => simp only [hr]
      | file path link => rfl
    | ok r =>
      rw [hr] at run
      dsimp only at run
      rw [outcome_get_bind] at run
      cases hs : s.store i with
      | memory rs =>
        rw [hs] at run
        simp only [hr]
        cases hc : s.heap.copyable (.dict r.data) with
        | true =>
          rw [outcome_keepRecord hs hc rfl] at run
          cases run
        | false =>
          cases (outcome_keepRecord_of_uncopyable hs hc).symm.trans run
          exact .inr ⟨r.key, rs, rfl, rfl, rfl⟩
      | file path link =>
        rw [hs] at run
        dsimp only at run
        exact .inl ⟨rfl, rests_put run⟩

/-- **A put that fails leaves all answers of the store as they were**, unless it loses a record.
Then this record is all that the store has lost. -/
theorem alike_of_putRecord_error {kind id data : Value} {e : Failure}
    (run : outcome (putRecord i kind id data) s = (.error e, s')) :
    (s.lost i kind id data = none → s'.heap = s.heap ∧ ∀ q : Query, q.Alike i s s') ∧
    ∀ key, s.lost i kind id data = some key → ∃ rs, s.store i = .memory rs ∧
      s' = s.setStore i (.memory (rs.without key)) := by
  rcases putRecord_error run with ⟨kept, ready, rests⟩ | ⟨key, rs, hlost, hs, rfl⟩
  · refine ⟨fun _ => ⟨rests.heap, fun q => ?_⟩, fun key hlost => ?_⟩
    · rcases ready with rfl | ready
      · exact ⟨rfl, fun _ _ => rfl⟩
      · exact rests.alike ready q
    · cases kept.symm.trans hlost
  · refine ⟨fun none => ?_, fun key' hlost' => ⟨rs, hs, ?_⟩⟩
    · cases none.symm.trans hlost
    · cases hlost.symm.trans hlost'
      rfl

end

/-- A record that is in a file and in memory, and an object that cannot be copied. -/
def crowded : Session :=
  { initial with
    heap := [.plain [("__deepcopy__", .int 5)]]
    stores := [.file ":memory:" (.own (Database.blank.migrate.withRows
        [⟨⟨.text "K", "1"⟩, [(.str "a", .int 1)]⟩])),
      .memory [⟨⟨.text "K", "1"⟩, [(.str "a", .int 1)]⟩]] }

/-- An object has no written form, so the record in the file stays; the one in memory is lost, as
the object cannot be copied. -/
theorem alike_of_putRecord_error_crowded :
    (∃ e s', outcome (putRecord 0 (.str "K") (.str "1") (.dict [(.str "x", .object 0)])) crowded =
      (.error e, s') ∧ ∀ q : Query, q.Alike 0 crowded s') ∧
    ∃ e s', outcome (putRecord 1 (.str "K") (.str "1") (.dict [(.str "x", .object 0)])) crowded =
      (.error e, s') ∧ s'.store 1 = .memory [] := by
  obtain ⟨e, s', run⟩ : ∃ e s', outcome (putRecord 0 (.str "K") (.str "1")
      (.dict [(.str "x", .object 0)])) crowded = (.error e, s') := ⟨_, _, rfl⟩
  obtain ⟨e', t, run'⟩ : ∃ e s', outcome (putRecord 1 (.str "K") (.str "1")
      (.dict [(.str "x", .object 0)])) crowded = (.error e, s') := ⟨_, _, rfl⟩
  obtain ⟨rs, hs, rfl⟩ := (alike_of_putRecord_error run').2 ⟨.text "K", "1"⟩ rfl
  cases hs
  exact ⟨⟨e, s', run, ((alike_of_putRecord_error run).1 rfl).2⟩, e', _, run', rfl⟩

end Session

end EntitySchema
