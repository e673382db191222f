/-
**Both kinds of stores refine one abstract store.**

A store *keeps* records if it holds them in memory, or is connected to a file whose table they are.
Whatever is asked of a store that keeps the live records of a log is answered from the log, and
afterwards the store keeps the live records of the log with the change made.  So from an empty store
on every answer of every run is that of the log, be the store in memory or in a file.

Main definitions:

* `Session.Connected`, `Session.Keeps` — what a store keeps;
* `Request`, `Reply`, `Request.perform` — requests, and how a store serves them;
* `Request.answer` — **the answer that a log gives to a request, and the log after it.**

Main results:

* `Session.connected_of_connect` — a store in a file that has been connected keeps a table;
* `Request.step` — one request leads from the live records of a log to those of the next;
* `Request.run_eq` — **in every run from an empty store all answers are those of the log.**
-/

import EntitySchema.Proofs.Inert
import EntitySchema.Proofs.Log
import EntitySchema.Proofs.Running
import Mathlib.Algebra.Group.Nat.Defs

set_option autoImplicit false

namespace EntitySchema

/-! ### What a file holds -/

namespace Disk

/-- A file that can be opened holds something, and is connected to unless it cannot be used. -/
theorem exists_database_of_openPlace {d d' : Disk} {p : Place} {link : Link}
    (h : d.openPlace p = (.ok link, d')) :
    (link = .unusable ∨ link = .file p) ∧ ∃ db, d'.node? p = some (.file db) := by
  have kind : ∀ link', (if Path.longestName < (p.getLast?.getD "").utf8ByteSize + Path.beside then
      Link.unusable else .file p) = link' → link' = .unusable ∨ link' = .file p := by
    rintro _ rfl
    split
    · exact .inl rfl
    · exact .inr rfl
  unfold openPlace at h
  dsimp only at h
  by_cases long : Path.longestPlace < Path.size p ∨
      Path.longestName < (p.getLast?.getD "").utf8ByteSize
  · rw [if_pos long] at h
    cases h
  · rw [if_neg long] at h
    split at h
    · next db hnode =>
      cases h
      exact ⟨kind _ rfl, db, hnode⟩
    · cases h
      exact ⟨kind _ rfl, .blank, node?_put_self _ _ _⟩
    · cases h

/-- What a path connects to: a file of its own that is up to date, a file that cannot be used, or
the file that it names, which is up to date. -/
theorem exists_database_of_connect {d d' : Disk} {path : String} {link : Link}
    (h : d.connect path = (.ok link, d')) :
    path = ":memory:" ∧ link = .own Database.blank.migrate ∨ link = .unusable ∨
      link = .file (Path.ofText path).place ∧
        ∃ db, d'.node? (Path.ofText path).place = some (.file db) ∧ db.Current := by
  unfold connect at h
  split at h
  · next own =>
    cases h
    exact .inl ⟨own, rfl⟩
  · dsimp only at h
    split at h
    · cases h
    · split at h
      · cases h
      · split at h
        · split at h
          · next link d₂ hopen =>
            cases h
            refine .inr ((exists_database_of_openPlace hopen).1.imp id fun hp => ⟨hp, ?_⟩)
            rw [hp]
            exact ⟨_, node?_put_self _ _ _, Database.current_migrate _⟩
          · cases h
        · cases h

end Disk

/-! ### What a store keeps -/

namespace Session

variable {s : Session} {i : StoreId} {rs : List Record}

/-- A store in a file is connected, and the rows of its table are these. -/
inductive Connected (s : Session) (i : StoreId) (rs : List Record) : Prop
  | own {path : String} {db : Database} : s.stores[i]? = some (.file path (.own db)) →
      s.awaited i = false → db.records? = some rs → Connected s i rs
  | file {path : String} {p : Place} {db : Database} : s.stores[i]? = some (.file path (.file p)) →
      s.awaited i = false → s.disk.node? p = some (.file db) → db.records? = some rs →
      Connected s i rs

/-- The records that a store keeps, those written last at the end. -/
inductive Keeps (s : Session) (i : StoreId) (rs : List Record) : Prop
  | memory : s.stores[i]? = some (.memory rs) → Keeps s i rs
  | file : Connected s i rs → Keeps s i rs

/-- Whether a store is in a file. -/
def inFile (s : Session) (i : StoreId) : Bool :=
  match s.store i with
  | .memory _ => false
  | .file _ _ => true

/-- Time goes by. -/
theorem MovesOn.wait (s : Session) (rounds : Nat) :
    s.MovesOn { s with now := s.now.after rounds } :=
  ⟨rfl, rfl, rfl, Instant.precedes_after _ _⟩

theorem store_eq {st : Store} (h : s.stores[i]? = some st) : s.store i = st := by
  rw [store, h]
  rfl

theorem store_setStore {st st' : Store} (h : s.stores[i]? = some st) :
    (s.setStore i st').stores[i]? = some st' := by
  have lt : i < s.stores.length := (List.getElem?_eq_some_iff.1 h).1
  simp [setStore, lt]

theorem inFile_memory (h : s.stores[i]? = some (.memory rs)) : s.inFile i = false := by
  rw [inFile, store_eq h]

namespace Connected

theorem store_file (h : Connected s i rs) : ∃ path link, s.store i = .file path link := by
  cases h with
  | own h _ _ => exact ⟨_, _, store_eq h⟩
  | file h _ _ _ => exact ⟨_, _, store_eq h⟩

theorem inFile (h : Connected s i rs) : s.inFile i = true := by
  obtain ⟨path, link, hs⟩ := h.store_file
  rw [Session.inFile, hs]

theorem requireLink (h : Connected s i rs) : outcome (requireLink i) s = (.ok ⟨⟩, s) := by
  cases h with
  | own h ha _ =>
    rw [Session.requireLink, outcome_get_bind, linkOf, store_eq h]
    simp only [ha, Bool.false_eq_true, if_false]
    rfl
  | file h ha _ _ =>
    rw [Session.requireLink, outcome_get_bind, linkOf, store_eq h]
    simp only [ha, Bool.false_eq_true, if_false]
    rfl

theorem rows (h : Connected s i rs) : outcome (rows i) s = (.ok rs, s) := by
  cases h with
  | own h ha hr =>
    rw [outcome_rows, linkOf, store_eq h]
    simp only [ha, Bool.false_eq_true, if_false, database, hr]
  | file h ha hd hr =>
    rw [outcome_rows, linkOf, store_eq h]
    simp only [ha, Bool.false_eq_true, if_false, database, Disk.database, hd, hr]

/-- The table of a connected store is changed to any other. -/
theorem setRows (h : Connected s i rs) (rs' : List Record) :
    ∃ s', outcome (setRows i rs') s = (.ok ⟨⟩, s') ∧ Connected s' i rs' ∧ s.MovesOn s' ∧
      s'.heap = s.heap := by
  cases h with
  | @own path db h ha hr =>
    refine ⟨s.setStore i (.file path (.own (db.withRows rs'))), ?_,
      .own (store_setStore h) ha (Database.records?_withRows hr rs'), ⟨rfl, rfl, rfl, .refl _⟩, rfl⟩
    rw [Session.setRows, changeFile, outcome_modify, store_eq h]
  | @file path p db h ha hd hr =>
    refine ⟨{ s with disk := s.disk.put p (.file ((s.disk.database p).withRows rs')) }, ?_,
      .file h ha (Disk.node?_put_self _ _ _) (Database.records?_withRows (t := rs) ?_ rs'),
      ⟨rfl, rfl, rfl, .refl _⟩, rfl⟩
    · rw [Session.setRows, changeFile, outcome_modify, store_eq h]
    · rw [Disk.database, hd, hr]

/-- A connected store stays so where stores and files are the same. -/
theorem of_stores {s' : Session} (h : Connected s i rs) (stores : s'.stores = s.stores)
    (disk : s'.disk = s.disk) (awaited : s.awaited i = false → s'.awaited i = false) :
    Connected s' i rs := by
  cases h with
  | own h ha hr => exact .own (stores ▸ h) (awaited ha) hr
  | file h ha hd hr => exact .file (stores ▸ h) (awaited ha) (disk ▸ hd) hr

/-- A connected store stays so as time goes by. -/
theorem wait (h : Connected s i rs) (rounds : Nat) :
    Connected { s with now := s.now.after rounds } i rs :=
  h.of_stores rfl rfl (MovesOn.wait s rounds).awaited

end Connected

/-- A store keeps its records where stores and files are the same. -/
theorem Keeps.of_stores {s' : Session} (h : Keeps s i rs) (stores : s'.stores = s.stores)
    (disk : s'.disk = s.disk) (awaited : s.awaited i = false → s'.awaited i = false) :
    Keeps s' i rs := by
  cases h with
  | memory h => exact .memory (stores ▸ h)
  | file h => exact .file (h.of_stores stores disk awaited)

/-- A store keeps no other records than it does. -/
theorem Keeps.unique {rs' : List Record} (h : s.Keeps i rs) (h' : s.Keeps i rs') : rs = rs' := by
  cases h with
  | memory hs =>
    cases h' with
    | memory hs' =>
      cases hs.symm.trans hs'
      rfl
    | file hf' =>
      obtain ⟨path, link, hs'⟩ := hf'.store_file
      cases (store_eq hs).symm.trans hs'
  | file hf =>
    cases h' with
    | memory hs' =>
      obtain ⟨path, link, hs⟩ := hf.store_file
      cases (store_eq hs').symm.trans hs
    | file hf' =>
      have rows := hf.rows.symm.trans hf'.rows
      cases rows
      rfl

/-- A store in a file, other than the shared one, is connected once connecting it has succeeded. -/
theorem connected_of_connect {s s' : Session} {i : StoreId} {path : String} {link : Link}
    (hs : s.stores[i]? = some (.file path link)) (own : ∀ sh ∈ s.shared, sh.store ≠ i)
    (h : outcome (connect i) s = (.ok ⟨⟩, s')) : ∃ rs, Connected s' i rs := by
  rw [connect, outcome_get_bind, store_eq hs] at h
  cases hc : s.disk.connect path with
  | mk result d =>
    simp only [hc] at h
    cases result with
    | error b => cases h
    | ok l =>
      have awaited : ∀ s'' : Session, s''.shared = s.shared → s''.awaited i = false := by
        intro s'' hsh
        unfold Session.awaited
        rw [hsh]
        cases hsome : s.shared with
        | none => rfl
        | some sh =>
          have other := own sh hsome
          simp [other]
      rcases Disk.exists_database_of_connect hc with ⟨-, rfl⟩ | rfl | ⟨rfl, db, hdb, current⟩
      · cases h
        exact ⟨_, .own (store_setStore hs) (awaited _ rfl) (Database.records?_migrate _)⟩
      · cases h
      · cases h
        exact ⟨_, .file (store_setStore hs) (awaited _ rfl) hdb current.records?⟩

/-- What a session has become by work on one of its stores, which keeps these records now. -/
structure Served (s : Session) (i : StoreId) (rs : List Record) (s' : Session) : Prop where
  keeps : s'.Keeps i rs
  place : s'.inFile i = s.inFile i
  on : s.MovesOn s'
  heap : s'.heap = s.heap

/-- A store goes on to keep its records as time goes by. -/
theorem Keeps.served_wait (h : Keeps s i rs) (rounds : Nat) :
    Served s i rs { s with now := s.now.after rounds } :=
  ⟨h.of_stores rfl rfl (MovesOn.wait s rounds).awaited, rfl, .wait s rounds, rfl⟩

/-- A copy of what leads to no object is the value itself. -/
theorem outcome_copy {v : Value} (hv : v.Inert) : outcome (copy v) s = (.ok v, s) := by
  rw [copy, outcome_get_bind, Heap.copy_of_inert _ hv]
  rfl

/-! ### Single records -/

section

variable {kind id : Value} {e : Failure} (he : Method.toText s.catalog s.heap id = .error e)

include he

/-- Nothing is looked up under an identifier that has no text. -/
theorem fetchRecord_of_text_error : outcome (fetchRecord i kind id) s = (.error e, s) := by
  have text : outcome (textOf id) s = (.error e, s) := by rw [outcome_textOf, he]
  exact outcome_bind_error text

/-- Nothing is put under an identifier that has no text. -/
theorem putRecord_of_text_error (data : Value) :
    outcome (putRecord i kind id data) s = (.error e, s) := by
  have text : outcome (textOf id) s = (.error e, s) := by rw [outcome_textOf, he]
  exact outcome_bind_error text

/-- Nothing is deleted under an identifier that has no text. -/
theorem removeRecord_of_text_error (h : Keeps s i rs) :
    outcome (removeRecord i kind id) s = (.error e, s) := by
  have text : outcome (textOf id) s = (.error e, s) := by rw [outcome_textOf, he]
  rw [removeRecord, outcome_get_bind]
  cases h with
  | memory hm =>
    rw [store_eq hm]
    exact outcome_bind_error text
  | file hf =>
    obtain ⟨path, link, hs⟩ := hf.store_file
    rw [hs]
    simp only [outcome_bind_ok hf.requireLink]
    exact outcome_bind_error text

end

section

variable (kind : String) {name : String} {id : Value}
  (hname : Method.toText s.catalog s.heap id = .ok name)

include hname

/-- A store that keeps records without objects finds the record under a key, and time passes. -/
theorem fetchRecord_eq (h : Keeps s i rs) (inert : ∀ r ∈ rs, (Value.dict r.data).Inert) :
    ∃ rounds, outcome (fetchRecord i (.str kind) id) s =
      (.ok ((MemoryStore.get? rs ⟨.text kind, name⟩).map .dict),
        { s with now := s.now.after rounds }) := by
  have text : outcome (textOf id) s = (.ok name, s) := by rw [outcome_textOf, hname]
  rw [fetchRecord, outcome_bind_ok text, outcome_get_bind]
  cases h with
  | memory hm =>
    refine ⟨0, ?_⟩
    have searched : outcome (ofExcept (searchedKind s.heap (.str kind))) s =
        (.ok (some (.text kind)), s) := rfl
    rw [store_eq hm]
    simp only [outcome_bind_ok searched, Option.bind_some]
    cases hget : MemoryStore.get? rs ⟨.text kind, name⟩ with
    | none => rfl
    | some es =>
      obtain ⟨r, hr, rfl⟩ := Option.map_eq_some_iff.1 hget
      exact outcome_bind_ok (outcome_copy (inert r (List.mem_of_find?_eq_some hr)))
  | file hf =>
    refine ⟨2, ?_⟩
    obtain ⟨path, link, hs⟩ := hf.store_file
    rw [hs]
    simp only [outcome_bind_ok hf.rows]
    rw [Kind.bind, outcome_bind_ok (outcome_bound_ok _ _), outcome_wait_bind, FileTable.get?_some]
    rfl

/-- A store tells whether there is a record under a key, and keeps the others. -/
theorem removeRecord_eq (h : Keeps s i rs) :
    ∃ s', outcome (removeRecord i (.str kind) id) s =
      (.ok (MemoryStore.delete rs ⟨.text kind, name⟩).1, s') ∧
      Served s i (MemoryStore.delete rs ⟨.text kind, name⟩).2 s' := by
  have text : outcome (textOf id) s = (.ok name, s) := by rw [outcome_textOf, hname]
  rw [removeRecord, outcome_get_bind]
  cases h with
  | memory hm =>
    rw [store_eq hm]
    simp only [outcome_bind_ok text]
    -- where no record is, the kind is not looked at
    cases hrs : rs with
    | nil =>
      subst hrs
      exact ⟨s, rfl, .memory hm, rfl, .refl s, rfl⟩
    | cons r rs' =>
      rw [← hrs]
      refine ⟨s.setStore i (.memory (MemoryStore.delete rs ⟨.text kind, name⟩).2), ?_,
        .memory (store_setStore hm), ?_, ⟨rfl, rfl, rfl, .refl _⟩, rfl⟩
      · have some : rs.isEmpty = false := by rw [hrs]; rfl
        rw [some]
        rfl
      · rw [inFile_memory (store_setStore hm), inFile_memory hm]
  | file hf =>
    obtain ⟨path, link, hs⟩ := hf.store_file
    rw [hs]
    simp only [outcome_bind_ok hf.requireLink, outcome_bind_ok text]
    obtain ⟨s', hset, hf', on, heap⟩ :=
      hf.setRows (FileTable.delete rs (some (.text kind)) name).2
    rw [FileTable.delete_some] at hset hf'
    refine ⟨{ s' with now := s'.now.after 2 }, outcome_undone_ok ?_,
      ⟨.file (hf'.wait 2), (hf'.wait 2).inFile.trans hf.inFile.symm, on.trans (.wait s' 2), heap⟩⟩
    rw [outcome_bind_ok hf.rows, Kind.bind, outcome_bind_ok (outcome_bound_ok _ _),
      FileTable.delete_some]
    simp only [outcome_bind_ok hset, outcome_wait_bind]
    rfl

/-- What a store keeps of a record that is put there: in memory the record, and in a file what is
written of it. -/
def keptOf (s : Session) (i : StoreId) (r : Record) : Except Failure Record :=
  match s.store i with
  | .memory _ => .ok r
  | .file _ _ => r.written

/-- A record of data is put under its key, as the newest, in the form in which the store keeps
it. -/
theorem putRecord_eq (h : Keeps s i rs) {data : Value} {r r' : Record}
    (hr : Record.examine (.str kind) name data = .ok r) (hdata : (Value.dict r.data).IsData)
    (hkept : s.keptOf i r = .ok r') :
    ∃ s', outcome (putRecord i (.str kind) id data) s = (.ok ⟨⟩, s') ∧
      Served s i (MemoryStore.put rs r') s' := by
  have text : outcome (textOf id) s = (.ok name, s) := by rw [outcome_textOf, hname]
  have record : outcome (ofExcept (Record.examine (.str kind) name data)) s = (.ok r, s) := by
    rw [outcome_ofExcept, hr]
  rw [putRecord, outcome_bind_ok text, outcome_bind_ok record, outcome_get_bind]
  cases h with
  | memory hm =>
    rw [keptOf, store_eq hm] at hkept
    cases hkept
    refine ⟨s.setStore i (.memory (MemoryStore.put rs r)), ?_, .memory (store_setStore hm), ?_,
      ⟨rfl, rfl, rfl, .refl _⟩, rfl⟩
    · rw [store_eq hm]
      exact outcome_keepRecord (store_eq hm) (Heap.copyable_of_isData _ hdata)
        (Heap.copy_of_inert _ hdata.inert)
    · rw [inFile_memory (store_setStore hm), inFile_memory hm]
  | file hf =>
    obtain ⟨path, link, hs⟩ := hf.store_file
    rw [keptOf, hs] at hkept
    have change := FileTable.put_of_written rs hkept
    obtain ⟨s', hset, hf', on, heap⟩ := hf.setRows (MemoryStore.put rs r')
    rw [hs]
    simp only [outcome_bind_ok hf.requireLink]
    refine ⟨{ s' with now := s'.now.after 3 }, outcome_undone_ok ?_,
      ⟨.file (hf'.wait 3), (hf'.wait 3).inFile.trans hf.inFile.symm, on.trans (.wait s' 3), heap⟩⟩
    rw [outcome_bind_ok hf.rows, change]
    simp only [outcome_bind_ok hset]
    rfl

end

/-! ### The records of a kind -/

/-- A store counts the records of a kind. -/
theorem countRecords_eq (h : Keeps s i rs) (kind : String) :
    ∃ s', outcome (countRecords i (.str kind)) s =
      (.ok (MemoryStore.count rs (.text kind)), s') ∧ Served s i rs s' := by
  rw [countRecords, outcome_get_bind]
  cases h with
  | memory hm =>
    rw [store_eq hm]
    exact ⟨s, rfl, .memory hm, rfl, .refl s, rfl⟩
  | file hf =>
    obtain ⟨path, link, hs⟩ := hf.store_file
    refine ⟨_, ?_, (Keeps.file hf).served_wait 2⟩
    rw [hs]
    simp only [outcome_bind_ok hf.rows]
    rw [Kind.bind, outcome_bind_ok (outcome_bound_ok _ _), outcome_wait_bind,
      FileTable.count_some]
    rfl

/-- Copies of dictionaries that lead to no object are the dictionaries. -/
theorem outcome_mapM_copy {data : List Entries} (h : ∀ es ∈ data, (Value.dict es).Inert) :
    outcome (data.mapM fun es => copy (.dict es)) s = (.ok (data.map .dict), s) := by
  induction data with
  | nil => rfl
  | cons es data ih =>
    obtain ⟨hes, hrest⟩ := List.forall_mem_cons.1 h
    rw [List.mapM_cons, outcome_bind_ok (outcome_copy hes), outcome_bind_ok (ih hrest)]
    rfl

theorem bindInt_nat {n : Nat} (hn : n < 2 ^ 63) : bindInt n = .ok n := by
  have fits : fitsWord n = true := by
    simp only [fitsWord, Bool.and_eq_true, decide_eq_true_eq]
    omega
  rw [bindInt, if_pos fits]

/-- A store lists the records of a kind, the newest first, up to a limit from an offset on. -/
theorem listRecords_eq (h : Keeps s i rs) (data : ∀ r ∈ rs, (Value.dict r.data).IsData)
    (kind : String) {limit offset : Nat} (hl : limit < 2 ^ 63) (ho : offset < 2 ^ 63) :
    ∃ s', outcome (listRecords i (.str kind) (.int limit) (.int offset)) s =
      (.ok ((MemoryStore.list rs (.text kind) limit offset).map .dict), s') ∧ Served s i rs s' := by
  rw [listRecords, outcome_get_bind]
  cases h with
  | memory hm =>
    refine ⟨s, ?_, .memory hm, rfl, .refl s, rfl⟩
    rw [store_eq hm]
    refine outcome_mapM_copy ?_
    intro es hes
    have mem : es ∈ MemoryStore.ofKind rs (.text kind) :=
      List.mem_of_mem_take (List.mem_of_mem_drop hes)
    obtain ⟨r, hr, rfl⟩ := List.mem_map.1 mem
    exact (data r (List.mem_reverse.1 (List.mem_filter.1 hr).1)).inert
  | file hf =>
    obtain ⟨path, link, hs⟩ := hf.store_file
    refine ⟨_, ?_, (Keeps.file hf).served_wait 2⟩
    rw [hs]
    simp only [outcome_bind_ok hf.rows, bindBound, bindInt_nat hl, bindInt_nat ho]
    rw [← FileTable.list_some]
    rfl

end Session

/-! ### Records of plain data -/

namespace Record

/-- What is offered as a record is one with its keys as texts. -/
theorem exists_of_examine {kind data : Value} {name : String} {r : Record}
    (h : examine kind name data = .ok r) :
    ∃ es, data.entries? = some es ∧ r.data = withTextKeys es := by
  unfold examine at h
  split at h
  · next es _ _ hes =>
    cases h
    exact ⟨es, hes, rfl⟩
  · cases h

/-- Data under texts are kept under these. -/
theorem withTextKeys_of_textKeyed {es : Entries} (hes : Entries.textKeyed es = true) :
    withTextKeys es = es := by
  rw [withTextKeys]
  refine Eq.trans ?_ (Entries.ofPairs_of_textKeyed hes)
  refine congrArg Entries.ofPairs ((List.map_congr_left ?_).trans (List.map_id es))
  intro e he
  obtain ⟨name, hname⟩ := Entries.exists_text_of_textKeyed hes e he
  obtain ⟨k, v⟩ := e
  cases hname
  rfl

/-- Data under texts are examined and found to be a record. -/
theorem examine_of_textKeyed {kind name : String} {data : Value} {es : Entries}
    (hdata : data.entries? = some es) (hes : Entries.textKeyed es = true) :
    examine (.str kind) name data = .ok ⟨⟨.text kind, name⟩, es⟩ := by
  have texts := Entries.exists_text_of_textKeyed hes
  have noProblem : keyProblems es = [] := by
    rw [keyProblems, List.filterMap_eq_nil_iff]
    intro e he
    obtain ⟨name, hname⟩ := texts e he
    rw [hname]
    rfl
  have none : problems (.str kind) data = [] := by
    rw [problems, hdata]
    simp only [Kind.ofValue, noProblem, List.append_nil]
  rw [examine, none, hdata]
  simp only [Kind.ofValue, withTextKeys_of_textKeyed hes]

/-- A record of plain data is written as it is. -/
theorem written_of_plain {r : Record} (h : (Value.dict r.data).isPlain = true) :
    r.written = .ok r := by
  simp only [Value.isPlain, Bool.and_eq_true] at h
  rw [written, Value.writtenEntries_of_plain r.data h.1 h.2]
  exact congrArg (fun es => Except.ok { r with data := es }) (Entries.ofPairs_of_textKeyed h.1)

end Record

/-! ### Requests -/

/-- A request to a store. -/
inductive Request where
  | fetch (kind : String) (id : Value)
  | put (kind : String) (id data : Value)
  | remove (kind : String) (id : Value)
  | count (kind : String)
  | list (kind : String) (limit offset : Nat)

/-- The answer to a request. -/
inductive Reply where
  | found (data? : Option Value)
  | stored
  | removed (found : Bool)
  | counted (n : Nat)
  | listed (data : List Value)

namespace Request

/-- How a store serves a request. -/
def perform (i : StoreId) : Request → Action Reply
  | .fetch kind id => do pure (.found (← Session.fetchRecord i (.str kind) id))
  | .put kind id data => do
    Session.putRecord i (.str kind) id data
    pure .stored
  | .remove kind id => do pure (.removed (← Session.removeRecord i (.str kind) id))
  | .count kind => do pure (.counted (← Session.countRecords i (.str kind)))
  | .list kind limit offset => do
    pure (.listed (← Session.listRecords i (.str kind) (.int limit) (.int offset)))

/-- Whether what is put is a mapping of plain data under texts, and the bounds of a listing are
numbers of 64 bits with a sign. -/
def Plain : Request → Prop
  | .put _ _ data => ∃ es, data.entries? = some es ∧ (Value.dict es).isPlain = true
  | .list _ limit offset => limit < 2 ^ 63 ∧ offset < 2 ^ 63
  | _ => True

/-- The answer that a log gives to a request, and the log after it.  An identifier goes by its text;
a request whose identifier has no text fails and changes nothing. -/
def answer (text : Value → Except Failure String) (log : Log) :
    Request → Except Failure Reply × Log
  | .fetch kind id =>
    match text id with
    | .ok name => (.ok (.found ((log.last? ⟨.text kind, name⟩).map .dict)), log)
    | .error e => (.error e, log)
  | .put kind id data =>
    match text id with
    | .ok name => (.ok .stored, .put ⟨.text kind, name⟩ (data.entries?.getD []) :: log)
    | .error e => (.error e, log)
  | .remove kind id =>
    match text id with
    | .ok name =>
      (.ok (.removed (log.last? ⟨.text kind, name⟩).isSome), .delete ⟨.text kind, name⟩ :: log)
    | .error e => (.error e, log)
  | .count kind => (.ok (.counted (log.ofKind (.text kind)).length), log)
  | .list kind limit offset =>
    (.ok (.listed ((((log.ofKind (.text kind)).drop offset).take limit).map .dict)), log)

/-- The outcomes of requests made one after the other of a store. -/
def run (i : StoreId) : List Request → Session → List (Except Failure Reply)
  | [], _ => []
  | r :: rs, s =>
    let (reply, s) := Session.outcome (r.perform i) s
    reply :: run i rs s

/-- The answers that a log gives to requests made one after the other. -/
def answers (text : Value → Except Failure String) :
    List Request → Log → List (Except Failure Reply)
  | [], _ => []
  | r :: rs, log =>
    let (reply, log) := r.answer text log
    reply :: answers text rs log

/-! ### Runs -/

variable {s : Session} {i : StoreId} {log : Log} {r : Request}

/-- **One request is answered from the log**, and leads from the live records of the log to those of
the log after it. -/
theorem step (h : s.Keeps i (log.live).reverse)
    (data : ∀ r ∈ log.live, (Value.dict r.data).IsData) (hr : r.Plain) :
    ∃ s', Session.outcome (r.perform i) s =
        ((r.answer (Method.toText s.catalog s.heap) log).1, s') ∧
      s.Served i ((r.answer (Method.toText s.catalog s.heap) log).2.live).reverse s' ∧
      ∀ r' ∈ (r.answer (Method.toText s.catalog s.heap) log).2.live,
        (Value.dict r'.data).IsData := by
  have rows : ∀ r ∈ (log.live).reverse, (Value.dict r.data).IsData := fun r hr =>
    data r (List.mem_reverse.1 hr)
  cases r with
  | fetch kind id =>
    cases hid : Method.toText s.catalog s.heap id with
    | error e =>
      refine ⟨s, ?_, ?_⟩ <;> simp only [answer, hid]
      · exact Session.outcome_bind_error (Session.fetchRecord_of_text_error hid)
      · exact ⟨⟨h, rfl, .refl s, rfl⟩, data⟩
    | ok name =>
      obtain ⟨rounds, fetched⟩ := Session.fetchRecord_eq kind hid h fun r hr => (rows r hr).inert
      refine ⟨{ s with now := s.now.after rounds }, ?_, ?_⟩ <;> simp only [answer, hid]
      · rw [perform, Session.outcome_bind_ok fetched, MemoryStore.get?_live]
        rfl
      · exact ⟨h.served_wait rounds, data⟩
  | put kind id d =>
    cases hid : Method.toText s.catalog s.heap id with
    | error e =>
      refine ⟨s, ?_, ?_⟩ <;> simp only [answer, hid]
      · exact Session.outcome_bind_error (Session.putRecord_of_text_error hid d)
      · exact ⟨⟨h, rfl, .refl s, rfl⟩, data⟩
    | ok name =>
      obtain ⟨es, hes, plain⟩ := hr
      have keyed : Entries.textKeyed es = true := by
        simp only [Value.isPlain, Bool.and_eq_true] at plain
        exact plain.1
      -- of plain data memory and file keep the same
      have kept : s.keptOf i ⟨⟨.text kind, name⟩, es⟩ = .ok ⟨⟨.text kind, name⟩, es⟩ := by
        unfold Session.keptOf
        split
        · rfl
        · exact Record.written_of_plain plain
      obtain ⟨s', hs', served⟩ := Session.putRecord_eq kind hid h
        (Record.examine_of_textKeyed hes keyed) (Value.isData_of_isPlain _ plain) kept
      refine ⟨s', ?_, ?_⟩ <;> simp only [answer, hid, hes, Option.getD_some]
      · rw [perform, Session.outcome_bind_ok hs']
        rfl
      · rw [MemoryStore.put_live] at served
        refine ⟨served, ?_⟩
        intro r' hr'
        rcases List.mem_cons.1 hr' with rfl | hr'
        · exact Value.isData_of_isPlain _ plain
        · exact data r' (List.mem_filter.1 hr').1
  | remove kind id =>
    cases hid : Method.toText s.catalog s.heap id with
    | error e =>
      refine ⟨s, ?_, ?_⟩ <;> simp only [answer, hid]
      · exact Session.outcome_bind_error (Session.removeRecord_of_text_error hid h)
      · exact ⟨⟨h, rfl, .refl s, rfl⟩, data⟩
    | ok name =>
      obtain ⟨s', hs', served⟩ := Session.removeRecord_eq kind hid h
      rw [MemoryStore.delete_live] at hs' served
      refine ⟨s', ?_, ?_⟩ <;> simp only [answer, hid]
      · rw [perform, Session.outcome_bind_ok hs']
        rfl
      · exact ⟨served, fun r' hr' => data r' (List.mem_filter.1 hr').1⟩
  | count kind =>
    obtain ⟨s', hs', served⟩ := Session.countRecords_eq h kind
    refine ⟨s', ?_, served, data⟩
    rw [perform, Session.outcome_bind_ok hs', MemoryStore.count_live]
    rfl
  | list kind limit offset =>
    obtain ⟨s', hs', served⟩ := Session.listRecords_eq h rows kind hr.1 hr.2
    refine ⟨s', ?_, served, data⟩
    rw [perform, Session.outcome_bind_ok hs', MemoryStore.list_live]
    rfl

/-- Requests made of a store that keeps the live records of a log are answered from the log. -/
theorem run_eq_of_keeps {rs : List Request} (hrs : ∀ r ∈ rs, r.Plain)
    (h : s.Keeps i (log.live).reverse) (data : ∀ r ∈ log.live, (Value.dict r.data).IsData) :
    run i rs s = answers (Method.toText s.catalog s.heap) rs log := by
  induction rs generalizing s log with
  | nil => rfl
  | cons r rs ih =>
    obtain ⟨hr, hrest⟩ := List.forall_mem_cons.1 hrs
    obtain ⟨s', hs', served, data'⟩ := step h data hr
    have rest := ih hrest served.keeps data'
    -- the text of an identifier is the same after the request
    rw [served.on.catalog, served.heap] at rest
    simp only [run, hs', answers, rest]

/-- **In every run from an empty store, in memory or in a file that is connected, all answers are
those of the log.** -/
theorem run_eq (h : s.Keeps i []) {rs : List Request} (hrs : ∀ r ∈ rs, r.Plain) :
    run i rs s = answers (Method.toText s.catalog s.heap) rs [] :=
  run_eq_of_keeps hrs (show s.Keeps i (Log.live []).reverse from h) fun _ hr => nomatch hr

/-- A session with an empty store in memory and a store in a file of its own, which is connected. -/
def twoStores : Session := (Session.outcome (do
  Session.connect (← Session.openStore (.memory []))
  Session.connect (← Session.openStore (.file ":memory:" .closed))) Session.initial).2

/-- Records of two kinds are put, one of them twice, and one is deleted. -/
def filing : List Request :=
  [.put "A" (.int 1) (.dict [(.str "x", .int 1)]), .put "A" (.int 2) (.dict []),
   .put "B" (.int 1) (.dict []), .put "A" (.str "1") (.dict [(.str "x", .int 3)]),
   .list "A" 50 0, .list "A" 1 1, .remove "A" (.int 2), .remove "A" (.int 2),
   .fetch "A" (.int 1), .count "A"]

/-- The record put last comes first, deleting succeeds once, and the other kind is left out. -/
def filingReplies : List (Except Failure Reply) :=
  [.ok .stored, .ok .stored, .ok .stored, .ok .stored,
   .ok (.listed [.dict [(.str "x", .int 3)], .dict []]), .ok (.listed [.dict []]),
   .ok (.removed true), .ok (.removed false),
   .ok (.found (some (.dict [(.str "x", .int 3)]))), .ok (.counted 1)]

/-- Both stores answer alike. -/
theorem run_filing :
    run 0 filing twoStores = filingReplies ∧ run 1 filing twoStores = filingReplies := by
  have plain : ∀ r ∈ filing, r.Plain := by
    simp only [filing, List.forall_mem_cons, Plain]
    exact ⟨⟨_, rfl, rfl⟩, ⟨_, rfl, rfl⟩, ⟨_, rfl, rfl⟩, ⟨_, rfl, rfl⟩, ⟨by decide, by decide⟩,
      ⟨by decide, by decide⟩, trivial, trivial, trivial, trivial, fun _ h => nomatch h⟩
  have memory : twoStores.Keeps 0 [] := .memory rfl
  have file : twoStores.Keeps 1 [] := .file (.own rfl rfl rfl)
  exact ⟨(run_eq memory plain).trans rfl, (run_eq file plain).trans rfl⟩

end Request

end EntitySchema
