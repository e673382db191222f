/-
**What saving and deleting changes in a store.**

The records of a store follow from those that were there and the changes made since, one after the
other.  Under a key there is what was put there last, unless it was deleted since; under a key that
no change was made under, there is what was there before.

To save an entity makes one change, if it makes any: the record that is told of the entity is put,
in the form in which the store keeps it.  To delete it makes at most one, too.  Which change that is
can be said without the store, of which it only matters whether it is in a file.  All other stores,
all other files, the environment and the settings stay as they are, be it that saving or deleting
fails.

Main definitions:

* `MemoryStore.change`, `MemoryStore.changed` — records after changes;
* `Session.Alters`, `Session.Works` — **work on a store, and the changes that it makes**;
* `Session.Puts` — a put of which it is said which change it makes;
* `Session.put?`, `Session.removed?` — the change that a put or a removal makes;
* `Persistence.saved?`, `Persistence.deleted?` — the change that saving or deleting makes.

Main results:

* `MemoryStore.get?_changed` — what there is under a key after changes;
* `Session.puts_putRecord`, `Session.works_removeRecord` — single records;
* `Persistence.puts_save`, `Persistence.works_delete` — **saving and deleting make these changes in
  the shared store, and no others.**
-/

import EntitySchema.Proofs.FailedSaves
import EntitySchema.Proofs.ReadyStore

set_option autoImplicit false

namespace EntitySchema

/-! ### Changes one after the other -/

namespace MemoryStore

/-- The records after a change. -/
def change (rs : MemoryStore) : Change → MemoryStore
  | .put key data => put rs ⟨key, data⟩
  | .delete key => without rs key

/-- The records after changes, made one after the other. -/
def changed (rs : MemoryStore) (cs : List Change) : MemoryStore := cs.foldl change rs

@[simp] theorem changed_nil (rs : MemoryStore) : changed rs [] = rs := rfl

theorem changed_append (rs : MemoryStore) (cs cs' : List Change) :
    changed rs (cs ++ cs') = changed (changed rs cs) cs' := List.foldl_append

/-- What there is under a key after one change. -/
theorem get?_change (rs : MemoryStore) (c : Change) (key : RecordKey) :
    get? (change rs c) key = if c.key = key then Log.last? [c] key else get? rs key := by
  by_cases same : c.key = key
  · subst same
    rw [if_pos rfl]
    cases c with
    | put key data => exact (get?_put_self rs ⟨key, data⟩).trans (if_pos rfl).symm
    | delete key => exact (get?_without_self rs key).trans (if_pos rfl).symm
  · rw [if_neg same]
    cases c with
    | put key' data => exact get?_put_of_ne rs (r := ⟨key', data⟩) (Ne.symm same)
    | delete key' => exact get?_without_of_ne rs (Ne.symm same)

/-- **What there is under a key after changes**: what was last put there and not deleted since, or
what was there before, if no change was made under the key. -/
theorem get?_changed (rs : MemoryStore) (cs : List Change) (key : RecordKey) :
    get? (changed rs cs) key =
      if key ∈ cs.map Change.key then Log.last? cs.reverse key else get? rs key := by
  induction cs using List.reverseRecOn with
  | nil => rfl
  | append_singleton cs c ih =>
    have last : Log.last? (c :: cs.reverse) key =
        if c.key = key then Log.last? [c] key else Log.last? cs.reverse key := by
      cases c <;> (simp only [Log.last?, Change.key]; split <;> rfl)
    have one : get? (changed rs (cs ++ [c])) key =
        if c.key = key then Log.last? [c] key else get? (changed rs cs) key := by
      rw [changed_append]
      exact get?_change _ c key
    rw [one, ih, List.reverse_append, List.reverse_singleton, List.singleton_append, last]
    by_cases same : c.key = key
    · simp [same]
    · simp [same, Ne.symm same]

end MemoryStore

namespace Session

variable {s s' s'' : Session} {i : StoreId} {rs rs' : List Record} {cs cs' : List Change}

/-! ### Work on a store -/

/-- The records of a store in a file are the table of the file. -/
theorem Keeps.table (h : s.Keeps i rs) {p : Place} (hp : (s.store i).place? = some p) :
    s.disk.table p = rs := by
  cases h with
  | memory hs =>
    rw [store_eq hs] at hp
    cases hp
  | file h =>
    cases h with
    | own hs =>
      rw [store_eq hs] at hp
      cases hp
    | file hs _ hdb hrows =>
      rw [store_eq hs] at hp
      cases hp
      rw [Disk.table, Disk.database, hdb]
      exact Database.rows_of_records? hrows

/-- Changes are made in a store: it keeps its records with the changes made, and no table of a file
is changed but its own. -/
structure Alters (i : StoreId) (cs : List Change) (s s' : Session) : Prop where
  shared : s'.shared = s.shared
  survey : s'.survey = s.survey
  now : s.now.Precedes s'.now
  path : (s'.store i).path? = (s.store i).path?
  place : (s'.store i).place? = (s.store i).place?
  keeps {rs : List Record} : s.awaited i = false → s.Keeps i rs →
    s'.Keeps i (MemoryStore.changed rs cs)
  table {p : Place} : (s.store i).place? ≠ some p → s'.disk.table p = s.disk.table p

/-- Changes are made in a store, and the environment and the settings stay as they are. -/
structure Works (i : StoreId) (cs : List Change) (s s' : Session) : Prop
    extends Alters i cs s s' where
  environment : s'.environment = s.environment
  settings : s'.settings = s.settings

/-- What is put makes the change in a store that is said, and fails just where none is said. -/
structure Puts {α : Type} (i : StoreId) (c : Except Failure Change) (s : Session)
    (r : Except Failure α × Session) : Prop where
  works : Works i c.toOption.toList s r.2
  told : r.1.toBool = c.toBool

/-- A connection that is not waited for is not waited for later. -/
theorem awaited_of_now (shared : s'.shared = s.shared) (now : s.now.Precedes s'.now)
    (ready : s.awaited i = false) : s'.awaited i = false := by
  unfold Session.awaited at ready ⊢
  rw [shared]
  cases hs : s.shared with
  | none => rfl
  | some sh =>
    rw [hs] at ready
    simp only [Bool.and_eq_false_iff] at ready ⊢
    exact ready.imp id now.not_before

theorem Alters.trans (h : Alters i cs s s') (h' : Alters i cs' s' s'') :
    Alters i (cs ++ cs') s s'' where
  shared := h'.shared.trans h.shared
  survey := h'.survey.trans h.survey
  now := h.now.trans h'.now
  path := h'.path.trans h.path
  place := h'.place.trans h.place
  keeps ready hrs := by
    rw [MemoryStore.changed_append]
    exact h'.keeps (awaited_of_now h.shared h.now ready) (h.keeps ready hrs)
  table hp := (h'.table (h.place.symm ▸ hp)).trans (h.table hp)

theorem Works.trans (h : Works i cs s s') (h' : Works i cs' s' s'') : Works i (cs ++ cs') s s'' :=
  ⟨h.toAlters.trans h'.toAlters, h'.environment.trans h.environment, h'.settings.trans h.settings⟩

/-- Where stores and files are the same no change was made. -/
theorem alters_of_stores (stores : s'.stores = s.stores) (disk : s'.disk = s.disk)
    (shared : s'.shared = s.shared) (survey : s'.survey = s.survey) (now : s.now.Precedes s'.now) :
    Alters i [] s s' := by
  have there : s'.store i = s.store i := by rw [store, stores, store]
  exact ⟨shared, survey, now, by rw [there], by rw [there], fun ready hrs =>
    hrs.of_stores stores disk (awaited_of_now shared now), fun _ => by rw [disk]⟩

theorem Works.refl (i : StoreId) (s : Session) : Works i [] s s :=
  ⟨alters_of_stores rfl rfl rfl rfl (.refl _), rfl, rfl⟩

/-- Where nothing is said and what is done fails, no change is made. -/
theorem puts_error {α : Type} {e e' : Failure} (h : Works i [] s s') :
    Puts i (.error e) s ((.error e', s') : Except Failure α × Session) := ⟨h, rfl⟩

theorem Works.wait (h : Works i cs s s') (rounds : Nat) :
    Works i cs s { s' with now := s'.now.after rounds } := by
  have waits : Works i [] s' { s' with now := s'.now.after rounds } :=
    ⟨alters_of_stores rfl rfl rfl rfl (Instant.precedes_after _ _), rfl, rfl⟩
  have both := h.trans waits
  rwa [List.append_nil] at both

/-- A change that does nothing to the records of a store may be made. -/
theorem Works.of_unchanged (h : Works i [] s s') (hrs : s.Keeps i rs)
    (same : MemoryStore.changed rs cs = rs) : Works i cs s s' := by
  refine ⟨⟨h.shared, h.survey, h.now, h.path, h.place, fun ready hrs' => ?_, h.table⟩,
    h.environment, h.settings⟩
  obtain rfl := hrs.unique hrs'
  rw [same]
  exact h.keeps ready hrs

/-- Loading entities makes no change. -/
theorem Held.works {sh : Shared} (h : s.Held sh s') (ready : s.Ready sh) : Works i [] s s' :=
  ⟨alters_of_stores h.stores h.disk (h.ready.shared.trans ready.shared.symm)
    (h.ready.survey.trans ready.survey.symm) h.now, h.environment, h.settings⟩

theorem works_identified (a : Address) (id : Value) : Works i [] s (s.identified a id) := by
  unfold identified
  split
  · exact ⟨alters_of_stores rfl rfl rfl rfl (.refl _), rfl, rfl⟩
  · exact .refl i s

/-- A change is made in a store in memory. -/
theorem works_setMemory (hs : s.stores[i]? = some (.memory rs)) (h : Heap) (c : Change) :
    Works i [c] s ({ s with heap := h }.setStore i (.memory (MemoryStore.change rs c))) := by
  have there : ({ s with heap := h }.setStore i
      (.memory (MemoryStore.change rs c))).stores[i]? = some (.memory (MemoryStore.change rs c)) :=
    store_setStore (s := { s with heap := h }) hs
  refine ⟨⟨rfl, rfl, .refl _, ?_, ?_, fun _ hrs => ?_, fun _ => rfl⟩, rfl, rfl⟩
  · rw [store_eq there, store_eq hs]
    rfl
  · rw [store_eq there, store_eq hs]
    rfl
  · obtain rfl := (Keeps.memory hs).unique hrs
    exact .memory there

/-- Changes are made in the table of a connected store. -/
theorem works_setRows (h : Connected s i rs) (cs : List Change) :
    Works i cs s (outcome (setRows i (MemoryStore.changed rs cs)) s).2 := by
  rw [setRows, changeFile, outcome_modify]
  cases h with
  | own hs ready made =>
    rw [store_eq hs]
    refine ⟨⟨rfl, rfl, .refl _, ?_, ?_, fun _ hrs => ?_, fun _ => rfl⟩, rfl, rfl⟩
    · rw [store_eq (store_setStore hs), store_eq hs]
      rfl
    · rw [store_eq (store_setStore hs), store_eq hs]
      rfl
    · obtain rfl := (Keeps.file (.own hs ready made)).unique hrs
      exact .file (.own (store_setStore hs) ready (Database.records?_withRows made _))
  | @file path p db hs ready hdb hrows =>
    rw [store_eq hs]
    refine ⟨⟨rfl, rfl, .refl _, rfl, rfl, fun _ hrs => ?_, fun {q} hq => ?_⟩, rfl, rfl⟩
    · obtain rfl := (Keeps.file (.file hs ready hdb hrows)).unique hrs
      have made : (s.disk.database p).records? = some rs := by rw [Disk.database, hdb, hrows]
      exact .file (.file hs ready (Disk.node?_put_self _ _ _) (Database.records?_withRows made _))
    · refine Disk.table_put_of_ne (fun same => hq ?_) _
      rw [same, store_eq hs]
      rfl

/-! ### Single records -/

/-- What a store keeps of a record: a copy in memory, and what is written in a file. -/
def filed (inFile : Bool) (h : Heap) (r : Record) : Except Failure Record :=
  if inFile then r.written
  else .ok { r with data := ((h.copy (.dict r.data)).1.entries?).getD [] }

/-- The change that a put makes, if it does not fail. -/
def put? (inFile : Bool) (g : Catalog) (h : Heap) (kind id data : Value) : Except Failure Change :=
  do
  let name ← Method.toText g h id
  let r ← filed inFile h (← Record.examine kind name data)
  .ok (.put r.key r.data)

/-- The change that a removal makes, if it makes one. -/
def removed? (inFile : Bool) (g : Catalog) (h : Heap) (kind id : Value) :
    Except Failure (Option Change) := do
  let name ← Method.toText g h id
  let kind? ← if inFile then Kind.bind kind else searchedKind h kind
  .ok (kind?.map fun k => .delete ⟨k, name⟩)

variable {kind id data : Value}

/-- A record that has no written form is not put into a table. -/
theorem put_of_written_error {t : FileTable} {r : Record} {e : Failure} (h : r.written = .error e) :
    t.put r = (.error e, t) := by
  rw [FileTable.put, FileTable.transaction, h]
  rfl

/-- A record is put into a store in a file, or the store stays as it is. -/
theorem puts_file (h : Connected s i rs) (r : Record) :
    Puts i (r.written.map fun r => .put r.key r.data) s (outcome (do
      requireLink i
      undone do
        let t ← rows i
        let (outcome, t) := t.put r
        setRows i t
        bound outcome
        wait 3) s) := by
  rw [outcome_bind_ok h.requireLink]
  cases hw : r.written with
  | ok r' =>
    have put : FileTable.put rs r = (.ok (), MemoryStore.changed rs [.put r'.key r'.data]) :=
      FileTable.put_of_written rs hw
    have work := works_setRows h [.put r'.key r'.data]
    obtain ⟨s₁, set⟩ := outcome_setRows (s := s) (i := i)
      (MemoryStore.changed rs [.put r'.key r'.data])
    have change : outcome (do
        let t ← rows i
        let (outcome, t) := t.put r
        setRows i t
        bound outcome
        wait 3) s = (.ok ⟨⟩, { s₁ with now := s₁.now.after 3 }) := by
      rw [outcome_bind_ok h.rows, put]
      exact outcome_bind_ok set
    rw [set] at work
    rw [outcome_undone_ok change]
    exact ⟨work.wait 3, rfl⟩
  | error e =>
    have put : FileTable.put rs r = (.error e, MemoryStore.changed rs []) := put_of_written_error hw
    have work := works_setRows h []
    obtain ⟨s₁, set⟩ := outcome_setRows (s := s) (i := i) (MemoryStore.changed rs [])
    have change : outcome (do
        let t ← rows i
        let (outcome, t) := t.put r
        setRows i t
        bound outcome
        wait 3) s = (.error e, { s₁ with now := s₁.now.after 1 }) := by
      rw [outcome_bind_ok h.rows, put]
      exact outcome_bind_ok set
    rw [set] at work
    rw [outcome_undone_error change]
    exact puts_error ((work.wait 1).wait 1)

/-- **A put makes one change in its store**, or none if it fails, where what goes into memory can be
copied. -/
theorem puts_putRecord (h : s.Keeps i rs)
    (copies : s.inFile i = false → ∀ name r, Method.toText s.catalog s.heap id = .ok name →
      Record.examine kind name data = .ok r → s.heap.copyable (.dict r.data) = true) :
    Puts i (put? (s.inFile i) s.catalog s.heap kind id data) s
      (outcome (putRecord i kind id data) s) := by
  rw [putRecord, outcome_bind, outcome_textOf]
  cases hname : Method.toText s.catalog s.heap id with
  | error e =>
    rw [put?, hname]
    exact puts_error (.refl i s)
  | ok name =>
    dsimp only
    rw [outcome_bind, outcome_ofExcept]
    cases hr : Record.examine kind name data with
    | error e =>
      have none : put? (s.inFile i) s.catalog s.heap kind id data = .error e := by
        simp only [put?, hname, hr, bind, Except.bind]
      rw [none]
      exact puts_error (.refl i s)
    | ok r =>
      have made : put? (s.inFile i) s.catalog s.heap kind id data =
          (filed (s.inFile i) s.heap r).map fun r => .put r.key r.data := by
        simp only [put?, hname, hr, bind, Except.bind]
        rfl
      rw [made]
      dsimp only
      rw [outcome_get_bind]
      cases h with
      | memory hm =>
        -- a store in memory keeps a copy, and the change is to put the copy
        have copyable := copies (inFile_memory hm) name r hname hr
        obtain ⟨es, h', copied⟩ : ∃ es h', s.heap.copy (.dict r.data) = (.dict es, h') :=
          ⟨_, _, rfl⟩
        have kept : filed (s.inFile i) s.heap r = .ok { r with data := es } := by
          rw [inFile_memory hm, filed, if_neg Bool.false_ne_true, copied]
          rfl
        rw [store_eq hm, kept]
        dsimp only
        rw [outcome_keepRecord (store_eq hm) copyable copied]
        exact ⟨works_setMemory hm h' (.put r.key es), rfl⟩
      | file hf =>
        obtain ⟨path, link, hs⟩ := hf.store_file
        have kept : filed (s.inFile i) s.heap r = r.written := by rw [hf.inFile, filed, if_pos rfl]
        rw [hs, kept]
        exact puts_file hf r

theorem removed?_of_text {inFile : Bool} {g : Catalog} {h : Heap} {name : String}
    (hname : Method.toText g h id = .ok name) : removed? inFile g h kind id =
      (if inFile then Kind.bind kind else searchedKind h kind).map fun kind? =>
        kind?.map fun k => .delete ⟨k, name⟩ := by
  simp only [removed?, hname, bind, Except.bind]
  cases inFile <;> rfl

/-- A record is deleted in a store in a file, or the store stays as it is. -/
theorem works_file (h : Connected s i rs) (kind? : Except Failure (Option Kind)) (name : String) :
    Works i (kind?.map fun k => k.map fun k => Change.delete ⟨k, name⟩).toOption.join.toList s
      (outcome (undone do
        let t ← rows i
        let k ← bound kind?
        let (found, t) := t.delete k name
        setRows i t
        wait 2
        pure found) s).2 := by
  cases kind? with
  | error e =>
    have change : outcome (do
        let t ← rows i
        let k ← bound (.error e : Except Failure (Option Kind))
        let (found, t) := t.delete k name
        setRows i t
        wait 2
        pure found) s = (.error e, { s with now := s.now.after 1 }) := by
      rw [outcome_bind_ok h.rows]
      rfl
    rw [outcome_undone_error change]
    exact ((Works.refl i s).wait 1).wait 1
  | ok kind? =>
    have rest : (FileTable.delete rs kind? name).2 = MemoryStore.changed rs
        (kind?.map fun k => Change.delete ⟨k, name⟩).toList := by
      cases kind? with
      | none => simp [FileTable.delete, FileTable.deleting]
      | some k => rw [FileTable.delete_some]; rfl
    have work := works_setRows h (kind?.map fun k => Change.delete ⟨k, name⟩).toList
    obtain ⟨s₁, set⟩ := outcome_setRows (s := s) (i := i) (FileTable.delete rs kind? name).2
    rw [← rest, set] at work
    have change : outcome (do
        let t ← rows i
        let k ← bound (.ok kind? : Except Failure (Option Kind))
        let (found, t) := t.delete k name
        setRows i t
        wait 2
        pure found) s =
          (.ok (FileTable.delete rs kind? name).1, { s₁ with now := s₁.now.after 2 }) := by
      rw [outcome_bind_ok h.rows, outcome_bind_ok (outcome_bound_ok _ _)]
      exact outcome_bind_ok set
    rw [outcome_undone_ok change]
    exact work.wait 2

/-- **A removal makes one change in its store at most.** -/
theorem works_removeRecord (h : s.Keeps i rs) :
    Works i (removed? (s.inFile i) s.catalog s.heap kind id).toOption.join.toList s
      (outcome (removeRecord i kind id) s).2 := by
  rw [removeRecord, outcome_get_bind]
  cases h with
  | memory hm =>
    rw [store_eq hm, inFile_memory hm]
    dsimp only
    rw [outcome_bind, outcome_textOf]
    cases hname : Method.toText s.catalog s.heap id with
    | error e =>
      rw [removed?, hname]
      exact .refl i s
    | ok name =>
      rw [removed?_of_text hname, if_neg Bool.false_ne_true]
      dsimp only
      cases rs with
      | nil =>
        refine Works.of_unchanged (.refl i s) (.memory hm) ?_
        rcases searchedKind s.heap kind with e | ⟨_ | k⟩ <;> rfl
      | cons r rs =>
        rw [outcome_bind, outcome_ofExcept]
        cases hk : searchedKind s.heap kind with
        | error e => exact .refl i s
        | ok kind? =>
          cases kind? with
          | none => exact .refl i s
          | some k => exact works_setMemory hm s.heap (.delete ⟨k, name⟩)
  | file hf =>
    obtain ⟨path, link, hs⟩ := hf.store_file
    rw [hs, hf.inFile]
    dsimp only
    rw [outcome_bind_ok hf.requireLink, outcome_bind, outcome_textOf]
    cases hname : Method.toText s.catalog s.heap id with
    | error e =>
      rw [removed?, hname]
      exact .refl i s
    | ok name =>
      rw [removed?_of_text hname, if_pos rfl]
      exact works_file hf (Kind.bind kind) name

end Session

/-! ### Saving and deleting -/

namespace Persistence

open Session

variable {s : Session} {sh : Shared} {rs : List Record} {a : Address} {cls : ClassId} {e : Failure}

/-- An entity goes by its class under the name of a method, and its class uses the shared store. -/
structure Common (s : Session) (a : Address) (cls : ClassId) (method : String) : Prop where
  species : (Heap.get s.heap a).species = .entity cls
  unhidden : (Heap.get s.heap a).own? method = none
  resolve : (Heap.get s.heap a).own? "_resolve_store" = none
  unassigned : s.catalog.assignedStore? cls = none

/-- What saving does with an entity that is valid, once it is known where. -/
def putEntity (a : Address) (i : StoreId) : Action Value := do
  let kind ← attributeOf a "kind"
  let id ← attributeOf a idField
  let s ← get
  let raw ← Session.ofExcept (Method.toRaw s.catalog s.heap a)
  putRecord i kind id raw
  pure (.object a)

/-- What deleting does with an entity that has an identifier, once it is known where. -/
def removeEntity (a : Address) (i : StoreId) : Action Value := do
  pure (.bool (← removeRecord i (← attributeOf a "kind") (← attributeOf a idField)))

/-- The change that is made when an entity is stored. -/
def stored? (inFile : Bool) (g : Catalog) (h : Heap) (a : Address) : Except Failure Change := do
  let kind ← Method.needed g h a "kind"
  let id ← Method.needed g h a idField
  let raw ← Method.toRaw g h a
  put? inFile g h kind id raw

/-- What is put of an entity, if it is found to be a record. -/
def recordOf (g : Catalog) (h : Heap) (a : Address) : Except Failure Record := do
  let kind ← Method.needed g h a "kind"
  let id ← Method.needed g h a idField
  let raw ← Method.toRaw g h a
  let name ← Method.toText g h id
  Record.examine kind name raw

/-- What saving puts can be copied, if it does not fail before. -/
def PutsCopyable (s : Session) (a : Address) : Prop :=
  ∀ id, Method.needed s.catalog s.heap a idField = .ok id →
    Method.validate s.catalog (s.identified a id).heap a = .ok () →
    ∀ r, recordOf s.catalog (s.identified a id).heap a = .ok r →
      (s.identified a id).heap.copyable (.dict r.data) = true

/-- The change that saving makes, if it does not fail: the entity is identified and validated before
it is stored. -/
def saved? (inFile : Bool) (s : Session) (a : Address) : Except Failure Change := do
  let id ← Method.needed s.catalog s.heap a idField
  Method.validate s.catalog (s.identified a id).heap a
  stored? inFile s.catalog (s.identified a id).heap a

/-- The change that deleting makes, if it makes one. -/
def deleted? (inFile : Bool) (s : Session) (a : Address) : Except Failure (Option Change) := do
  let id ← Method.needed s.catalog s.heap a idField
  if id.isNull then .ok none
  else
    let kind ← Method.needed s.catalog s.heap a "kind"
    removed? inFile s.catalog s.heap kind id

theorem outcome_attributeOf_eq (a : Address) (name : String) (s : Session) :
    outcome (attributeOf a name) s = (Method.needed s.catalog s.heap a name, s) := rfl

/-- An entity that is stored makes one change in the store, or none if that fails, where what goes
into memory can be copied. -/
theorem puts_putEntity {i : StoreId} (h : s.Keeps i rs)
    (copies : s.inFile i = false → ∀ r, recordOf s.catalog s.heap a = .ok r →
      s.heap.copyable (.dict r.data) = true) :
    Puts i (stored? (s.inFile i) s.catalog s.heap a) s (outcome (putEntity a i) s) := by
  rw [putEntity, outcome_bind, outcome_attributeOf_eq]
  cases hkind : Method.needed s.catalog s.heap a "kind" with
  | error e =>
    rw [stored?, hkind]
    exact puts_error (.refl i s)
  | ok kind =>
    dsimp only
    rw [outcome_bind, outcome_attributeOf_eq]
    cases hid : Method.needed s.catalog s.heap a idField with
    | error e =>
      have none : stored? (s.inFile i) s.catalog s.heap a = .error e := by
        simp only [stored?, hkind, hid, bind, Except.bind]
      rw [none]
      exact puts_error (.refl i s)
    | ok id =>
      dsimp only
      rw [outcome_get_bind, outcome_bind, outcome_ofExcept]
      cases hraw : Method.toRaw s.catalog s.heap a with
      | error e =>
        have none : stored? (s.inFile i) s.catalog s.heap a = .error e := by
          simp only [stored?, hkind, hid, hraw, bind, Except.bind]
        rw [none]
        exact puts_error (.refl i s)
      | ok raw =>
        have made : stored? (s.inFile i) s.catalog s.heap a =
            put? (s.inFile i) s.catalog s.heap kind id raw := by
          simp only [stored?, hkind, hid, hraw, bind, Except.bind]
        have put : Puts i (put? (s.inFile i) s.catalog s.heap kind id raw) s
            (outcome (putRecord i kind id raw) s) := by
          refine puts_putRecord h fun memory name r hname hr => copies memory r ?_
          simp only [recordOf, hkind, hid, hraw, hname, hr, bind, Except.bind]
        rw [made]
        dsimp only
        rw [outcome_bind]
        rcases hput : outcome (putRecord i kind id raw) s with ⟨e | u, t⟩ <;>
          (rw [hput] at put; exact ⟨put.works, put.told⟩)

/-- An entity that is deleted makes one change in the store at most. -/
theorem works_removeEntity {i : StoreId} (h : s.Keeps i rs) {id : Value}
    (hid : Method.needed s.catalog s.heap a idField = .ok id) (some : id.isNull = false) :
    Works i (deleted? (s.inFile i) s a).toOption.join.toList s
      (outcome (removeEntity a i) s).2 := by
  have made : deleted? (s.inFile i) s a = (Method.needed s.catalog s.heap a "kind" >>= fun kind =>
      removed? (s.inFile i) s.catalog s.heap kind id) := by
    simp only [deleted?, hid, bind, Except.bind, some, Bool.false_eq_true, if_false]
  rw [made, removeEntity, outcome_bind, outcome_attributeOf_eq]
  cases hkind : Method.needed s.catalog s.heap a "kind" with
  | error e => exact .refl i s
  | ok kind =>
    dsimp only
    rw [outcome_bind, outcome_attributeOf_eq, hid]
    dsimp only
    have work : Works i (removed? (s.inFile i) s.catalog s.heap kind id).toOption.join.toList s
        (outcome (removeRecord i kind id) s).2 := works_removeRecord h
    rw [outcome_bind]
    rcases hremove : outcome (removeRecord i kind id) s with ⟨e | found, t⟩ <;>
      (rw [hremove] at work; exact work)

/-- A method that an entity has from its class is called. -/
theorem outcome_send_of_common {method : String} (h : Common s a cls method)
    (plain : method ∉ ["__class__", "__dict__", "__weakref__", "id"])
    (given : Heap.givenAttribute? s.catalog a cls method = some (.method (.object a) method)) :
    outcome (send (.object a) method) s =
      outcome (perform (depth s) (.method (.object a) method)) s := by
  have found : Heap.attribute? s.catalog s.heap 0 (.object a) method =
      some (.method (.object a) method) := by
    rw [Heap.attribute?, Heap.objectAttribute?_of_species h.species plain, h.unhidden, given]
    rfl
  rw [send, outcome_get_bind, found]

/-- The store of such an entity is the shared one. -/
theorem outcome_storeOf_of_common {method : String} (h : Common s a cls method) (fuel : Nat)
    (needed : String) :
    outcome (storeOf (perform (fuel + 1)) a needed) s = outcome sharedStore s :=
  (outcome_storeOf_given h.species h.resolve fuel needed).trans
    (outcome_storeOf_of_unassigned h.unassigned)

theorem Common.identified {method : String} (h : Common s a cls method) (other : method ≠ idField)
    (id : Value) : Common (s.identified a id) a cls method where
  species := species_identified h.species id
  unhidden := (own?_identified h.species id other).trans h.unhidden
  resolve := (own?_identified h.species id (by decide)).trans h.resolve
  unassigned := by
    rw [(s.identified_on a id).catalog]
    exact h.unassigned

/-- **Saving identifies the entity, validates it, and asks for the shared store.** -/
theorem outcome_save_of_common (h : Common s a cls "save") : outcome (save (.object a)) s =
    match Method.needed s.catalog s.heap a idField with
    | .error e => (.error e, s)
    | .ok id =>
      match Method.validate s.catalog (s.identified a id).heap a with
      | .error e => (.error e, s.identified a id)
      | .ok _ => outcome (sharedStore >>= putEntity a) (s.identified a id) := by
  rw [save, outcome_send_of_common h (by decide) rfl, depth, outcome_perform_save]
  cases hid : Method.needed s.catalog s.heap a idField with
  | error e =>
    have fails : outcome (identify a) s = (.error e, s) := by
      rw [identify, outcome_get_bind, hid]
      rfl
    rw [outcome_bind_error fails]
  | ok id =>
    have told : Heap.objectAttribute? s.catalog s.heap a idField = some id := by
      rw [Method.needed] at hid
      split at hid
      · cases hid
        assumption
      · cases hid
    have common := h.identified (by decide) id
    have catalog : (s.identified a id).catalog = s.catalog := (s.identified_on a id).catalog
    dsimp only
    rw [outcome_bind_ok (outcome_identify_of_told told), outcome_get_bind, catalog, outcome_bind,
      outcome_ofExcept]
    cases Method.validate s.catalog (s.identified a id).heap a with
    | error e => rfl
    | ok u =>
      dsimp only
      rw [outcome_bind, outcome_storeOf_of_common common, outcome_bind]
      rfl

/-- **Deleting asks for the shared store**, unless the entity has no identifier. -/
theorem outcome_delete_of_common (h : Common s a cls "delete") : outcome (delete (.object a)) s =
    match Method.needed s.catalog s.heap a idField with
    | .error e => (.error e, s)
    | .ok id =>
      if id.isNull then (.ok (.bool false), s) else outcome (sharedStore >>= removeEntity a) s := by
  rw [delete, outcome_send_of_common h (by decide) rfl, depth, outcome_perform_delete, outcome_bind,
    outcome_attributeOf_eq]
  cases Method.needed s.catalog s.heap a idField with
  | error e => rfl
  | ok id =>
    dsimp only
    split
    · rfl
    · rw [outcome_bind, outcome_storeOf_of_common h, outcome_bind]
      rfl

/-- **Saving makes one change in the shared store**, or none if it fails. -/
theorem puts_save (ready : s.Ready sh) (h : Common s a cls "save") (keeps : s.Keeps sh.store rs)
    (copies : s.inFile sh.store = false → PutsCopyable s a) :
    Puts sh.store (saved? (s.inFile sh.store) s a) s (outcome (save (.object a)) s) := by
  rw [outcome_save_of_common h]
  cases hid : Method.needed s.catalog s.heap a idField with
  | error e =>
    rw [saved?, hid]
    exact puts_error (.refl _ s)
  | ok id =>
    dsimp only
    have told := works_identified (i := sh.store) (s := s) a id
    cases hv : Method.validate s.catalog (s.identified a id).heap a with
    | error e =>
      have none : saved? (s.inFile sh.store) s a = .error e := by
        simp only [saved?, hid, hv, bind, Except.bind]
      rw [none]
      exact puts_error told
    | ok u =>
      have made : saved? (s.inFile sh.store) s a =
          stored? (s.inFile sh.store) s.catalog (s.identified a id).heap a := by
        simp only [saved?, hid, hv, bind, Except.bind]
      have place : (s.identified a id).inFile sh.store = s.inFile sh.store :=
        inFile_of_stores (s.identified_stores a id)
      have catalog : (s.identified a id).catalog = s.catalog := (s.identified_on a id).catalog
      have ready₁ := ready.of_now told.shared told.survey told.now
      have keeps₁ := told.keeps (ready.awaited _) keeps
      have put := puts_putEntity (a := a) keeps₁ fun memory => by
        rw [catalog]
        exact copies (place ▸ memory) id hid hv
      dsimp only
      rw [outcome_bind_ok ready₁.outcome_sharedStore, made, ← catalog, ← place]
      exact ⟨told.trans put.works, put.told⟩

/-- **Deleting makes one change in the shared store at most.** -/
theorem works_delete (ready : s.Ready sh) (h : Common s a cls "delete")
    (keeps : s.Keeps sh.store rs) :
    Works sh.store (deleted? (s.inFile sh.store) s a).toOption.join.toList s
      (outcome (delete (.object a)) s).2 := by
  rw [outcome_delete_of_common h]
  cases hid : Method.needed s.catalog s.heap a idField with
  | error e =>
    rw [deleted?, hid]
    exact .refl _ s
  | ok id =>
    dsimp only
    cases some : id.isNull with
    | true =>
      have none : deleted? (s.inFile sh.store) s a = .ok none := by
        simp only [deleted?, hid, bind, Except.bind, some, if_true]
      rw [none]
      exact .refl _ s
    | false =>
      rw [if_neg Bool.false_ne_true, outcome_bind_ok ready.outcome_sharedStore]
      exact works_removeEntity keeps hid some

end Persistence

end EntitySchema
