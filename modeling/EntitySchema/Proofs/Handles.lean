/-
**The handles of one file.**

Several stores are opened on one file, and each of them is a *handle*.  Handles are connected,
disconnected, connected again and brought up to date in any order, and asked for records in between.
Whatever a connected handle answers comes from one log, that of the changes that were made through
connected handles, be it this one or another.  Connecting, disconnecting and bringing a file up to
date leave the log as it is; what is asked of a handle that is not connected fails and leaves it as
it is, too.

A file without a table answers nothing.  A handle is connected only when the file has been brought
up to date, and no call takes that back; so the table is there for every connected handle, and there
is nothing left to be done when it brings the file up to date again.

What happens to a file is told as a *life*: its log, the handles that are connected, and the paths
that have led to it once.

Main definitions:

* `Life.Call`, `Life.Call.perform`, `Life.Call.run` — calls of handles;
* `Life`, `Life.Follows`, `Life.Tells` — **what calls may answer, and what becomes of a file**;
* `Life.Holds` — a session in which a file and its handles are as a life has them.

Main results:

* `Session.onFile_perform` — what is asked of a store in a file writes no other file;
* `Session.Unlinked.perform` — **what is asked without a connection fails and changes nothing**;
* `Life.Holds.connected` — **the file of a connected handle is up to date, and so has its table**;
* `Life.step` — one call follows the life of the file;
* `Life.run_tells` — **every run of calls does.**
-/

import EntitySchema.Proofs.Reopening
import EntitySchema.Proofs.SharedStore

set_option autoImplicit false

namespace EntitySchema

/-! ### Calls of handles -/

namespace Life

/-- A call of a handle. -/
inductive Call where
  | connect (i : StoreId)
  | disconnect (i : StoreId)
  | migrate (i : StoreId)
  | ask (i : StoreId) (r : Request)

namespace Call

/-- What a call answers: a reply, or nothing, if it does not fail. -/
abbrev Outcome := Except Failure (Option Reply)

/-- The handle that is called. -/
def handle : Call → StoreId
  | .connect i | .disconnect i | .migrate i | .ask i _ => i

/-- What a call does. -/
def perform : Call → Action (Option Reply)
  | .connect i => do
    Session.connect i
    pure none
  | .disconnect i => do
    Session.disconnect i
    pure none
  | .migrate i => do
    Session.migrate i
    pure none
  | .ask i r => do pure (some (← r.perform i))

/-- Whether what is asked is plain. -/
def Plain : Call → Prop
  | .ask _ r => r.Plain
  | _ => True

/-- Whether a call serves only with a connection. -/
def NeedsLink : Call → Prop
  | .migrate _ | .ask _ _ => True
  | _ => False

/-- Why a call of a handle that is not connected fails: for want of a connection, because the file
cannot be used, or because the identifier has no text, whichever is told first. -/
inductive Refusal (text : Value → Except Failure String) : Call → Failure → Prop
  | closed (c : Call) : Refusal text c .notConnected
  | unusable (c : Call) : Refusal text c (.blocked .cannotOpen)
  | fetch {i : StoreId} {kind : String} {id : Value} {e : Failure} : text id = .error e →
      Refusal text (.ask i (.fetch kind id)) e
  | put {i : StoreId} {kind : String} {id data : Value} {e : Failure} : text id = .error e →
      Refusal text (.ask i (.put kind id data)) e
  | remove {i : StoreId} {kind : String} {id : Value} {e : Failure} : text id = .error e →
      Refusal text (.ask i (.remove kind id)) e

/-- The answers to calls made one after the other, and the session after them. -/
def run : List Call → Session → List Outcome × Session
  | [], s => ([], s)
  | c :: cs, s =>
    let (answer, s) := Session.outcome c.perform s
    let (answers, s) := run cs s
    (answer :: answers, s)

end Call

end Life

/-! ### The life of a file -/

/-- What happened to a file: the changes of its table, the handles that are connected, and the paths
that have led to it. -/
structure Life where
  log : Log
  linked : List StoreId
  opened : List String

namespace Life

section

variable (text : Value → Except Failure String) (path : StoreId → String)

/-- **What a call may answer, and what becomes of the file.**  A handle is connected unless no path
like its own has led to the file so far.  What is asked of a connected handle is answered from the
log, be it the work of this handle or of another, and only this changes the log.  A handle that is
not connected fails, and nothing changes. -/
inductive Follows : Life → Call → Call.Outcome → Life → Prop
  | connected (l : Life) (i : StoreId) : Follows l (.connect i) (.ok none)
      { l with linked := i :: l.linked, opened := path i :: l.opened }
  | refused (l : Life) (i : StoreId) (e : Failure) : path i ∉ l.opened →
      Follows l (.connect i) (.error e) l
  | disconnected (l : Life) (i : StoreId) : Follows l (.disconnect i) (.ok none)
      { l with linked := l.linked.filter (· != i) }
  | migrated (l : Life) (i : StoreId) : i ∈ l.linked → Follows l (.migrate i) (.ok none) l
  | asked (l : Life) (i : StoreId) (r : Request) : i ∈ l.linked →
      Follows l (.ask i r) ((r.answer text l.log).1.map some)
        { l with log := (r.answer text l.log).2 }
  | unlinked (l : Life) (c : Call) (e : Failure) : c.NeedsLink → c.handle ∉ l.linked →
      c.Refusal text e → Follows l c (.error e) l

/-- What calls made one after the other may answer, and what becomes of the file. -/
inductive Tells : Life → List Call → List Call.Outcome → Life → Prop
  | nil (l : Life) : Tells l [] [] l
  | cons {l l' l'' : Life} {c : Call} {cs : List Call} {a : Call.Outcome} {as : List Call.Outcome} :
      Follows text path l c a l' → Tells l' cs as l'' → Tells l (c :: cs) (a :: as) l''

/-- A session in which the file in a place and its handles are as a life has them. -/
structure Holds (p : Place) (handles : List StoreId) (l : Life) (s : Session) : Prop where
  text : Method.toText s.catalog s.heap = text
  named : ∀ i ∈ handles, path i ≠ ":memory:" ∧ (Path.ofText (path i)).place = p
  ready : ∀ i ∈ handles, s.awaited i = false
  link : ∀ i ∈ handles, ∃ link, s.stores[i]? = some (.file (path i) link) ∧
    (link = .closed ∨ link = .unusable ∨ link = .file p) ∧ (link = .file p ↔ i ∈ l.linked)
  known : ∀ i ∈ l.linked, path i ∈ l.opened
  opens : ∀ t ∈ l.opened, ∃ d d', Disk.connect d t = (.ok (.file p), d') ∧ d'.Stands s.disk
  table : s.disk.table p = l.log.live.reverse
  data : ∀ r ∈ l.log.live, (Value.dict r.data).IsData

end

end Life

/-! ### What a life determines -/

namespace Life.Follows

variable {text : Value → Except Failure String} {path : StoreId → String} {l l' : Life}
  {a : Life.Call.Outcome} {i : StoreId}

/-- A handle of a path that has led to the file is connected. -/
theorem connect_eq (h : l.Follows text path (.connect i) a l') (hi : path i ∈ l.opened) :
    a = .ok none ∧ l' = { l with linked := i :: l.linked, opened := path i :: l.opened } := by
  cases h with
  | connected => exact ⟨rfl, rfl⟩
  | refused _ _ new => exact absurd hi new
  | unlinked _ _ needs => exact needs.elim

/-- A handle is disconnected, be it connected or not. -/
theorem disconnect_eq (h : l.Follows text path (.disconnect i) a l') :
    a = .ok none ∧ l' = { l with linked := l.linked.filter (· != i) } := by
  cases h with
  | disconnected => exact ⟨rfl, rfl⟩
  | unlinked _ _ needs => exact needs.elim

/-- A file is brought up to date through a connected handle. -/
theorem migrate_eq (h : l.Follows text path (.migrate i) a l') (hi : i ∈ l.linked) :
    a = .ok none ∧ l' = l := by
  cases h with
  | migrated => exact ⟨rfl, rfl⟩
  | unlinked _ _ _ out => exact absurd hi out

/-- A connected handle answers from the log. -/
theorem ask_eq {r : Request} (h : l.Follows text path (.ask i r) a l') (hi : i ∈ l.linked) :
    a = (r.answer text l.log).1.map some ∧ l' = { l with log := (r.answer text l.log).2 } := by
  cases h with
  | asked => exact ⟨rfl, rfl⟩
  | unlinked _ _ _ out => exact absurd hi out

/-- What needs a connection fails without one, and nothing changes. -/
theorem unlinked_eq {c : Life.Call} (h : l.Follows text path c a l') (needs : c.NeedsLink)
    (out : c.handle ∉ l.linked) : (∃ e, a = .error e ∧ c.Refusal text e) ∧ l' = l := by
  cases h with
  | connected => exact needs.elim
  | refused => exact needs.elim
  | disconnected => exact needs.elim
  | migrated _ hi => exact absurd hi out
  | asked _ _ hi => exact absurd hi out
  | unlinked _ e _ _ refusal => exact ⟨⟨e, rfl, refusal⟩, rfl⟩

end Life.Follows

/-! ### What is asked of a file -/

namespace Session

variable {s s' : Session} {i : StoreId} {p : Place}

/-- Work on the file in a place: the stores are what they were, no other file is written, and no
migration is applied to this one. -/
structure Touches (p : Place) (s s' : Session) : Prop where
  stores : s'.stores = s.stores
  disk : s'.disk = s.disk ∨ ∃ db, s'.disk = s.disk.put p (.file db) ∧
    db.applied = (s.disk.database p).applied

/-- An action writes no other file than that of a store. -/
def OnFile {α : Type} (i : StoreId) (p : Place) (a : Action α) : Prop :=
  ∀ s path, s.stores[i]? = some (.file path (.file p)) → Touches p s (outcome a s).2

theorem Touches.refl (p : Place) (s : Session) : Touches p s s := ⟨rfl, .inl rfl⟩

theorem Touches.trans {s'' : Session} (h : Touches p s s') (h' : Touches p s' s'') :
    Touches p s s'' := by
  refine ⟨h'.stores.trans h.stores, ?_⟩
  rcases h'.disk with same | ⟨db', written', applied'⟩
  · rw [same]
    exact h.disk
  · refine .inr ⟨db', written'.trans ?_, applied'.trans ?_⟩ <;>
      rcases h.disk with same | ⟨db, written, applied⟩
    · rw [same]
    · rw [written]
      simp [Disk.put, List.filter_filter]
    · rw [same]
    · rw [written, Disk.database, Disk.node?_put_self, applied]

/-- What a file holds stands after work on it. -/
theorem Touches.stands {db : Database} (h : Touches p s s')
    (hp : s.disk.node? p = some (.file db)) : s.disk.Stands s'.disk := by
  rcases h.disk with same | ⟨db', written, applied⟩
  · rw [same]
    exact .refl _
  · rw [written]
    rw [Disk.database, hp] at applied
    exact Disk.stands_write hp fun current => current.of_applied applied

section

variable {α β : Type}

theorem onFile_pure (x : α) : OnFile i p (pure x : Action α) := fun s _ _ => .refl p s

theorem onFile_ofExcept (e : Except Failure α) : OnFile i p (ofExcept e) := fun s _ _ => .refl p s

theorem onFile_textOf (v : Value) : OnFile i p (textOf v) := fun s _ _ => .refl p s

theorem onFile_throw (e : Failure) : OnFile i p (throw e : Action α) := fun s _ _ => .refl p s

theorem onFile_wait (rounds : Nat) : OnFile i p (wait rounds) := fun _ _ _ => ⟨rfl, .inl rfl⟩

/-- An action made of two is on a file if both are. -/
theorem OnFile.bind {a : Action α} {f : α → Action β} (ha : OnFile i p a)
    (hf : ∀ x, OnFile i p (f x)) : OnFile i p (a >>= f) := by
  intro s path hs
  have first := ha s path hs
  rw [outcome_bind]
  rcases hrun : outcome a s with ⟨e | x, s₁⟩ <;> rw [hrun] at first
  · exact first
  · have there : s₁.stores[i]? = some (.file path (.file p)) := by rw [first.stores, hs]
    exact first.trans (hf x s₁ path there)

/-- What an action does may depend on the session, where the store is in the file. -/
theorem onFile_get {f : Session → Action α}
    (h : ∀ s path, s.stores[i]? = some (.file path (.file p)) → OnFile i p (f s)) :
    OnFile i p (get >>= f) :=
  fun s path hs => h s path hs s path hs

theorem onFile_bound (e : Except Failure α) : OnFile i p (bound e) := by
  cases e with
  | ok x => exact onFile_pure x
  | error f => exact (onFile_wait 1).bind fun _ => onFile_throw f

theorem OnFile.undone {a : Action α} (h : OnFile i p a) : OnFile i p (undone a) := by
  have tried : OnFile i p (attempt a) := fun s path hs => by
    rw [outcome_attempt]
    exact h s path hs
  refine tried.bind fun r => ?_
  cases r with
  | ok x => exact onFile_pure x
  | error f => exact (onFile_wait 1).bind fun _ => onFile_throw f

theorem onFile_rows : OnFile i p (rows i) := by
  intro s path _
  rw [outcome_rows]
  split
  · exact .refl p s
  · exact ⟨rfl, .inl rfl⟩
  · split
    · exact .refl p s
    · exact ⟨rfl, .inl rfl⟩

theorem onFile_requireLink : OnFile i p (requireLink i) := by
  refine onFile_get fun s _ _ => ?_
  split
  · exact onFile_throw _
  · exact onFile_pure _

theorem onFile_setRows (t : FileTable) : OnFile i p (setRows i t) := by
  intro s path hs
  rw [setRows, changeFile, outcome_modify, store_eq hs]
  exact ⟨rfl, .inr ⟨_, rfl, rfl⟩⟩

theorem onFile_fetchRecord (kind id : Value) : OnFile i p (fetchRecord i kind id) := by
  refine (onFile_textOf id).bind fun name => onFile_get fun s path hs => ?_
  rw [store_eq hs]
  exact onFile_rows.bind fun t => (onFile_bound _).bind fun k => (onFile_wait 2).bind fun _ =>
    onFile_pure _

theorem onFile_putRecord (kind id data : Value) : OnFile i p (putRecord i kind id data) := by
  refine (onFile_textOf id).bind fun name => (onFile_ofExcept _).bind fun r =>
    onFile_get fun s path hs => ?_
  rw [store_eq hs]
  exact onFile_requireLink.bind fun _ => OnFile.undone <| onFile_rows.bind fun t =>
    (onFile_setRows _).bind fun _ => (onFile_bound _).bind fun _ => onFile_wait 3

theorem onFile_removeRecord (kind id : Value) : OnFile i p (removeRecord i kind id) := by
  refine onFile_get fun s path hs => ?_
  rw [store_eq hs]
  exact onFile_requireLink.bind fun _ => (onFile_textOf id).bind fun name => OnFile.undone <|
    onFile_rows.bind fun t => (onFile_bound _).bind fun k => (onFile_setRows _).bind fun _ =>
      (onFile_wait 2).bind fun _ => onFile_pure _

theorem onFile_countRecords (kind : Value) : OnFile i p (countRecords i kind) := by
  refine onFile_get fun s path hs => ?_
  rw [store_eq hs]
  exact onFile_rows.bind fun t => (onFile_bound _).bind fun k => (onFile_wait 2).bind fun _ =>
    onFile_pure _

theorem onFile_listRecords (kind limit offset : Value) :
    OnFile i p (listRecords i kind limit offset) := by
  refine onFile_get fun s path hs => ?_
  rw [store_eq hs]
  exact onFile_rows.bind fun t => (onFile_bound _).bind fun x => (onFile_wait 2).bind fun _ =>
    onFile_pure _

end

/-- **What is asked of a store in a file writes no other file, and connects or
disconnects none.** -/
theorem onFile_perform (r : Request) : OnFile i p (r.perform i) := by
  cases r with
  | fetch kind id => exact (onFile_fetchRecord _ _).bind fun _ => onFile_pure _
  | put kind id data => exact (onFile_putRecord _ _ _).bind fun _ => onFile_pure _
  | remove kind id => exact (onFile_removeRecord _ _).bind fun _ => onFile_pure _
  | count kind => exact (onFile_countRecords _).bind fun _ => onFile_pure _
  | list kind limit offset => exact (onFile_listRecords _ _ _).bind fun _ => onFile_pure _

/-! ### What is asked without a connection -/

/-- The session with nothing changed but the time. -/
def Waits (s s' : Session) : Prop := ∃ rounds, s' = { s with now := s.now.after rounds }

theorem Waits.refl (s : Session) : s.Waits s := ⟨0, rfl⟩

theorem Waits.after (h : s.Waits s') (rounds : Nat) :
    s.Waits { s' with now := s'.now.after rounds } := by
  obtain ⟨n, rfl⟩ := h
  exact ⟨n + rounds, by simp [Instant.after, Nat.add_assoc]⟩

/-- A store is in a file that it is not connected to, or that cannot be used. -/
structure Unlinked (s : Session) (i : StoreId) : Prop where
  file : ∃ path link, s.store i = .file path link
  link : s.linkOf i = .closed ∨ s.linkOf i = .unusable

/-- An action fails for want of a connection or because the file cannot be used, and takes time at
most. -/
def Refused {α : Type} (a : Action α) (s : Session) : Prop :=
  ∃ e s', outcome a s = (.error e, s') ∧ s.Waits s' ∧ (e = .notConnected ∨ e = .blocked .cannotOpen)

section

variable {α β : Type}

theorem Refused.bind {a : Action α} (h : Refused a s) (f : α → Action β) : Refused (a >>= f) s := by
  obtain ⟨e, s', ha, waits, told⟩ := h
  exact ⟨e, s', outcome_bind_error ha, waits, told⟩

theorem Refused.undone {a : Action α} (h : Refused a s) : Refused (undone a) s := by
  obtain ⟨e, s', ha, waits, told⟩ := h
  have tried : outcome (attempt a) s = (.ok (.error e), s') := by rw [outcome_attempt, ha]
  refine ⟨e, _, ?_, waits.after 1, told⟩
  rw [Session.undone, outcome_bind_ok tried]
  rfl

/-- An action that goes on after one that changes nothing is refused if what goes on is. -/
theorem Refused.after_ok {a : Action α} {f : α → Action β} {x : α} (ha : outcome a s = (.ok x, s))
    (h : Refused (f x) s) : Refused (a >>= f) s := by
  obtain ⟨e, s', hf, waits, told⟩ := h
  exact ⟨e, s', (outcome_bind_ok ha).trans hf, waits, told⟩

/-- What an action fails with is a reason to refuse a call. -/
theorem Refused.refusal {a : Action α} (h : Refused a s) (text : Value → Except Failure String)
    (c : Life.Call) : ∃ e s', outcome a s = (.error e, s') ∧ s.Waits s' ∧ c.Refusal text e := by
  obtain ⟨e, s', ha, waits, rfl | rfl⟩ := h
  · exact ⟨_, s', ha, waits, .closed c⟩
  · exact ⟨_, s', ha, waits, .unusable c⟩

end

namespace Unlinked

theorem rows (h : Unlinked s i) : Refused (rows i) s := by
  rcases h.link with closed | unusable
  · refine ⟨.notConnected, s, ?_, .refl s, .inl rfl⟩
    rw [outcome_rows, closed]
  · refine ⟨.blocked .cannotOpen, _, ?_, (Waits.refl s).after 1, .inr rfl⟩
    rw [outcome_rows, unusable]

theorem requireUse (h : Unlinked s i) : Refused (requireUse i) s := by
  rcases h.link with closed | unusable
  · refine ⟨.notConnected, s, ?_, .refl s, .inl rfl⟩
    rw [outcome_requireUse, closed]
  · refine ⟨.blocked .cannotOpen, _, ?_, (Waits.refl s).after 1, .inr rfl⟩
    rw [outcome_requireUse, unusable]

/-- The connection is refused at once, or the file cannot be used. -/
theorem requireLink (h : Unlinked s i) :
    Refused (requireLink i) s ∨ outcome (requireLink i) s = (.ok ⟨⟩, s) := by
  rcases h.link with closed | unusable
  · refine .inl ⟨.notConnected, s, ?_, .refl s, .inl rfl⟩
    rw [Session.requireLink, outcome_get_bind, closed]
    rfl
  · right
    rw [Session.requireLink, outcome_get_bind, unusable]
    rfl

/-- What needs a connection before anything else is refused. -/
theorem after_requireLink {α : Type} {a : Action α} (h : Unlinked s i) (ha : Refused a s) :
    Refused (Session.requireLink i >>= fun _ => a) s := by
  rcases h.requireLink with refused | linked
  · exact refused.bind _
  · exact ha.after_ok linked

/-- **What is asked of a store in a file without a connection fails and changes nothing.** -/
theorem perform (h : Unlinked s i) {r : Request} (hr : r.Plain) :
    ∃ e s', outcome (r.perform i) s = (.error e, s') ∧ s.Waits s' ∧
      (Life.Call.ask i r).Refusal (Method.toText s.catalog s.heap) e := by
  obtain ⟨path, link, hs⟩ := h.file
  have text {id : Value} {x : Except Failure String} (hx : Method.toText s.catalog s.heap id = x) :
      outcome (textOf id) s = (x, s) := by rw [outcome_textOf, hx]
  cases r with
  | fetch kind id =>
    cases hid : Method.toText s.catalog s.heap id with
    | error e =>
      exact ⟨e, s, outcome_bind_error (fetchRecord_of_text_error hid), .refl s, .fetch hid⟩
    | ok name =>
      have refused : Refused (fetchRecord i (.str kind) id) s := by
        refine Refused.after_ok (text hid) ?_
        rw [Refused, outcome_get_bind, hs]
        exact h.rows.bind _
      exact (refused.bind _).refusal _ _
  | put kind id data =>
    cases hid : Method.toText s.catalog s.heap id with
    | error e =>
      exact ⟨e, s, outcome_bind_error (putRecord_of_text_error hid data), .refl s, .put hid⟩
    | ok name =>
      obtain ⟨es, hes, plain⟩ := hr
      have keyed : Entries.textKeyed es = true := by
        simp only [Value.isPlain, Bool.and_eq_true] at plain
        exact plain.1
      have record : outcome (ofExcept (Record.examine (.str kind) name data)) s =
          (.ok ⟨⟨.text kind, name⟩, es⟩, s) := by
        rw [outcome_ofExcept, Record.examine_of_textKeyed hes keyed]
      have refused : Refused (putRecord i (.str kind) id data) s := by
        refine Refused.after_ok (text hid) (Refused.after_ok record ?_)
        rw [Refused, outcome_get_bind, hs]
        exact h.after_requireLink (h.rows.bind _).undone
      exact (refused.bind _).refusal _ _
  | remove kind id =>
    cases hid : Method.toText s.catalog s.heap id with
    | error e =>
      rcases h.requireLink with closed | linked
      · have refused : Refused (removeRecord i (.str kind) id) s := by
          rw [Refused, removeRecord, outcome_get_bind, hs]
          exact closed.bind _
        exact (refused.bind _).refusal _ _
      · have textless : outcome (removeRecord i (.str kind) id) s = (.error e, s) := by
          rw [removeRecord, outcome_get_bind, hs]
          exact (outcome_bind_ok linked).trans (outcome_bind_error (text hid))
        exact ⟨e, s, outcome_bind_error textless, .refl s, .remove hid⟩
    | ok name =>
      have refused : Refused (removeRecord i (.str kind) id) s := by
        rw [Refused, removeRecord, outcome_get_bind, hs]
        exact h.after_requireLink (Refused.after_ok (text hid) (h.rows.bind _).undone)
      exact (refused.bind _).refusal _ _
  | count kind =>
    have refused : Refused (countRecords i (.str kind)) s := by
      rw [countRecords, Refused, outcome_get_bind, hs]
      exact h.rows.bind _
    exact (refused.bind _).refusal _ _
  | list kind limit offset =>
    have refused : Refused (listRecords i (.str kind) (.int limit) (.int offset)) s := by
      rw [listRecords, Refused, outcome_get_bind, hs]
      exact h.rows.bind _
    exact (refused.bind _).refusal _ _

end Unlinked

/-- A store in a file is not brought up to date without a connection. -/
theorem Unlinked.migrate (h : Unlinked s i) : Refused (migrate i) s := by
  obtain ⟨path, link, hs⟩ := h.file
  rw [Refused, Session.migrate, outcome_get_bind, hs]
  exact h.requireUse.bind _

/-! ### Connecting, disconnecting, and bringing up to date -/

section

variable {path : String} {link : Link} {d : Disk}
  (hs : s.stores[i]? = some (.file path link))

include hs

/-- A connection that is refused leaves the link as it was. -/
theorem outcome_connect_blocked {b : Blockage} (hc : s.disk.connect path = (.error b, d)) :
    ∃ s', outcome (connect i) s = (.error (.blocked b), s') ∧ { s with disk := d }.Waits s' := by
  refine ⟨_, ?_, (Waits.refl _).after (if b = .cannotOpen then 1 else 0)⟩
  rw [connect, outcome_get_bind, store_eq hs]
  simp only [hc]
  rfl

/-- A file that cannot be used is linked, and then refused. -/
theorem outcome_connect_unusable (hc : s.disk.connect path = (.ok .unusable, d)) :
    ∃ s', outcome (connect i) s = (.error (.blocked .cannotOpen), s') ∧
      ({ s with disk := d }.setStore i (.file path .unusable)).Waits s' := by
  refine ⟨_, ?_, (Waits.refl _).after (roundsToConnect s.disk .unusable)⟩
  rw [connect, outcome_get_bind, store_eq hs]
  simp only [hc]
  rfl

/-- A file that can be used is linked. -/
theorem outcome_connect_file (hc : s.disk.connect path = (.ok (.file p), d)) :
    ∃ s', outcome (connect i) s = (.ok ⟨⟩, s') ∧
      ({ s with disk := d }.setStore i (.file path (.file p))).Waits s' := by
  refine ⟨_, ?_, (Waits.refl _).after (roundsToConnect s.disk (.file p))⟩
  rw [connect, outcome_get_bind, store_eq hs]
  simp only [hc]
  rfl

/-- A store in a file has no link after it has been disconnected. -/
theorem outcome_disconnect (ready : s.awaited i = false) :
    ∃ s', outcome (disconnect i) s = (.ok ⟨⟩, s') ∧
      (s.setStore i (.file path .closed)).Waits s' := by
  have linkOf : s.linkOf i = link := by
    rw [Session.linkOf, store_eq hs]
    simp only [ready, Bool.false_eq_true, if_false]
  rw [disconnect, outcome_get_bind, store_eq hs]
  simp only [linkOf]
  cases link with
  | closed =>
    obtain ⟨lt, there⟩ := List.getElem?_eq_some_iff.1 hs
    have same : s.setStore i (.file path .closed) = s := by
      rw [setStore, ← there, List.set_getElem_self]
    refine ⟨s, rfl, ?_⟩
    rw [same]
    exact .refl s
  | file p => exact ⟨_, rfl, (Waits.refl _).after 1⟩
  | own t => exact ⟨_, rfl, (Waits.refl _).after 1⟩
  | unusable => exact ⟨_, rfl, (Waits.refl _).after 1⟩

end

/-- A file that is up to date is left as it is when it is brought up to date through a store that is
connected. -/
theorem outcome_migrate {path : String} {db : Database}
    (hs : s.stores[i]? = some (.file path (.file p))) (ready : s.awaited i = false)
    (hp : s.disk.node? p = some (.file db)) (current : db.Current) :
    ∃ s', outcome (migrate i) s = (.ok ⟨⟩, s') ∧
      { s with disk := s.disk.put p (.file db) }.Waits s' := by
  have linkOf : s.linkOf i = .file p := by
    rw [Session.linkOf, store_eq hs]
    simp only [ready, Bool.false_eq_true, if_false]
  have used : outcome (requireUse i) s = (.ok ⟨⟩, s) := by rw [outcome_requireUse, linkOf]
  have same : (s.disk.database p).migrate = db := by
    rw [Disk.database, hp]
    exact current
  refine ⟨_, ?_, (Waits.refl _).after 3⟩
  rw [migrate, outcome_get_bind, store_eq hs]
  simp only [outcome_bind_ok used, changeFile, outcome_modify_bind, store_eq hs, same]
  rfl

/-- The table of the file that a served store is linked to. -/
theorem Served.table {path : String} {rs : List Record} (h : s.Served i rs s')
    (hs : s'.stores[i]? = some (.file path (.file p))) : s'.disk.table p = rs := by
  obtain hm | ⟨own, -, -⟩ | ⟨file, -, hdb, rows⟩ := h.keeps
  · cases hs.symm.trans hm
  · cases hs.symm.trans own
  · cases hs.symm.trans file
    rw [Disk.table, Disk.database, hdb]
    exact Database.rows_of_records? rows

end Session

/-! ### One call -/

namespace Life

open Session

variable {text : Value → Except Failure String} {path : StoreId → String} {p : Place}
  {handles : List StoreId} {l : Life} {s s' : Session} {i : StoreId}

/-- The log of a file goes on, and its handles stay as they are. -/
theorem Holds.goesOn (h : l.Holds text path p handles s) (stores : s'.stores = s.stores)
    (disk : s.disk.Stands s'.disk) (on : s.MovesOn s') (heap : s'.heap = s.heap) {log : Log}
    (table : s'.disk.table p = log.live.reverse)
    (data : ∀ r ∈ log.live, (Value.dict r.data).IsData) :
    Holds text path p handles { l with log := log } s' where
  text := by rw [on.catalog, heap, h.text]
  named := h.named
  ready i hi := on.awaited (h.ready i hi)
  link i hi := by rw [stores]; exact h.link i hi
  known := h.known
  opens t ht := by
    obtain ⟨d, d', hc, stands⟩ := h.opens t ht
    exact ⟨d, d', hc, stands.trans disk⟩
  table := table
  data := data

/-- A file and its handles stay as they are where the tables of all files do. -/
theorem Holds.saved (h : l.Holds text path p handles s) (stores : s'.stores = s.stores)
    (disk : s.disk.Saves s'.disk) (on : s.MovesOn s') (heap : s'.heap = s.heap) :
    l.Holds text path p handles s' :=
  h.goesOn stores disk.toStands on heap ((disk.table p).trans h.table) h.data

theorem Holds.waits (h : l.Holds text path p handles s) (waits : s.Waits s') :
    l.Holds text path p handles s' := by
  obtain ⟨rounds, rfl⟩ := waits
  exact h.saved rfl (.refl _) (.wait s rounds) rfl

/-- A handle is given another link. -/
theorem Holds.relink (h : l.Holds text path p handles s) (hi : i ∈ handles) {link : Link}
    (hlink : link = .closed ∨ link = .unusable ∨ link = .file p) {linked : List StoreId}
    (mem : ∀ j, j ∈ linked ↔ if j = i then link = .file p else j ∈ l.linked) {opened : List String}
    (known : ∀ j ∈ linked, path j ∈ opened)
    (opens : ∀ t ∈ opened, ∃ d d', Disk.connect d t = (.ok (.file p), d') ∧ d'.Stands s.disk) :
    Holds text path p handles ⟨l.log, linked, opened⟩ (s.setStore i (.file (path i) link)) where
  text := h.text
  named := h.named
  ready j hj := h.ready j hj
  link j hj := by
    obtain ⟨link', hs, kind, linked'⟩ := h.link j hj
    by_cases same : j = i
    · subst same
      exact ⟨link, store_setStore hs, hlink, by simp [mem]⟩
    · refine ⟨link', ?_, kind, by simpa [mem, same] using linked'⟩
      rw [setStore, List.getElem?_set_ne (Ne.symm same), hs]
  known := known
  opens := opens
  table := h.table
  data := h.data

/-- **The file of a handle that is connected is up to date**, and so it has a table, in which the
handle keeps the live records of the log. -/
theorem Holds.connected (h : l.Holds text path p handles s) (hi : i ∈ handles)
    (linked : i ∈ l.linked) :
    s.stores[i]? = some (.file (path i) (.file p)) ∧
      (∃ db, s.disk.node? p = some (.file db) ∧ db.Current) ∧
      s.Connected i (l.log.live).reverse := by
  obtain ⟨link, hs, -, hlink⟩ := h.link i hi
  obtain rfl := hlink.2 linked
  obtain ⟨d, d', hc, stands⟩ := h.opens _ (h.known i linked)
  obtain ⟨memory, -⟩ | hu | ⟨hp, db, hdb, current⟩ := Disk.exists_database_of_connect hc
  · exact absurd memory (h.named i hi).1
  · cases hu
  · rw [(h.named i hi).2] at hdb
    -- the file was up to date when it was connected to, and has been since
    obtain ⟨db', hdb', stays⟩ := stands.file hdb
    have rows : db'.rows = l.log.live.reverse := by
      rw [← h.table, Disk.table, Disk.database, hdb']
    have made := (stays current).records?
    rw [rows] at made
    exact ⟨hs, ⟨db', hdb', stays current⟩, .file hs (h.ready i hi) hdb' made⟩

/-- A handle that is not connected has no link, or one to a file that cannot be used. -/
theorem Holds.unlinked (h : l.Holds text path p handles s) (hi : i ∈ handles)
    (unlinked : i ∉ l.linked) : s.Unlinked i := by
  obtain ⟨link, hs, kind, hlink⟩ := h.link i hi
  refine ⟨⟨path i, link, store_eq hs⟩, ?_⟩
  rw [linkOf, store_eq hs]
  simp only [h.ready i hi, Bool.false_eq_true, if_false]
  rcases kind with rfl | rfl | rfl
  · exact .inl rfl
  · exact .inr rfl
  · exact absurd (hlink.1 rfl) unlinked

/-- A path that has led to the file leads to it. -/
theorem Holds.leads (h : l.Holds text path p handles s) {t : String} (ht : t ∈ l.opened) :
    (s.disk.connect t).1 = .ok (.file p) := by
  obtain ⟨d, d', hc, stands⟩ := h.opens t ht
  exact Disk.connect_again hc stands

/-- A handle is connected, or refused if its path has not led to the file. -/
theorem step_connect (h : l.Holds text path p handles s) (hi : i ∈ handles) :
    ∃ l', l.Follows text path (.connect i) (outcome (Call.connect i).perform s).1 l' ∧
      l'.Holds text path p handles (outcome (Call.connect i).perform s).2 := by
  obtain ⟨link, hs, -, -⟩ := h.link i hi
  have linked {j : StoreId} (hj : j ∈ l.linked) : path j ∈ l.opened := h.known j hj
  rcases hc : s.disk.connect (path i) with ⟨result, d⟩
  have saves : s.disk.Saves d := by
    have saved := Disk.saves_connect s.disk (path i)
    rwa [hc] at saved
  have kept : l.Holds text path p handles { s with disk := d } :=
    h.saved rfl saves ⟨rfl, rfl, rfl, .refl _⟩ rfl
  -- a path that has led to the file is not refused
  have fresh (hr : result ≠ .ok (.file p)) : path i ∉ l.opened := by
    intro hi
    have led := h.leads hi
    rw [hc] at led
    exact hr led
  cases result with
  | error b =>
    obtain ⟨s', run, waits⟩ := outcome_connect_blocked hs hc
    have failed : outcome (Call.connect i).perform s = (.error (.blocked b), s') :=
      outcome_bind_error run
    rw [failed]
    exact ⟨l, .refused l i _ (fresh nofun), kept.waits waits⟩
  | ok link' =>
    rcases Disk.exists_database_of_connect hc with ⟨memory, -⟩ | rfl | ⟨rfl, -⟩
    · exact absurd memory (h.named i hi).1
    · obtain ⟨s', run, waits⟩ := outcome_connect_unusable hs hc
      have failed : outcome (Call.connect i).perform s = (.error (.blocked .cannotOpen), s') :=
        outcome_bind_error run
      have new := fresh nofun
      rw [failed]
      refine ⟨l, .refused l i _ new, Holds.waits (kept.relink hi (.inr (.inl rfl)) ?_ h.known
        kept.opens) waits⟩
      intro j
      split
      · next same => exact ⟨fun hj => absurd (same ▸ linked hj) new, nofun⟩
      · exact .rfl
    · rw [(h.named i hi).2] at hc
      obtain ⟨s', run, waits⟩ := outcome_connect_file hs hc
      have done : outcome (Call.connect i).perform s = (.ok none, s') := outcome_bind_ok run
      rw [done]
      refine ⟨_, .connected l i, Holds.waits (kept.relink hi (.inr (.inr rfl)) ?_ ?_ ?_) waits⟩
      · intro j
        by_cases same : j = i <;> simp [same]
      · intro j hj
        rcases List.mem_cons.1 hj with rfl | hj
        · exact List.mem_cons_self ..
        · exact List.mem_cons_of_mem _ (linked hj)
      · intro t ht
        rcases List.mem_cons.1 ht with rfl | ht
        · exact ⟨_, _, hc, .refl d⟩
        · exact kept.opens t ht

/-- A handle is disconnected. -/
theorem step_disconnect (h : l.Holds text path p handles s) (hi : i ∈ handles) :
    ∃ l', l.Follows text path (.disconnect i) (outcome (Call.disconnect i).perform s).1 l' ∧
      l'.Holds text path p handles (outcome (Call.disconnect i).perform s).2 := by
  obtain ⟨link, hs, -, hlink⟩ := h.link i hi
  obtain ⟨s', run, waits⟩ := outcome_disconnect hs (h.ready i hi)
  have done : outcome (Call.disconnect i).perform s = (.ok none, s') := outcome_bind_ok run
  rw [done]
  refine ⟨_, .disconnected l i, Holds.waits (h.relink hi (.inl rfl) ?_ ?_ h.opens) waits⟩
  · intro j
    by_cases same : j = i <;> simp [same]
  · exact fun j hj => h.known j (List.mem_filter.1 hj).1

/-- A file is brought up to date through a handle that is connected. -/
theorem step_migrate (h : l.Holds text path p handles s) (hi : i ∈ handles) :
    ∃ l', l.Follows text path (.migrate i) (outcome (Call.migrate i).perform s).1 l' ∧
      l'.Holds text path p handles (outcome (Call.migrate i).perform s).2 := by
  by_cases linked : i ∈ l.linked
  · obtain ⟨hs, ⟨db, hdb, current⟩, -⟩ := h.connected hi linked
    obtain ⟨s', run, waits⟩ := outcome_migrate hs (h.ready i hi) hdb current
    have done : outcome (Call.migrate i).perform s = (.ok none, s') := outcome_bind_ok run
    rw [done]
    have kept : l.Holds text path p handles { s with disk := s.disk.put p (.file db) } :=
      h.saved rfl (Disk.saves_same hdb) ⟨rfl, rfl, rfl, .refl _⟩ rfl
    exact ⟨l, .migrated l i linked, kept.waits waits⟩
  · have unlinked := h.unlinked hi linked
    obtain ⟨e, s', failed, waits, refusal⟩ :=
      (unlinked.migrate.bind fun _ => pure none).refusal text (.migrate i)
    rw [show outcome (Call.migrate i).perform s = _ from failed]
    exact ⟨l, .unlinked l _ e trivial linked refusal, h.waits waits⟩

/-- A connected handle answers from the log, and the others refuse. -/
theorem step_ask (h : l.Holds text path p handles s) (hi : i ∈ handles) {r : Request}
    (hr : r.Plain) :
    ∃ l', l.Follows text path (.ask i r) (outcome (Call.ask i r).perform s).1 l' ∧
      l'.Holds text path p handles (outcome (Call.ask i r).perform s).2 := by
  by_cases linked : i ∈ l.linked
  · obtain ⟨hs, ⟨db, hdb, -⟩, connected⟩ := h.connected hi linked
    obtain ⟨s', run, served, data⟩ := Request.step (.file connected) h.data hr
    have touches := onFile_perform r s (path i) hs
    rw [run] at touches
    have asked : outcome (Call.ask i r).perform s =
        ((r.answer (Method.toText s.catalog s.heap) l.log).1.map some, s') := by
      rw [Call.perform, outcome_bind, run]
      cases (r.answer (Method.toText s.catalog s.heap) l.log).1 <;> rfl
    rw [asked, h.text]
    refine ⟨_, .asked l i r linked, h.goesOn touches.stores (touches.stands hdb) served.on
      served.heap ?_ (h.text ▸ data)⟩
    rw [← h.text]
    exact served.table (touches.stores ▸ hs)
  · obtain ⟨e, s', failed, waits, refusal⟩ := (h.unlinked hi linked).perform hr
    have failed : outcome (Call.ask i r).perform s = (.error e, s') := outcome_bind_error failed
    rw [failed]
    exact ⟨l, .unlinked l _ e trivial linked (h.text ▸ refusal), h.waits waits⟩

/-- **One call follows the life of the file.** -/
theorem step (h : l.Holds text path p handles s) {c : Call} (hc : c.handle ∈ handles)
    (plain : c.Plain) :
    ∃ l', l.Follows text path c (outcome c.perform s).1 l' ∧
      l'.Holds text path p handles (outcome c.perform s).2 := by
  cases c with
  | connect i => exact step_connect h hc
  | disconnect i => exact step_disconnect h hc
  | migrate i => exact step_migrate h hc
  | ask i r => exact step_ask h hc plain

/-- Every run of calls follows the life of the file. -/
theorem Holds.run (h : l.Holds text path p handles s) {calls : List Call}
    (called : ∀ c ∈ calls, c.handle ∈ handles) (plain : ∀ c ∈ calls, c.Plain) :
    ∃ l', l.Tells text path calls (Call.run calls s).1 l' ∧
      l'.Holds text path p handles (Call.run calls s).2 := by
  induction calls generalizing l s with
  | nil => exact ⟨l, .nil l, h⟩
  | cons c calls ih =>
    obtain ⟨hc, called⟩ := List.forall_mem_cons.1 called
    obtain ⟨hp, plain⟩ := List.forall_mem_cons.1 plain
    obtain ⟨l₁, follows, holds⟩ := step h hc hp
    obtain ⟨l₂, tells, holds'⟩ := ih holds called plain
    exact ⟨l₂, .cons follows tells, holds'⟩

/-- **Whatever is called in whatever order, all answers are those of one log**, that of the changes
made through connected handles, and the file holds the live records of that log in the end. -/
theorem run_tells {log : Log}
    (opened : ∀ i ∈ handles, s.stores[i]? = some (.file (path i) .closed) ∧
      s.awaited i = false ∧ path i ≠ ":memory:" ∧ (Path.ofText (path i)).place = p)
    (table : s.disk.table p = log.live.reverse)
    (data : ∀ r ∈ log.live, (Value.dict r.data).IsData) {calls : List Call}
    (called : ∀ c ∈ calls, c.handle ∈ handles) (plain : ∀ c ∈ calls, c.Plain) :
    ∃ l, Tells (Method.toText s.catalog s.heap) path ⟨log, [], []⟩ calls (Call.run calls s).1 l ∧
      (Call.run calls s).2.disk.table p = l.log.live.reverse := by
  have start : Holds (Method.toText s.catalog s.heap) path p handles ⟨log, [], []⟩ s :=
    { text := rfl
      named := fun i hi => (opened i hi).2.2
      ready := fun i hi => (opened i hi).2.1
      link := fun i hi => ⟨.closed, (opened i hi).1, .inl rfl, by simp⟩
      known := nofun
      opens := nofun
      table := table
      data := data }
  obtain ⟨l, tells, holds⟩ := start.run called plain
  exact ⟨l, tells, holds.table⟩

/-- Two handles of a file that is not there yet. -/
def twoHandles : Session :=
  { Session.initial with stores := [.file "sqlite" .closed, .file "sqlite" .closed] }

/-- What one handle puts the other one counts and deletes, while the first is not connected. -/
def twoCalls : List Call :=
  [.connect 0, .ask 1 (.count "A"), .ask 0 (.put "A" (.int 1) (.dict [])), .connect 1, .migrate 1,
   .ask 1 (.count "A"), .disconnect 0, .ask 1 (.remove "A" (.int 1)), .connect 0,
   .ask 0 (.count "A")]

/-- Both handles answer from one log. -/
theorem run_twoHandles : ∃ e, (Call.run twoCalls twoHandles).1 =
    [.ok none, .error e, .ok (some .stored), .ok none, .ok none, .ok (some (.counted 1)), .ok none,
     .ok (some (.removed true)), .ok none, .ok (some (.counted 0))] := by
  have opened : ∀ i ∈ [0, 1], twoHandles.stores[i]? = some (.file "sqlite" .closed) ∧
      twoHandles.awaited i = false ∧ "sqlite" ≠ ":memory:" ∧
        (Path.ofText "sqlite").place = Disk.working ++ ["sqlite"] := by
    have place : (Path.ofText "sqlite").place = Disk.working ++ ["sqlite"] := by
      rw [Session.ofText_sqlite]
      decide
    simp only [List.forall_mem_cons]
    exact ⟨⟨rfl, rfl, by decide, place⟩, ⟨rfl, rfl, by decide, place⟩, List.forall_mem_nil _⟩
  have called : ∀ c ∈ twoCalls, c.handle ∈ [0, 1] := by decide
  have plain : ∀ c ∈ twoCalls, c.Plain := by
    simp only [twoCalls, List.forall_mem_cons, Call.Plain, Request.Plain]
    exact ⟨trivial, trivial, ⟨_, rfl, rfl⟩, trivial, trivial, trivial, trivial, trivial, trivial,
      trivial, List.forall_mem_nil _⟩
  have connects : (Call.run twoCalls twoHandles).1[0]? = some (.ok none) := by
    obtain ⟨d, hd⟩ := Session.connect_sqlite
    have there : twoHandles.stores[0]? = some (.file "sqlite" .closed) := rfl
    obtain ⟨s', run, -⟩ := outcome_connect_file there hd
    exact congrArg (fun r => some r.1)
      (outcome_bind_ok run : outcome (Call.connect 0).perform twoHandles = (.ok none, s'))
  have table : twoHandles.disk.table (Disk.working ++ ["sqlite"]) = (Log.live []).reverse := rfl
  have empty : ∀ r ∈ Log.live [], (Value.dict r.data).IsData := List.forall_mem_nil _
  obtain ⟨l, tells, -⟩ := run_tells opened table empty called plain
  revert tells connects
  generalize (Call.run twoCalls twoHandles).1 = answers
  intro connects tells
  -- the first call is answered as told, and with that the life determines the other answers
  obtain _ | ⟨connected, tells⟩ := tells
  cases connected with
  | refused => cases connects
  | unlinked => cases connects
  | connected =>
    obtain _ | ⟨refused, tells⟩ := tells
    obtain ⟨⟨e, rfl, -⟩, rfl⟩ := refused.unlinked_eq trivial (by decide)
    obtain _ | ⟨stored, tells⟩ := tells
    obtain ⟨rfl, rfl⟩ := stored.ask_eq (by decide)
    obtain _ | ⟨connected, tells⟩ := tells
    obtain ⟨rfl, rfl⟩ := connected.connect_eq (by decide)
    obtain _ | ⟨migrated, tells⟩ := tells
    obtain ⟨rfl, rfl⟩ := migrated.migrate_eq (by decide)
    obtain _ | ⟨counted, tells⟩ := tells
    obtain ⟨rfl, rfl⟩ := counted.ask_eq (by decide)
    obtain _ | ⟨disconnected, tells⟩ := tells
    obtain ⟨rfl, rfl⟩ := disconnected.disconnect_eq
    obtain _ | ⟨removed, tells⟩ := tells
    obtain ⟨rfl, rfl⟩ := removed.ask_eq (by decide)
    obtain _ | ⟨connected, tells⟩ := tells
    obtain ⟨rfl, rfl⟩ := connected.connect_eq (by decide)
    obtain _ | ⟨counted, tells⟩ := tells
    obtain ⟨rfl, rfl⟩ := counted.ask_eq (by decide)
    cases tells
    exact ⟨e, rfl⟩

end Life

end EntitySchema
