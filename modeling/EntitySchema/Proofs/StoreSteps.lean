/-
**Steps of a program that uses the shared store.**

Two things are kept for the whole program, and not for equally long: the settings, until they are
forgotten, and the shared store, until it is closed.  A program changes the environment, forgets the
settings and reads them, gets the shared store and closes it, and saves, finds and deletes entities
in it.

A step does one of four things.  It finds no shared store and opens none; it closes the shared
store; it works on the shared store, which is ready; or it opens one, as the settings in force ask,
and works on it.  A step that opens the shared store and one that finds it open do the same there,
so that each step only has to be followed from a ready store on.

Main definitions:

* `Sharing.Step`, `Sharing.Step.perform`, `Sharing.Step.Proper` — steps, and what is assumed of
  them;
* `Sharing.Step.noted` — what is kept of the settings, told without the session that keeps them;
* `Sharing.Step.made` — the changes that a step makes in the shared store;
* `Sharing.Does`, `Sharing.Effect` — **what a step may do.**

Main results:

* `Persistence.outcome_save_of_launches`, `Persistence.outcome_delete_of_launches` — saving and
  deleting where the shared store has been launched;
* `Sharing.Step.effect` — **each step does one of these things, and no other.**
-/

import EntitySchema.Proofs.StoreChanges

set_option autoImplicit false

namespace EntitySchema

namespace Session

variable {s s' : Session} {sh : Shared} {x : Settings} {st : Store} {d : Disk} {rounds : Nat}
  {e : Failure} {a : Address} {cls : ClassId} {i : StoreId} {cs : List Change}

/-! ### What becomes of settings and stores -/

/-- Only the environment is changed when variables are set, be it that some cannot be set. -/
theorem exists_of_setVariables (vars : List (String × Option String)) (s : Session) :
    ∃ env, (outcome (setVariables vars) s).2 = { s with environment := env } := by
  induction vars generalizing s with
  | nil => exact ⟨s.environment, rfl⟩
  | cons v vars ih =>
    have one : ∃ env, (outcome (setVariable v.1 v.2) s).2 = { s with environment := env } := by
      rw [setVariable, outcome_get_bind]
      cases v.2 with
      | none => exact ⟨_, rfl⟩
      | some y =>
        dsimp only
        rw [outcome_bind, outcome_ofExcept]
        cases Settings.setVariable s.environment v.1 y with
        | error e => exact ⟨s.environment, rfl⟩
        | ok env => exact ⟨env, rfl⟩
    obtain ⟨env, first⟩ := one
    have steps : setVariables (v :: vars) =
        setVariable v.1 v.2 >>= fun _ => setVariables vars := rfl
    rw [steps, outcome_bind]
    rcases hrun : outcome (setVariable v.1 v.2) s with ⟨e | u, t⟩ <;> rw [hrun] at first
    · exact ⟨env, first⟩
    · obtain rfl : t = { s with environment := env } := first
      exact ih _

/-- Closing leaves no shared store, and files and settings as they are. -/
theorem closeShared_spec (s : Session) :
    (outcome closeShared s).2.shared = none ∧ (outcome closeShared s).2.disk = s.disk ∧
      (outcome closeShared s).2.survey = s.survey ∧
      (outcome closeShared s).2.settings = s.settings := by
  rw [closeShared, outcome_get_bind]
  cases hs : s.shared with
  | none => exact ⟨hs, rfl, rfl, rfl⟩
  | some sh =>
    dsimp only
    rw [disconnect, outcome_bind, outcome_get_bind]
    cases s.store sh.store with
    | memory rs => exact ⟨rfl, rfl, rfl, rfl⟩
    | file path link =>
      dsimp only
      cases s.linkOf sh.store <;> exact ⟨rfl, rfl, rfl, rfl⟩

theorem inFile_eq_isSome (s : Session) (i : StoreId) : s.inFile i = (s.store i).path?.isSome := by
  rw [inFile]
  cases s.store i <;> rfl

theorem Alters.inFile (h : Alters i cs s s') : s'.inFile i = s.inFile i := by
  rw [inFile_eq_isSome, h.path, inFile_eq_isSome]

/-- A store that is in memory was asked for in memory. -/
theorem memory_of_launches (h : s.disk.Launches x st d rounds)
    (memory : (s.launched x st d rounds).inFile s.stores.length = false) : x.backend = .memory := by
  rw [Session.inFile, store_eq launched_store] at memory
  cases h with
  | memory hb => exact hb
  | file => cases memory

theorem launched_identified (s : Session) (a : Address) (id : Value) :
    (s.launched x st d rounds).identified a id = (s.identified a id).launched x st d rounds := by
  unfold identified
  show (if id.isNull then _ else _) = _
  cases id.isNull <;> rfl

end Session

namespace Persistence

open Session

variable {s : Session} {x : Settings} {st : Store} {d : Disk} {rounds : Nat} {a : Address}
  {cls : ClassId} {method : String}

theorem Common.launched (h : Common s a cls method) :
    Common (s.launched x st d rounds) a cls method :=
      ⟨h.species, h.unhidden, h.resolve, h.unassigned⟩

/-- Whether saving comes to the point where the store is asked for: the entity is valid. -/
def asksToSave (s : Session) (a : Address) : Bool :=
  match Method.needed s.catalog s.heap a idField with
  | .error _ => false
  | .ok id => (Method.validate s.catalog (s.identified a id).heap a).toBool

/-- Whether deleting comes to that point: the entity has an identifier. -/
def asksToDelete (s : Session) (a : Address) : Bool :=
  match Method.needed s.catalog s.heap a idField with
  | .error _ => false
  | .ok id => !id.isNull

section

variable {id : Value}

/-- Which change saving makes does not depend on the store. -/
theorem saved?_launched (s : Session) (x : Settings) (st : Store) (d : Disk) (rounds : Nat)
    (inFile : Bool) (a : Address) :
    saved? inFile (s.launched x st d rounds) a = saved? inFile s a := by
  simp only [saved?, launched_identified]
  rfl

/-- The change that saving makes is a put. -/
theorem exists_of_saved? {inFile : Bool} {c : Change} (h : saved? inFile s a = .ok c) :
    ∃ r : Record, c = .put r.key r.data := by
  simp only [saved?, stored?, put?, bind_eq_ok] at h
  obtain ⟨id, -, u, -, kind, -, id', -, raw, -, name, -, r₀, -, r, -, made⟩ := h
  exact ⟨r, (Except.ok.inj made).symm⟩

theorem exists_of_asksToSave (asks : asksToSave s a = true) :
    ∃ id, Method.needed s.catalog s.heap a idField = .ok id ∧
      Method.validate s.catalog (s.identified a id).heap a = .ok ⟨⟩ := by
  unfold asksToSave at asks
  split at asks
  · cases asks
  · next id hid =>
    refine ⟨id, hid, ?_⟩
    cases hv : Method.validate s.catalog (s.identified a id).heap a with
    | error e =>
      rw [hv] at asks
      cases asks
    | ok u => rfl

theorem exists_of_asksToDelete (asks : asksToDelete s a = true) :
    ∃ id, Method.needed s.catalog s.heap a idField = .ok id ∧ id.isNull = false := by
  unfold asksToDelete at asks
  split at asks
  · cases asks
  · exact ⟨_, ‹_›, by simpa using asks⟩

/-- A valid entity is put into the shared store. -/
theorem outcome_save_of_valid (h : Common s a cls "save")
    (hid : Method.needed s.catalog s.heap a idField = .ok id)
    (valid : Method.validate s.catalog (s.identified a id).heap a = .ok ⟨⟩) :
    outcome (save (.object a)) s = outcome (sharedStore >>= putEntity a) (s.identified a id) := by
  rw [outcome_save_of_common h, hid]
  dsimp only
  rw [valid]

/-- An entity with an identifier is removed from the shared store. -/
theorem outcome_delete_of_some (h : Common s a cls "delete")
    (hid : Method.needed s.catalog s.heap a idField = .ok id) (some : id.isNull = false) :
    outcome (delete (.object a)) s = outcome (sharedStore >>= removeEntity a) s := by
  rw [outcome_delete_of_common h, hid]
  dsimp only
  rw [some, if_neg Bool.false_ne_true]

end

section

variable (unsurveyed : s.survey = none) (unopened : s.shared = none)

include unsurveyed unopened

/-- **A valid entity is saved as it is where the shared store has been launched.** -/
theorem outcome_save_of_launches (h : Common s a cls "save") (asks : asksToSave s a = true)
    (settings : Settings.inForce s.settings s.environment = .ok x)
    (launch : s.disk.Launches x st d rounds) :
    outcome (save (.object a)) s = outcome (save (.object a)) (s.launched x st d rounds) := by
  obtain ⟨id, hid, valid⟩ := exists_of_asksToSave asks
  have told := works_identified (i := 0) (s := s) a id
  have opened := outcome_sharedStore_of_launches (x := x) (told.survey.trans unsurveyed)
    (told.shared.trans unopened) (by
      rw [told.settings, told.environment]
      exact settings) (s.identified_disk a id ▸ launch)
  have ready := (ready_launched x st d rounds (told.survey.trans unsurveyed)).outcome_sharedStore
  have common : Common (s.launched x st d rounds) a cls "save" := h.launched
  have there := outcome_save_of_valid common hid (by
      rw [launched_identified]
      exact valid)
  rw [outcome_save_of_valid h hid valid, there, launched_identified, outcome_bind_ok opened,
    outcome_bind_ok ready]

/-- **An entity is deleted as it is where the shared store has been launched.** -/
theorem outcome_delete_of_launches (h : Common s a cls "delete") (asks : asksToDelete s a = true)
    (settings : Settings.inForce s.settings s.environment = .ok x)
    (launch : s.disk.Launches x st d rounds) :
    outcome (delete (.object a)) s = outcome (delete (.object a)) (s.launched x st d rounds) := by
  obtain ⟨id, hid, some⟩ := exists_of_asksToDelete asks
  have opened := outcome_sharedStore_of_launches unsurveyed unopened (x := x)
    settings launch
  have ready := (ready_launched x st d rounds unsurveyed).outcome_sharedStore
  have common : Common (s.launched x st d rounds) a cls "delete" := h.launched
  have there := outcome_delete_of_some common hid some
  rw [outcome_delete_of_some h hid some, there, outcome_bind_ok opened, outcome_bind_ok ready]

/-- Else saving fails and leaves nothing but an identifier. -/
theorem exists_of_save_idle (h : Common s a cls "save") (idle : asksToSave s a = true →
      ∃ e, Settings.inForce s.settings s.environment = .error e) :
    ∃ e id, outcome (save (.object a)) s = (.error e, s.identified a id) := by
  cases asks : asksToSave s a with
  | true =>
    obtain ⟨e, settings⟩ := idle asks
    obtain ⟨id, hid, valid⟩ := exists_of_asksToSave asks
    have told := works_identified (i := 0) (s := s) a id
    have refused := outcome_sharedStore_of_error (e := e) (told.survey.trans unsurveyed)
      (told.shared.trans unopened) (by
        rw [told.settings, told.environment]
        exact settings)
    exact ⟨e, id, (outcome_save_of_valid h hid valid).trans (outcome_bind_error refused)⟩
  | false =>
    rw [asksToSave] at asks
    rw [outcome_save_of_common h]
    cases hid : Method.needed s.catalog s.heap a idField with
    | error e => exact ⟨e, .bool true, rfl⟩
    | ok id =>
      rw [hid] at asks
      dsimp only at asks ⊢
      cases hv : Method.validate s.catalog (s.identified a id).heap a with
      | error e => exact ⟨e, id, rfl⟩
      | ok u =>
        rw [hv] at asks
        cases asks

/-- Else deleting changes nothing. -/
theorem outcome_delete_idle (h : Common s a cls "delete") (idle : asksToDelete s a = true →
      ∃ e, Settings.inForce s.settings s.environment = .error e) :
    (outcome (delete (.object a)) s).2 = s := by
  cases asks : asksToDelete s a with
  | true =>
    obtain ⟨e, settings⟩ := idle asks
    obtain ⟨id, hid, some⟩ := exists_of_asksToDelete asks
    rw [outcome_delete_of_some h hid some, outcome_bind_error
      (outcome_sharedStore_of_error unsurveyed unopened settings)]
  | false =>
    rw [asksToDelete] at asks
    rw [outcome_delete_of_common h]
    cases hid : Method.needed s.catalog s.heap a idField with
    | error e => rfl
    | ok id =>
      rw [hid] at asks
      have null : id.isNull = true := by simpa using asks
      dsimp only
      rw [if_pos null]

end

end Persistence

namespace Sharing

open Session

variable {s s' s₀ : Session} {sh : Shared} {x : Settings} {new : Store} {d : Disk} {rounds : Nat}
  {i : StoreId} {rs : List Record}

/-! ### Steps -/

/-- A step of a program that uses the shared store. -/
inductive Step where
  | setVariables (vars : List (String × Option String))
  | forgetSettings
  | readSettings
  | getStore
  | closeStore
  | save (a : Address)
  | delete (a : Address)
  | find (cls : ClassId) (id : Value)
  /-- Work that has nothing to do with stores, files, environment and settings. -/
  | elsewhere (work : Session → Session)

/-- Work has nothing to do with stores, files, environment and settings. -/
structure Elsewhere (s s' : Session) : Prop where
  stores : s'.stores = s.stores
  disk : s'.disk = s.disk
  shared : s'.shared = s.shared
  environment : s'.environment = s.environment
  settings : s'.settings = s.settings
  survey : s'.survey = s.survey
  now : s.now.Precedes s'.now

/-- A store is connected without fail, if there is none and settings ask for one. -/
def Connectable (s : Session) : Prop :=
  s.shared = none → ∀ x, Settings.inForce s.settings s.environment = .ok x →
    ∃ rounds, s.disk.Connects (storeFor x) rounds

/-- The shared store is in memory, or would be if it were opened. -/
def InMemory (s : Session) : Prop :=
  match s.shared with
  | some sh => s.inFile sh.store = false
  | none => ∃ x, Settings.inForce s.settings s.environment = .ok x ∧ x.backend = .memory

namespace Step

/-- The session after a step, be it that the step fails. -/
def perform (s : Session) : Step → Session
  | setVariables vars => (outcome (Session.setVariables vars) s).2
  | forgetSettings => (outcome Session.forgetSettings s).2
  | readSettings => (outcome currentSettings s).2
  | getStore => (outcome sharedStore s).2
  | closeStore => (outcome closeShared s).2
  | save a => (outcome (Persistence.save (.object a)) s).2
  | delete a => (outcome (Persistence.delete (.object a)) s).2
  | find cls id => (outcome (Loading.find cls id) s).2
  | elsewhere work => work s

/-- What is assumed of a step: connecting never fails, the entities go by their classes and use the
shared store, and what is put into memory can be copied. -/
def Proper (s : Session) : Step → Prop
  | getStore => Connectable s
  | save a => Connectable s ∧ ∃ cls, Persistence.Common s a cls "save" ∧
      (InMemory s → Persistence.PutsCopyable s a)
  | delete a => Connectable s ∧ ∃ cls, Persistence.Common s a cls "delete"
  | find cls _ => Connectable s ∧ s.catalog.assignedStore? cls = none ∧
      s.catalog.lookupOf? cls = none
  | elsewhere work => Elsewhere s (work s)
  | _ => True

/-- Whether a step asks for the shared store. -/
def asks (s : Session) : Step → Bool
  | getStore | find _ _ => true
  | save a => Persistence.asksToSave s a
  | delete a => Persistence.asksToDelete s a
  | _ => false

/-- Whether a step reads the settings. -/
def reads (s : Session) (st : Step) : Bool :=
  match st with
  | readSettings => true
  | _ => s.shared.isNone && st.asks s

/-- The settings that are kept after a step, if some were kept before. -/
def noted (s : Session) (kept? : Option Settings) (st : Step) : Option Settings :=
  match st with
  | forgetSettings => none
  | _ => kept?.or (if st.reads s then (Settings.read [] s.environment []).toOption else none)

/-- The change that a step makes in the shared store, if it makes one. -/
def change? (inFile : Bool) (s : Session) : Step → Option Change
  | save a => (Persistence.saved? inFile s a).toOption
  | delete a => (Persistence.deleted? inFile s a).toOption.join
  | _ => none

/-- The changes that a step makes, if there is a shared store after it. -/
def made (s : Session) (st : Step) : List Change :=
  match (st.perform s).shared with
  | some sh => (st.change? ((st.perform s).inFile sh.store) s).toList
  | none => []

end Step

/-! ### What a step may do -/

/-- The place of the file that the shared store is connected to. -/
def place? (s : Session) : Option Place := s.shared.bind fun sh => (s.store sh.store).place?

/-- A session in which the shared store, if there is one, is ready and keeps records. -/
structure Calm (s : Session) : Prop where
  survey : s.survey = none
  ready {sh : Shared} : s.shared = some sh → s.Ready sh
  keeps {sh : Shared} : s.shared = some sh → ∃ rs, s.Keeps sh.store rs
  place {sh : Shared} : s.shared = some sh →
    (s.store sh.store).place? = (s.store sh.store).path?.bind placeOf?

/-- What a step does to the shared store and to the files. -/
inductive Does (s : Session) (st : Step) (s' : Session) : Prop
  /-- There is no shared store, and none is opened: it is not asked for, or there are no
  settings. -/
  | idles : s.shared = none → s'.shared = none → s'.disk = s.disk → (st.asks s = true →
      ∃ e, Settings.inForce s.settings s.environment = .error e) → Does s st s'
  | closes : st = .closeStore → s'.shared = none → s'.disk = s.disk → Does s st s'
  /-- Changes are made in the shared store. -/
  | works {sh : Shared} : st ≠ .closeStore → s.Ready sh → Alters sh.store (st.made s) s s' →
      Does s st s'
  /-- The shared store is opened, and changes are made in it. -/
  | launches {x : Settings} {new : Store} {d : Disk} {rounds : Nat} : s.shared = none →
      Settings.inForce s.settings s.environment = .ok x → s.disk.Launches x new d rounds →
      Alters s.stores.length (st.made s) (s.launched x new d rounds) s' → Does s st s'

/-- What a step does. -/
structure Effect (s : Session) (st : Step) (s' : Session) : Prop where
  does : Does s st s'
  survey : s'.survey = none
  settings : s'.settings = st.noted s s.settings

/-! ### What a step does -/

section

variable {st : Step} {t : Session} {cs : List Change}

/-- The changes made are those that the step makes in a store of the kind. -/
theorem Step.made_eq (shared : t.shared = some sh) (h : Alters sh.store cs t (st.perform s)) :
    st.made s = (st.change? (t.inFile sh.store) s).toList := by
  rw [made, h.shared, shared]
  dsimp only
  rw [h.inFile]

/-- A step that changes no records makes no changes. -/
theorem Step.made_eq_nil (h : ∀ inFile, st.change? inFile s = none) : st.made s = [] := by
  rw [made]
  cases (st.perform s).shared with
  | none => rfl
  | some sh =>
    dsimp only
    rw [h]
    rfl

/-- A step that lets stores and files alone. -/
theorem does_of_stores (calm : Calm s) (other : st ≠ .closeStore) (silent : st.asks s = false)
    (quiet : ∀ inFile, st.change? inFile s = none) (stores : (st.perform s).stores = s.stores)
    (disk : (st.perform s).disk = s.disk) (shared : (st.perform s).shared = s.shared)
    (survey : (st.perform s).survey = s.survey) (now : s.now.Precedes (st.perform s).now) :
    Does s st (st.perform s) := by
  cases hs : s.shared with
  | none =>
    refine .idles hs (shared.trans hs) disk fun asks => ?_
    rw [silent] at asks
    cases asks
  | some sh =>
    refine .works other (calm.ready hs) ?_
    rw [Step.made_eq_nil quiet]
    exact alters_of_stores stores disk shared survey now

/-- Where the shared store is open no settings are read to get it. -/
theorem Step.reads_of_shared (shared : s.shared = some sh) (other : st ≠ .readSettings) :
    st.reads s = false := by
  rw [Step.reads, shared]
  · rfl
  · exact other

theorem Step.reads_of_none (unopened : s.shared = none) (other : st ≠ .readSettings) :
    st.reads s = st.asks s := by
  rw [Step.reads, unopened]
  · rfl
  · exact other

/-- The settings that are kept stay so, unless they are forgotten or read. -/
theorem Step.noted_of_quiet (other : st ≠ .forgetSettings) (quiet : st.reads s = false)
    (kept? : Option Settings) : st.noted s kept? = kept? := by
  rw [noted, quiet, if_neg Bool.false_ne_true, Option.or_none]
  exact other

/-- Settings that are read are kept if they can be read. -/
theorem Step.noted_of_reads (reads : st.reads s = true) :
    st.noted s s.settings = (Settings.inForce s.settings s.environment).toOption := by
  have other : st ≠ .forgetSettings := by
    rintro rfl
    have quiet : Step.forgetSettings.reads s = false := by simp [Step.reads, Step.asks]
    exact absurd (reads.symm.trans quiet) (by decide)
  rw [noted, reads, if_pos rfl]
  · cases s.settings <;> rfl
  · exact other

/-- A step without a shared store that comes to nothing. -/
theorem effect_of_idle (calm : Calm s) (unopened : s.shared = none) (forgets : st ≠ .forgetSettings)
    (other : st ≠ .readSettings)
    (idle : st.asks s = true → ∃ e, Settings.inForce s.settings s.environment = .error e)
    (work : Works 0 [] s (st.perform s)) (disk : (st.perform s).disk = s.disk) :
    Effect s st (st.perform s) := by
  refine ⟨.idles unopened (work.shared.trans unopened) disk idle, work.survey.trans calm.survey,
    work.settings.trans ?_⟩
  cases reads : st.reads s with
  | false => exact (Step.noted_of_quiet forgets reads _).symm
  | true =>
    obtain ⟨e, he⟩ := idle ((Step.reads_of_none unopened other).symm.trans reads)
    rw [Step.noted_of_reads reads, he]
    cases hs : s.settings with
    | none => rfl
    | some x =>
      rw [hs] at he
      cases he

/-- A step that works on the shared store. -/
theorem effect_of_works (ready : s.Ready sh) (closes : st ≠ .closeStore)
    (forgets : st ≠ .forgetSettings) (quiet : st.reads s = false)
    (work : Works sh.store (st.change? (s.inFile sh.store) s).toList s (st.perform s)) :
    Effect s st (st.perform s) := by
  refine ⟨.works closes ready ?_, work.survey.trans ready.survey,
    work.settings.trans (Step.noted_of_quiet forgets quiet _).symm⟩
  rw [Step.made_eq ready.shared work.toAlters]
  exact work.toAlters

/-- A step that opens the shared store and works on it. -/
theorem effect_of_launches (calm : Calm s) (unopened : s.shared = none)
    (settings : Settings.inForce s.settings s.environment = .ok x)
    (launch : s.disk.Launches x new d rounds) (reads : st.reads s = true)
    (work : Works s.stores.length
      (st.change? ((s.launched x new d rounds).inFile s.stores.length) s).toList
      (s.launched x new d rounds) (st.perform s)) : Effect s st (st.perform s) := by
  have ready := ready_launched x new d rounds calm.survey
  refine ⟨.launches unopened settings launch ?_, work.survey.trans calm.survey,
    work.settings.trans ?_⟩
  · rw [Step.made_eq ready.shared work.toAlters]
    exact work.toAlters
  · rw [Step.noted_of_reads reads, settings]
    rfl

/-- Who asks for the shared store when there is none opens it, unless the settings cannot be
read. -/
theorem launches_or_refused (connectable : Connectable s) (unopened : s.shared = none)
    (asks : Bool) :
    (asks = true ∧ ∃ x new d rounds, Settings.inForce s.settings s.environment = .ok x ∧
      s.disk.Launches x new d rounds) ∨
    (asks = true → ∃ e, Settings.inForce s.settings s.environment = .error e) := by
  cases asks with
  | false => exact .inr fun h => absurd h Bool.false_ne_true
  | true =>
    cases settings : Settings.inForce s.settings s.environment with
    | error e => exact .inr fun _ => ⟨e, rfl⟩
    | ok x =>
      obtain ⟨rounds, connects⟩ := connectable unopened x settings
      obtain ⟨new, d, launch⟩ := connects.exists_launches
      exact .inl ⟨rfl, x, new, d, rounds, rfl, launch⟩

end

section

variable {cls : ClassId} {a : Address}

theorem effect_setVariables (calm : Calm s) (vars : List (String × Option String)) :
    Effect s (.setVariables vars) (Step.perform s (.setVariables vars)) := by
  obtain ⟨env, h⟩ := exists_of_setVariables vars s
  have after : Step.perform s (.setVariables vars) = { s with environment := env } := h
  have does : Does s (.setVariables vars) (Step.perform s (.setVariables vars)) := by
    refine does_of_stores calm (by rintro ⟨⟩) rfl (fun _ => rfl) ?_ ?_ ?_ ?_ ?_ <;> rw [after]
    exact .refl _
  rw [after] at does ⊢
  have quiet : (Step.setVariables vars).reads s = false := by simp [Step.reads, Step.asks]
  exact ⟨does, calm.survey, (Step.noted_of_quiet (by rintro ⟨⟩) quiet _).symm⟩

theorem effect_forgetSettings (calm : Calm s) :
    Effect s .forgetSettings (Step.perform s .forgetSettings) :=
  ⟨does_of_stores calm (by rintro ⟨⟩) rfl (fun _ => rfl) rfl rfl rfl rfl (.refl _),
    calm.survey, rfl⟩

theorem effect_readSettings (calm : Calm s) :
    Effect s .readSettings (Step.perform s .readSettings) := by
  have reads : Step.readSettings.reads s = true := rfl
  have noted := Step.noted_of_reads reads
  cases settings : Settings.inForce s.settings s.environment with
  | error e =>
    have after : Step.perform s .readSettings = s := congrArg Prod.snd
      (outcome_currentSettings_of_error settings)
    have does : Does s .readSettings (Step.perform s .readSettings) := by
      refine does_of_stores calm (by rintro ⟨⟩) rfl (fun _ => rfl) ?_ ?_ ?_ ?_ ?_ <;> rw [after]
      exact .refl _
    rw [after] at does ⊢
    refine ⟨does, calm.survey, ?_⟩
    rw [noted, settings]
    cases hs : s.settings with
    | none => rfl
    | some x =>
      rw [hs] at settings
      cases settings
  | ok x =>
    have after : Step.perform s .readSettings = { s with settings := some x } :=
      congrArg Prod.snd (outcome_currentSettings_of_ok settings)
    have does : Does s .readSettings (Step.perform s .readSettings) := by
      refine does_of_stores calm (by rintro ⟨⟩) rfl (fun _ => rfl) ?_ ?_ ?_ ?_ ?_ <;> rw [after]
      exact .refl _
    rw [after] at does ⊢
    refine ⟨does, calm.survey, ?_⟩
    rw [noted, settings]
    rfl

theorem effect_getStore (calm : Calm s) (proper : Step.getStore.Proper s) :
    Effect s .getStore (Step.perform s .getStore) := by
  cases hs : s.shared with
  | some sh =>
    have ready := calm.ready hs
    refine effect_of_works ready (by rintro ⟨⟩) (by rintro ⟨⟩)
      (Step.reads_of_shared hs (by rintro ⟨⟩)) ?_
    show Works sh.store [] s (outcome sharedStore s).2
    rw [ready.outcome_sharedStore]
    exact .refl _ s
  | none =>
    have reads : Step.getStore.reads s = true := Step.reads_of_none hs (by rintro ⟨⟩)
    obtain ⟨-, x, new, d, rounds, settings, launch⟩ | refused :=
      launches_or_refused proper hs (Step.getStore.asks s)
    · refine effect_of_launches calm hs settings launch reads ?_
      have opened := outcome_sharedStore_of_launches calm.survey hs
        settings launch
      show Works _ [] _ (outcome sharedStore s).2
      rw [opened]
      exact .refl _ _
    · obtain ⟨e, settings⟩ := refused rfl
      have after : Step.perform s .getStore = s := congrArg Prod.snd
        (outcome_sharedStore_of_error calm.survey hs settings)
      have work : Works 0 [] s (Step.perform s .getStore) := by
        rw [after]
        exact .refl 0 s
      exact effect_of_idle calm hs (by rintro ⟨⟩) (by rintro ⟨⟩) (fun _ => ⟨e, settings⟩) work
        (by rw [after])

theorem effect_closeStore (calm : Calm s) :
    Effect s .closeStore (Step.perform s .closeStore) := by
  obtain ⟨shared, disk, survey, settings⟩ := closeShared_spec s
  have quiet : Step.closeStore.reads s = false := by simp [Step.reads, Step.asks]
  exact ⟨.closes rfl shared disk, survey.trans calm.survey,
    settings.trans (Step.noted_of_quiet (by rintro ⟨⟩) quiet _).symm⟩

/-- Saving puts a record into the shared store, which is there or opened, or comes to nothing. -/
theorem save_cases (calm : Calm s) (proper : (Step.save a).Proper s) :
    (∃ sh, s.Ready sh ∧ Puts sh.store (Persistence.saved? (s.inFile sh.store) s a) s
      (outcome (Persistence.save (.object a)) s)) ∨
    s.shared = none ∧
      ((Persistence.asksToSave s a = true ∧ ∃ x new d rounds,
        Settings.inForce s.settings s.environment = .ok x ∧ s.disk.Launches x new d rounds ∧
        Puts s.stores.length
          (Persistence.saved? ((s.launched x new d rounds).inFile s.stores.length) s a)
          (s.launched x new d rounds) (outcome (Persistence.save (.object a)) s)) ∨
      (Persistence.asksToSave s a = true →
        ∃ e, Settings.inForce s.settings s.environment = .error e) ∧
        ∃ e id, outcome (Persistence.save (.object a)) s = (.error e, s.identified a id)) := by
  obtain ⟨connectable, cls, common, copies⟩ := proper
  cases hs : s.shared with
  | some sh =>
    obtain ⟨rs, keeps⟩ := calm.keeps hs
    refine .inl ⟨sh, calm.ready hs, Persistence.puts_save (calm.ready hs) common keeps
      fun memory => copies ?_⟩
    rw [InMemory, hs]
    exact memory
  | none =>
    refine .inr ⟨rfl, ?_⟩
    obtain ⟨valid, x, new, d, rounds, settings, launch⟩ | refused :=
      launches_or_refused connectable hs (Persistence.asksToSave s a)
    · refine .inl ⟨valid, x, new, d, rounds, settings, launch, ?_⟩
      rw [Persistence.outcome_save_of_launches calm.survey hs common valid settings launch,
        ← Persistence.saved?_launched s x new d rounds]
      refine Persistence.puts_save (ready_launched x new d rounds calm.survey) common.launched
        (keeps_launched calm.survey launch) fun memory id hid => ?_
      rw [launched_identified]
      refine copies ?_ id hid
      rw [InMemory, hs]
      exact ⟨x, settings, memory_of_launches launch memory⟩
    · exact .inr ⟨refused, Persistence.exists_of_save_idle calm.survey hs common refused⟩

theorem effect_save (calm : Calm s) (proper : (Step.save a).Proper s) :
    Effect s (.save a) (Step.perform s (.save a)) := by
  obtain ⟨sh, ready, puts⟩ | ⟨hs, opened⟩ := save_cases calm proper
  · exact effect_of_works ready (by rintro ⟨⟩) (by rintro ⟨⟩)
      (Step.reads_of_shared ready.shared (by rintro ⟨⟩)) puts.works
  · have asks : (Step.save a).reads s = (Step.save a).asks s :=
      Step.reads_of_none hs (by rintro ⟨⟩)
    obtain ⟨valid, x, new, d, rounds, settings, launch, puts⟩ | ⟨refused, e, id, failed⟩ := opened
    · exact effect_of_launches calm hs settings launch (asks.trans valid) puts.works
    · have after : Step.perform s (.save a) = s.identified a id := congrArg Prod.snd failed
      have work : Works 0 [] s (Step.perform s (.save a)) := by
        rw [after]
        exact works_identified a id
      refine effect_of_idle calm hs (by rintro ⟨⟩) (by rintro ⟨⟩) refused work ?_
      rw [after, identified_disk]

/-- **An entity that is saved has been put into the shared store.** -/
theorem made_save (calm : Calm s) (proper : (Step.save a).Proper s)
    (saved : (outcome (Persistence.save (.object a)) s).1.toBool = true) :
    ∃ r : Record, (Step.save a).made s = [.put r.key r.data] := by
  have of_ok : ∀ {i : StoreId} {t : Session} {c : Except Failure Change},
      Puts i c t (outcome (Persistence.save (.object a)) s) → ∃ c', c = .ok c' := by
    intro i t c puts
    cases c with
    | error e => cases saved.symm.trans puts.told
    | ok c' => exact ⟨c', rfl⟩
  obtain ⟨sh, ready, puts⟩ | ⟨hs, opened⟩ := save_cases calm proper
  · obtain ⟨c, hc⟩ := of_ok puts
    obtain ⟨r, rfl⟩ := Persistence.exists_of_saved? hc
    refine ⟨r, (Step.made_eq ready.shared puts.works.toAlters).trans ?_⟩
    rw [Step.change?, hc]
    rfl
  · obtain ⟨-, x, new, d, rounds, -, launch, puts⟩ | ⟨-, e, id, failed⟩ := opened
    · obtain ⟨c, hc⟩ := of_ok puts
      obtain ⟨r, rfl⟩ := Persistence.exists_of_saved? hc
      have ready := ready_launched x new d rounds calm.survey
      refine ⟨r, (Step.made_eq ready.shared puts.works.toAlters).trans ?_⟩
      rw [Step.change?, hc]
      rfl
    · rw [failed] at saved
      cases saved

theorem effect_delete (calm : Calm s) (proper : (Step.delete a).Proper s) :
    Effect s (.delete a) (Step.perform s (.delete a)) := by
  obtain ⟨connectable, cls, common⟩ := proper
  cases hs : s.shared with
  | some sh =>
    have ready := calm.ready hs
    obtain ⟨rs, keeps⟩ := calm.keeps hs
    exact effect_of_works ready (by rintro ⟨⟩) (by rintro ⟨⟩)
      (Step.reads_of_shared hs (by rintro ⟨⟩)) (Persistence.works_delete ready common keeps)
  | none =>
    have asks : (Step.delete a).reads s = (Step.delete a).asks s :=
      Step.reads_of_none hs (by rintro ⟨⟩)
    obtain ⟨valid, x, new, d, rounds, settings, launch⟩ | refused :=
      launches_or_refused connectable hs ((Step.delete a).asks s)
    · refine effect_of_launches calm hs settings launch (asks.trans valid) ?_
      have ready := ready_launched x new d rounds calm.survey
      have same := Persistence.outcome_delete_of_launches calm.survey hs common valid
        settings launch
      show Works _ _ _ (outcome (Persistence.delete (.object a)) s).2
      rw [same]
      exact Persistence.works_delete ready common.launched (keeps_launched calm.survey launch)
    · have after : Step.perform s (.delete a) = s :=
        Persistence.outcome_delete_idle calm.survey hs common refused
      have work : Works 0 [] s (Step.perform s (.delete a)) := by
        rw [after]
        exact .refl 0 s
      exact effect_of_idle calm hs (by rintro ⟨⟩) (by rintro ⟨⟩) refused work (by rw [after])

theorem effect_find {id : Value} (calm : Calm s) (proper : (Step.find cls id).Proper s) :
    Effect s (.find cls id) (Step.perform s (.find cls id)) := by
  obtain ⟨connectable, unassigned, plain⟩ := proper
  cases hs : s.shared with
  | some sh =>
    have ready := calm.ready hs
    exact effect_of_works ready (by rintro ⟨⟩) (by rintro ⟨⟩)
      (Step.reads_of_shared hs (by rintro ⟨⟩)) (ready.held_find.works ready)
  | none =>
    have reads : (Step.find cls id).reads s = true := Step.reads_of_none hs (by rintro ⟨⟩)
    obtain ⟨-, x, new, d, rounds, settings, launch⟩ | refused :=
      launches_or_refused connectable hs ((Step.find cls id).asks s)
    · refine effect_of_launches calm hs settings launch reads ?_
      have ready := ready_launched x new d rounds calm.survey
      have found : outcome (Loading.find cls id) s = _ :=
        outcome_find_of_launches unassigned plain calm.survey hs settings launch
      show Works _ [] _ (outcome (Loading.find cls id) s).2
      rw [found]
      exact (ready.held_findWith _).works ready
    · obtain ⟨e, settings⟩ := refused rfl
      have after : Step.perform s (.find cls id) = s := congrArg Prod.snd
        (outcome_find_of_error unassigned plain calm.survey hs
          settings)
      have work : Works 0 [] s (Step.perform s (.find cls id)) := by
        rw [after]
        exact .refl 0 s
      exact effect_of_idle calm hs (by rintro ⟨⟩) (by rintro ⟨⟩) (fun _ => ⟨e, settings⟩) work
        (by rw [after])

theorem effect_elsewhere {work : Session → Session} (calm : Calm s)
    (proper : (Step.elsewhere work).Proper s) :
    Effect s (.elsewhere work) (Step.perform s (.elsewhere work)) := by
  have quiet : (Step.elsewhere work).reads s = false := by simp [Step.reads, Step.asks]
  exact ⟨does_of_stores calm (by rintro ⟨⟩) rfl (fun _ => rfl) proper.stores proper.disk
    proper.shared
    proper.survey proper.now, proper.survey.trans calm.survey,
    proper.settings.trans (Step.noted_of_quiet (by rintro ⟨⟩) quiet _).symm⟩

end

/-- **Each step does one of four things**, and keeps the settings that it reads. -/
theorem Step.effect (calm : Calm s) : {st : Step} → st.Proper s → Effect s st (st.perform s)
  | .setVariables vars, _ => effect_setVariables calm vars
  | .forgetSettings, _ => effect_forgetSettings calm
  | .readSettings, _ => effect_readSettings calm
  | .getStore, proper => effect_getStore calm proper
  | .closeStore, _ => effect_closeStore calm
  | .save _, proper => effect_save calm proper
  | .delete _, proper => effect_delete calm proper
  | .find _ _, proper => effect_find calm proper
  | .elsewhere _, proper => effect_elsewhere calm proper

end Sharing

end EntitySchema
