/-
**Running actions.**

The outcome of an action in a session is a value or a failure, and a session.  An action made of
several runs them one after the other, up to the first that fails.

Work on the stores of a session takes time and leaves what else is in it as it was: the session has
*moved on*.  An instant *precedes* those that are not before it.

Main definitions:

* `Session.outcome` — the outcome of an action;
* `Instant.Precedes` — the order of instants;
* `Session.MovesOn` — a session that goes on to another by work on its stores.

Main results:

* `Session.outcome_bind` — **an action made of two runs the second after the first**;
* `Instant.Precedes.not_before` — what is not before an instant is not before an earlier one.
-/

import EntitySchema.Session.Records

set_option autoImplicit false

namespace EntitySchema

/-! ### Outcomes -/

namespace Session

variable {α β : Type}

/-- The outcome of an action, and the session after it. -/
def outcome (a : Action α) (s : Session) : Except Failure α × Session := a.run.run s

@[simp] theorem outcome_pure (x : α) (s : Session) : outcome (pure x) s = (.ok x, s) := rfl

@[simp] theorem outcome_throw (e : Failure) (s : Session) :
    outcome (throw e : Action α) s = (.error e, s) := rfl

@[simp] theorem outcome_get (s : Session) : outcome (get : Action Session) s = (.ok s, s) := rfl

@[simp] theorem outcome_set (s s' : Session) :
    outcome (set s' : Action PUnit) s = (.ok ⟨⟩, s') := rfl

@[simp] theorem outcome_modify (f : Session → Session) (s : Session) :
    outcome (modify f : Action PUnit) s = (.ok ⟨⟩, f s) := rfl

@[simp] theorem outcome_ofExcept (e : Except Failure α) (s : Session) :
    outcome (ofExcept e) s = (e, s) := rfl

@[simp] theorem outcome_attempt (a : Action α) (s : Session) :
    outcome (attempt a) s = (.ok (outcome a s).1, (outcome a s).2) := rfl

@[simp] theorem outcome_wait (rounds : Nat) (s : Session) :
    outcome (wait rounds) s = (.ok ⟨⟩, { s with now := s.now.after rounds }) := rfl

@[simp] theorem outcome_textOf (v : Value) (s : Session) :
    outcome (textOf v) s = (Method.toText s.catalog s.heap v, s) := rfl

/-- An action made of two runs the second after the first, unless that fails. -/
theorem outcome_bind (a : Action α) (f : α → Action β) (s : Session) :
    outcome (a >>= f) s =
      match outcome a s with
      | (.ok x, s') => outcome (f x) s'
      | (.error e, s') => (.error e, s') := by
  show (ExceptT.bind a f).run.run s = _
  simp only [outcome, ExceptT.bind, ExceptT.run, ExceptT.mk, StateT.run, bind, StateT.bind]
  obtain ⟨r, s'⟩ := a s
  cases r <;> rfl

theorem outcome_bind_ok {a : Action α} {f : α → Action β} {s s' : Session} {x : α}
    (h : outcome a s = (.ok x, s')) : outcome (a >>= f) s = outcome (f x) s' := by
  rw [outcome_bind, h]

theorem outcome_bind_error {a : Action α} {f : α → Action β} {s s' : Session} {e : Failure}
    (h : outcome a s = (.error e, s')) : outcome (a >>= f) s = (.error e, s') := by
  rw [outcome_bind, h]

@[simp] theorem outcome_get_bind (f : Session → Action β) (s : Session) :
    outcome (get >>= f) s = outcome (f s) s := rfl

@[simp] theorem outcome_pure_bind (x : α) (f : α → Action β) (s : Session) :
    outcome (pure x >>= f) s = outcome (f x) s := rfl

theorem outcome_ofExcept_ok_bind (x : α) (f : α → Action β) (s : Session) :
    outcome (ofExcept (.ok x) >>= f) s = outcome (f x) s := rfl

@[simp] theorem outcome_modify_bind (f : Session → Session) (k : PUnit → Action β) (s : Session) :
    outcome ((modify f : Action PUnit) >>= k) s = outcome (k ⟨⟩) (f s) := rfl

@[simp] theorem outcome_wait_bind (rounds : Nat) (k : Unit → Action β) (s : Session) :
    outcome (wait rounds >>= k) s = outcome (k ⟨⟩) { s with now := s.now.after rounds } := rfl

@[simp] theorem outcome_bound_ok (x : α) (s : Session) :
    outcome (bound (.ok x : Except Failure α)) s = (.ok x, s) := rfl

theorem outcome_discard_ok {a : Action α} {s s' : Session} {x : α}
    (h : outcome a s = (.ok x, s')) : outcome (discard a) s = (.ok ⟨⟩, s') := by
  show outcome (a >>= fun _ => pure PUnit.unit) s = _
  rw [outcome_bind_ok h, outcome_pure]

/-- A change that has a result is not undone. -/
theorem outcome_undone_ok {a : Action α} {s s' : Session} {x : α}
    (h : outcome a s = (.ok x, s')) : outcome (undone a) s = (.ok x, s') := by
  have run : outcome (attempt a) s = (.ok (.ok x), s') := by rw [outcome_attempt, h]
  rw [undone, outcome_bind_ok run]
  rfl

/-- A connection is there and can be used, or that is refused. -/
theorem outcome_requireUse (i : StoreId) (s : Session) :
    outcome (requireUse i) s =
      match s.linkOf i with
      | .closed => (.error .notConnected, s)
      | .unusable => (.error (.blocked .cannotOpen), { s with now := s.now.after 1 })
      | _ => (.ok ⟨⟩, s) := by
  rw [requireUse, outcome_get_bind]
  cases s.linkOf i <;> rfl

/-- The table behind a store is read, if there is a connection and the file has a table. -/
theorem outcome_rows (i : StoreId) (s : Session) :
    outcome (rows i) s =
      match s.linkOf i with
      | .closed => (.error .notConnected, s)
      | .unusable => (.error (.blocked .cannotOpen), { s with now := s.now.after 1 })
      | link =>
        match (s.database link).records? with
        | some t => (.ok t, s)
        | none => (.error (.blocked .cannotOpen), { s with now := s.now.after 1 }) := by
  rw [rows, outcome_bind, outcome_requireUse]
  cases hl : s.linkOf i with
  | closed => rfl
  | unusable => rfl
  | own db =>
    dsimp only
    rw [outcome_get_bind, hl]
    cases (s.database (.own db)).records? <;> rfl
  | file p =>
    dsimp only
    rw [outcome_get_bind, hl]
    cases (s.database (.file p)).records? <;> rfl

theorem outcome_copy_ok (v : Value) (s : Session) :
    outcome (copy v) s = (.ok (s.heap.copy v).1, { s with heap := (s.heap.copy v).2 }) := rfl

section

variable {s : Session} {i : StoreId} {rs : MemoryStore} {r : Record}

/-- A record that can be copied is kept as a copy, as the newest. -/
theorem outcome_keepRecord (hs : s.store i = .memory rs)
    (hc : s.heap.copyable (.dict r.data) = true) {es : Entries} {h : Heap}
    (copied : s.heap.copy (.dict r.data) = (.dict es, h)) :
    outcome (keepRecord i r) s =
      (.ok ⟨⟩, { s with heap := h }.setStore i (.memory (rs.put { r with data := es }))) := by
  have run : outcome (copy (.dict r.data)) s = (.ok (.dict es), { s with heap := h }) := by
    rw [outcome_copy_ok, copied]
  have there : ({ s with heap := h } : Session).store i = .memory rs := hs
  rw [keepRecord, outcome_get_bind, if_pos hc, outcome_bind_ok run]
  simp only [outcome_modify, there]

/-- Where a record cannot be copied, none is left under its key. -/
theorem outcome_keepRecord_of_uncopyable (hs : s.store i = .memory rs)
    (hc : s.heap.copyable (.dict r.data) = false) :
    outcome (keepRecord i r) s =
      (.error (.misuse .notCallable), s.setStore i (.memory (rs.without r.key))) := by
  have no : ¬ s.heap.copyable (.dict r.data) = true := by simp [hc]
  rw [keepRecord, outcome_get_bind, if_neg no, dropRecord, outcome_modify_bind, outcome_throw]
  simp only [hs]

end

theorem outcome_undone_error {a : Action α} {s s' : Session} {e : Failure}
    (h : outcome a s = (.error e, s')) :
    outcome (undone a) s = (.error e, { s' with now := s'.now.after 1 }) := by
  have run : outcome (attempt a) s = (.ok (.error e), s') := by rw [outcome_attempt, h]
  rw [undone, outcome_bind_ok run]
  rfl

end Session

/-! ### The order of instants -/

namespace Instant

theorem pathBefore_trans {p q r : List Nat} (hpq : pathBefore p q = true)
    (hqr : pathBefore q r = true) : pathBefore p r = true := by
  induction p generalizing q r with
  | nil =>
    cases r with
    | nil => cases q <;> simp [pathBefore] at hqr
    | cons c r => rfl
  | cons a p ih =>
    cases q with
    | nil => simp [pathBefore] at hpq
    | cons b q =>
      cases r with
      | nil => simp [pathBefore] at hqr
      | cons c r =>
        simp only [pathBefore, Bool.or_eq_true, Bool.and_eq_true, decide_eq_true_eq] at hpq hqr ⊢
        rcases hpq with hab | ⟨rfl, hpq⟩
        · rcases hqr with hbc | ⟨rfl, -⟩
          · exact .inl (Nat.lt_trans hab hbc)
          · exact .inl hab
        · rcases hqr with hbc | ⟨rfl, hqr⟩
          · exact .inl hbc
          · exact .inr ⟨rfl, ih hpq hqr⟩

theorem before_trans {a b c : Instant} (hab : a.before b = true) (hbc : b.before c = true) :
    a.before c = true := by
  simp only [before, Bool.or_eq_true, Bool.and_eq_true, decide_eq_true_eq] at hab hbc ⊢
  rcases hab with hab | ⟨rounds, hab⟩
  · rcases hbc with hbc | ⟨rounds', -⟩
    · exact .inl (Nat.lt_trans hab hbc)
    · exact .inl (rounds' ▸ hab)
  · rcases hbc with hbc | ⟨rounds', hbc⟩
    · exact .inl (rounds ▸ hbc)
    · refine .inr ⟨rounds.trans rounds', ?_⟩
      rcases hab with hab | ⟨tick, hab⟩
      · rcases hbc with hbc | ⟨tick', -⟩
        · exact .inl (Nat.lt_trans hab hbc)
        · exact .inl (tick' ▸ hab)
      · rcases hbc with hbc | ⟨tick', hbc⟩
        · exact .inl (tick ▸ hbc)
        · exact .inr ⟨tick.trans tick', pathBefore_trans hab hbc⟩

/-- An instant precedes those that are not before it. -/
def Precedes (a b : Instant) : Prop := b.before a = false

instance (a b : Instant) : Decidable (a.Precedes b) :=
  inferInstanceAs (Decidable (b.before a = false))

theorem Precedes.refl (a : Instant) : a.Precedes a := not_before_self a

/-- What is not before an instant is not before an earlier one. -/
theorem Precedes.not_before {a b c : Instant} (hab : a.Precedes b) (hc : a.before c = false) :
    b.before c = false := by
  cases hbc : b.before c with
  | false => rfl
  | true =>
    cases hcb : a.before b with
    | true => exact absurd (before_trans hcb hbc) (by simp [hc])
    | false =>
      have same : a = b := eq_of_not_before hcb hab
      rw [same, hbc] at hc
      exact hc

theorem Precedes.trans {a b c : Instant} (hab : a.Precedes b) (hbc : b.Precedes c) :
    a.Precedes c := by
  cases hca : c.before a with
  | false => exact hca
  | true =>
    have : a.before c = false := by
      cases hac : a.before c with
      | false => rfl
      | true => exact absurd (before_trans hac hca) (by simp [not_before_self])
    have later : b.before c = false := hab.not_before this
    have same : b = c := eq_of_not_before later hbc
    exact same ▸ hab

/-- What was before an instant is before every later one. -/
theorem Precedes.before {a b c : Instant} (hab : a.Precedes b) (hc : c.before a = true) :
    c.before b = true := by
  cases hcb : c.before b with
  | true => rfl
  | false =>
    cases hbc : b.before c with
    | true => exact absurd (before_trans hbc hc) (by rw [hab]; exact Bool.false_ne_true)
    | false =>
      have same : b = c := eq_of_not_before hbc hcb
      subst same
      exact absurd hc (by rw [hab]; exact Bool.false_ne_true)

theorem precedes_after (a : Instant) (rounds : Nat) : a.Precedes (a.after rounds) := by
  cases rounds with
  | zero => exact Precedes.refl a
  | succ n =>
    have more : ¬ a.rounds + (n + 1) < a.rounds ∧ a.rounds + (n + 1) ≠ a.rounds := by omega
    simp [Precedes, before, after, more]

theorem precedes_of_before {a b : Instant} (h : a.before b = true) : a.Precedes b := by
  cases hba : b.before a with
  | false => exact hba
  | true => exact absurd (before_trans h hba) (by simp [not_before_self])

theorem precedes_later (a b : Instant) : a.Precedes (a.later b) := by
  rw [later]
  split
  · next h => exact precedes_of_before h
  · exact Precedes.refl a

theorem precedes_told (a : Instant) : a.Precedes a.told := by
  have more : ¬ a.tick + 2 < a.tick ∧ a.tick + 2 ≠ a.tick := by omega
  simp [Precedes, before, told, more]

end Instant

/-! ### Sessions that move on -/

namespace Session

/-- Work on stores leads from one session to another: time may have passed, and the classes and the
shared store are what they were. -/
structure MovesOn (s s' : Session) : Prop where
  catalog : s'.catalog = s.catalog
  shared : s'.shared = s.shared
  survey : s'.survey = s.survey
  now : s.now.Precedes s'.now

theorem MovesOn.refl (s : Session) : s.MovesOn s := ⟨rfl, rfl, rfl, .refl _⟩

theorem MovesOn.trans {s s' s'' : Session} (h : s.MovesOn s') (h' : s'.MovesOn s'') :
    s.MovesOn s'' :=
  ⟨h'.catalog.trans h.catalog, h'.shared.trans h.shared, h'.survey.trans h.survey,
    h.now.trans h'.now⟩

/-- A connection that is not waited for is not waited for later. -/
theorem MovesOn.awaited {s s' : Session} (h : s.MovesOn s') {i : StoreId}
    (hi : s.awaited i = false) : s'.awaited i = false := by
  unfold Session.awaited at hi ⊢
  rw [h.shared]
  cases hs : s.shared with
  | none => rfl
  | some sh =>
    rw [hs] at hi
    simp only [Bool.and_eq_false_iff] at hi ⊢
    exact hi.imp id h.now.not_before

end Session

end EntitySchema
