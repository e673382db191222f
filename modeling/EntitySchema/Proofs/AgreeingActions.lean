/-
**Actions that do the same in sessions of a kind.**

Two actions agree on the sessions of a kind if from each of them they come to the same, and to a
session of the kind again.  This is so of what is made of actions that agree, one after the other or
side by side.  An action that agrees with itself keeps to the sessions of the kind.

Actions side by side set the clock back to the instant at which they start, so they keep to a kind
in which no session is too early for another.

Sessions with the same classes and names are of a kind.  What is done in order to find an entity
keeps to them, and be it that it fails, and to every kind of sessions in which the heap and the
lookups that were noted do not matter and the shared store may be asked for.

Main definitions:

* `Session.AgreeOn` — **actions that do the same**;
* `Session.Untimed`, `Session.Timed` — kinds of sessions that do not depend on the clock, or only on
  how early it is;
* `Session.Loose` — kinds of sessions that finding an entity keeps to;
* `Session.Under` — the sessions with given classes and names.

Main results:

* `Session.AgreeOn.bind`, `Session.agreeOn_gather_of_timed`, `Session.agreeOn_gather` — one after
  the other and side by side;
* `Session.AgreeOn.arrange` — in whose course the shared store may be opened;
* `Loading.agreeOn_findWith` — **what is found is the same, if what is loaded is.**
-/

import EntitySchema.Proofs.StoreWork

set_option autoImplicit false

namespace EntitySchema

namespace Session

variable {α β γ γ' : Type}

/-- Some actions side by side: the branches, and what is known of them in the end. -/
theorem outcome_gather_cons (f : γ → Action α) (x : γ) (xs : List γ) (s : Session) :
    outcome (gather f (x :: xs)) s = outcome
      (((x :: xs).zipIdx.mapM fun p => Session.branch s.now p.2 (f p.1)) >>= fun outcomes =>
        (modify fun s₁ => { s₁ with now := (settle s.now outcomes).2 }) >>= fun _ =>
          ofExcept (settle s.now outcomes).1) s := by
  rw [gather, List.isEmpty_cons, if_neg Bool.false_ne_true, outcome_get_bind]

theorem forall₂_zipIdx {P : γ → γ' → Prop} {xs : List γ} {xs' : List γ'}
    (h : List.Forall₂ P xs xs') (n : Nat) :
    List.Forall₂ (fun p p' => p.2 = p'.2 ∧ P p.1 p'.1) (xs.zipIdx n) (xs'.zipIdx n) := by
  induction h generalizing n with
  | nil => exact .nil
  | cons hx _ ih => exact .cons ⟨rfl, hx⟩ (ih (n + 1))

/-! ### Agreement -/

/-- From every session of a kind two actions do the same, and the session afterwards is of the kind
again. -/
def AgreeOn (P : Session → Prop) (a a' : Action α) : Prop :=
  ∀ s, P s → outcome a s = outcome a' s ∧ P (outcome a' s).2

/-- Whether a session is of a kind does not depend on the clock. -/
def Untimed (P : Session → Prop) : Prop := ∀ s now, P s → P { s with now := now }

variable {P : Session → Prop} {a a' : Action α}

theorem agreeOn_pure (x : α) : AgreeOn P (pure x) (pure x) := fun _ hs => ⟨rfl, hs⟩

theorem agreeOn_throw (e : Failure) : AgreeOn P (throw e : Action α) (throw e) :=
  fun _ hs => ⟨rfl, hs⟩

theorem agreeOn_ofExcept (e : Except Failure α) : AgreeOn P (ofExcept e) (ofExcept e) :=
  fun _ hs => ⟨rfl, hs⟩

theorem agreeOn_modify {f : Session → Session} (hf : ∀ s, P s → P (f s)) :
    AgreeOn P (modify f : Action PUnit) (modify f) :=
  fun s hs => ⟨rfl, hf s hs⟩

theorem agreeOn_get_bind {f f' : Session → Action β} (hf : ∀ s, P s → AgreeOn P (f s) (f' s)) :
    AgreeOn P (get >>= f) (get >>= f') :=
  fun s hs => hf s hs s hs

theorem agreeOn_ofExcept_bind {e : Except Failure α} {f f' : α → Action β}
    (hf : ∀ x, e = .ok x → AgreeOn P (f x) (f' x)) :
    AgreeOn P (ofExcept e >>= f) (ofExcept e >>= f') := by
  cases e with
  | error e => exact agreeOn_throw e
  | ok x => exact hf x rfl

/-- One action after another; of the second it is known what the result of the first is. -/
theorem AgreeOn.bind (ha : AgreeOn P a a') {f f' : α → Action β}
    (hf : ∀ x s, P s → (outcome a' s).1 = .ok x → AgreeOn P (f x) (f' x)) :
    AgreeOn P (a >>= f) (a' >>= f') := by
  intro s hs
  obtain ⟨same, reached⟩ := ha s hs
  rcases hrun : outcome a' s with ⟨e | x, s₁⟩ <;> rw [hrun] at same reached
  · rw [outcome_bind_error same, outcome_bind_error hrun]
    exact ⟨rfl, reached⟩
  · rw [outcome_bind_ok same, outcome_bind_ok hrun]
    exact hf x s hs (by rw [hrun]) s₁ reached

/-- The second of two actions that agree keeps to the kind. -/
theorem AgreeOn.keeps (ha : AgreeOn P a a') : AgreeOn P a' a' := fun s hs => ⟨rfl, (ha s hs).2⟩

/-- What is made of the results of two actions that agree. -/
theorem AgreeOn.map (ha : AgreeOn P a a') (k : α → β) :
    AgreeOn P (a >>= fun x => pure (k x)) (a' >>= fun x => pure (k x)) :=
  ha.bind fun x _ _ _ => agreeOn_pure (k x)

/-- Whether a session is of a kind depends on the clock only as far as it may be too early: at an
instant that does not precede one of the kind, every session of the kind is of the kind. -/
def Timed (P : Session → Prop) : Prop :=
  ∀ s s' now, P s → P s' → s.now.Precedes now → P { s' with now := now }

theorem Untimed.timed (untimed : Untimed P) : Timed P := fun _ s' now _ hs' _ => untimed s' now hs'

/-- One of several actions. -/
theorem AgreeOn.branch (timed : Timed P) (ha : AgreeOn P a a') {s₀ : Session} (hs₀ : P s₀)
    (i : Nat) :
    AgreeOn P (Session.branch s₀.now i a) (Session.branch s₀.now i a') := by
  intro s hs
  obtain ⟨same, reached⟩ := ha _ (timed s₀ s _ hs₀ hs (s₀.now.precedes_branch i))
  have run : ∀ b : Action α, outcome (Session.branch s₀.now i b) s =
      (.ok ((outcome b { s with now := s₀.now.branch i }).1,
        (outcome b { s with now := s₀.now.branch i }).2.now),
        (outcome b { s with now := s₀.now.branch i }).2) := fun _ => outcome_branch rfl
  rw [run, run, same]
  exact ⟨rfl, reached⟩

/-- Branches that start in a session of a kind end at instants at which there are such sessions. -/
theorem ends_of_branches (timed : Timed P) {f : γ → Action α} {s₀ : Session} (hs₀ : P s₀)
    {ps : List (γ × Nat)} (keeps : ∀ p ∈ ps, AgreeOn P (f p.1) (f p.1)) {s : Session} (hs : P s)
    {outcomes : List (Except Failure α × Instant)}
    (h : (outcome (ps.mapM fun p => Session.branch s₀.now p.2 (f p.1)) s).1 = .ok outcomes) :
    ∀ o ∈ outcomes, ∃ s₁, P s₁ ∧ s₁.now = o.2 := by
  induction ps generalizing s outcomes with
  | nil =>
    cases h
    exact List.forall_mem_nil _
  | cons p ps ih =>
    obtain ⟨first, rest⟩ := List.forall_mem_cons.1 keeps
    have reached := (first _ (timed s₀ s _ hs₀ hs (s₀.now.precedes_branch p.2))).2
    rcases hbody : outcome (f p.1) { s with now := s₀.now.branch p.2 } with ⟨result, s₁⟩
    rw [hbody] at reached
    rw [List.mapM_cons, outcome_bind_ok (outcome_branch hbody)] at h
    rcases hrun : outcome (ps.mapM fun p => Session.branch s₀.now p.2 (f p.1)) s₁ with ⟨e | os, s₂⟩
    · rw [outcome_bind_error hrun] at h
      cases h
    · rw [outcome_bind_ok hrun] at h
      cases h
      exact List.forall_mem_cons.2 ⟨⟨s₁, reached, rfl⟩, ih rest reached (congrArg Prod.fst hrun)⟩

/-- What several actions come to is told at an instant at which there are sessions of a kind, if
they start and end at such instants. -/
theorem timed_settle (timed : Timed P) {s₀ s : Session} (hs₀ : P s₀) (hs : P s)
    {outcomes : List (Except Failure α × Instant)}
    (ends : ∀ o ∈ outcomes, ∃ s₁, P s₁ ∧ s₁.now = o.2) :
    P { s with now := (settle s₀.now outcomes).2 } := by
  rw [settle]
  cases hf : firstFailure? outcomes with
  | none => exact timed s₀ s _ hs₀ hs ((precedes_lastEnd s₀.now outcomes).trans
      (Instant.precedes_told _))
  | some failed =>
    obtain ⟨e, t⟩ := failed
    obtain ⟨s₁, hs₁, now⟩ := ends _ (mem_of_firstFailure? hf)
    refine timed s₁ s _ hs₁ hs ?_
    rw [now]
    exact Instant.precedes_told t

/-- **Actions side by side** do the same if each of them does. -/
theorem agreeOn_gather_of_timed (timed : Timed P) {f : γ → Action α} {f' : γ' → Action α}
    {xs : List γ} {xs' : List γ'} (h : List.Forall₂ (fun x x' => AgreeOn P (f x) (f' x')) xs xs') :
    AgreeOn P (gather f xs) (gather f' xs') := by
  have keeps : ∀ x' ∈ xs', AgreeOn P (f' x') (f' x') := by
    induction h with
    | nil => exact List.forall_mem_nil _
    | cons hx _ ih => exact List.forall_mem_cons.2 ⟨hx.keeps, ih⟩
  cases h with
  | nil => exact agreeOn_pure []
  | @cons x x' xs xs' hx hxs =>
    have members : List.Forall₂ (fun x x' => AgreeOn P (f x) (f' x')) (x :: xs) (x' :: xs') :=
      .cons hx hxs
    intro s hs
    have branches : ∀ (ps : List (γ × Nat)) (ps' : List (γ' × Nat)),
        List.Forall₂ (fun p p' => p.2 = p'.2 ∧ AgreeOn P (f p.1) (f' p'.1)) ps ps' →
        AgreeOn P (ps.mapM fun p => Session.branch s.now p.2 (f p.1))
          (ps'.mapM fun p => Session.branch s.now p.2 (f' p.1)) := by
      intro ps ps' hps
      induction hps with
      | nil => exact agreeOn_pure []
      | @cons p p' ps ps' hp _ ih =>
        obtain ⟨same, hp⟩ := hp
        rw [List.mapM_cons, List.mapM_cons, ← same]
        exact (hp.branch timed hs p.2).bind fun o _ _ _ => ih.map (o :: ·)
    rw [outcome_gather_cons, outcome_gather_cons]
    refine (branches _ _ (forall₂_zipIdx members 0)).bind (fun outcomes s₁ hs₁ run => ?_) s hs
    have ends := ends_of_branches timed hs
      (fun p hp => keeps p.1 (List.fst_mem_of_mem_zipIdx hp)) hs₁ run
    refine (agreeOn_modify fun s₂ hs₂ => timed_settle timed hs hs₂ ends).bind fun _ _ _ _ => ?_
    exact agreeOn_ofExcept _

/-- Actions side by side keep to a kind that does not depend on the clock. -/
theorem agreeOn_gather (untimed : Untimed P) {f : γ → Action α} {f' : γ' → Action α} {xs : List γ}
    {xs' : List γ'} (h : List.Forall₂ (fun x x' => AgreeOn P (f x) (f' x')) xs xs') :
    AgreeOn P (gather f xs) (gather f' xs') :=
  agreeOn_gather_of_timed untimed.timed h

/-! ### Kinds of sessions that finding keeps to -/

/-- A kind of sessions with given classes in which the heap and the lookups that were noted do
not matter, and the clock only as far as it may be too early; asking for the shared store keeps
to it. -/
class Loose (P : Session → Prop) (g : outParam Catalog) : Prop where
  catalog {s : Session} : P s → s.catalog = g
  heap {s : Session} (h : Heap) : P s → P { s with heap := h }
  lookups {s : Session} (ls : List Note) : P s → P { s with lookups := ls }
  timed : Timed P
  shared : AgreeOn P sharedStore sharedStore

variable {g : Catalog}

section

variable [loose : Loose P g]

include loose

theorem agreeOn_build (b : Build α) : AgreeOn P (build b) (build b) := by
  refine agreeOn_get_bind fun s hs => ?_
  cases b s.heap with
  | ok p => exact fun s₁ _ => ⟨rfl, Loose.heap p.2 hs⟩
  | error e => exact agreeOn_throw e

theorem agreeOn_wait (rounds : Nat) : AgreeOn P (wait rounds) (wait rounds) :=
  agreeOn_modify fun s hs => Loose.timed s s _ hs hs (Instant.precedes_after s.now rounds)

theorem agreeOn_note (cls : ClassId) (id : Value) : AgreeOn P (note cls id) (note cls id) :=
  agreeOn_modify fun _ hs => Loose.lookups _ hs

theorem agreeOn_copy (v : Value) : AgreeOn P (copy v) (copy v) := fun _ hs => ⟨rfl, Loose.heap _ hs⟩

omit loose in
theorem agreeOn_textOf (v : Value) : AgreeOn P (textOf v) (textOf v) :=
  agreeOn_get_bind fun _ _ => agreeOn_ofExcept _

theorem agreeOn_bound (e : Except Failure α) : AgreeOn P (bound e) (bound e) := by
  cases e with
  | ok x => exact agreeOn_pure x
  | error f => exact (agreeOn_wait 1).bind fun _ _ _ _ => agreeOn_throw f

theorem agreeOn_storeOf (cls : ClassId) : AgreeOn P (storeOf cls) (storeOf cls) := by
  refine agreeOn_get_bind fun s _ => ?_
  cases s.catalog.assignedStore? cls with
  | some i => exact agreeOn_pure i
  | none => exact Loose.shared

/-- The rows of a file are told. -/
theorem agreeOn_rows (i : StoreId) : AgreeOn P (rows i) (rows i) := by
  have refused {β : Type} : AgreeOn P (do wait 1; throw (.blocked .cannotOpen) : Action β)
      (do wait 1; throw (.blocked .cannotOpen)) :=
    (agreeOn_wait 1).bind fun _ _ _ _ => agreeOn_throw _
  have used : AgreeOn P (requireUse i) (requireUse i) := by
    refine agreeOn_get_bind fun s _ => ?_
    cases s.linkOf i with
    | closed => exact agreeOn_throw _
    | unusable => exact refused
    | _ => exact agreeOn_pure _
  refine used.bind fun _ _ _ _ => agreeOn_get_bind fun s _ => ?_
  split
  · exact agreeOn_pure _
  · exact refused

/-- A record is read, and copied if it is in memory. -/
theorem agreeOn_fetchRecord (i : StoreId) (kind id : Value) :
    AgreeOn P (fetchRecord i kind id) (fetchRecord i kind id) := by
  refine (agreeOn_textOf id).bind fun name _ _ _ => agreeOn_get_bind fun s _ => ?_
  cases s.store i with
  | memory records =>
    refine agreeOn_ofExcept_bind fun k _ => ?_
    split
    · exact agreeOn_pure none
    · exact (agreeOn_copy _).map some
  | file path link =>
    refine (agreeOn_rows i).bind fun t _ _ _ => (agreeOn_bound _).bind fun k _ _ _ => ?_
    exact (agreeOn_wait 2).bind fun _ _ _ _ => agreeOn_pure _

end

/-! ### Sessions with given classes -/

/-- A session in which there are these classes under these names. -/
def Under (g : Catalog) (s : Session) : Prop := s.catalog = g

theorem untimed_under (g : Catalog) : Untimed (Under g) := fun _ _ hs => hs

instance : Loose (Under g) g where
  catalog hs := hs
  heap _ hs := hs
  lookups _ hs := hs
  timed := (untimed_under g).timed
  shared s hs := ⟨rfl, (apart_sharedStore s).opens.catalog.trans hs⟩

/-- An action in whose course the shared store may be opened. -/
theorem AgreeOn.arrange (ha : AgreeOn (Under g) a a') :
    AgreeOn (Under g) (Session.arrange a) (Session.arrange a') := by
  intro s hs
  have asked : firstRequest? a s = firstRequest? a' s :=
    congrArg (fun p : Except Failure α × Session => earliest? (p.2.survey.getD []))
      (ha { s with survey := some [] } hs).1
  rw [outcome_arrange, outcome_arrange, asked]
  exact ha _ ((opens_arranged s _).1.catalog.trans hs)

end Session

/-! ### Finding -/

namespace Loading

open Session

variable {P : Session → Prop} {g : Catalog} [loose : Loose P g]
  {load load' : ClassId → Value → Action Value}

include loose

/-- A class's own lookup answers. -/
theorem agreeOn_answer (cls : ClassId) (found? : Option Finding) :
    AgreeOn P (answer cls found?) (answer cls found?) := by
  cases found? with
  | none => exact agreeOn_pure Value.null
  | some found =>
    cases found with
    | raw data => exact agreeOn_get_bind fun _ _ => agreeOn_build _
    | entity a => exact agreeOn_pure (Value.object a)

/-- **What is found is the same, if what is loaded is.** -/
theorem agreeOn_findWith (hload : ∀ cls raw, AgreeOn P (load cls raw) (load' cls raw))
    (cls : ClassId) (id : Value) :
    AgreeOn P (findWith load cls id) (findWith load' cls id) := by
  refine agreeOn_get_bind fun s _ => ?_
  dsimp only
  cases s.catalog.lookupOf? cls with
  | some own => exact (agreeOn_note cls id).bind fun _ _ _ _ => agreeOn_answer cls _
  | none =>
    refine (agreeOn_storeOf cls).bind fun i _ _ _ => (agreeOn_textOf id).bind fun name _ _ _ => ?_
    refine (agreeOn_fetchRecord i _ _).bind fun record? _ _ _ => ?_
    cases record? with
    | none => exact agreeOn_pure Value.null
    | some record => exact hload cls record

end Loading

end EntitySchema
