/-
**What is loaded reads as its tree.**

Loading of tame raw values does just what the tree of the loading says, if looking up does: where
there is a tree it succeeds, and by the cells that it adds what it loads reads as the tree; where
there is none it fails.  Be that as it may, afterwards the session *follows* the one before: cells
were added to the heap and time has passed, and all else is as it was.  Where lookups are noted it
is only *ahead* of the one before.

How entities are looked up is left open here, so what is shown holds also where no look-up has an
answer.

Main definitions:

* `Session.Follows`, `Session.Ahead` — a session that only has more cells and a later clock, or
  notes of lookups besides;
* `Session.Sequel` — **a way in which one session comes after another**;
* `Session.Refines` — **an action that does what is said without a session**;
* `Loading.loadBy` — loading, for a given way to look entities up;
* `Loading.Stage` — how far the fields of an entity have been loaded.

Main results:

* `Session.Refines.gather` — actions side by side;
* `Checker.refines_loadWith` — loading of raw values, for given ways to load and to find entities;
* `Loading.Stage.loadFields` — the fields of an entity, one after the other;
* `Loading.refines_loadBy_with` — one entity, for given trees of what is entered and looked up;
* `Loading.refines_loadBy` — **loading does what its tree says.**
-/

import EntitySchema.Proofs.BuildingTrees
import EntitySchema.Proofs.LoadingNormal

set_option autoImplicit false

namespace EntitySchema

theorem Instant.precedes_branch (a : Instant) (i : Nat) : a.Precedes (a.branch i) := by
  have more : ¬ a.tick + 1 < a.tick ∧ a.tick + 1 ≠ a.tick := by omega
  simp [Precedes, before, branch, more]

namespace Session

/-! ### Sessions that follow -/

/-- A session that follows another: cells were added to the heap, and time has passed. -/
structure Follows (s s' : Session) : Prop where
  grows : s.Grows s'
  lookups : s'.lookups = s.lookups
  now : s.now.Precedes s'.now

theorem Follows.refl (s : Session) : s.Follows s := ⟨.refl s, rfl, .refl _⟩

theorem Follows.trans {s s' s'' : Session} (h : s.Follows s') (h' : s'.Follows s'') :
    s.Follows s'' :=
  ⟨h.grows.trans h'.grows, h'.lookups.trans h.lookups, h.now.trans h'.now⟩

/-- The clock may be set to any later instant. -/
theorem Follows.at_now {s s' : Session} (h : s.Follows s') {now : Instant}
    (hnow : s.now.Precedes now) : s.Follows { s' with now := now } :=
  ⟨h.grows.at_now now, h.lookups, hnow⟩

/-- A session that is ahead of another: cells were added to the heap, time has passed, and lookups
may have been noted. -/
structure Ahead (s s' : Session) : Prop where
  grows : s.Grows s'
  now : s.now.Precedes s'.now

/-- A way in which one session comes after another: at most cells were added to the heap, and time
has passed. -/
class Sequel (F : Session → Session → Prop) : Prop where
  refl (s : Session) : F s s
  trans {s s' s'' : Session} : F s s' → F s' s'' → F s s''
  grows {s s' : Session} : F s s' → s.Grows s'
  now {s s' : Session} : F s s' → s.now.Precedes s'.now
  at_now {s s' : Session} {now : Instant} : F s s' → s.now.Precedes now →
    F s { s' with now := now }
  heap {s s' : Session} {h : Heap} : F s s' → s.heap <+: h → F s { s' with heap := h }

instance : Sequel Follows where
  refl := .refl
  trans := .trans
  grows h := h.grows
  now h := h.now
  at_now h hnow := h.at_now hnow
  heap h hle := ⟨⟨hle, h.grows.catalog, h.grows.stores, h.grows.disk, h.grows.shared,
    h.grows.survey⟩, h.lookups, h.now⟩

instance : Sequel Ahead where
  refl s := ⟨.refl s, .refl _⟩
  trans h h' := ⟨h.grows.trans h'.grows, h.now.trans h'.now⟩
  grows h := h.grows
  now h := h.now
  at_now h hnow := ⟨h.grows.at_now _, hnow⟩
  heap h hle := ⟨⟨hle, h.grows.catalog, h.grows.stores, h.grows.disk, h.grows.shared,
    h.grows.survey⟩, h.now⟩

/-! ### Actions that do what is said without a session -/

/-- What an action has told is what is said: a result that is related to the one that is said, or a
failure where none is said. -/
def Told {β τ : Type} (R : β → τ → Prop) (r : Except Failure β) (o : Option τ) : Prop :=
  (∃ x t, r = .ok x ∧ o = some t ∧ R x t) ∨ ((∃ e, r = .error e) ∧ o = none)

/-- An action does in every session of some kind what is said without a session: it has a result
just where one is said, the result is related to it by the cells that were added, and the session
afterwards follows the one before, or comes after it in some other way. -/
def Refines {β τ : Type} (S : Session → Prop) (a : Action β) (R : Heap → β → τ → Prop)
    (o : Option τ) (F : Session → Session → Prop := Follows) : Prop :=
  ∀ s, S s → F s (outcome a s).2 ∧
    Told (R ((outcome a s).2.heap.above s.heap.length)) (outcome a s).1 o

/-- A kind of sessions that is not left by more cells and a later clock. -/
def Lasting (S : Session → Prop) (F : Session → Session → Prop := Follows) : Prop :=
  ∀ s s', S s → F s s' → S s'

section

variable {α β τ : Type} {R : β → τ → Prop} {S : Session → Prop} {F : Session → Session → Prop}

theorem Told.mono {R' : β → τ → Prop} (h : ∀ x t, R x t → R' x t) {r : Except Failure β}
    {o : Option τ} (hr : Told R r o) : Told R' r o := by
  rcases hr with ⟨x, t, hx, ht, hR⟩ | hr
  · exact .inl ⟨x, t, hx, ht, h x t hR⟩
  · exact .inr hr

/-- What is said is done. -/
theorem Refines.exists_ok {a : Action β} {R : Heap → β → τ → Prop} {t : τ}
    (ha : Refines S a R (some t) F) {s : Session} (hs : S s) :
    ∃ x s', outcome a s = (.ok x, s') ∧ F s s' ∧ R (s'.heap.above s.heap.length) x t := by
  obtain ⟨follows, ⟨x, t', hx, ht, hR⟩ | ⟨-, ho⟩⟩ := ha s hs
  · cases ht
    exact ⟨x, _, Prod.ext hx rfl, follows, hR⟩
  · cases ho

/-- What is done is said. -/
theorem Refines.of_ok {a : Action β} {R : Heap → β → τ → Prop} {o : Option τ}
    (ha : Refines S a R o F) {s s' : Session} (hs : S s) {x : β} (hx : outcome a s = (.ok x, s')) :
    ∃ t, o = some t ∧ F s s' ∧ R (s'.heap.above s.heap.length) x t := by
  obtain ⟨follows, ⟨x', t, hx', ht, hR⟩ | ⟨⟨e, he⟩, -⟩⟩ := ha s hs
  · rw [hx] at hx' hR follows
    cases hx'
    exact ⟨t, ht, follows, hR⟩
  · rw [hx] at he
    cases he

/-! ### Actions side by side -/

/-- Outcomes that are all said are the results of all actions, or there is a failure among them. -/
theorem told_cases {o : α → Option τ} {xs : List α} {outcomes : List (Except Failure β × Instant)}
    (size : xs.length = outcomes.length)
    (told : ∀ q ∈ xs.zip outcomes, Told R q.2.1 (o q.1)) :
    (∃ (rs : List (β × Instant)) (ts : List τ), outcomes = rs.map (fun r => (.ok r.1, r.2)) ∧
      xs.mapM o = some ts ∧ (rs.map Prod.fst).length = ts.length ∧
      ∀ p ∈ (rs.map Prod.fst).zip ts, R p.1 p.2) ∨
    ((∃ r ∈ outcomes, ∃ e, r.1 = .error e) ∧ xs.mapM o = none) := by
  induction xs generalizing outcomes with
  | nil =>
    cases List.length_eq_zero_iff.1 size.symm
    exact .inl ⟨[], [], rfl, rfl, rfl, List.forall_mem_nil _⟩
  | cons x xs ih =>
    cases outcomes with
    | nil => cases size
    | cons r outcomes =>
      rw [List.zip_cons_cons, List.forall_mem_cons] at told
      rw [mapM_option_cons]
      have rest := ih (Nat.succ.inj size) told.2
      rcases told.1 with ⟨y, t, hy, ht, hR⟩ | ⟨⟨e, he⟩, ho⟩
      · rw [show o x = some t from ht, Option.bind_some]
        rcases rest with ⟨rs, ts, rfl, hts, size', hRs⟩ | ⟨⟨r', hr', he⟩, ho⟩
        · refine .inl ⟨(y, r.2) :: rs, t :: ts, ?_, ?_, congrArg (· + 1) size', ?_⟩
          · rw [List.map_cons, ← hy]
          · rw [hts]
            rfl
          · rw [List.map_cons, List.zip_cons_cons, List.forall_mem_cons]
            exact ⟨hR, hRs⟩
        · rw [ho]
          exact .inr ⟨⟨r', List.mem_cons_of_mem r hr', he⟩, rfl⟩
      · rw [show o x = none from ho]
        exact .inr ⟨⟨r, List.mem_cons_self .., e, he⟩, rfl⟩

/-- The first failure is one of the outcomes. -/
theorem mem_of_firstFailure? {outcomes : List (Except Failure β × Instant)} {e : Failure}
    {t : Instant} (h : firstFailure? outcomes = some (e, t)) : (.error e, t) ∈ outcomes := by
  induction outcomes with
  | nil => cases h
  | cons r outcomes ih =>
    obtain ⟨result, u⟩ := r
    cases result with
    | ok x => exact List.mem_cons_of_mem _ (ih h)
    | error f =>
      rw [firstFailure?] at h
      cases hrest : firstFailure? outcomes with
      | none =>
        rw [hrest] at h
        cases h
        exact List.mem_cons_self ..
      | some p =>
        rw [hrest] at h
        dsimp only at h
        split at h
        · exact List.mem_cons_of_mem _ (ih (hrest.trans h))
        · cases h
          exact List.mem_cons_self ..

/-- Where there is a failure there is a first. -/
theorem exists_firstFailure? {outcomes : List (Except Failure β × Instant)}
    {r : Except Failure β × Instant} (hr : r ∈ outcomes) {e : Failure} (he : r.1 = .error e) :
    ∃ f t, firstFailure? outcomes = some (f, t) := by
  induction outcomes with
  | nil => cases hr
  | cons r' outcomes ih =>
    obtain ⟨result, u⟩ := r'
    cases result with
    | ok x =>
      rcases List.mem_cons.1 hr with rfl | hr
      · cases he
      · exact ih hr
    | error f =>
      rw [firstFailure?]
      split
      · split
        · exact ⟨_, _, rfl⟩
        · exact ⟨_, _, rfl⟩
      · exact ⟨_, _, rfl⟩

variable [Sequel F]

/-- Actions that do what is said, one after the other on clocks of their own. -/
theorem branches_cases {f : α → Action β} {R : Heap → β → τ → Prop} {o : α → Option τ}
    (mono : ∀ h h' x t, h.Within h' → R h x t → R h' x t) (lasting : Lasting S F) {s : Session}
    (hs : S s) (ps : List (α × Nat)) (hf : ∀ p ∈ ps, Refines S (f p.1) R (o p.1) F) {s₁ : Session}
    (follows : F s { s₁ with now := s.now }) :
    ∃ outcomes s₂, outcome (ps.mapM fun p => branch s.now p.2 (f p.1)) s₁ = (.ok outcomes, s₂) ∧
      F s { s₂ with now := s.now } ∧ s₁.heap <+: s₂.heap ∧
      (ps.map Prod.fst).length = outcomes.length ∧
      (∀ q ∈ (ps.map Prod.fst).zip outcomes,
        Told (R (s₂.heap.above s.heap.length)) q.2.1 (o q.1)) ∧
      ∀ r ∈ outcomes, s.now.Precedes r.2 := by
  induction ps generalizing s₁ with
  | nil =>
    exact ⟨[], s₁, rfl, follows, List.prefix_rfl, rfl, List.forall_mem_nil _,
      List.forall_mem_nil _⟩
  | cons p ps ih =>
    obtain ⟨hp, hps⟩ := List.forall_mem_cons.1 hf
    -- the action starts at an instant of its own, wherever the one before it has ended
    have started : F s { s₁ with now := s.now.branch p.2 } :=
      (Sequel.at_now follows (Instant.precedes_branch _ _) :)
    obtain ⟨follows₁, told⟩ := hp _ (lasting _ _ hs started)
    generalize hout : outcome (f p.1) { s₁ with now := s.now.branch p.2 } = out at follows₁ told
    obtain ⟨result, s₂⟩ := out
    have follows₂ : F s s₂ := Sequel.trans started follows₁
    obtain ⟨outcomes, s₃, hrest, follows₃, le, size, tolds, later⟩ :=
      @ih hps s₂ (Sequel.at_now follows₂ (.refl _))
    refine ⟨(result, s₂.now) :: outcomes, s₃, ?_, follows₃, (Sequel.grows follows₁).heap.trans le,
      congrArg (· + 1) size, ?_, List.forall_mem_cons.2 ⟨Sequel.now follows₂, later⟩⟩
    · rw [List.mapM_cons, outcome_bind_ok (outcome_branch hout), outcome_bind_ok hrest]
      rfl
    · rw [List.map_cons, List.zip_cons_cons, List.forall_mem_cons]
      refine ⟨told.mono fun x t hR => mono _ _ _ _ ?_ hR, tolds⟩
      exact Heap.above_within (Sequel.grows follows).heap.length_le le

/-- **Actions side by side** that do what is said do together what is said of all of them. -/
theorem Refines.gather {f : α → Action β} {R : Heap → β → τ → Prop} {o : α → Option τ}
    (mono : ∀ h h' x t, h.Within h' → R h x t → R h' x t) (lasting : Lasting S F) {xs : List α}
    (hf : ∀ x ∈ xs, Refines S (f x) R (o x) F) :
    Refines S (gather f xs)
      (fun h ys ts => ys.length = ts.length ∧ ∀ p ∈ ys.zip ts, R h p.1 p.2) (xs.mapM o) F := by
  intro s hs
  cases xs with
  | nil => exact ⟨Sequel.refl s, .inl ⟨[], [], rfl, rfl, rfl, List.forall_mem_nil _⟩⟩
  | cons x xs =>
    have members : ∀ p ∈ (x :: xs).zipIdx, Refines S (f p.1) R (o p.1) F :=
      fun p hp => hf p.1 (List.fst_mem_of_mem_zipIdx hp)
    obtain ⟨outcomes, s₁, hrun, follows, -, size, told, later⟩ :=
      branches_cases mono lasting hs _ members (Sequel.refl s)
    rw [List.zipIdx_map_fst] at size told
    have run : outcome (Session.gather f (x :: xs)) s =
        ((settle s.now outcomes).1, { s₁ with now := (settle s.now outcomes).2 }) := by
      rw [Session.gather, List.isEmpty_cons, if_neg Bool.false_ne_true, outcome_get_bind,
        outcome_bind_ok hrun, outcome_modify_bind, outcome_ofExcept]
    rw [run]
    rcases told_cases size told with ⟨rs, ts, rfl, hts, size', hRs⟩ | ⟨⟨r, hr, e, he⟩, none⟩
    · have now : s.now.Precedes (settle s.now (rs.map fun r =>
          ((.ok r.1 : Except Failure β), r.2))).2 := by
        rw [settle, firstFailure?_ok]
        exact (precedes_lastEnd s.now _).trans (Instant.precedes_told _)
      exact ⟨(Sequel.at_now follows now :), .inl ⟨_, ts, settle_ok s.now rs, hts, size', hRs⟩⟩
    · -- the session goes on when the first failure is told
      obtain ⟨e', t, hfirst⟩ := exists_firstFailure? hr he
      have now := later _ (mem_of_firstFailure? hfirst)
      rw [settle, hfirst]
      exact ⟨(Sequel.at_now follows (now.trans (Instant.precedes_told t)) :),
        .inr ⟨⟨e', rfl⟩, none⟩⟩

/-! ### Steps of actions that do what is said -/

omit [Sequel F] in
/-- An action that runs as another does what the other does. -/
theorem Refines.of_outcome {a b : Action β} {R : Heap → β → τ → Prop} {o : Option τ}
    (hab : ∀ s, S s → outcome a s = outcome b s) (hb : Refines S b R o F) : Refines S a R o F := by
  intro s hs
  rw [hab s hs]
  exact hb s hs

theorem refines_pure {R : Heap → β → τ → Prop} {x : β} {t : τ} (hR : ∀ h, R h x t) :
    Refines S (pure x) R (some t) F := fun s _ => ⟨Sequel.refl s, .inl ⟨x, t, rfl, rfl, hR _⟩⟩

theorem refines_error {R : Heap → β → τ → Prop} (e : Failure) :
    Refines S (ofExcept (.error e)) R (none : Option τ) F :=
  fun s _ => ⟨Sequel.refl s, .inr ⟨⟨e, rfl⟩, rfl⟩⟩

omit [Sequel F] in
/-- What is made of the result of an action. -/
theorem Refines.map {γ σ : Type} {a : Action β} {R : Heap → β → τ → Prop} {o : Option τ}
    (ha : Refines S a R o F) {R' : Heap → γ → σ → Prop} {k : β → γ} {l : τ → σ}
    (hR : ∀ h x t, R h x t → o = some t → R' h (k x) (l t)) :
    Refines S (a >>= fun x => pure (k x)) R' (o.bind fun t => some (l t)) F := by
  intro s hs
  obtain ⟨follows, ⟨x, t, hx, ht, hR₀⟩ | ⟨⟨e, he⟩, ho⟩⟩ := ha s hs
  · have run : outcome (a >>= fun x => pure (k x)) s = (.ok (k x), (outcome a s).2) := by
      rw [outcome_bind_ok (Prod.ext hx rfl), outcome_pure]
    rw [run]
    exact ⟨follows, .inl ⟨k x, l t, rfl, by rw [ht]; rfl, hR _ _ _ hR₀ ht⟩⟩
  · have run : outcome (a >>= fun x => pure (k x)) s = (.error e, (outcome a s).2) :=
      outcome_bind_error (Prod.ext he rfl)
    rw [run]
    exact ⟨follows, .inr ⟨⟨e, rfl⟩, by rw [ho]; rfl⟩⟩

end

end Session

/-! ### Loading of raw values -/

section

variable {g : Catalog} {look : Lookups} {kind : Subject → Value → Prop} (tame : g.Tame look kind)
  {S : Session → Prop} {F : Session → Session → Prop} [Session.Sequel F]
  (lasting : Session.Lasting S F) (catalog : ∀ s, S s → s.catalog = g)

include tame lasting catalog

omit lasting in
/-- What an eager reference finds is what its tree says, if the lookup is. -/
theorem Checker.refines_fetchWith {seek : ClassId → Value → Action Value}
    {seekTo : ClassId → Value → Option Tree} {t : Target} {e : Value} {r : Bool} {raw : Value}
    (hraw : kind (.decoded (.reference t e r)) raw) (eager : e.truthy = true)
    (hseek : ∀ cls, g.resolve t = .ok cls → Session.Refines S (seek cls (identifierIn raw))
      (Heap.Reads g) (seekTo cls (identifierIn raw)) F) :
    Session.Refines S (fetchWith seek t raw) (Heap.Reads g) (fetchTree g seekTo t raw) F := by
  rw [fetchTree]
  cases there : raw.truthy with
  | false =>
    rw [fetchWith, there]
    exact Session.refines_pure fun _ => .leaf _
  | true =>
    -- the identifier is read and written down alike in every session
    have run : ∀ s, S s → Session.outcome (fetchWith seek t raw) s = Session.outcome (
        if (identifierIn raw).isNull then pure .null else
          (Session.ofExcept (g.resolve t) >>= fun cls => seek cls (identifierIn raw))) s := by
      intro s hs
      obtain ⟨text, htext⟩ := tame.written hraw eager s.catalog s.heap
      rw [fetchWith, there, if_pos rfl, Session.outcome_get_bind, tame.identifier hraw eager s]
      dsimp only
      rw [htext, catalog s hs]
      split
      · rfl
      · cases g.resolve t with
        | error f => rfl
        | ok cls => rfl
    refine Session.Refines.of_outcome run ?_
    cases (identifierIn raw).isNull with
    | true => exact Session.refines_pure fun _ => .leaf _
    | false =>
      rw [if_neg Bool.false_ne_true]
      cases hcls : g.resolve t with
      | error f => exact Session.refines_error f
      | ok cls => exact hseek cls hcls

omit lasting in
/-- What an embedded reference enters is what its tree says, if entities are loaded as theirs
say. -/
theorem Checker.refines_enterWith {enter : ClassId → Value → Action Value}
    {enterTo : ClassId → Value → Option Tree} {t : Target} {e : Value} {r : Bool} {raw : Value}
    (hraw : kind (.decoded (.reference t e r)) raw) (lazy : e.truthy = false)
    (henter : ∀ cls raw, kind (.entity cls) raw →
      Session.Refines S (enter cls raw) (Heap.Reads g) (enterTo cls raw) F) :
    Session.Refines S (enterWith enter t raw) (Heap.Reads g) (enterTree g enterTo t raw) F := by
  rw [enterTree]
  cases hn : raw.isNull with
  | true =>
    rw [enterWith, if_pos hn]
    exact Session.refines_pure fun _ => .leaf _
  | false =>
    -- a payload is no instance that would be taken as it is
    have run : ∀ s, S s → Session.outcome (enterWith enter t raw) s =
        Session.outcome (Session.ofExcept (g.resolve t) >>= fun cls => enter cls raw) s := by
      intro s hs
      rw [enterWith, if_neg (by simp [hn]), Session.outcome_get_bind, catalog s hs]
      cases raw with
      | object a => exact absurd rfl (tame.payload hraw lazy a)
      | _ => rfl
    refine Session.Refines.of_outcome run ?_
    rw [if_neg Bool.false_ne_true]
    cases hcls : g.resolve t with
    | error f => exact Session.refines_error f
    | ok cls => exact henter cls raw (tame.embedded hraw lazy hn hcls)

/-- **Loading of a raw value does what its tree says**, if entities are loaded and found as theirs
say. -/
theorem Checker.refines_loadWith {enter seek : ClassId → Value → Action Value}
    {enterTo seekTo : ClassId → Value → Option Tree}
    (henter : ∀ cls raw, kind (.entity cls) raw →
      Session.Refines S (enter cls raw) (Heap.Reads g) (enterTo cls raw) F)
    (hseek : ∀ t e r raw cls, kind (.decoded (.reference t e r)) raw → e.truthy = true →
      g.resolve t = .ok cls → Session.Refines S (seek cls (identifierIn raw)) (Heap.Reads g)
        (seekTo cls (identifierIn raw)) F) : (c : Checker) → c.producesEntity = true →
      (raw : Value) → kind (.decoded c) raw →
      Session.Refines S (loadWith enter seek c raw) (Heap.Reads g) (treeWith g enterTo seekTo c raw)
        F
  | .reference t e r, _, raw, hraw => by
    rw [loadWith, treeWith]
    cases he : e.truthy with
    | true =>
      rw [if_pos rfl, if_pos rfl]
      exact refines_fetchWith tame catalog hraw he fun cls => hseek t e r raw cls hraw he
    | false =>
      rw [if_neg Bool.false_ne_true, if_neg Bool.false_ne_true]
      exact refines_enterWith tame catalog hraw he henter
  | .arrayOf e r, hprod, raw, hraw => by
    have hp : e.producesEntity = true := hprod
    rw [loadWith, treeWith_arrayOf]
    cases hitems : itemsOf raw with
    | error f => exact Session.refines_error f
    | ok items =>
      have parts := Session.Refines.gather (R := Heap.Reads g) (fun _ _ _ _ hle hr => hr.mono hle)
        lasting fun x hx => refines_loadWith henter hseek e hp x (tame.items hp hraw hitems x hx)
      exact parts.map fun h vs ts hR _ => .array hR.1 hR.2
  | .dictOf e r, hprod, raw, hraw => by
    have hp : e.producesEntity = true := hprod
    rw [loadWith, treeWith_dictOf]
    cases hes : entriesOf [] raw with
    | error f =>
      refine Session.Refines.of_outcome (b := Session.ofExcept (.error f)) ?_
        (Session.refines_error f)
      intro s _
      rw [Session.outcome_get_bind, tame.mapping hp hraw s.heap, hes]
      rfl
    | ok es =>
      have parts := Session.Refines.gather (R := Heap.Reads g) (fun _ _ _ _ hle hr => hr.mono hle)
        lasting fun p hmem => refines_loadWith henter hseek e hp p.2
          (tame.values hp hraw hes p hmem)
      have values : Session.Refines S (Session.gather (fun p => loadWith enter seek e p.2) es)
          (fun h vs ts => vs.length = ts.length ∧ ∀ p ∈ vs.zip ts, Heap.Reads g h p.1 p.2)
          ((es.map Prod.snd).mapM fun x => treeWith g enterTo seekTo e x) F := by
        rw [List.mapM_map]
        exact parts
      have reads : ∀ (h : Heap) vs ts,
          (vs.length = ts.length ∧ ∀ p ∈ vs.zip ts, Heap.Reads g h p.1 p.2) →
          ((es.map Prod.snd).mapM fun x => treeWith g enterTo seekTo e x) = some ts →
          Heap.Reads g h (.dict ((es.map Prod.fst).zip vs)) (.dictionary (es.map Prod.fst) ts) := by
        intro h vs ts hR hts
        have size : (es.map Prod.snd).length = ts.length := (mapM_eq_some_iff.1 hts).1
        exact .dictionary_zip (by simpa [hR.1] using size) hR.1 hR.2
      refine Session.Refines.of_outcome ?_ (values.map reads)
      intro s _
      rw [Session.outcome_get_bind, tame.mapping hp hraw s.heap, hes]
      rfl

end

/-! ### The fields of an entity -/

/-- Where an entity is constructed, a field that does not produce entities is loaded as it was
constructed, and it leads nowhere. -/
theorem Catalog.loadedField_eq_of_built {g : Catalog} {cls : ClassId} (hg : g.WellFormed)
    (enter seek : ClassId → Value → Option Tree) (raw : Value)
    {enter' : ClassId → Value → Option Tree} {data : Entries} {trees : String → Tree}
    (built : fieldTrees (g.builtField enter' data) (g.schemaOf cls) = some trees)
    {f : String × Checker} (hf : f ∈ g.schemaOf cls) (hp : f.2.producesEntity = false) :
    g.loadedField enter seek raw data f = some (trees f.1) ∧ ∃ x, trees f.1 = .leaf x := by
  have each := eq_of_fieldTrees (hg.nodup cls) built f hf
  obtain ⟨same, leaf⟩ := Catalog.loadedField_of_plain hp
  exact ⟨same.trans each, leaf _ each⟩

/-- What is put aside is put aside for a deferred field. -/
theorem Construction.exists_of_mem_asideEntries {data : Entries} {fs : Schema} {e : Value × Value}
    (he : e ∈ asideEntries data fs) : ∃ f ∈ fs, f.2.deferred = true ∧ e.1 = .str f.1 := by
  obtain ⟨p, hp, rfl⟩ := List.mem_map.1 he
  obtain ⟨f, hf, heq⟩ := List.mem_filterMap.1 hp
  split at heq
  · next aside =>
    cases heq
    exact ⟨f, hf, (Bool.and_eq_true_iff.1 aside).1, rfl⟩
  · cases heq

namespace Heap

/-- The cell of an entity among the cells from an address on. -/
theorem cell_of_above {h : Heap} {n : Nat} {a : Address} {cls : ClassId} {id : Value}
    {pending : Entries} {names : List String} {v : String → Value}
    (hc : get (above n h) a = Cell.ofFields cls id pending names v) :
    n ≤ a ∧ a < h.length ∧ get h a = Cell.ofFields cls id pending names v := by
  have entity : isEntity (above n h) a = true := by simp [isEntity, hc, Cell.ofFields]
  obtain ⟨after, there⟩ := isEntity_only.1 entity
  have same : get (above n h) a = get h a := (only_within_self _ h a entity).symm
  exact ⟨of_decide_eq_true after, lt_of_isEntity there, same.symm.trans hc⟩

end Heap

namespace Loading

/-- A field is settled in whatever entity was added to the heap. -/
theorem settle_follows {F : Session → Session → Prop} [Session.Sequel F] {s s₁ : Session}
    (follows : F s s₁) {a : Address} (added : s.heap.length ≤ a) (name : String) (x : Value) :
    F s { s₁ with heap := s₁.heap.settle a name x } :=
  Session.Sequel.heap follows
    (Heap.prefix_settle (Session.Sequel.grows follows).heap added name x)

section

variable {g : Catalog} {S : Session → Prop} {F : Session → Session → Prop} [Session.Sequel F]
  (lasting : Session.Lasting S F)
  {value : Checker → Value → Action Value} {tree : Checker → Value → Option Tree}

include lasting

/-- Whatever becomes of the fields, the session follows the one before; and if there is no tree for
one of them, loading them fails. -/
theorem loadFields_cases {raw : Value} {fs : Schema}
    (hvalue : ∀ f ∈ fs, f.2.producesEntity = true → ∀ x, rawField raw f.1 = .ok x →
      Session.Refines S (value f.2 x) (Heap.Reads g) (tree f.2 x) F) {s s₁ : Session} (hs : S s)
    (follows : F s s₁) {a : Address} (added : s.heap.length ≤ a) :
    F s (Session.outcome (loadFields value a raw fs) s₁).2 ∧
      ((∃ f ∈ fs, f.2.producesEntity = true ∧
        ((rawField raw f.1).toOption.bind fun x => tree f.2 x) = none) →
        ∃ e, (Session.outcome (loadFields value a raw fs) s₁).1 = .error e) := by
  induction fs generalizing s₁ with
  | nil =>
    refine ⟨follows, ?_⟩
    rintro ⟨_, hf, _⟩
    cases hf
  | cons f fs ih =>
    obtain ⟨name, c⟩ := f
    obtain ⟨hf, hfs⟩ := List.forall_mem_cons.1 hvalue
    rw [loadFields]
    cases hp : c.producesEntity with
    | false =>
      obtain ⟨follows', fails⟩ := ih hfs follows
      refine ⟨follows', ?_⟩
      rintro ⟨f, hmem, hprod, hnone⟩
      rcases List.mem_cons.1 hmem with rfl | hmem
      · cases hp.symm.trans hprod
      · exact fails ⟨f, hmem, hprod, hnone⟩
    | true =>
      rw [if_pos rfl]
      cases hx : rawField raw name with
      | error e => exact ⟨follows, fun _ => ⟨e, rfl⟩⟩
      | ok x =>
        have field : Session.outcome (Session.ofExcept (.ok x : Except Failure Value)) s₁ =
            (.ok x, s₁) := rfl
        obtain ⟨follows₁, ⟨y, t, hy, ht, -⟩ | ⟨⟨e, he⟩, -⟩⟩ :=
          hf hp x hx s₁ (lasting _ _ hs follows)
        · rw [Session.outcome_bind_ok field, Session.outcome_bind_ok (Prod.ext hy rfl),
            Session.outcome_bind_ok (outcome_settle a name y _)]
          obtain ⟨follows', fails⟩ := ih hfs
            (settle_follows (Session.Sequel.trans follows follows₁) added name y)
          refine ⟨follows', ?_⟩
          rintro ⟨f, hmem, hprod, hnone⟩
          rcases List.mem_cons.1 hmem with rfl | hmem
          · rw [hx] at hnone
            cases ht.symm.trans hnone
          · exact fails ⟨f, hmem, hprod, hnone⟩
        · rw [Session.outcome_bind_ok field, Session.outcome_bind_error (Prod.ext he rfl)]
          exact ⟨Session.Sequel.trans follows follows₁, fun _ => ⟨e, rfl⟩⟩

end

/-- How far an entity has been loaded: its cell is there and was added to the heap, the fields that
are done read as their trees by other cells that were added, and only fields that are still to do
have something put aside. -/
structure Stage (g : Catalog) (h : Heap) (cls : ClassId) (id : Value) (trees : String → Tree)
    (a : Address) (todo : Schema) (h' : Heap) (v : String → Value) : Prop where
  grows : h <+: h'
  added : h.length ≤ a
  there : a < h'.length
  cell : ∃ pending, Heap.get h' a =
      Cell.ofFields cls id pending (Table.names (g.schemaOf cls)) v ∧
    ∀ e ∈ pending, ∃ f ∈ todo, f.2.producesEntity = true ∧ e.1 = .str f.1
  fields : ∀ f ∈ g.schemaOf cls, (f.2.producesEntity = true → f ∉ todo) →
    Heap.Reads g (h'.only fun b => decide (h.length ≤ b) && b != a) (v f.1) (trees f.1)

namespace Stage

variable {g : Catalog} {h h₁ h₂ : Heap} {cls : ClassId} {id : Value} {trees : String → Tree}
  {a : Address} {f : String × Checker} {fs : Schema} {v : String → Value}

/-- An entity that has just been constructed: all fields that produce entities are to do. -/
theorem start {data : Entries} {trees₀ : String → Tree} (grows : h <+: h₁) {w : Value}
    (reads : Heap.Reads g (h₁.above h.length) w (.entity cls id
      (Construction.asideEntries data (g.schemaOf cls)) trees₀))
    (plain : ∀ f ∈ g.schemaOf cls, f.2.producesEntity = false →
      trees f.1 = trees₀ f.1 ∧ ∃ x, trees₀ f.1 = .leaf x) :
    ∃ a v, w = .object a ∧ Stage g h cls id trees a (g.schemaOf cls) h₁ v := by
  cases reads with
  | @entity a _ _ _ v _ hcell hv =>
    obtain ⟨added, there, cell⟩ := Heap.cell_of_above hcell
    refine ⟨a, v, rfl, grows, added, there, ⟨_, cell, ?_⟩, ?_⟩
    · intro e he
      obtain ⟨f, hf, hd, hkey⟩ := Construction.exists_of_mem_asideEntries he
      exact ⟨f, hf, Checker.producesEntity_of_deferred _ hd, hkey⟩
    · intro f hf hnot
      have hp : f.2.producesEntity = false := by
        by_contra hp
        exact hnot (Bool.eq_true_of_not_eq_false hp) hf
      obtain ⟨told, x, leaf⟩ := plain f hf hp
      have value := hv f.1 (List.mem_map_of_mem hf)
      rw [leaf] at value
      rw [told, leaf, value.eq_of_leaf]
      exact .leaf x

/-- What the fields still to do will read as does not matter yet. -/
theorem congr (st : Stage g h cls id trees a fs h₁ v) (trees' : String → Tree)
    (same : ∀ f ∈ g.schemaOf cls, (f.2.producesEntity = true → f ∉ fs) → trees' f.1 = trees f.1) :
    Stage g h cls id trees' a fs h₁ v := by
  refine ⟨st.grows, st.added, st.there, st.cell, fun f hf hnot => ?_⟩
  rw [same f hf hnot]
  exact st.fields f hf hnot

/-- What holds of the fields that are done holds of them still when one is done that does not
produce entities. -/
theorem forall_done_skip {P : String × Checker → Prop} {known : Schema}
    (done : ∀ f' ∈ known, (f'.2.producesEntity = true → f' ∉ f :: fs) → P f')
    (hp : f.2.producesEntity = false) :
    ∀ f' ∈ known, (f'.2.producesEntity = true → f' ∉ fs) → P f' := by
  intro f' hf' hnot
  refine done f' hf' fun hprod hmem => hnot hprod ((List.mem_cons.1 hmem).resolve_left ?_)
  rintro rfl
  cases hp.symm.trans hprod

/-- A field that does not produce entities is done as it is. -/
theorem skip (st : Stage g h cls id trees a (f :: fs) h₁ v) (hp : f.2.producesEntity = false) :
    Stage g h cls id trees a fs h₁ v := by
  have other : ∀ f' : String × Checker, f'.2.producesEntity = true → f' ≠ f := by
    rintro f' hf' rfl
    cases hp.symm.trans hf'
  refine ⟨st.grows, st.added, st.there, ?_, ?_⟩
  · obtain ⟨pending, cell, aside⟩ := st.cell
    refine ⟨pending, cell, fun e he => ?_⟩
    obtain ⟨f', hf', hprod, hname⟩ := aside e he
    exact ⟨f', (List.mem_cons.1 hf').resolve_left (other f' hprod), hprod, hname⟩
  · exact forall_done_skip st.fields hp

/-- **One more field of an entity is loaded.** -/
theorem settle (hg : g.WellFormed) (st : Stage g h cls id trees a (f :: fs) h₁ v)
    (hf : f ∈ g.schemaOf cls) {x : Value} (grows : h₁ <+: h₂)
    (hx : Heap.Reads g (h₂.above h₁.length) x (trees f.1)) :
    Stage g h cls id trees a fs (h₂.settle a f.1 x) fun n => if n = f.1 then x else v n := by
  have hname : f.1 ∈ Table.names (g.schemaOf cls) := List.mem_map_of_mem hf
  have there : a < h₂.length := st.there.trans_le grows.length_le
  obtain ⟨pending, cell, aside⟩ := st.cell
  replace cell := (Heap.get_of_extended grows st.there).trans cell
  refine ⟨Heap.prefix_settle (st.grows.trans grows) st.added _ _, st.added, by simpa using there,
    ⟨_, Heap.get_settle_self hg there cell hname x, ?_⟩, ?_⟩
  · intro e he
    rw [List.mem_filter] at he
    obtain ⟨f', hf', hprod, hkey⟩ := aside e he.1
    refine ⟨f', (List.mem_cons.1 hf').resolve_left ?_, hprod, hkey⟩
    rintro rfl
    simp [hkey, Value.isText] at he
  · have other : ∀ b, b ≠ a → Heap.get (h₂.settle a f.1 x) b = Heap.get h₂ b :=
      fun b hb => Heap.get_settle_of_ne _ hb.symm _ _
    intro f' hf' hnot
    by_cases heq : f'.1 = f.1
    · rw [if_pos heq, heq]
      -- the cells of what was loaded came after the entity, so the writes spare them
      refine hx.mono (Heap.only_within ?_ ?_)
      · intro b hb _
        have size : h₁.length ≤ b := by simpa using hb
        have later : b ≠ a := Nat.ne_of_gt (Nat.lt_of_lt_of_le st.there size)
        have added : h.length ≤ b := st.grows.length_le.trans size
        simp [later, added]
      · intro b hb _
        have size : h₁.length ≤ b := by simpa using hb
        exact other b (Nat.ne_of_gt (Nat.lt_of_lt_of_le st.there size))
    · rw [if_neg heq]
      have done := st.fields f' hf' fun hprod hmem =>
        hnot hprod ((List.mem_cons.1 hmem).resolve_left fun h => heq (congrArg Prod.fst h))
      refine done.mono (Heap.only_within (fun _ hb _ => hb) ?_)
      intro b hb he
      have hne : b ≠ a := by simpa using (Bool.and_eq_true_iff.1 hb).2
      rw [other b hne]
      exact Heap.Within.of_extended grows b he

/-- One more field is loaded, and only now is it known what it reads as. -/
theorem fill (hg : g.WellFormed) (st : Stage g h cls id trees a (f :: fs) h₁ v)
    (hf : f ∈ g.schemaOf cls) (hp : f.2.producesEntity = true) {x : Value} {t : Tree}
    (grows : h₁ <+: h₂) (hx : Heap.Reads g (h₂.above h₁.length) x t) :
    Stage g h cls id (fun n => if n = f.1 then t else trees n) a fs (h₂.settle a f.1 x)
      fun n => if n = f.1 then x else v n := by
  refine (st.congr _ fun f' hf' hnot => if_neg fun heq => ?_).settle hg hf grows
    (by rwa [if_pos rfl])
  -- no field that is done has the name of one that is to do
  obtain rfl := List.inj_on_of_nodup_map (hg.nodup cls) hf' hf heq
  exact hnot hp (List.mem_cons_self ..)

/-- What holds of the trees of the fields that are done holds of them still when one more is
loaded, if it holds of the tree of that one. -/
theorem forall_done_fill {P : String × Checker → Tree → Prop} (hg : g.WellFormed)
    (hf : f ∈ g.schemaOf cls) {t : Tree} (ht : P f t)
    (done : ∀ f' ∈ g.schemaOf cls, (f'.2.producesEntity = true → f' ∉ f :: fs) →
      P f' (trees f'.1)) :
    ∀ f' ∈ g.schemaOf cls, (f'.2.producesEntity = true → f' ∉ fs) →
      P f' (if f'.1 = f.1 then t else trees f'.1) := by
  intro f' hf' hnot
  by_cases heq : f'.1 = f.1
  · obtain rfl := List.inj_on_of_nodup_map (hg.nodup cls) hf' hf heq
    rwa [if_pos rfl]
  · rw [if_neg heq]
    exact done f' hf' fun hprod hmem =>
      hnot hprod ((List.mem_cons.1 hmem).resolve_left fun same => heq (congrArg Prod.fst same))

/-- An entity of which all fields are done reads as its tree, and nothing is put aside. -/
theorem reads (st : Stage g h cls id trees a [] h₁ v) :
    Heap.Reads g (h₁.above h.length) (.object a) (.entity cls id [] trees) := by
  obtain ⟨pending, cell, aside⟩ := st.cell
  obtain rfl : pending = [] := by
    refine List.eq_nil_iff_forall_not_mem.2 fun e he => ?_
    obtain ⟨f, hf, -⟩ := aside e he
    cases hf
  refine .entity (v := v) ?_ ?_
  · rw [Heap.above, Heap.get_only, if_pos (by simpa using st.added), cell]
  · intro name hname
    obtain ⟨f, hf, rfl⟩ := List.mem_map.1 hname
    refine (st.fields f hf fun _ => List.not_mem_nil).mono (Heap.only_within ?_ fun _ _ _ => rfl)
    intro b hb _
    exact (Bool.and_eq_true_iff.1 hb).1

/-- Fields that all have a tree are loaded one after the other. -/
theorem loadFields (hg : g.WellFormed) {S : Session → Prop} {F : Session → Session → Prop}
    [Session.Sequel F] (lasting : Session.Lasting S F)
    {value : Checker → Value → Action Value} {raw : Value} (hfs : ∀ f ∈ fs, f ∈ g.schemaOf cls)
    (hvalue : ∀ f ∈ fs, f.2.producesEntity = true → ∃ x, rawField raw f.1 = .ok x ∧
      Session.Refines S (value f.2 x) (Heap.Reads g) (some (trees f.1)) F) {s s₁ : Session}
    (hs : S s) (follows : F s s₁) (st : Stage g s.heap cls id trees a fs s₁.heap v) :
    ∃ s₂ v', Session.outcome (loadFields value a raw fs) s₁ = (.ok ⟨⟩, s₂) ∧ F s s₂ ∧
      Stage g s.heap cls id trees a [] s₂.heap v' := by
  induction fs generalizing s₁ v with
  | nil => exact ⟨s₁, v, rfl, follows, st⟩
  | cons f fs ih =>
    obtain ⟨hf, hfs⟩ := List.forall_mem_cons.1 hfs
    obtain ⟨hx, hvalue⟩ := List.forall_mem_cons.1 hvalue
    rw [Loading.loadFields]
    cases hp : f.2.producesEntity with
    | false => exact ih hfs hvalue follows (st.skip hp)
    | true =>
      obtain ⟨x, hraw, told⟩ := hx hp
      obtain ⟨y, s₂, hout, follows₁, reads⟩ := told.exists_ok (lasting _ _ hs follows)
      obtain ⟨s₃, v', hrest, follows', st'⟩ := ih hfs hvalue
        (settle_follows (Session.Sequel.trans follows follows₁) st.added f.1 y)
        (st.settle hg hf (Session.Sequel.grows follows₁).heap reads)
      refine ⟨s₃, v', ?_, follows', st'⟩
      have field : Session.outcome (Session.ofExcept (rawField raw f.1)) s₁ = (.ok x, s₁) := by
        rw [Session.outcome_ofExcept, hraw]
      rw [if_pos rfl, Session.outcome_bind_ok field, Session.outcome_bind_ok hout,
        Session.outcome_bind_ok (outcome_settle a f.1 y s₂)]
      exact hrest

end Stage

/-! ### Loading of entities -/

/-- Loading of an entity, entering at most `fuel` entities one after the other, for a given way to
look entities up. -/
def loadBy (seek : Nat → ClassId → Value → Action Value) : Nat → ClassId → Value → Action Value
  | 0, _, _ => throw .endless
  | fuel + 1, cls, raw => do
    let g := (← get).catalog
    let v ← Session.build (Construction.ofRaw g cls raw)
    match v with
    | .object a =>
      loadFields (Checker.loadWith (loadBy seek fuel) (seek fuel)) a raw (g.schemaOf cls)
      pure v
    | v => pure v

/-- Entities are looked up by loading what is found. -/
theorem loadWithin_eq_loadBy (fuel : Nat) :
    loadWithin fuel = loadBy (fun fuel => findWith (loadWithin fuel)) fuel := by
  induction fuel with
  | zero => rfl
  | succ fuel ih =>
    funext cls raw
    rw [loadBy, ← ih]
    rfl

section

variable {g : Catalog} {look : Lookups} {kind : Subject → Value → Prop} (tame : g.Tame look kind)
  {S : Session → Prop} {F : Session → Session → Prop} [Session.Sequel F]
  (lasting : Session.Lasting S F) (catalog : ∀ s, S s → s.catalog = g)

include tame lasting catalog

/-- An entity is loaded as the trees of what is entered and looked up in it say, if it can be
constructed. -/
theorem refines_loadBy_with (hg : g.WellFormed) {seek : Nat → ClassId → Value → Action Value}
    {fuel : Nat} (enterTo seekTo : ClassId → Value → Option Tree)
    (henter : ∀ cls raw, kind (.entity cls) raw →
      Session.Refines S (loadBy seek fuel cls raw) (Heap.Reads g) (enterTo cls raw) F)
    (hseek : ∀ t e r raw cls, kind (.decoded (.reference t e r)) raw → e.truthy = true →
      g.resolve t = .ok cls → Session.Refines S (seek fuel cls (Checker.identifierIn raw))
        (Heap.Reads g) (seekTo cls (Checker.identifierIn raw)) F)
    {cls : ClassId} {raw : Value} (hraw : kind (.entity cls) raw) {m : Nat}
    (deep : raw.depth ≤ m + 1) :
    Session.Refines S (loadBy seek (fuel + 1) cls raw) (Heap.Reads g)
      ((g.built (m + 1) cls raw).bind fun _ => g.loadedWith enterTo seekTo cls raw) F := by
  intro s hs
  obtain rfl := catalog s hs
  have made := Construction.refines_ofRaw tame hg deep hraw
  rw [loadBy, Session.outcome_get_bind]
  dsimp only
  have parts := fun (f : String × Checker) (data : Entries)
      (hdata : Construction.entriesOf [] raw = .ok data) (hf : f ∈ s.catalog.schemaOf cls)
      (hp : f.2.producesEntity = true) =>
    Checker.refines_loadWith tame lasting catalog henter hseek f.2 hp _
      (tame.field hraw hdata f hf)
  rcases made s.heap with ⟨w, h₁, t₀, hw, ht₀, hle, reads⟩ | ⟨⟨e, he⟩, ho⟩
  · rw [ht₀, Option.bind_some]
    obtain ⟨data, trees₀, hdata, htrees₀, rfl⟩ := Catalog.built_succ_eq_some.1 ht₀
    have follows : F s { s with heap := h₁ } := Session.Sequel.heap (Session.Sequel.refl s) hle
    have plain := fun (f : String × Checker) (hf : f ∈ s.catalog.schemaOf cls)
        (hp : f.2.producesEntity = false) =>
      Catalog.loadedField_eq_of_built hg enterTo seekTo raw htrees₀ hf hp
    cases htrees : fieldTrees (s.catalog.loadedField enterTo seekTo raw data)
        (s.catalog.schemaOf cls) with
    | none =>
      -- a field without a tree is one that produces entities, and loading it fails
      obtain ⟨f, hf, hnone⟩ := exists_of_fieldTrees_eq_none htrees
      have hp : f.2.producesEntity = true := by
        by_contra hp
        cases hnone.symm.trans (plain f hf (Bool.eq_false_of_not_eq_true hp)).1
      have kept : ∀ f ∈ s.catalog.schemaOf cls, f.2.producesEntity = false →
          trees₀ f.1 = trees₀ f.1 ∧ ∃ x, trees₀ f.1 = .leaf x := fun f hf hp =>
        ⟨rfl, (plain f hf hp).2⟩
      obtain ⟨a, v, rfl, st⟩ := Stage.start hle reads kept
      rw [Session.outcome_bind_ok (Session.outcome_build_ok hw)]
      dsimp only
      obtain ⟨follows', fails⟩ := loadFields_cases lasting (fun f hf hp x hx => by
        rw [Catalog.eq_getStr_of_rawField hx hdata]
        exact parts f data hdata hf hp) hs follows st.added
      obtain ⟨e, he⟩ := fails ⟨f, hf, hp, by simpa [Catalog.loadedField, hp] using hnone⟩
      rw [Session.outcome_bind_error (Prod.ext he rfl)]
      refine ⟨follows', .inr ⟨⟨e, rfl⟩, ?_⟩⟩
      rw [Catalog.loadedWith, hdata]
      exact congrArg (Option.bind · _) htrees
    | some trees =>
      have each := eq_of_fieldTrees (hg.nodup cls) htrees
      have kept : ∀ f ∈ s.catalog.schemaOf cls, f.2.producesEntity = false →
          trees f.1 = trees₀ f.1 ∧ ∃ x, trees₀ f.1 = .leaf x := fun f hf hp =>
        ⟨Option.some.inj ((each f hf).symm.trans (plain f hf hp).1), (plain f hf hp).2⟩
      obtain ⟨a, v, rfl, st⟩ := Stage.start hle reads kept
      rw [Session.outcome_bind_ok (Session.outcome_build_ok hw)]
      dsimp only
      obtain ⟨s₂, v', hloaded, follows', done⟩ := st.loadFields hg lasting (fun f hf => hf)
        (fun f hf hp => by
          obtain ⟨hx, htree⟩ := (Catalog.loadedField_eq_some hdata).1 (each f hf)
          rw [if_pos (Checker.decodes_of_producesEntity hp)] at htree
          refine ⟨_, hx hp, ?_⟩
          rw [← htree]
          exact parts f data hdata hf hp) hs follows
      rw [Session.outcome_bind_ok hloaded]
      refine ⟨follows',
        .inl ⟨.object a, .entity cls (Entries.getStr data idField) [] trees, rfl, ?_,
        done.reads⟩⟩
      rw [Catalog.loadedWith, hdata]
      exact congrArg (Option.bind · _) htrees
  · -- what cannot be constructed cannot be loaded
    rw [Session.outcome_bind_error (Session.outcome_build_error he)]
    rw [ho, Option.bind_none]
    exact ⟨Session.Sequel.refl s, .inr ⟨⟨e, rfl⟩, rfl⟩⟩

/-- An entity is loaded as its tree says, once the entities in it are. -/
theorem refines_loadBy_succ (hg : g.WellFormed) {seek : Nat → ClassId → Value → Action Value}
    {fuel : Nat} (henter : ∀ cls raw, kind (.entity cls) raw →
      Session.Refines S (loadBy seek fuel cls raw) (Heap.Reads g) (g.loaded look fuel cls raw) F)
    (hseek : ∀ t e r raw cls, kind (.decoded (.reference t e r)) raw → e.truthy = true →
      g.resolve t = .ok cls → Session.Refines S (seek fuel cls (Checker.identifierIn raw))
        (Heap.Reads g) (Catalog.foundWith look (g.loaded look fuel) cls (Checker.identifierIn raw))
          F)
    {cls : ClassId} {raw : Value} (hraw : kind (.entity cls) raw) :
    Session.Refines S (loadBy seek (fuel + 1) cls raw) (Heap.Reads g)
      (g.loaded look (fuel + 1) cls raw) F := by
  have tree : ((g.built (max fuel raw.depth + 1) cls raw).bind fun _ => g.loadedWith
      (g.loaded look fuel) (Catalog.foundWith look (g.loaded look fuel)) cls raw) =
        g.loaded look (fuel + 1) cls raw := by
    cases hloaded : g.loaded look (fuel + 1) cls raw with
    | none =>
      have none : g.loadedWith (g.loaded look fuel)
        (Catalog.foundWith look (g.loaded look fuel)) cls raw = none := hloaded
      rw [none]
      exact Option.bind_fun_none _
    | some t =>
      -- what can be loaded can be constructed
      obtain ⟨t₀, ht₀⟩ := Catalog.exists_built_of_loaded hloaded
      rw [Catalog.built_mono (by omega) ht₀]
      exact hloaded
  rw [← tree]
  exact refines_loadBy_with tame lasting catalog hg _ _ henter hseek hraw (by omega)

/-- **Loading does what its tree says**, whatever the bound, if looking up does. -/
theorem refines_loadBy (hg : g.WellFormed) {seek : Nat → ClassId → Value → Action Value}
    (hseek : ∀ fuel, (∀ cls raw, kind (.entity cls) raw →
        Session.Refines S (loadBy seek fuel cls raw) (Heap.Reads g)
          (g.loaded look fuel cls raw) F) →
      ∀ t e r raw cls, kind (.decoded (.reference t e r)) raw → e.truthy = true →
        g.resolve t = .ok cls → Session.Refines S (seek fuel cls (Checker.identifierIn raw))
          (Heap.Reads g)
          (Catalog.foundWith look (g.loaded look fuel) cls (Checker.identifierIn raw)) F) :
    ∀ (fuel : Nat) (cls : ClassId) (raw : Value), kind (.entity cls) raw →
      Session.Refines S (loadBy seek fuel cls raw) (Heap.Reads g) (g.loaded look fuel cls raw) F
  | 0, _, _, _ => fun s _ => ⟨Session.Sequel.refl s, .inr ⟨⟨.endless, rfl⟩, rfl⟩⟩
  | fuel + 1, _, _, hraw =>
    have henter := refines_loadBy hg hseek fuel
    refines_loadBy_succ tame lasting catalog hg henter (hseek fuel henter) hraw

end

end Loading

end EntitySchema
