/-
**Lookups side by side are lookups one after the other.**

An eager reference in nested containers looks up every leaf of its raw value.  The containers are
decoded side by side, at every level, each branch on a clock of its own; but all lookups are made,
in the order in which the leaves stand there, each at an instant not before the start and in the
session that the one before it has left.  If all of them have results, these in their containers are
the result; and if not, a failure of one of them is the outcome.

Main definitions:

* `Session.Attempts` — **actions one after the other, each at some instant**;
* `Session.Collects` — an action that makes attempts and puts their results in their places;
* `Session.Meanwhile` — what an action tells between two sessions.

Main results:

* `Session.Collects.gather` — actions side by side;
* `Checker.collects_loadWith` — **nested containers over an eager reference**;
* `Session.Attempts.meanwhile`, `Session.Attempts.congr` — attempts in sessions that are ahead.
-/

import EntitySchema.Proofs.NestedContainers
import EntitySchema.Proofs.SteadyLookups

set_option autoImplicit false

namespace EntitySchema

namespace Session

section

variable {α β γ δ : Type}

/-! ### Actions one after the other -/

/-- Actions one after the other, whatever they tell: each starts at some instant not before a given
one, where the one before it has left the session.  At the end the clock may be set to any
instant. -/
inductive Attempts (look : α → Action β) (start : Instant) :
    Session → List α → List (Except Failure β) → Session → Prop
  | nil (s : Session) (now : Instant) : Attempts look start s [] [] { s with now := now }
  | cons {s s' : Session} {now : Instant} {x : α} {xs : List α} {rs : List (Except Failure β)} :
      start.Precedes now →
      Attempts look start (outcome (look x) { s with now := now }).2 xs rs s' →
      Attempts look start s (x :: xs) ((outcome (look x) { s with now := now }).1 :: rs) s'

variable {look : α → Action β} {start : Instant} {s s' : Session} {xs : List α}
  {rs : List (Except Failure β)}

theorem Attempts.at_now (h : Attempts look start s xs rs s') (now : Instant) :
    Attempts look start s xs rs { s' with now := now } := by
  induction h with
  | nil s => exact .nil s now
  | cons hnow _ ih => exact .cons hnow ih

/-- What the clock shows before the first action does not matter. -/
theorem Attempts.of_now {now : Instant} (h : Attempts look start { s with now := now } xs rs s') :
    Attempts look start s xs rs s' := by
  cases h with
  | nil _ now' => exact .nil s now'
  | cons hnow rest => exact .cons hnow rest

theorem Attempts.of_start {start' : Instant} (hstart : start'.Precedes start)
    (h : Attempts look start s xs rs s') : Attempts look start' s xs rs s' := by
  induction h with
  | nil s now => exact .nil s now
  | cons hnow _ ih => exact .cons (hstart.trans hnow) ih

theorem Attempts.append {s₁ : Session} {ys : List α} {rs' : List (Except Failure β)}
    (h : Attempts look start s xs rs s₁) (h' : Attempts look start s₁ ys rs' s') :
    Attempts look start s (xs ++ ys) (rs ++ rs') s' := by
  induction h with
  | nil s now => exact h'.of_now
  | cons hnow _ ih => exact .cons hnow (ih h')

theorem Attempts.length_eq (h : Attempts look start s xs rs s') : rs.length = xs.length := by
  induction h with
  | nil => rfl
  | cons _ _ ih => exact congrArg (· + 1) ih

/-! ### Actions that put results in their places -/

/-- An action makes attempts one after the other.  If all have results, what is made of these is its
result; if not, its outcome is the failure of one of them. -/
def Collects (look : α → Action β) (xs : List α) (fill : List β → γ) (a : Action γ) : Prop :=
  ∀ s, ∃ rs, Attempts look s.now s xs rs (outcome a s).2 ∧
    ((∃ ys, rs = ys.map .ok ∧ (outcome a s).1 = .ok (fill ys)) ∨
      ∃ e, .error e ∈ rs ∧ (outcome a s).1 = .error e)

/-- An attempt is an attempt of itself. -/
theorem collects_self (look : α → Action β) (x : α) {fill : List β → β}
    (hfill : ∀ y, fill [y] = y) : Collects look [x] fill (look x) := by
  intro s
  refine ⟨[(outcome (look x) s).1], .cons (.refl s.now) (.nil _ _), ?_⟩
  cases h : (outcome (look x) s).1 with
  | ok y => exact .inl ⟨[y], rfl, by rw [hfill]⟩
  | error e => exact .inr ⟨e, List.mem_cons_self .., rfl⟩

theorem Collects.of_outcome {fill : List β → γ} {a b : Action γ} (hb : Collects look xs fill b)
    (hab : ∀ s, outcome a s = outcome b s) : Collects look xs fill a := by
  intro s
  rw [hab s]
  exact hb s

theorem Collects.map {fill : List β → γ} {a : Action γ} (ha : Collects look xs fill a) (k : γ → δ) :
    Collects look xs (fun ys => k (fill ys)) (a >>= fun z => pure (k z)) := by
  intro s
  obtain ⟨rs, attempts, told⟩ := ha s
  generalize hout : outcome a s = out at attempts told
  obtain ⟨result, s'⟩ := out
  refine ⟨rs, ?_⟩
  rcases told with ⟨ys, hrs, rfl⟩ | ⟨e, he, rfl⟩
  · rw [outcome_bind_ok hout, outcome_pure]
    exact ⟨attempts, .inl ⟨ys, hrs, rfl⟩⟩
  · rw [outcome_bind_error hout]
    exact ⟨attempts, .inr ⟨e, he, rfl⟩⟩

/-- Branches that make attempts make them one after the other.  If all attempts have results the
branches have; and a failure of a branch is that of an attempt. -/
theorem collects_branches {f : δ → Action γ} {parts : δ → List α} {fill : δ → List β → γ}
    (start : Instant) (ps : List (δ × Nat))
    (hf : ∀ p ∈ ps, Collects look (parts p.1) (fill p.1) (f p.1)) (s : Session) :
    ∃ outcomes s' rs, outcome (ps.mapM fun p => branch start p.2 (f p.1)) s = (.ok outcomes, s') ∧
      Attempts look start s ((ps.map Prod.fst).flatMap parts) rs s' ∧
      ((∃ (ys : List β) (results : List (γ × Instant)), rs = ys.map .ok ∧
          outcomes = results.map (fun r => (.ok r.1, r.2)) ∧
          results.map Prod.fst = deal (fun x => (parts x).length) fill (ps.map Prod.fst) ys) ∨
        ∃ o ∈ outcomes, ∃ e, o.1 = .error e) ∧
      ∀ o ∈ outcomes, ∀ e, o.1 = .error e → .error e ∈ rs := by
  induction ps generalizing s with
  | nil =>
    exact ⟨[], s, [], rfl, .nil s s.now, .inl ⟨[], [], rfl, rfl, rfl⟩, List.forall_mem_nil _⟩
  | cons p ps ih =>
    obtain ⟨hp, hps⟩ := List.forall_mem_cons.1 hf
    obtain ⟨rs, attempts, told⟩ := hp { s with now := start.branch p.2 }
    generalize hout : outcome (f p.1) { s with now := start.branch p.2 } = out at attempts told
    obtain ⟨result, s₁⟩ := out
    have first : Attempts look start s (parts p.1) rs s₁ :=
      (attempts.of_start (Instant.precedes_branch start p.2)).of_now
    obtain ⟨outcomes, s', rs', hrest, rest, verdict, failures⟩ := ih hps s₁
    refine ⟨(result, s₁.now) :: outcomes, s', rs ++ rs', ?_, ?_, ?_, ?_⟩
    · rw [List.mapM_cons, outcome_bind_ok (outcome_branch hout), outcome_bind_ok hrest]
      rfl
    · exact first.append rest
    · rcases told with ⟨ys, rfl, rfl⟩ | ⟨e, -, rfl⟩
      · rcases verdict with ⟨ys', results, rfl, rfl, hresults⟩ | ⟨o, ho, failed⟩
        · have size : ys.length = (parts p.1).length := by
            rw [← first.length_eq, List.length_map]
          refine .inl ⟨ys ++ ys', (fill p.1 ys, s₁.now) :: results, (List.map_append ..).symm, rfl,
            ?_⟩
          rw [List.map_cons, List.map_cons, hresults,
            deal_cons_append (fun x => (parts x).length) fill _ size]
        · exact .inr ⟨o, List.mem_cons_of_mem _ ho, failed⟩
      · exact .inr ⟨_, List.mem_cons_self .., e, rfl⟩
    · refine List.forall_mem_cons.2 ⟨?_, fun o ho e he => ?_⟩
      · intro e he
        rcases told with ⟨ys, -, rfl⟩ | ⟨e', he', rfl⟩
        · cases he
        · cases he
          exact List.mem_append_left _ he'
      · exact List.mem_append_right _ (failures o ho e he)

/-- **Actions side by side** that make attempts make all of them one after the other. -/
theorem Collects.gather {f : δ → Action γ} {parts : δ → List α} {fill : δ → List β → γ}
    {xs : List δ} (hf : ∀ x ∈ xs, Collects look (parts x) (fill x) (f x)) :
    Collects look (xs.flatMap parts) (deal (fun x => (parts x).length) fill xs) (gather f xs) := by
  intro s
  cases xs with
  | nil => exact ⟨[], .nil s s.now, .inl ⟨[], rfl, rfl⟩⟩
  | cons x xs =>
    obtain ⟨outcomes, s₁, rs, hrun, attempts, verdict, failures⟩ :=
      collects_branches s.now (x :: xs).zipIdx
        (fun p hp => hf p.1 (List.fst_mem_of_mem_zipIdx hp)) s
    rw [List.zipIdx_map_fst] at attempts verdict
    have run : outcome (Session.gather f (x :: xs)) s =
        ((settle s.now outcomes).1, { s₁ with now := (settle s.now outcomes).2 }) := by
      rw [Session.gather, List.isEmpty_cons, if_neg Bool.false_ne_true, outcome_get_bind,
        outcome_bind_ok hrun, outcome_modify_bind, outcome_ofExcept]
    rw [run]
    refine ⟨rs, attempts.at_now _, ?_⟩
    rcases verdict with ⟨ys, results, hrs, rfl, hresults⟩ | ⟨o, ho, e, he⟩
    · exact .inl ⟨ys, hrs, by rw [settle_ok, hresults]⟩
    · -- the outcome is the failure that comes first
      obtain ⟨e', t, hfirst⟩ := exists_firstFailure? ho he
      refine .inr ⟨e', failures _ (mem_of_firstFailure? hfirst) e' rfl, ?_⟩
      rw [settle, hfirst]

end

end Session

/-! ### Nested containers -/

/-- **Nested containers over an eager reference** look up the leaves one after the other, and put
what is found in containers of the same build. -/
theorem Checker.collects_loadWith (enter seek : ClassId → Value → Action Value) {t : Target}
    {e : Value} {r : Bool} (he : e.truthy = true) : (c : Checker) → c.base = .reference t e r →
    (raw : Value) → c.Nested raw → Session.Collects (fetchWith seek t) (c.leaves raw) (c.refill raw)
      (loadWith enter seek c raw)
  | .reference _ _ _, hc, raw, _ => by
    cases hc
    rw [loadWith, if_pos he]
    exact Session.collects_self (fetchWith seek t) raw fun _ => rfl
  | .arrayOf c r, hc, raw, nested => by
    obtain ⟨hitems, each⟩ := nested.items
    have items := Session.Collects.gather fun x hx =>
      collects_loadWith enter seek he c hc x (each x hx)
    refine (items.map Value.list).of_outcome fun s => ?_
    rw [loadWith, hitems, Session.outcome_ofExcept_ok_bind]
  | .dictOf c r, hc, raw, nested => by
    obtain ⟨hentries, each⟩ := nested.entries
    have values := Session.Collects.gather (f := fun p => loadWith enter seek c p.2) fun p hp =>
      collects_loadWith enter seek he c hc p.2 (each p hp)
    have entries := values.map fun zs => Value.dict (((raw.entries?.getD []).map Prod.fst).zip zs)
    simp only [zip_deal] at entries
    refine entries.of_outcome fun s => ?_
    rw [loadWith, Session.outcome_get_bind, hentries, Session.outcome_ofExcept_ok_bind]

/-! ### Attempts in sessions that are ahead -/

namespace Session

section

variable {α β : Type}

/-- What an action tells between two sessions: in one that is ahead of the first, and leaving one
from which the second goes on. -/
def Meanwhile (s s' : Session) (a : Action β) (r : Except Failure β) : Prop :=
  ∃ s₁, s.Ahead s₁ ∧ (outcome a s₁).1 = r ∧ (outcome a s₁).2.Grows s'

variable {look look' : α → Action β} {start : Instant} {s₀ s s' : Session} {xs : List α}
  {rs : List (Except Failure β)}

/-- Attempts by actions that only go ahead, starting ahead: each tells its outcome there. -/
theorem Attempts.meanwhile (hstart : s₀.now.Precedes start)
    (ahead : ∀ x ∈ xs, ∀ s, s₀.Ahead s → s.Ahead (outcome (look x) s).2)
    (hs : s₀.Ahead { s with now := s₀.now }) (h : Attempts look start s xs rs s') :
    List.Forall₂ (fun x r => s₀.Meanwhile s' (look x) r) xs rs ∧ s.Grows s' := by
  induction h with
  | nil s now => exact ⟨.nil, (Grows.refl s).at_now now⟩
  | @cons s s' now x xs rs hnow _ ih =>
    obtain ⟨here, rest⟩ := List.forall_mem_cons.1 ahead
    have started : s₀.Ahead { s with now := now } := (Sequel.at_now hs (hstart.trans hnow) :)
    have told := here _ started
    have left := Sequel.trans started told
    obtain ⟨tells, grows⟩ := ih rest (Sequel.at_now left (.refl _))
    exact ⟨.cons ⟨_, started, rfl, grows⟩ tells, (Grows.trans ⟨told.grows.heap, told.grows.catalog,
      told.grows.stores, told.grows.disk, told.grows.shared, told.grows.survey⟩ grows)⟩

/-- Attempts by actions that only go ahead, starting ahead, are attempts by all that run alike
there. -/
theorem Attempts.congr (hstart : s₀.now.Precedes start)
    (ahead : ∀ x ∈ xs, ∀ s, s₀.Ahead s → s.Ahead (outcome (look x) s).2)
    (same : ∀ x ∈ xs, ∀ s, s₀.Ahead s → outcome (look x) s = outcome (look' x) s)
    (hs : s₀.Ahead { s with now := s₀.now }) (h : Attempts look start s xs rs s') :
    Attempts look' start s xs rs s' := by
  induction h with
  | nil s now => exact .nil s now
  | @cons s s' now x xs rs hnow _ ih =>
    obtain ⟨here, rest⟩ := List.forall_mem_cons.1 ahead
    obtain ⟨alike, likewise⟩ := List.forall_mem_cons.1 same
    have started : s₀.Ahead { s with now := now } := (Sequel.at_now hs (hstart.trans hnow) :)
    have left := Sequel.trans started (here _ started)
    have further := ih rest likewise (Sequel.at_now left (.refl _))
    rw [alike _ started] at further ⊢
    exact .cons hnow further

end

end Session

end EntitySchema
