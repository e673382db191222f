/-
**Actions side by side.**

The elements of a container are decoded side by side: all of them start before any failure is told.
Each is run as a whole, in order, on a clock of its own; the clocks then tell what happened when.
If some of the actions fail, the failure that comes first in time is the outcome, and the session
goes on from there, while the other actions come to their ends behind its back.  If none fails, the
session goes on when the last has come to its end.

Main definitions:

* `Session.branch` — one of several actions, and when it ends;
* `Session.settle` — the outcome of several actions, and when it is known;
* `Session.gather` — actions side by side.

Main results:

* `Session.settle_ok` — **if every action has a result, the results are the outcome.**
-/

import EntitySchema.Session

set_option autoImplicit false

namespace EntitySchema

namespace Session

/-- Runs the `i`-th of several actions that start side by side at an instant: its outcome, and the
instant when it ends. -/
def branch {α : Type} (start : Instant) (i : Nat) (a : Action α) :
    Action (Except Failure α × Instant) := do
  modify fun s => { s with now := start.branch i }
  let outcome ← attempt a
  pure (outcome, (← get).now)

/-- The failure that comes first among outcomes, and when. -/
def firstFailure? {α : Type} : List (Except Failure α × Instant) → Option (Failure × Instant)
  | [] => none
  | (.ok _, _) :: outcomes => firstFailure? outcomes
  | (.error e, t) :: outcomes =>
    match firstFailure? outcomes with
    | some (f, u) => if u.before t then some (f, u) else some (e, t)
    | none => some (e, t)

/-- The instant when the last of several actions ends, which is told to the action that started
them. -/
def lastEnd {α : Type} (start : Instant) (outcomes : List (Except Failure α × Instant)) : Instant :=
  outcomes.foldl (fun t o => t.later { o.2 with path := start.path }) start

/-- The outcome of actions that started side by side: the failure that comes first, or all results;
and when it is known. -/
def settle {α : Type} (start : Instant) (outcomes : List (Except Failure α × Instant)) :
    Except Failure (List α) × Instant :=
  match firstFailure? outcomes with
  | some (e, t) => (.error e, t.told)
  | none => (outcomes.mapM fun o => o.1, (lastEnd start outcomes).told)

theorem firstFailure?_ok {α : Type} (results : List (α × Instant)) :
    firstFailure? (results.map fun r => ((.ok r.1 : Except Failure α), r.2)) = none := by
  induction results with
  | nil => rfl
  | cons r results ih => simpa [firstFailure?] using ih

/-- If every action has a result, the results are the outcome, in order. -/
theorem settle_ok {α : Type} (start : Instant) (results : List (α × Instant)) :
    (settle start (results.map fun r => (.ok r.1, r.2))).1 = .ok (results.map Prod.fst) := by
  have kept : ∀ rs : List (α × Instant),
      (rs.map fun r => ((.ok r.1 : Except Failure α), r.2)).mapM (fun o => o.1) =
        .ok (rs.map Prod.fst) := by
    intro rs
    induction rs with
    | nil => rfl
    | cons r rs ih =>
      rw [List.map_cons, List.mapM_cons, ih]
      rfl
  rw [settle, firstFailure?_ok]
  exact kept results

/-- Actions side by side: all of them start before any failure is told.  Where there are none, no
time passes. -/
def gather {α β : Type} (f : α → Action β) (xs : List α) : Action (List β) := do
  if xs.isEmpty then pure []
  else
    let start := (← get).now
    let outcomes ← xs.zipIdx.mapM fun x => branch start x.2 (f x.1)
    let (outcome, now) := settle start outcomes
    modify fun s => { s with now := now }
    ofExcept outcome

end Session

end EntitySchema
