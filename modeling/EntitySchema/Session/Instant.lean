/-
**Instants of a session.**

Actions go on side by side, and what one of them has done by the time that another comes to its end
is seen by what follows.  Time is told by three marks.  The first counts the *rounds* of waiting for
a file.  The second counts the *ticks* of passing from action to action within a round; all actions
that can go on without a file do so before the next round.  The third is the *path* of the action
among those side by side, since within a tick they take their turns in order.

Main definitions:

* `Instant`, `Instant.before` — instants and their order;
* `Instant.branch`, `Instant.after`, `Instant.later` — instants that follow from others.

Main results:

* `Instant.not_before_self` — no instant is before itself;
* `Instant.eq_of_not_before` — **of two instants that differ one is before the other.**
-/

set_option autoImplicit false

namespace EntitySchema

/-- An instant of a session. -/
structure Instant where
  rounds : Nat
  tick : Nat
  path : List Nat
  deriving DecidableEq, Repr

namespace Instant

/-- The start of a session. -/
def start : Instant := ⟨0, 0, []⟩

/-- Whether an action comes before another in turn. -/
def pathBefore : List Nat → List Nat → Bool
  | _, [] => false
  | [], _ :: _ => true
  | a :: as, b :: bs => decide (a < b) || (decide (a = b) && pathBefore as bs)

/-- The order of instants: by rounds, then by ticks, then by turn. -/
def before (a b : Instant) : Bool :=
  decide (a.rounds < b.rounds) ||
    (decide (a.rounds = b.rounds) && (decide (a.tick < b.tick) ||
      (decide (a.tick = b.tick) && pathBefore a.path b.path)))

/-- The instant at which the `i`-th of several actions side by side starts. -/
def branch (a : Instant) (i : Nat) : Instant := ⟨a.rounds, a.tick + 1, a.path ++ [i]⟩

/-- The instant after some rounds. -/
def after (a : Instant) (rounds : Nat) : Instant := { a with rounds := a.rounds + rounds }

/-- The instant after two ticks: one to tell the end of an action and one to take note of it. -/
def told (a : Instant) : Instant := { a with tick := a.tick + 2 }

/-- The later of two instants. -/
def later (a b : Instant) : Instant := if a.before b then b else a

theorem not_pathBefore_self (p : List Nat) : pathBefore p p = false := by
  induction p with
  | nil => rfl
  | cons a p ih => simp [pathBefore, ih]

/-- No instant is before itself. -/
theorem not_before_self (a : Instant) : a.before a = false := by
  simp [before, not_pathBefore_self]

theorem eq_of_not_pathBefore {p q : List Nat} (hpq : pathBefore p q = false)
    (hqp : pathBefore q p = false) : p = q := by
  induction p generalizing q with
  | nil => cases q with
    | nil => rfl
    | cons b q => simp [pathBefore] at hpq
  | cons a p ih => cases q with
    | nil => simp [pathBefore] at hqp
    | cons b q =>
      simp only [pathBefore, Bool.or_eq_false_iff, decide_eq_false_iff_not] at hpq hqp
      obtain rfl : a = b := Nat.le_antisymm (Nat.le_of_not_lt hqp.1) (Nat.le_of_not_lt hpq.1)
      have rest : p = q := ih (by simpa using hpq.2) (by simpa using hqp.2)
      rw [rest]

/-- Of two instants that differ one is before the other. -/
theorem eq_of_not_before {a b : Instant} (hab : a.before b = false) (hba : b.before a = false) :
    a = b := by
  obtain ⟨r, t, p⟩ := a
  obtain ⟨s, u, q⟩ := b
  simp only [before, Bool.or_eq_false_iff, decide_eq_false_iff_not] at hab hba
  obtain rfl : r = s := Nat.le_antisymm (Nat.le_of_not_lt hba.1) (Nat.le_of_not_lt hab.1)
  simp only [decide_true, Bool.true_and, Bool.or_eq_false_iff, decide_eq_false_iff_not] at hab hba
  obtain rfl : t = u := Nat.le_antisymm (Nat.le_of_not_lt hba.2.1) (Nat.le_of_not_lt hab.2.1)
  have turn : p = q := eq_of_not_pathBefore (by simpa using hab.2.2) (by simpa using hba.2.2)
  rw [turn]

end Instant

end EntitySchema
