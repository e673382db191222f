/-
**Lookups in any order.**

The leaves that are looked up side by side may be looked up in any order, each at any time from the
start on, and what each lookup tells may reach the one that waits for it in any order too.  The
first failure that reaches it is the outcome; if none does, the results are, once all are there.

Where every lookup tells the same whenever it is made, the order does not matter: either each leaf
has a tree, and every order ends with results that read as these, or some leaf has none, and every
order ends with a failure.  One of the orders is that in which the library does it.

Main definitions:

* `Gathering` — leaves that are looked up side by side, and how far each is;
* `Gathering.Step` — a lookup is made, or what it tells arrives;
* `Gathering.Concludes` — **what is known in the end**;
* `Gathering.Faithful` — what a gathering of lookups keeps to that tell the same at any time.

Main results:

* `Gathering.Faithful.step`, `Gathering.Faithful.run` — one step and every run keep to it;
* `Gathering.Faithful.concludes` — **the outcome does not depend on the order**;
* `Gathering.Faithful.exists_concludes` — every run can be brought to its end;
* `Gathering.of_attempts` — lookups one after the other are one of the orders.
-/

import EntitySchema.Proofs.LeafLookups
import Mathlib.Algebra.GroupWithZero.Nat

set_option autoImplicit false

namespace EntitySchema

/-! ### Gatherings -/

/-- How far a leaf is that is looked up: it waits, its lookup was made, or what it told arrived. -/
inductive Gathering.Stage where
  | waiting
  | answered (r : Except Failure Value)
  | told (r : Except Failure Value)

/-- Leaves that are looked up side by side: the session, how far each leaf is, and the failure that
arrived first. -/
structure Gathering where
  session : Session
  leaves : List (Value × Gathering.Stage)
  failure? : Option Failure

namespace Gathering

/-- No lookup has been made. -/
def start (s : Session) (xs : List Value) : Gathering := ⟨s, xs.map (·, .waiting), none⟩

/-- The failure that an outcome is. -/
def failureOf? : Except Failure Value → Option Failure
  | .ok _ => none
  | .error e => some e

/-- What the lookup of a leaf told, if it was made. -/
def Stage.outcome? : Stage → Option (Except Failure Value)
  | .waiting => none
  | .answered r | .told r => some r

/-- What can happen next: some leaf that waits is looked up, at some instant not before the start;
or what the lookup of some leaf told arrives, and if it is the first failure to do so it is kept. -/
inductive Step (look : Value → Action Value) (begun : Instant) : Gathering → Gathering → Prop
  | ask {s : Session} {before after : List (Value × Stage)} {x : Value} {failure? : Option Failure}
      {now : Instant} : begun.Precedes now →
      Step look begun ⟨s, before ++ (x, .waiting) :: after, failure?⟩
        ⟨(Session.outcome (look x) { s with now := now }).2, before ++
          (x, .answered (Session.outcome (look x) { s with now := now }).1) :: after, failure?⟩
  | tell {s : Session} {before after : List (Value × Stage)} {x : Value} {failure? : Option Failure}
      {r : Except Failure Value} :
      Step look begun ⟨s, before ++ (x, .answered r) :: after, failure?⟩
        ⟨s, before ++ (x, .told r) :: after, failure?.or (failureOf? r)⟩

/-- What is known in the end: the failure that arrived first, or, if everything arrived and no
failure did, the results. -/
inductive Concludes (p : Gathering) : Except Failure (List Value) → Prop
  | failed {e : Failure} : p.failure? = some e → Concludes p (.error e)
  | gathered {ys : List Value} : p.failure? = none →
      p.leaves.map Prod.snd = ys.map (fun y => .told (.ok y)) → Concludes p (.ok ys)

/-! ### Lookups that tell the same at any time -/

/-- A gathering of lookups, started in a session, whose leaves have trees or none: the session is
ahead; what was told reads as the tree of its leaf, or is a failure where the leaf has none; and a
failure is kept as soon as one arrives. -/
structure Faithful (s : Session) (xs : List Value) (o : Value → Option Tree) (p : Gathering) :
    Prop where
  ahead : s.Ahead p.session
  payloads : p.leaves.map Prod.fst = xs
  outcomes : ∀ l ∈ p.leaves, ∀ r, l.2.outcome? = some r →
    Session.Told (Heap.Reads s.catalog p.session.heap) r (o l.1)
  failed : ∀ e, p.failure? = some e → ∃ x ∈ xs, o x = none
  unfailed : p.failure? = none → ∀ l ∈ p.leaves, ∀ r, l.2 = .told r → failureOf? r = none

variable {s : Session} {xs : List Value} {o : Value → Option Tree} {look : Value → Action Value}
  {begun : Instant} {p q : Gathering}

theorem faithful_start (s : Session) (xs : List Value) (o : Value → Option Tree) :
    Faithful s xs o (start s xs) where
  ahead := Session.Sequel.refl s
  payloads := by rw [start, List.map_map, Function.comp_def, List.map_id']
  outcomes l hl r hr := by
    obtain ⟨x, -, rfl⟩ := List.mem_map.1 hl
    cases hr
  failed e he := by cases he
  unfailed _ l hl r hr := by
    obtain ⟨x, -, rfl⟩ := List.mem_map.1 hl
    cases hr

/-- Where one leaf has got further, the others are where they were. -/
theorem mem_cases {before after : List (Value × Stage)} {l l' l'' : Value × Stage}
    (h : l ∈ before ++ l' :: after) : l = l' ∨ l ∈ before ++ l'' :: after := by
  rcases List.mem_append.1 h with h | h
  · exact .inr (List.mem_append_left _ h)
  · exact (List.mem_cons.1 h).imp id fun h => List.mem_append_right _ (List.mem_cons_of_mem _ h)

/-- A failure was told where there is no tree. -/
theorem eq_none_of_told {R : Value → Tree → Prop} {r : Except Failure Value} {e : Failure}
    {t : Option Tree} (told : Session.Told R r t) (he : failureOf? r = some e) : t = none := by
  rcases told with ⟨y, u, rfl, -, -⟩ | ⟨-, none⟩
  · cases he
  · exact none

/-- **One step keeps to it.** -/
theorem Faithful.step (begins : s.now.Precedes begun)
    (steady : ∀ x ∈ xs, Session.Refines s.Ahead (look x) (Heap.Reads s.catalog) (o x) Session.Ahead)
    (faithful : Faithful s xs o p) (hstep : Step look begun p q) : Faithful s xs o q := by
  obtain ⟨ahead, payloads, outcomes, failed, unfailed⟩ := faithful
  cases hstep with
  | @ask s' before after x failure? now hnow =>
    have hx : x ∈ xs := by
      rw [← payloads]
      simp
    -- whenever the lookup is made, it is made ahead of the beginning
    have started : s.Ahead { s' with now := now } :=
      (Session.Sequel.at_now ahead (begins.trans hnow) :)
    obtain ⟨onward, told⟩ := steady x hx _ started
    refine ⟨Session.Sequel.trans started onward, by simpa using payloads, ?_, failed, ?_⟩
    · intro l hl r hr
      rcases mem_cases hl with rfl | hl
      · cases hr
        exact told.mono fun y t reads => reads.mono (Heap.only_within_self _ _)
      · exact (outcomes l hl r hr).mono fun y t reads => reads.mono (.of_extended onward.grows.heap)
    · intro none l hl r hr
      rcases mem_cases hl with rfl | hl
      · cases hr
      · exact unfailed none l hl r hr
  | @tell s' before after x failure? r =>
    have here : (x, Stage.answered r) ∈ before ++ (x, .answered r) :: after := by simp
    have told := outcomes _ here r rfl
    have hx : x ∈ xs := by
      rw [← payloads]
      simp
    refine ⟨ahead, by simpa using payloads, ?_, ?_, ?_⟩
    · intro l hl r' hr
      rcases mem_cases hl with rfl | hl
      · cases hr
        exact told
      · exact outcomes l hl r' hr
    · intro e he
      rcases Option.or_eq_some_iff.1 he with he | ⟨-, he⟩
      · exact failed e he
      · exact ⟨x, hx, eq_none_of_told told he⟩
    · intro none l hl r' hr
      obtain ⟨none, none'⟩ := Option.or_eq_none_iff.1 none
      rcases mem_cases hl with rfl | hl
      · cases hr
        exact none'
      · exact unfailed none l hl r' hr

/-- Every run keeps to it. -/
theorem Faithful.run (begins : s.now.Precedes begun)
    (steady : ∀ x ∈ xs, Session.Refines s.Ahead (look x) (Heap.Reads s.catalog) (o x) Session.Ahead)
    (faithful : Faithful s xs o p) (run : Relation.ReflTransGen (Step look begun) p q) :
    Faithful s xs o q := by
  induction run with
  | refl => exact faithful
  | tail _ hstep ih => exact ih.step begins steady hstep

/-- Leaves whose results arrived. -/
theorem forall₂_of_arrived {P : Value → Value → Prop} {ls : List (Value × Stage)} {ys : List Value}
    (arrived : ls.map Prod.snd = ys.map fun y => .told (.ok y))
    (hP : ∀ l ∈ ls, ∀ y, l.2 = .told (.ok y) → P l.1 y) : List.Forall₂ P (ls.map Prod.fst) ys := by
  induction ls generalizing ys with
  | nil =>
    cases ys with
    | nil => exact .nil
    | cons y ys => cases arrived
  | cons l ls ih =>
    cases ys with
    | nil => cases arrived
    | cons y ys =>
      obtain ⟨here, rest⟩ := List.cons.inj arrived
      obtain ⟨hl, hls⟩ := List.forall_mem_cons.1 hP
      exact .cons (hl y here) (ih rest hls)

/-- **The outcome does not depend on the order**: where each leaf has a tree the results read as the
trees, and where some leaf has none a failure is the outcome. -/
theorem Faithful.concludes (faithful : Faithful s xs o p) {r : Except Failure (List Value)}
    (concludes : p.Concludes r) :
    (∃ ys, r = .ok ys ∧ List.Forall₂ (fun x y => ∃ t, o x = some t ∧
        Heap.Reads s.catalog p.session.heap y t) xs ys) ∨
      (∃ e, r = .error e) ∧ ∃ x ∈ xs, o x = none := by
  cases concludes with
  | @failed e he => exact .inr ⟨⟨e, rfl⟩, faithful.failed e he⟩
  | @gathered ys none arrived =>
    refine .inl ⟨ys, rfl, ?_⟩
    rw [← faithful.payloads]
    refine forall₂_of_arrived arrived fun l hl y hy => ?_
    have outcome : l.2.outcome? = some (.ok y) := by
      rw [hy]
      rfl
    rcases faithful.outcomes l hl _ outcome with ⟨_, t, same, ht, reads⟩ | ⟨⟨e, he⟩, -⟩
    · cases same
      exact ⟨t, ht, reads⟩
    · cases he

/-! ### Every run comes to an end -/

/-- How much is still to happen to a leaf. -/
def Stage.weight : Stage → Nat
  | .waiting => 2
  | .answered _ => 1
  | .told _ => 0

/-- How much is still to happen. -/
def weight (p : Gathering) : Nat := (p.leaves.map fun l => l.2.weight).sum

/-- A step leaves less to happen. -/
theorem Step.weight_lt (h : Step look begun p q) : q.weight < p.weight := by
  cases h <;> simp [weight, Stage.weight]

/-- Where nothing happens any more all that was told has arrived. -/
theorem exists_step_or_told (look : Value → Action Value) (begun : Instant) (p : Gathering) :
    (∃ q, Step look begun p q) ∨ ∀ l ∈ p.leaves, ∃ r, l.2 = .told r := by
  by_cases arrived : ∀ l ∈ p.leaves, ∃ r, l.2 = .told r
  · exact .inr arrived
  · simp only [not_forall] at arrived
    obtain ⟨⟨x, stage⟩, hl, further⟩ := arrived
    obtain ⟨s, leaves, failure?⟩ := p
    obtain ⟨before, after, rfl⟩ := List.append_of_mem hl
    cases stage with
    | waiting => exact .inl ⟨_, .ask (.refl begun)⟩
    | answered r => exact .inl ⟨_, .tell⟩
    | told r => exact absurd ⟨r, rfl⟩ further

/-- Where everything has arrived and no failure has, the results are the outcome. -/
theorem exists_results {ls : List (Value × Stage)}
    (arrived : ∀ l ∈ ls, ∃ r, l.2 = .told r)
    (unfailed : ∀ l ∈ ls, ∀ r, l.2 = .told r → failureOf? r = none) :
    ∃ ys : List Value, ls.map Prod.snd = ys.map fun y => .told (.ok y) := by
  induction ls with
  | nil => exact ⟨[], rfl⟩
  | cons l ls ih =>
    obtain ⟨⟨r, hr⟩, arrived⟩ := List.forall_mem_cons.1 arrived
    obtain ⟨here, unfailed⟩ := List.forall_mem_cons.1 unfailed
    obtain ⟨ys, hys⟩ := ih arrived unfailed
    have none := here r hr
    cases r with
    | ok y => exact ⟨y :: ys, by rw [List.map_cons, hr, hys, List.map_cons]⟩
    | error e => cases none

/-- Every run can be brought to its end. -/
theorem Faithful.exists_concludes (begins : s.now.Precedes begun)
    (steady : ∀ x ∈ xs, Session.Refines s.Ahead (look x) (Heap.Reads s.catalog) (o x) Session.Ahead)
    (faithful : Faithful s xs o p) :
    ∃ q r, Relation.ReflTransGen (Step look begun) p q ∧ q.Concludes r := by
  induction hw : p.weight using Nat.strong_induction_on generalizing p with
  | _ w ih =>
    subst hw
    rcases exists_step_or_told look begun p with ⟨p', hstep⟩ | arrived
    · obtain ⟨q, r, run, concludes⟩ := ih _ hstep.weight_lt (faithful.step begins steady hstep) rfl
      exact ⟨q, r, .head hstep run, concludes⟩
    · refine ⟨p, ?_⟩
      cases none : p.failure? with
      | some e => exact ⟨_, .refl, .failed none⟩
      | none =>
        obtain ⟨ys, hys⟩ := exists_results arrived (faithful.unfailed none)
        exact ⟨_, .refl, .gathered none hys⟩

/-! ### One after the other -/

/-- Attempts one after the other make all lookups. -/
theorem exists_answered {s' : Session} {rs : List (Except Failure Value)}
    (h : Session.Attempts look begun s xs rs s') (before : List (Value × Stage)) :
    ∃ now, Relation.ReflTransGen (Step look begun)
      ⟨s, before ++ xs.map (·, .waiting), none⟩
      ⟨{ s' with now := now }, before ++ (xs.zip rs).map (fun l => (l.1, .answered l.2)),
        none⟩ := by
  induction h generalizing before with
  | nil s now => exact ⟨s.now, .refl⟩
  | @cons s s' now x xs rs hnow _ ih =>
    obtain ⟨now', run⟩ := ih (before ++ [(x, .answered
      (Session.outcome (look x) { s with now := now }).1)])
    simp only [List.append_assoc, List.cons_append, List.nil_append] at run
    exact ⟨now', .head (.ask hnow) run⟩

/-- What was told arrives, one after the other. -/
theorem tell_results (look : Value → Action Value) (begun : Instant) (s : Session)
    (before : List (Value × Stage)) (xs ys : List Value) :
    Relation.ReflTransGen (Step look begun)
      ⟨s, before ++ (xs.zip (ys.map .ok)).map (fun l => (l.1, .answered l.2)), none⟩
      ⟨s, before ++ (xs.zip (ys.map .ok)).map (fun l => (l.1, .told l.2)), none⟩ := by
  induction xs generalizing before ys with
  | nil => exact .refl
  | cons x xs ih =>
    cases ys with
    | nil => exact .refl
    | cons y ys =>
      have run := ih (before ++ [(x, .told (.ok y))]) ys
      simp only [List.append_assoc, List.cons_append, List.nil_append] at run
      exact .head .tell run

/-- **Lookups one after the other are one of the orders**: all are made, and then what they told
arrives, a failure first if there is one. -/
theorem of_attempts {s' : Session} {rs : List (Except Failure Value)}
    (h : Session.Attempts look begun s xs rs s') {r : Except Failure (List Value)}
    (hr : (∃ ys, rs = ys.map .ok ∧ r = .ok ys) ∨ ∃ e, .error e ∈ rs ∧ r = .error e) :
    ∃ q now, Relation.ReflTransGen (Step look begun) (start s xs) q ∧ q.Concludes r ∧
      q.session = { s' with now := now } := by
  obtain ⟨now, asked⟩ := exists_answered h []
  rcases hr with ⟨ys, rfl, rfl⟩ | ⟨e, he, rfl⟩
  · have arrived := tell_results look begun { s' with now := now } [] xs ys
    refine ⟨_, now, asked.trans arrived, .gathered rfl ?_, rfl⟩
    have size : (ys.map .ok : List (Except Failure Value)).length ≤ xs.length := h.length_eq.le
    calc ((xs.zip (ys.map .ok)).map (fun l => (l.1, Stage.told l.2))).map Prod.snd
        = ((xs.zip (ys.map .ok)).map Prod.snd).map Stage.told := by simp only [List.map_map]; rfl
      _ = (ys.map .ok).map Stage.told := by rw [List.map_snd_zip size]
      _ = ys.map fun y => .told (.ok y) := List.map_map ..
  · obtain ⟨x, hx⟩ := exists_mem_zip_of_mem_right h.length_eq.symm he
    obtain ⟨before, after, split⟩ := List.append_of_mem
      (List.mem_map_of_mem (f := fun l => (l.1, Stage.answered l.2)) hx)
    rw [List.nil_append, split] at asked
    exact ⟨_, now, asked.tail .tell, .failed rfl, rfl⟩

end Gathering

end EntitySchema
