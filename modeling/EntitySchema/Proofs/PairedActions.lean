/-
**Actions in two runs.**

Two runs of an action keep pace if they have results that are related, or fail alike, and end in
sessions that go together again, with cells added to both heaps.  Where failures may differ, nothing
is said of the second run once the first has failed; so when actions run side by side, of which one
fails in the first run, the others need not be followed in the second.

Main definitions:

* `Pairing.Paced` — sessions of the two runs;
* `Pairing.Concur` — **runs that keep pace**;
* `Pairing.Pacing` — what clocks and heaps of sessions that go together have to do with each other.

Main results:

* `Pairing.Concur.bind`, `Pairing.concur_build` — steps of actions;
* `Pairing.concur_gather` — **actions side by side.**
-/

import EntitySchema.Proofs.AgreeingActions
import EntitySchema.Proofs.PairedBuilding
import EntitySchema.Proofs.PairedCopying

set_option autoImplicit false

namespace EntitySchema

/-- Lists member by member: what is related to each of the first, in two ways. -/
inductive Forall₃ {α β γ : Type} (R : α → β → γ → Prop) : List α → List β → List γ → Prop
  | nil : Forall₃ R [] [] []
  | cons {x : α} {y : β} {z : γ} {xs : List α} {ys : List β} {zs : List γ} : R x y z →
      Forall₃ R xs ys zs → Forall₃ R (x :: xs) (y :: ys) (z :: zs)

namespace Forall₃

variable {α β γ : Type} {R : α → β → γ → Prop} {xs : List α} {ys : List β} {zs : List γ}

theorem left {S : α → β → Prop} (all : Forall₃ R xs ys zs) (h : ∀ x y z, R x y z → S x y) :
    List.Forall₂ S xs ys := by
  induction all with
  | nil => exact .nil
  | cons hR _ ih => exact .cons (h _ _ _ hR) ih

theorem right {S : β → γ → Prop} (all : Forall₃ R xs ys zs) (h : ∀ x y z, R x y z → S y z) :
    List.Forall₂ S ys zs := by
  induction all with
  | nil => exact .nil
  | cons hR _ ih => exact .cons (h _ _ _ hR) ih

end Forall₃

namespace Pairing

open Session

/-! ### Sessions of two runs -/

/-- Sessions of the two runs: they go together, their heaps fit, and all that the runs may be given
is there in both. -/
structure Paced (L : Pairing) (underway : Address → Prop) (s s' : Session) : Prop where
  catalog : s.catalog = L.catalog
  catalog' : s'.catalog = L.catalog
  fit : L.Fit underway s.heap s'.heap
  together : L.together s s'
  given : ∀ v, L.given v → L.Given underway s.heap s'.heap v

/-- A session that comes after another: cells were added, and the clock went on. -/
structure Later (L : Pairing) (s s₁ : Session) : Prop where
  heap : s.heap <+: s₁.heap
  now : L.passes s.now s₁.now

/-- What clocks and heaps of sessions that go together have to do with each other: sessions of runs
that fail alike differ in nothing but objects; and sessions that go together do so whatever their
objects and however their clocks go on, as long as they go on alike if failures are to be alike. -/
structure Pacing (L : Pairing) : Prop where
  rigid : L.strict → L.shift = 0
  alike : ∀ s s', L.strict → L.together s s' → s' = s.withHeap s'.heap
  heaps : ∀ s s' k k', L.together s s' → L.together (s.withHeap k) (s'.withHeap k')
  precedes : ∀ t u : Instant, t.Precedes u → L.passes t u
  trans : ∀ t u w, L.passes t u → L.passes u w → L.passes t w
  clock : ∀ s₀ s₀' s s' now now', L.together s₀ s₀' → L.together s s' → L.passes s₀.now now →
    L.passes s₀'.now now' → (L.strict → now' = now) →
      L.together { s with now := now } { s' with now := now' }

variable {L : Pairing} {U U' : Address → Prop} {s s' s₁ s₁' s₂ : Session}

namespace Paced

variable (paced : L.Paced U s s')

include paced

/-- Heaps may grow, with what was added under way. -/
theorem grow (pacing : L.Pacing) {k k' : Heap} (grown : s.heap <+: k) (grown' : s'.heap <+: k')
    (fit : L.Fit U' k k') (begun : ∀ a : Nat, a < List.length s.heap → U' a → U a) :
    L.Paced U' (s.withHeap k) (s'.withHeap k') where
  catalog := paced.catalog
  catalog' := paced.catalog'
  fit := fit
  together := pacing.heaps _ _ _ _ paced.together
  given v hv := (paced.given v hv).grow paced.fit grown grown' begun

/-- Less may be under way. -/
theorem weaken (fewer : ∀ a : Nat, U' a → U a) : L.Paced U' s s' where
  catalog := paced.catalog
  catalog' := paced.catalog'
  fit := ⟨paced.fit.size, paced.fit.started, fun a ha => paced.fit.bounded a (fewer a ha)⟩
  together := paced.together
  given v hv := (paced.given v hv).grow paced.fit List.prefix_rfl List.prefix_rfl
    fun a _ => fewer a

/-- The sessions may go on in other ways. -/
theorem change (catalog : s₁.catalog = s.catalog) (catalog' : s₁'.catalog = s'.catalog)
    (heap : s₁.heap = s.heap) (heap' : s₁'.heap = s'.heap) (together : L.together s₁ s₁') :
    L.Paced U s₁ s₁' where
  catalog := catalog.trans paced.catalog
  catalog' := catalog'.trans paced.catalog'
  fit := by
    rw [heap, heap']
    exact paced.fit
  together := together
  given v hv := by
    rw [heap, heap']
    exact paced.given v hv

end Paced

theorem Pacing.refl (pacing : L.Pacing) (s : Session) : L.Later s s :=
  ⟨List.prefix_rfl, pacing.precedes _ _ (.refl _)⟩

theorem Pacing.later_trans (pacing : L.Pacing) (h : L.Later s s₁) (h' : L.Later s₁ s₂) :
    L.Later s s₂ :=
  ⟨h.heap.trans h'.heap, pacing.trans _ _ _ h.now h'.now⟩

/-! ### Runs that keep pace -/

section

variable {α β α' β' : Type} {R : Heap → Heap → α → α' → Prop} {S : Heap → Heap → β → β' → Prop}

/-- Runs that keep pace from two sessions on: they have results that are related, or fail alike, and
end in sessions of the two runs again; or the first fails where failures may differ. -/
inductive Concur (L : Pairing) (underway : Address → Prop) (R : Heap → Heap → α → α' → Prop)
    (s s' : Session) : Except Failure α × Session → Except Failure α' × Session → Prop
  | ok {x : α} {x' : α'} {s₁ s₁' : Session} : L.Later s s₁ → L.Later s' s₁' →
      L.Paced underway s₁ s₁' → R s₁.heap s₁'.heap x x' →
      Concur L underway R s s' (.ok x, s₁) (.ok x', s₁')
  | error {e : Failure} {s₁ s₁' : Session} : L.strict → L.Later s s₁ → L.Later s' s₁' →
      L.Paced underway s₁ s₁' → Concur L underway R s s' (.error e, s₁) (.error e, s₁')
  | lax {e : Failure} {s₁ : Session} {r' : Except Failure α' × Session} : ¬ L.strict →
      Concur L underway R s s' (.error e, s₁) r'

namespace Concur

theorem imp {R' : Heap → Heap → α → α' → Prop} {r : Except Failure α × Session}
    {r' : Except Failure α' × Session} (h : L.Concur U R s s' r r')
    (hR : ∀ k k' x x', L.Fit U k k' → R k k' x x' → R' k k' x x') : L.Concur U R' s s' r r' := by
  cases h with
  | ok later later' paced hx => exact .ok later later' paced (hR _ _ _ _ paced.fit hx)
  | error strict later later' paced => exact .error strict later later' paced
  | lax lax => exact .lax lax

/-- Where failures are to be alike, the runs end in sessions of the two runs at any rate. -/
theorem paced (strict : L.strict) {r : Except Failure α × Session}
    {r' : Except Failure α' × Session}
    (h : L.Concur U R s s' r r') : L.Paced U r.2 r'.2 := by
  cases h with
  | ok _ _ paced _ => exact paced
  | error _ _ _ paced => exact paced
  | lax lax => exact absurd strict lax

/-- Runs that keep pace after earlier ones. -/
theorem after (pacing : L.Pacing) (later : L.Later s s₁) (later' : L.Later s' s₁')
    {r : Except Failure α × Session} {r' : Except Failure α' × Session}
    (h : L.Concur U R s₁ s₁' r r') : L.Concur U R s s' r r' := by
  cases h with
  | ok more more' paced hx =>
    exact .ok (pacing.later_trans later more) (pacing.later_trans later' more') paced hx
  | error strict more more' paced =>
    exact .error strict (pacing.later_trans later more) (pacing.later_trans later' more') paced
  | lax lax => exact .lax lax

/-- Runs that keep pace with less under way. -/
theorem weaken (fewer : ∀ a : Nat, U' a → U a) {r : Except Failure α × Session}
    {r' : Except Failure α' × Session} (h : L.Concur U R s s' r r') : L.Concur U' R s s' r r' := by
  cases h with
  | ok later later' paced hx => exact .ok later later' (paced.weaken fewer) hx
  | error strict later later' paced => exact .error strict later later' (paced.weaken fewer)
  | lax lax => exact .lax lax

/-- One action after another, seen from earlier sessions. -/
theorem next (pacing : L.Pacing) (later : L.Later s s₁) (later' : L.Later s' s₁') {a : Action α}
    {a' : Action α'} {f : α → Action β} {f' : α' → Action β'}
    (ha : L.Concur U R s₁ s₁' (outcome a s₁) (outcome a' s₁'))
    (hf : ∀ x x' s₂ s₂', L.Later s₁ s₂ → L.Later s₁' s₂' → L.Paced U s₂ s₂' →
      R s₂.heap s₂'.heap x x' → L.Concur U S s s' (outcome (f x) s₂) (outcome (f' x') s₂')) :
    L.Concur U S s s' (outcome (a >>= f) s₁) (outcome (a' >>= f') s₁') := by
  rw [outcome_bind, outcome_bind]
  generalize outcome a s₁ = r at ha
  generalize outcome a' s₁' = r' at ha
  cases ha with
  | ok more more' paced hx => exact hf _ _ _ _ more more' paced hx
  | error strict more more' paced =>
    exact .error strict (pacing.later_trans later more) (pacing.later_trans later' more') paced
  | lax lax => exact .lax lax

/-- One action after another. -/
theorem bind (pacing : L.Pacing) {a : Action α} {a' : Action α'} {f : α → Action β}
    {f' : α' → Action β'} (ha : L.Concur U R s s' (outcome a s) (outcome a' s'))
    (hf : ∀ x x' s₁ s₁', L.Later s s₁ → L.Later s' s₁' → L.Paced U s₁ s₁' →
      R s₁.heap s₁'.heap x x' → L.Concur U S s₁ s₁' (outcome (f x) s₁) (outcome (f' x') s₁')) :
    L.Concur U S s s' (outcome (a >>= f) s) (outcome (a' >>= f') s') :=
  ha.next pacing (pacing.refl s) (pacing.refl s') fun x x' s₁ s₁' later later' paced hx =>
    (hf x x' s₁ s₁' later later' paced hx).after pacing later later'

/-- What is made of the results of two runs. -/
theorem map {a : Action α} {a' : Action α'} (ha : L.Concur U R s s' (outcome a s₁) (outcome a' s₁'))
    {f : α → β} {f' : α' → β'}
    (hf : ∀ k k' x x', L.Fit U k k' → R k k' x x' → S k k' (f x) (f' x')) :
    L.Concur U S s s' (outcome (a >>= fun x => pure (f x)) s₁)
      (outcome (a' >>= fun x => pure (f' x)) s₁') := by
  rw [outcome_bind, outcome_bind]
  generalize outcome a s₁ = r at ha
  generalize outcome a' s₁' = r' at ha
  cases ha with
  | ok later later' paced hx => exact .ok later later' paced (hf _ _ _ _ paced.fit hx)
  | error strict later later' paced => exact .error strict later later' paced
  | lax lax => exact .lax lax

end Concur

theorem concur_pure (pacing : L.Pacing) (paced : L.Paced U s s') {x : α} {x' : α'}
    (hR : R s.heap s'.heap x x') :
    L.Concur U R s s' (outcome (pure x) s) (outcome (pure x') s') :=
  .ok (pacing.refl s) (pacing.refl s') paced hR

/-- Both runs fail alike, or the first fails where failures may differ. -/
theorem concur_throw (pacing : L.Pacing) (paced : L.Paced U s s') (e : Failure) :
    L.Concur U R s s' (outcome (throw e : Action α) s) (outcome (throw e : Action α') s') := by
  by_cases strict : L.strict
  · exact .error strict (pacing.refl s) (pacing.refl s') paced
  · exact .lax strict

/-- What does not depend on the session is done first. -/
theorem concur_ofExcept_bind (pacing : L.Pacing) (paced : L.Paced U s s') {γ γ' : Type}
    {e : Except Failure γ} {e' : Except Failure γ'} {f : γ → Action α} {f' : γ' → Action α'}
    (h : (∃ x x', e = .ok x ∧ e' = .ok x' ∧
        L.Concur U R s s' (outcome (f x) s) (outcome (f' x') s')) ∨
      ∃ failure, e = .error failure ∧ (L.strict → e' = .error failure)) :
    L.Concur U R s s' (outcome (Session.ofExcept e >>= f) s)
      (outcome (Session.ofExcept e' >>= f') s') := by
  rcases h with ⟨x, x', rfl, rfl, h⟩ | ⟨failure, rfl, same⟩
  · exact h
  · by_cases strict : L.strict
    · rw [same strict]
      exact concur_throw pacing paced failure
    · exact .lax strict

/-- Constructions that go abreast. -/
theorem concur_build (pacing : L.Pacing) (paced : L.Paced U s s') {b : Build α} {b' : Build α'}
    (abreast : L.Abreast U R b b' s.heap s'.heap) :
    L.Concur U R s s' (outcome (build b) s) (outcome (build b') s') := by
  rcases abreast with ⟨e, he, he'⟩ | ⟨x, k, x', k', hx, hx', grown, grown', fit, hR⟩
  · rw [outcome_build_error he]
    by_cases strict : L.strict
    · rw [outcome_build_error (he' strict)]
      exact .error strict (pacing.refl s) (pacing.refl s') paced
    · exact .lax strict
  · rw [outcome_build_ok hx, outcome_build_ok hx']
    exact .ok ⟨grown, pacing.precedes _ _ (.refl _)⟩ ⟨grown', pacing.precedes _ _ (.refl _)⟩
      (paced.grow pacing grown grown' fit fun _ _ => id) hR

/-! ### Actions side by side -/

/-- The outcome of an action, in both runs: results that are related or the same failure, at the
same instant if failures are to be alike. -/
structure Ended (L : Pairing) (R : Heap → Heap → α → α' → Prop) (t t' : Instant) (h h' : Heap)
    (o : Except Failure α × Instant) (o' : Except Failure α' × Instant) : Prop where
  passes : L.passes t o.2
  passes' : L.passes t' o'.2
  instant : L.strict → o'.2 = o.2
  result : (∃ x x', o.1 = .ok x ∧ o'.1 = .ok x' ∧ R h h' x x') ∨
    L.strict ∧ ∃ e, o.1 = .error e ∧ o'.1 = .error e

variable {γ γ' : Type} {Q : γ → Heap → Heap → α → α' → Prop} {t t' : Instant} {h h' : Heap}
  {xs : List γ} {os : List (Except Failure α × Instant)}
  {os' : List (Except Failure α' × Instant)}

theorem passes_of_ended (ended : Forall₃ (fun x => L.Ended (Q x) t t' h h') xs os os') :
    ∀ o ∈ os, L.passes t o.2 := by
  induction ended with
  | nil => exact List.forall_mem_nil _
  | cons h _ ih => exact List.forall_mem_cons.2 ⟨h.passes, ih⟩

/-- Where failures are to be alike, the same failure comes first. -/
theorem firstFailure?_of_ended (strict : L.strict)
    (ended : Forall₃ (fun x => L.Ended (Q x) t t' h h') xs os os') :
    firstFailure? os' = firstFailure? os := by
  induction ended with
  | nil => rfl
  | @cons x o o' xs os os' h _ ih =>
    obtain ⟨r, u⟩ := o
    obtain ⟨r', u'⟩ := o'
    obtain rfl : u' = u := h.instant strict
    rcases h.result with ⟨x, x', hx, hx', -⟩ | ⟨-, e, he, he'⟩
    · obtain rfl : r = .ok x := hx
      obtain rfl : r' = .ok x' := hx'
      exact ih
    · obtain rfl : r = .error e := he
      obtain rfl : r' = .error e := he'
      rw [firstFailure?, firstFailure?, ih]

/-- Where no action fails, all have results that are related. -/
theorem results_of_ended (ended : Forall₃ (fun x => L.Ended (Q x) t t' h h') xs os os')
    (none : ∀ o ∈ os, ∀ e, o.1 ≠ .error e) :
    ∃ (rs : List (α × Instant)) (rs' : List (α' × Instant)),
      os = rs.map (fun r => (.ok r.1, r.2)) ∧ os' = rs'.map (fun r => (.ok r.1, r.2)) ∧
      Forall₃ (fun x => Q x h h') xs (rs.map Prod.fst) (rs'.map Prod.fst) ∧
      (L.strict → rs'.map Prod.snd = rs.map Prod.snd) := by
  induction ended with
  | nil => exact ⟨[], [], rfl, rfl, .nil, fun _ => rfl⟩
  | @cons x o o' xs os os' h _ ih =>
    obtain ⟨here, rest⟩ := List.forall_mem_cons.1 none
    obtain ⟨rs, rs', rfl, rfl, all, instants⟩ := ih rest
    rcases h.result with ⟨y, y', hy, hy', hQ⟩ | ⟨-, e, he, -⟩
    · refine ⟨(y, o.2) :: rs, (y', o'.2) :: rs', ?_, ?_, .cons hQ all, fun strict => ?_⟩
      · rw [List.map_cons, ← hy]
      · rw [List.map_cons, ← hy']
      · rw [List.map_cons, List.map_cons, instants strict, h.instant strict]
    · exact absurd he (here e)

/-- When the last of several actions ends depends only on when they end. -/
theorem lastEnd_map {γ : Type} (start : Instant) (rs : List (γ × Instant)) :
    lastEnd start (rs.map fun r => ((.ok r.1 : Except Failure γ), r.2)) =
      (rs.map Prod.snd).foldl (fun t u => t.later { u with path := start.path }) start := by
  rw [lastEnd, List.foldl_map, List.foldl_map]

/-- **Outcomes that are related are settled alike.** -/
theorem settle_of_ended (pacing : L.Pacing) (same : L.strict → t' = t)
    (ended : Forall₃ (fun x => L.Ended (Q x) t t' h h') xs os os') :
    L.passes t (settle t os).2 ∧ L.passes t' (settle t' os').2 ∧
      (L.strict → (settle t' os').2 = (settle t os).2) ∧
      ((∃ ys ys', (settle t os).1 = .ok ys ∧ (settle t' os').1 = .ok ys' ∧
          Forall₃ (fun x => Q x h h') xs ys ys') ∨
        L.strict ∧ ∃ e, (settle t os).1 = .error e ∧ (settle t' os').1 = .error e) := by
  by_cases failed : ∃ o ∈ os, ∃ e, o.1 = .error e
  · -- a failure is the same, so the first one is, at the same instant
    obtain ⟨o, ho, e, he⟩ := failed
    have strict : L.strict := by
      clear same
      induction ended with
      | nil => cases ho
      | cons h _ ih =>
        rcases List.mem_cons.1 ho with rfl | ho
        · rcases h.result with ⟨x, x', hx, -⟩ | ⟨strict, -⟩
          · cases hx.symm.trans he
          · exact strict
        · exact ih ho
    obtain ⟨f, u, hfirst⟩ := exists_firstFailure? ho he
    have told : L.passes t u.told := pacing.trans _ _ _
      (passes_of_ended ended _ (mem_of_firstFailure? hfirst))
      (pacing.precedes _ _ (Instant.precedes_told u))
    rw [settle, settle, firstFailure?_of_ended strict ended, hfirst]
    exact ⟨told, same strict ▸ told, fun _ => rfl, .inr ⟨strict, f, rfl, rfl⟩⟩
  · have none : ∀ o ∈ os, ∀ e, o.1 ≠ .error e := fun o ho e he => failed ⟨o, ho, e, he⟩
    obtain ⟨rs, rs', rfl, rfl, all, instants⟩ := results_of_ended ended none
    have passes {γ : Type} (start : Instant) (rs : List (γ × Instant)) : L.passes start
        (settle start (rs.map fun r => ((.ok r.1 : Except Failure γ), r.2))).2 := by
      rw [settle, firstFailure?_ok]
      exact pacing.precedes _ _ ((precedes_lastEnd start _).trans (Instant.precedes_told _))
    refine ⟨passes t rs, passes t' rs', fun strict => ?_,
      .inl ⟨_, _, settle_ok t rs, settle_ok t' rs', all⟩⟩
    rw [settle, settle, firstFailure?_ok, firstFailure?_ok]
    dsimp only
    rw [lastEnd_map, lastEnd_map, instants strict, same strict]

/-- Actions side by side all come to their ends. -/
theorem exists_branches {γ : Type} (f : γ → Action α) (start : Instant) (ps : List (γ × Nat))
    (s : Session) :
    ∃ os s₁, outcome (ps.mapM fun p => branch start p.2 (f p.1)) s = (.ok os, s₁) := by
  induction ps generalizing s with
  | nil => exact ⟨[], s, rfl⟩
  | cons p ps ih =>
    rcases hr : outcome (f p.1) { s with now := start.branch p.2 } with ⟨r, s₁⟩
    obtain ⟨os, s₂, rest⟩ := ih s₁
    refine ⟨(r, s₁.now) :: os, s₂, ?_⟩
    rw [List.mapM_cons, outcome_bind_ok (outcome_branch hr), outcome_bind_ok rest]
    rfl

section

variable {G : Heap → Heap → γ → γ' → Prop} {f : γ → Action α} {f' : γ' → Action α'}
  (pacing : L.Pacing)
  (monoG : ∀ h h' k k' x x', L.Fit U h h' → h <+: k → h' <+: k' → G h h' x x' → G k k' x x')
  (monoQ : ∀ x h h' k k' y y', L.Fit U h h' → h <+: k → h' <+: k' → Q x h h' y y' → Q x k k' y y')
  (hf : ∀ x x' s s', L.Paced U s s' → G s.heap s'.heap x x' →
    L.Concur U (Q x) s s' (outcome (f x) s) (outcome (f' x') s'))

include pacing monoG monoQ hf

/-- Actions that keep pace, one after the other on clocks of their own, have outcomes that are
related; or one of them fails in the first run, where failures may differ. -/
theorem branches_cases {s₀ s₀' : Session} (together : L.together s₀ s₀') {xs : List γ}
    {xs' : List γ'}
    (n : Nat) {s s' : Session} (paced : L.Paced U s s')
    (hx : List.Forall₂ (G s.heap s'.heap) xs xs') :
    ∃ os s₁, outcome ((xs.zipIdx n).mapM fun p => branch s₀.now p.2 (f p.1)) s = (.ok os, s₁) ∧
      ((¬ L.strict ∧ ∃ o ∈ os, ∃ e, o.1 = .error e) ∨ ∃ os' s₁',
        outcome ((xs'.zipIdx n).mapM fun p => branch s₀'.now p.2 (f' p.1)) s' = (.ok os', s₁') ∧
        s.heap <+: s₁.heap ∧ s'.heap <+: s₁'.heap ∧ L.Paced U s₁ s₁' ∧
        Forall₃ (fun x => L.Ended (Q x) s₀.now s₀'.now s₁.heap s₁'.heap) xs os os') := by
  induction xs generalizing xs' n s s' with
  | nil =>
    cases hx
    exact ⟨[], s, rfl, .inr ⟨[], s', rfl, List.prefix_rfl, List.prefix_rfl, paced, .nil⟩⟩
  | cons x xs ih =>
    obtain ⟨x', xs', here, there, rfl⟩ := List.forall₂_cons_left_iff.1 hx
    have starts (t : Instant) : L.passes t (t.branch n) :=
      pacing.precedes _ _ (Instant.precedes_branch t n)
    have same (strict : L.strict) : s₀'.now = s₀.now := by
      rw [pacing.alike _ _ strict together]
      rfl
    -- the actions start at instants of their own, wherever those before have ended
    have begun : L.Paced U { s with now := s₀.now.branch n } { s' with now := s₀'.now.branch n } :=
      paced.change rfl rfl rfl rfl (pacing.clock _ _ _ _ _ _ together paced.together (starts _)
        (starts _) fun strict => by rw [same strict])
    have first := hf x x' _ _ begun here
    rw [List.zipIdx_cons, List.zipIdx_cons, List.mapM_cons, List.mapM_cons]
    rcases hr : outcome (f x) { s with now := s₀.now.branch n } with ⟨r, s₁⟩
    rcases hr' : outcome (f' x') { s' with now := s₀'.now.branch n } with ⟨r', s₁'⟩
    rw [hr, hr'] at first
    rw [outcome_bind_ok (outcome_branch hr), outcome_bind_ok (outcome_branch hr')]
    -- what is known of the others if this one has not failed where failures may differ
    have further (later : L.Later { s with now := s₀.now.branch n } s₁)
        (later' : L.Later { s' with now := s₀'.now.branch n } s₁') (paced₁ : L.Paced U s₁ s₁')
        (ended : ∀ k k', s₁.heap <+: k → s₁'.heap <+: k' →
          L.Ended (Q x) s₀.now s₀'.now k k' (r, s₁.now) (r', s₁'.now)) :
        ∃ all s₂, outcome ((xs.zipIdx (n + 1)).mapM (fun p => branch s₀.now p.2 (f p.1)) >>=
          fun os => pure ((r, s₁.now) :: os)) s₁ = (.ok all, s₂) ∧
          ((¬ L.strict ∧ ∃ o ∈ all, ∃ e, o.1 = .error e) ∨ ∃ all' s₂',
            outcome ((xs'.zipIdx (n + 1)).mapM (fun p => branch s₀'.now p.2 (f' p.1)) >>=
              fun os => pure ((r', s₁'.now) :: os)) s₁' = (.ok all', s₂') ∧
            s.heap <+: s₂.heap ∧ s'.heap <+: s₂'.heap ∧ L.Paced U s₂ s₂' ∧
            Forall₃ (fun x => L.Ended (Q x) s₀.now s₀'.now s₂.heap s₂'.heap)
              (x :: xs) all all') := by
      obtain ⟨os, s₂, hos, rest⟩ := ih (n + 1) paced₁ (there.imp fun _ _ =>
        monoG _ _ _ _ _ _ paced.fit later.heap later'.heap)
      refine ⟨(r, s₁.now) :: os, s₂, by rw [outcome_bind_ok hos]; rfl, ?_⟩
      rcases rest with ⟨lax, o, ho, failed⟩ | ⟨os', s₂', hos', more, more', paced₂, all⟩
      · exact .inl ⟨lax, o, List.mem_cons_of_mem _ ho, failed⟩
      · exact .inr ⟨(r', s₁'.now) :: os', s₂', by rw [outcome_bind_ok hos']; rfl,
          later.heap.trans more, later'.heap.trans more', paced₂, .cons (ended _ _ more more') all⟩
    have instants {later : L.Later { s with now := s₀.now.branch n } s₁}
        {later' : L.Later { s' with now := s₀'.now.branch n } s₁'} (paced₁ : L.Paced U s₁ s₁') :
        L.passes s₀.now s₁.now ∧ L.passes s₀'.now s₁'.now ∧ (L.strict → s₁'.now = s₁.now) := by
      refine ⟨pacing.trans _ _ _ (starts _) later.now, pacing.trans _ _ _ (starts _) later'.now,
        fun strict => ?_⟩
      rw [pacing.alike _ _ strict paced₁.together]
      rfl
    cases first with
    | ok later later' paced₁ hQ =>
      obtain ⟨passes, passes', instant⟩ := @instants later later' paced₁
      exact further later later' paced₁ fun k k' more more' => ⟨passes, passes', instant,
        .inl ⟨_, _, rfl, rfl, monoQ _ _ _ _ _ _ _ paced₁.fit more more' hQ⟩⟩
    | error strict later later' paced₁ =>
      obtain ⟨passes, passes', instant⟩ := @instants later later' paced₁
      exact further later later' paced₁ fun k k' _ _ => ⟨passes, passes', instant,
        .inr ⟨strict, _, rfl, rfl⟩⟩
    | lax lax =>
      obtain ⟨os, s₂, hos⟩ := exists_branches f s₀.now (xs.zipIdx (n + 1)) s₁
      exact ⟨_, s₂, by rw [outcome_bind_ok hos]; rfl,
        .inl ⟨lax, _, List.mem_cons_self .., _, rfl⟩⟩

/-- **Actions side by side** keep pace if each of them does. -/
theorem concur_gather {s s' : Session} (paced : L.Paced U s s') {xs : List γ} {xs' : List γ'}
    (hx : List.Forall₂ (G s.heap s'.heap) xs xs') :
    L.Concur U (fun h h' => Forall₃ (fun x => Q x h h') xs) s s' (outcome (gather f xs) s)
      (outcome (gather f' xs') s') := by
  cases hx with
  | nil => exact concur_pure pacing paced .nil
  | @cons x x' xs xs' here there =>
    rw [outcome_gather_cons, outcome_gather_cons]
    obtain ⟨os, s₁, hos, rest⟩ := branches_cases pacing monoG monoQ hf paced.together 0 paced
      (.cons here there)
    rw [outcome_bind_ok hos, outcome_modify_bind, outcome_ofExcept]
    rcases rest with ⟨lax, o, ho, e, he⟩ | ⟨os', s₁', hos', more, more', paced₁, ended⟩
    · -- a failure is the outcome
      obtain ⟨f, u, hfirst⟩ := exists_firstFailure? ho he
      rw [settle, hfirst]
      exact .lax lax
    · rw [outcome_bind_ok hos', outcome_modify_bind, outcome_ofExcept]
      have same (strict : L.strict) : s'.now = s.now := by
        rw [pacing.alike _ _ strict paced.together]
        rfl
      obtain ⟨passes, passes', instants, result⟩ := settle_of_ended pacing same ended
      have known : L.Paced U { s₁ with now := (settle s.now os).2 }
          { s₁' with now := (settle s'.now os').2 } := paced₁.change rfl rfl rfl rfl
        (pacing.clock _ _ _ _ _ _ paced.together paced₁.together passes passes' instants)
      rcases result with ⟨ys, ys', hys, hys', all⟩ | ⟨strict, e, he, he'⟩
      · rw [hys, hys']
        exact .ok ⟨more, passes⟩ ⟨more', passes'⟩ known all
      · rw [he, he']
        exact .error strict ⟨more, passes⟩ ⟨more', passes'⟩ known

end

end

end Pairing

end EntitySchema
