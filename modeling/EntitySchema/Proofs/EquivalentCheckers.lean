/-
**Checkers that cannot be told apart.**

Not all that a checker is made of takes part in what it does.  Whether the absent value is a failure
is asked of the checker itself and of the fields of shapes, and not of the elements of arrays and
dictionaries; of the target of a reference counts only the class that it is resolved to; of the
eagerness, whether it counts as true.

Two checkers are *equivalent* among given classes if they differ at most in what does not take part.
They check and decode to the same, with the same failures and the same lookups, and are able to do
the same.  Whether the absent value is a failure may differ in the checkers themselves, so it has to
be said apart how they are entered.

Main definitions:

* `Checker.Equivalent` — **checkers that differ at most in what does not take part.**

Main results:

* `Checker.Equivalent.presentWith_eq`, `Checker.Equivalent.check_eq` — the same checks;
* `Checker.Equivalent.capabilities_eq` — the same capabilities;
* `Checker.Equivalent.decodeWith_eq`, `Checker.Equivalent.agreeOn_loadWith`,
  `Checker.Equivalent.awaits` — decoding at once, loading, and decoding by looking up;
* `Loading.agreeOn_loadWithin` — whatever is loaded, the classes stay what they are;
* `Checker.Equivalent.outcome_decode` — **equivalent checkers decode to the same.**
-/

import EntitySchema.Proofs.AgreeingActions

set_option autoImplicit false

namespace EntitySchema

namespace Checker

/-- **Checkers that differ at most in what does not take part**: flags that are not heeded, other
names for the same classes, and what was given as the eagerness of references. -/
inductive Equivalent (g : Catalog) : Checker → Checker → Prop
  | scalar (label : String) (accepts : Value → Bool) (r r' : Bool) :
      Equivalent g (.scalar label accepts r) (.scalar label accepts r')
  | date (r r' : Bool) : Equivalent g (.date r) (.date r')
  | arrayOf {e e' : Checker} (r r' : Bool) (h : Equivalent g e e') :
      Equivalent g (.arrayOf e r) (.arrayOf e' r')
  | dictOf {e e' : Checker} (r r' : Bool) (h : Equivalent g e e') :
      Equivalent g (.dictOf e r) (.dictOf e' r')
  | shape {fs fs' : List (String × Checker)} (r r' : Bool)
      (heads : fs.map (fun f => (f.1, f.2.required)) = fs'.map fun f => (f.1, f.2.required))
      (h : ∀ p ∈ fs.zip fs', Equivalent g p.1.2 p.2.2) : Equivalent g (.shape fs r) (.shape fs' r')
  | reference {t t' : Target} {eager eager' : Value} (r r' : Bool)
      (target : g.resolve t = g.resolve t') (truthy : eager.truthy = eager'.truthy) :
      Equivalent g (.reference t eager r) (.reference t' eager' r')

variable {g : Catalog}

mutual

/-- Every checker is equivalent to itself. -/
theorem Equivalent.refl : (c : Checker) → Equivalent g c c
  | .scalar l p r => .scalar l p r r
  | .date r => .date r r
  | .arrayOf e r => .arrayOf r r (Equivalent.refl e)
  | .dictOf e r => .dictOf r r (Equivalent.refl e)
  | .shape fs r => .shape r r rfl (Equivalent.refl_fields fs)
  | .reference _ _ r => .reference r r rfl rfl

/-- The same of the fields of a shape. -/
theorem Equivalent.refl_fields : (fs : List (String × Checker)) →
    ∀ p ∈ fs.zip fs, Equivalent g p.1.2 p.2.2
  | [] => List.forall_mem_nil _
  | (_, c) :: fs => List.forall_mem_cons.2 ⟨Equivalent.refl c, Equivalent.refl_fields fs⟩

end

/-- The flag of a checker may be set. -/
theorem equivalent_require (c : Checker) : Equivalent g c.require c := by
  cases c with
  | scalar l p r => exact .scalar l p true r
  | date r => exact .date true r
  | arrayOf e r => exact .arrayOf true r (.refl e)
  | dictOf e r => exact .dictOf true r (.refl e)
  | shape fs r => exact .shape true r rfl (Equivalent.refl_fields fs)
  | reference t e r => exact .reference true r rfl rfl

namespace Equivalent

variable {c c' : Checker}

/-! ### Capabilities -/

/-- Equivalent checkers have the same capabilities, and the same class is told as that of the
entities they produce. -/
theorem capabilities_eq (same : Equivalent g c c') : c.producesEntity = c'.producesEntity ∧
    c.decodes = c'.decodes ∧ c.deferred = c'.deferred ∧
    c.target?.map g.resolve = c'.target?.map g.resolve := by
  induction same with
  | scalar | date | shape => exact ⟨rfl, rfl, rfl, rfl⟩
  | arrayOf _ _ _ ih | dictOf _ _ _ ih => exact ⟨ih.1, ih.1, ih.2.2.1, ih.2.2.2⟩
  | reference r r' target truthy => exact ⟨rfl, rfl, truthy, congrArg some target⟩

/-! ### Checks -/

section

variable {h : Heap} {visit : Address → Except Failure Unit}

/-- Fields of the same names and with the same flags are checked alike, if the checkers check
alike what is there. -/
theorem presentFields_eq {fs fs' : List (String × Checker)}
    (heads : fs.map (fun f => (f.1, f.2.required)) = fs'.map fun f => (f.1, f.2.required))
    (present : ∀ p ∈ fs.zip fs', presentWith g h visit p.1.2 = presentWith g h visit p.2.2) :
    presentFields g h visit fs = presentFields g h visit fs' := by
  induction fs generalizing fs' with
  | nil =>
    obtain rfl : fs' = [] := List.map_eq_nil_iff.1 heads.symm
    rfl
  | cons f fs ih =>
    cases fs' with
    | nil => cases heads
    | cons f' fs' =>
      obtain ⟨field, c⟩ := f
      obtain ⟨field', c'⟩ := f'
      obtain ⟨head, tail⟩ := List.cons.inj heads
      obtain ⟨rfl, flag⟩ : field = field' ∧ c.required = c'.required := Prod.mk.inj head
      obtain ⟨first, rest⟩ := List.forall_mem_cons.1 present
      have first : presentWith g h visit c = presentWith g h visit c' := first
      funext v path
      rw [presentFields, presentFields, flag, first, ih tail rest]

/-- Equivalent checkers check alike what is there. -/
theorem presentWith_eq (same : Equivalent g c c') :
    presentWith g h visit c = presentWith g h visit c' := by
  induction same with
  | scalar | date => rfl
  | arrayOf r r' _ ih | dictOf r r' _ ih =>
    funext v name
    simp only [presentWith, ih]
  | shape r r' heads _ ih =>
    funext v name
    rw [presentWith, presentWith, presentFields_eq heads ih]
  | reference r r' target _ =>
    funext v name
    rw [presentWith, presentWith, presentEntity, presentEntity, target]

/-- Equivalent checkers check alike, where the absent value is a failure to both or to neither. -/
theorem check_eq (same : Equivalent g c c') (required : Bool) (v : Value) (name : String) :
    Method.check g h required c v name = Method.check g h required c' v name := by
  rw [Method.check, Method.check, checkWith, checkWith, same.presentWith_eq]

end

/-! ### Decoding -/

/-- Equivalent checkers decode alike, at once. -/
theorem decodeWith_eq (same : Equivalent g c c') (make : ClassId → Value → Build Value) :
    decodeWith g make c = decodeWith g make c' := by
  induction same with
  | scalar | date | shape => rfl
  | arrayOf r r' _ ih | dictOf r r' _ ih =>
    funext raw
    rw [decodeWith, decodeWith, ih]
  | reference r r' target _ =>
    funext raw
    rw [decodeWith, decodeWith, decodeEntity, decodeEntity, target]

end Equivalent

open Session

section

variable {P : Session → Prop} [loose : Loose P g]
  {enter enter' seek seek' : ClassId → Value → Action Value}
  (henter : ∀ cls raw, AgreeOn P (enter cls raw) (enter' cls raw))
  (hseek : ∀ cls id, AgreeOn P (seek cls id) (seek' cls id))

include loose hseek in
/-- What an eager reference finds depends on the class that its target is resolved to. -/
theorem agreeOn_fetchWith {t t' : Target} (target : g.resolve t = g.resolve t') (raw : Value) :
    AgreeOn P (fetchWith seek t raw) (fetchWith seek' t' raw) := by
  rw [fetchWith, fetchWith]
  split
  · refine agreeOn_get_bind fun s hs => ?_
    have resolved : s.catalog.resolve t = s.catalog.resolve t' := by
      rw [Loose.catalog hs, target]
    dsimp only
    rw [resolved]
    split
    · exact agreeOn_pure Value.null
    · refine agreeOn_ofExcept_bind fun cls _ => ?_
      exact ((agreeOn_ofExcept _).map fun _ => PUnit.unit).bind fun _ _ _ _ => hseek cls _
  · exact agreeOn_pure Value.null

include loose henter in
/-- What an embedded reference loads depends on the class that its target is resolved to. -/
theorem agreeOn_enterWith {t t' : Target} (target : g.resolve t = g.resolve t') (raw : Value) :
    AgreeOn P (enterWith enter t raw) (enterWith enter' t' raw) := by
  rw [enterWith, enterWith]
  split
  · exact agreeOn_pure Value.null
  · refine agreeOn_get_bind fun s hs => ?_
    have resolved : s.catalog.resolve t = s.catalog.resolve t' := by
      rw [Loose.catalog hs, target]
    rw [resolved]
    refine agreeOn_ofExcept_bind fun cls _ => ?_
    cases raw with
    | object a =>
      dsimp only
      split
      · exact agreeOn_pure _
      · exact henter cls _
    | _ => exact henter cls _

include loose henter hseek in
/-- **Equivalent checkers load alike**, if what is entered and what is looked up is alike. -/
theorem Equivalent.agreeOn_loadWith {c c' : Checker} (same : Equivalent g c c') (raw : Value) :
    AgreeOn P (loadWith enter seek c raw) (loadWith enter' seek' c' raw) := by
  induction same generalizing raw with
  | scalar | shape => exact agreeOn_pure raw
  | date => exact agreeOn_get_bind fun _ _ => agreeOn_ofExcept _
  | arrayOf r r' _ ih =>
    rw [loadWith, loadWith]
    refine agreeOn_ofExcept_bind fun items _ => ?_
    refine (agreeOn_gather_of_timed (Loose.timed (g := g)) ?_).map _
    exact List.forall₂_same.2 fun x _ => ih x
  | dictOf r r' _ ih =>
    rw [loadWith, loadWith]
    refine agreeOn_get_bind fun s _ => agreeOn_ofExcept_bind fun entries _ => ?_
    refine (agreeOn_gather_of_timed (Loose.timed (g := g)) ?_).map _
    exact List.forall₂_same.2 fun p _ => ih p.2
  | @reference t t' eager eager' r r' target truthy =>
    rw [loadWith, loadWith, truthy]
    split
    · exact agreeOn_fetchWith hseek target raw
    · exact agreeOn_enterWith henter target raw

end

end Checker

/-! ### Loading -/

namespace Loading

open Session

section

variable {P : Session → Prop} {g : Catalog} [loose : Loose P g]

include loose

/-- The fields of an entity are loaded alike, if each raw value is. -/
theorem agreeOn_loadFields {value value' : Checker → Value → Action Value}
    (hvalue : ∀ c raw, AgreeOn P (value c raw) (value' c raw)) (a : Address) (raw : Value)
    (fs : Schema) :
    AgreeOn P (loadFields value a raw fs) (loadFields value' a raw fs) := by
  induction fs with
  | nil => exact agreeOn_pure ()
  | cons f fs ih =>
    rw [loadFields, loadFields]
    split
    · refine agreeOn_ofExcept_bind fun x _ => (hvalue f.2 x).bind fun y _ _ _ => ?_
      have settled : AgreeOn P (settle a f.1 y) (settle a f.1 y) := by
        intro s hs
        rw [outcome_settle]
        exact ⟨rfl, Loose.heap _ hs⟩
      exact settled.bind fun _ _ _ _ => ih
    · exact ih

/-- Loading keeps to the kind, be it that it fails. -/
theorem keeps_loadWithin (fuel : Nat) (cls : ClassId) (raw : Value) :
    AgreeOn P (loadWithin fuel cls raw) (loadWithin fuel cls raw) := by
  induction fuel generalizing cls raw with
  | zero => exact agreeOn_throw _
  | succ fuel ih =>
    refine agreeOn_get_bind fun s _ => (agreeOn_build _).bind fun v _ _ _ => ?_
    cases v with
    | object a =>
      refine (agreeOn_loadFields (fun c x => ?_) a raw _).bind fun _ _ _ _ => agreeOn_pure _
      exact (Checker.Equivalent.refl c).agreeOn_loadWith ih (fun d id => agreeOn_findWith ih d id) x
    | _ => exact agreeOn_pure _

end

/-- **Whatever is loaded, and be it that loading fails, the classes stay what they are.** -/
theorem agreeOn_loadWithin {g : Catalog} (fuel : Nat) (cls : ClassId) (raw : Value) :
    AgreeOn (Under g) (loadWithin fuel cls raw) (loadWithin fuel cls raw) :=
  keeps_loadWithin fuel cls raw

end Loading

/-! ### Decoding by looking up -/

namespace Checker

open Session

/-- Two attempts at the same action: both fail with the same failure, or the actions agree. -/
inductive Awaits (P : Session → Prop) :
    Except Failure (Action Value) → Except Failure (Action Value) → Prop
  | failed (e : Failure) : Awaits P (.error e) (.error e)
  | waiting {a a' : Action Value} (h : AgreeOn P a a') : Awaits P (.ok a) (.ok a')

/-- Of several attempts the first that fails does so in both, or all actions agree. -/
theorem awaits_mapM {α : Type} {P : Session → Prop} {f f' : α → Except Failure (Action Value)}
    {xs : List α} (h : ∀ x ∈ xs, Awaits P (f x) (f' x)) :
    (∃ e, xs.mapM f = .error e ∧ xs.mapM f' = .error e) ∨
      ∃ as as', xs.mapM f = .ok as ∧ xs.mapM f' = .ok as' ∧ List.Forall₂ (AgreeOn P) as as' := by
  induction xs with
  | nil => exact .inr ⟨[], [], rfl, rfl, .nil⟩
  | cons x xs ih =>
    obtain ⟨hx, hxs⟩ := List.forall_mem_cons.1 h
    rw [List.mapM_cons, List.mapM_cons]
    generalize f x = first, f' x = first' at hx
    cases hx with
    | failed e => exact .inl ⟨e, rfl, rfl⟩
    | @waiting a a' ha =>
      rcases ih hxs with ⟨e, he, he'⟩ | ⟨as, as', has, has', agree⟩
      · exact .inl ⟨e, by rw [he]; rfl, by rw [he']; rfl⟩
      · exact .inr ⟨a :: as, a' :: as', by rw [has]; rfl, by rw [has']; rfl, .cons ha agree⟩

/-- Actions side by side that are made at once: none starts if one cannot be made. -/
theorem agreeOn_gather_of_awaits {α : Type} {g : Catalog}
    {f f' : α → Except Failure (Action Value)} {xs : List α}
    (h : ∀ x ∈ xs, Awaits (Under g) (f x) (f' x)) (k : List Value → Value) :
    AgreeOn (Under g)
      (Session.ofExcept (xs.mapM f) >>= fun waiting =>
        gather id waiting >>= fun vs => pure (k vs))
      (Session.ofExcept (xs.mapM f') >>= fun waiting =>
        gather id waiting >>= fun vs => pure (k vs)) := by
  rcases awaits_mapM h with ⟨e, he, he'⟩ | ⟨as, as', has, has', agree⟩
  · rw [he, he']
    exact agreeOn_throw e
  · rw [has, has']
    exact (agreeOn_gather (untimed_under g) agree).map k

/-- Equivalent checkers are waited for alike, if what is looked up is alike. -/
theorem Equivalent.awaits {g : Catalog} {seek seek' : ClassId → Value → Action Value}
    (hseek : ∀ cls id, AgreeOn (Under g) (seek cls id) (seek' cls id)) {c c' : Checker}
    (same : Equivalent g c c') (raw : Value) (h : Heap) :
    Awaits (Under g) (awaitWith seek c raw h) (awaitWith seek' c' raw h) := by
  induction same generalizing raw h with
  | scalar | date | shape => exact .waiting (agreeOn_pure raw)
  | arrayOf r r' _ ih =>
    rw [awaitWith, awaitWith]
    cases itemsOf raw with
    | error e => exact .failed e
    | ok items =>
      refine .waiting (agreeOn_get_bind fun s _ => ?_)
      exact agreeOn_gather_of_awaits (fun x _ => ih x s.heap) _
  | dictOf r r' _ ih =>
    rw [awaitWith, awaitWith]
    cases entriesOf h raw with
    | error e => exact .failed e
    | ok entries =>
      refine .waiting (agreeOn_get_bind fun s _ => ?_)
      exact agreeOn_gather_of_awaits (fun (p : Value × Value) _ => ih p.2 s.heap) _
  | reference r r' target _ => exact .waiting (agreeOn_fetchWith hseek target raw)

/-- **Equivalent checkers decode to the same**, be it at once or by looking up, with the same
failures, and what was looked up meanwhile is the same. -/
theorem Equivalent.outcome_decode {s : Session} {c c' : Checker}
    (same : Equivalent s.catalog c c') (raw : Value) :
    outcome (Loading.decode c raw) s = outcome (Loading.decode c' raw) s := by
  have hseek := Loading.agreeOn_findWith (Loading.agreeOn_loadWithin (g := s.catalog)
    (Loading.bound s .null))
  rw [Loading.decode, Loading.decode, outcome_get_bind, outcome_get_bind,
    same.capabilities_eq.2.2.1]
  split
  · have awaits := same.awaits hseek raw s.heap
    generalize awaitWith (Loading.findWith (Loading.loadWithin (Loading.bound s .null))) c raw
      s.heap = first, awaitWith (Loading.findWith (Loading.loadWithin (Loading.bound s .null))) c'
      raw s.heap = second at awaits
    cases awaits with
    | failed e => rfl
    | waiting agree => exact (agree.arrange s rfl).1
  · rw [Construction.decode, Construction.decode, same.decodeWith_eq]

end Checker

end EntitySchema
