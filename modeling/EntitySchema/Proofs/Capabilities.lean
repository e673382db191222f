/-
**Capabilities of checkers.**

A checker is built in steps, from scalars, dates and references, by making arrays, dictionaries and
shapes of what is there already, and by requiring it, at any place.  What it is able to do is
decided on the way and by its class.  An array is of the class that decodes if its element produces
entities when the array is built, a reference of the class that waits if it is eager then, and what
is required is replaced by a checker of the class that it has.  Asked later, an array of the class
that decodes hands questions on to its element.

What is built this way is as good as the checker that remembers no class and finds its capabilities
in its structure.  They are as the expression says: an expression decodes if it is, wherever it is
required, the one for dates or a chain of arrays and dictionaries over a reference.

Questions may look up a name among those that are registered.  Each lookup is noted, so that what
looks none up is equal to its answer.

Main definitions:

* `Expression`, `Expression.checker` — how a checker is built, and the checker;
* `Expression.bare`, `Expression.Chain` — without requiring anything; chains over a reference;
* `Asking` — computations that may look names up, with the names looked up;
* `Made`, `Expression.make` — a checker with the class it was given, and how it is given one;
* `Made.decoding`, `Made.producesEntity`, `Made.deferred`, `Made.entity` — the questions.

Main results:

* `Expression.producesEntity_iff`, `Expression.deferred_iff` — which checkers produce entities, and
  which are deferred;
* `Made.WellClassed` with `Expression.exists_make` — **the classes are those of the structure**;
* `Expression.capabilities_exact` — **capabilities propagate exactly.**
-/

import EntitySchema.Catalog

set_option autoImplicit false

namespace EntitySchema

/-! ### How a checker is built -/

/-- How a checker is built.  The fields of a shape are as they were written, where of fields of one
name the last counts. -/
inductive Expression where
  | array
  | bool
  | number
  | object
  | string
  | date
  | arrayOf (element : Expression)
  | dictOf (element : Expression)
  | shape (fields : List (String × Expression))
  | reference (target : Target) (option : Bool) (eager : Value)
  | required (x : Expression)

namespace Expression

mutual

/-- The checker that is built. -/
def checker : Expression → Checker
  | .array => Checker.array
  | .bool => Checker.bool
  | .number => Checker.number
  | .object => Checker.object
  | .string => Checker.string
  | .date => .date false
  | .arrayOf x => .arrayOf x.checker false
  | .dictOf x => .dictOf x.checker false
  | .shape fs => Checker.ofFields (fieldCheckers fs)
  | .reference t option eager => Checker.referenceTo t option eager
  | .required x => x.checker.require
termination_by structural x => x

/-- The checkers of the fields of a shape. -/
def fieldCheckers : List (String × Expression) → List (String × Checker)
  | [] => []
  | (name, x) :: fs => (name, x.checker) :: fieldCheckers fs
termination_by structural fs => fs

end

mutual

/-- The expression in which nothing is required. -/
def bare : Expression → Expression
  | .arrayOf x => .arrayOf x.bare
  | .dictOf x => .dictOf x.bare
  | .shape fs => .shape (bareFields fs)
  | .required x => x.bare
  | x => x
termination_by structural x => x

/-- The fields of a shape in which nothing is required. -/
def bareFields : List (String × Expression) → List (String × Expression)
  | [] => []
  | (name, x) :: fs => (name, x.bare) :: bareFields fs
termination_by structural fs => fs

end

/-- The eagerness of a reference: what is given overrides the option. -/
def eagerness (option : Bool) (eager : Value) : Bool :=
  if eager.isNull then option else eager.truthy

/-- A chain of arrays and dictionaries, possibly empty, over a reference to a target that is eager
or not. -/
inductive Chain (t : Target) (eager : Bool) : Expression → Prop
  | reference {option : Bool} {given : Value} (h : eagerness option given = eager) :
      Chain t eager (.reference t option given)
  | arrayOf {x : Expression} (h : Chain t eager x) : Chain t eager (.arrayOf x)
  | dictOf {x : Expression} (h : Chain t eager x) : Chain t eager (.dictOf x)

theorem chain_arrayOf_iff {t : Target} {eager : Bool} {x : Expression} :
    Chain t eager (.arrayOf x) ↔ Chain t eager x :=
  ⟨fun | .arrayOf h => h, .arrayOf⟩

theorem chain_dictOf_iff {t : Target} {eager : Bool} {x : Expression} :
    Chain t eager (.dictOf x) ↔ Chain t eager x :=
  ⟨fun | .dictOf h => h, .dictOf⟩

/-! ### What the structure says -/

theorem truthy_eagerness (option : Bool) (eager : Value) :
    (if eager.isNull then Value.bool option else eager).truthy = eagerness option eager := by
  rw [eagerness]
  split <;> rfl

/-- The target and the eagerness of the reference at the end of a chain. -/
theorem Chain.told {t : Target} {eager : Bool} : (x : Expression) → Chain t eager x.bare →
    x.checker.producesEntity = true ∧ x.checker.deferred = eager ∧ x.checker.target? = some t
  | .reference _ option given, h => by
    cases h with
    | reference h => exact ⟨rfl, (truthy_eagerness option given).trans h, rfl⟩
  | .arrayOf x, h => Chain.told x (chain_arrayOf_iff.1 h)
  | .dictOf x, h => Chain.told x (chain_dictOf_iff.1 h)
  | .required x, h => by
    rw [checker, Checker.producesEntity_require, Checker.deferred_require, Checker.target?_require]
    exact Chain.told x h

/-- What produces entities is a chain over a reference. -/
theorem exists_chain : (x : Expression) → x.checker.producesEntity = true →
    ∃ t eager, Chain t eager x.bare
  | .reference t _ _, _ => ⟨t, _, .reference rfl⟩
  | .arrayOf x, h => by
    obtain ⟨t, eager, chain⟩ := exists_chain x h
    exact ⟨t, eager, .arrayOf chain⟩
  | .dictOf x, h => by
    obtain ⟨t, eager, chain⟩ := exists_chain x h
    exact ⟨t, eager, .dictOf chain⟩
  | .required x, h => exists_chain x (by rwa [checker, Checker.producesEntity_require] at h)

/-- **The checkers that produce entities** are the chains over a reference. -/
theorem producesEntity_iff (x : Expression) :
    x.checker.producesEntity = true ↔ ∃ t eager, Chain t eager x.bare :=
  ⟨exists_chain x, fun ⟨_, _, chain⟩ => (chain.told x).1⟩

/-- **The checkers that are deferred** are the chains over an eager reference. -/
theorem deferred_iff (x : Expression) :
    x.checker.deferred = true ↔ ∃ t, Chain t true x.bare := by
  constructor
  · intro h
    obtain ⟨t, eager, chain⟩ := exists_chain x (Checker.producesEntity_of_deferred _ h)
    obtain rfl : eager = true := (chain.told x).2.1.symm.trans h
    exact ⟨t, chain⟩
  · rintro ⟨t, chain⟩
    exact (chain.told x).2.1

/-- The checker is the one for dates exactly where the expression is. -/
theorem checker_eq_date_iff : (x : Expression) → (∃ r, x.checker = .date r) ↔ x.bare = .date
  | .date => ⟨fun _ => rfl, fun _ => ⟨false, rfl⟩⟩
  | .required x => by
    rw [bare, ← checker_eq_date_iff x, checker]
    cases x.checker <;> simp [Checker.require]
  | .array | .bool | .number | .object | .string | .arrayOf _ | .dictOf _ | .shape _
  | .reference _ _ _ => by simp [checker, bare, Checker.array, Checker.bool, Checker.number,
      Checker.object, Checker.string, Checker.ofFields, Checker.referenceTo]

/-- **The checkers that decode** are the one for dates and the chains over a reference. -/
theorem decodes_iff (x : Expression) :
    x.checker.decodes = true ↔ x.bare = .date ∨ ∃ t eager, Chain t eager x.bare := by
  rw [← producesEntity_iff, ← checker_eq_date_iff]
  cases x.checker <;> simp [Checker.decodes, Checker.producesEntity]

end Expression

/-! ### Questions -/

/-- A computation that may look up the class of a target among the names that are registered, and
may fail.  The targets whose class was asked for are noted in order. -/
abbrev Asking := ReaderT Catalog (ExceptT Failure (StateM (List Target)))

namespace Asking

/-- The outcome of a computation, and the targets noted by then. -/
def run {α : Type} (q : Asking α) (g : Catalog) (noted : List Target) :
    Except Failure α × List Target := q g noted

/-- The class of a target, which is noted. -/
def resolve (t : Target) : Asking ClassId := fun g noted => (g.resolve t, noted ++ [t])

/-- What is answered at once is answered alike whatever names are registered, and nothing is
noted. -/
theorem run_pure {α : Type} (x : α) (g : Catalog) (noted : List Target) :
    run (pure x) g noted = (.ok x, noted) := rfl

theorem run_map {α β : Type} (f : α → β) (q : Asking α) (g : Catalog) (noted : List Target) :
    run (f <$> q) g noted = (f <$> (run q g noted).1, (run q g noted).2) := by
  simp only [run, Functor.map, ExceptT.map, ExceptT.mk, bind, StateT.bind]
  cases q g noted with
  | mk answer noted' => cases answer <;> rfl

/-- A target stands for what it is resolved to at the moment. -/
theorem run_resolve (t : Target) (g : Catalog) (noted : List Target) :
    run (some <$> resolve t) g noted = (some <$> g.resolve t, noted ++ [t]) :=
  run_map some (resolve t) g noted

end Asking

/-! ### Classes of checkers -/

/-- A checker with the class that it was given when it was built: whether an array or a dictionary
is of those that decode, and whether a reference is of those that wait. -/
inductive Made where
  | scalar (label : String) (accepts : Value → Bool) (required : Bool)
  | date (required : Bool)
  | arrayOf (decoding : Bool) (element : Made) (required : Bool)
  | dictOf (decoding : Bool) (element : Made) (required : Bool)
  | shape (fields : List (String × Made)) (required : Bool)
  | reference (waiting : Bool) (target : Target) (eager : Value) (required : Bool)

namespace Made

mutual

/-- The checker, without the class that it was given. -/
def checker : Made → Checker
  | .scalar label accepts r => .scalar label accepts r
  | .date r => .date r
  | .arrayOf _ e r => .arrayOf e.checker r
  | .dictOf _ e r => .dictOf e.checker r
  | .shape fs r => .shape (fieldCheckers fs) r
  | .reference _ t eager r => .reference t eager r
termination_by structural m => m

/-- The checkers of the fields of a shape. -/
def fieldCheckers : List (String × Made) → List (String × Checker)
  | [] => []
  | (name, m) :: fs => (name, m.checker) :: fieldCheckers fs
termination_by structural fs => fs

end

/-- Whether its class is one of those that decode. -/
def decoding : Made → Bool
  | .date _ | .reference _ _ _ _ => true
  | .arrayOf decoding _ _ | .dictOf decoding _ _ => decoding
  | .scalar _ _ _ | .shape _ _ => false

/-- Whether it produces entities.  What does not decode cannot be asked. -/
def producesEntity : Made → Asking Bool
  | .date _ => pure false
  | .reference _ _ _ _ | .arrayOf true _ _ | .dictOf true _ _ => pure true
  | _ => throw (.noAttribute "produces_entity")

/-- Whether its decoding has to be waited for: an array or a dictionary hands the question on. -/
def deferred : Made → Asking Bool
  | .date _ => pure false
  | .reference waiting _ _ _ => pure waiting
  | .arrayOf true e _ | .dictOf true e _ => e.deferred
  | _ => throw (.noAttribute "deferred")

/-- The class of the entities that it produces, if it does. -/
def entity : Made → Asking (Option ClassId)
  | .date _ => pure none
  | .reference _ t _ _ => some <$> Asking.resolve t
  | .arrayOf true e _ | .dictOf true e _ => e.entity
  | _ => throw (.noAttribute "entity")

/-- Whether it is of those that decode and produces entities. -/
def yieldsEntities (m : Made) : Asking Bool :=
  if m.decoding then m.producesEntity else pure false

/-- An array, which decodes if its element produces entities. -/
def arrayOver (e : Made) : Asking Made := do pure (.arrayOf (← e.yieldsEntities) e false)

/-- A dictionary, which decodes if its values produce entities. -/
def dictOver (e : Made) : Asking Made := do pure (.dictOf (← e.yieldsEntities) e false)

/-- A reference, which waits if it is eager. -/
def referenceTo (t : Target) (option : Bool) (eager : Value) : Made :=
  let eager := if eager.isNull then .bool option else eager
  .reference eager.truthy t eager false

/-- The checker of the same class, with the absent value as a failure. -/
def require : Made → Made
  | .scalar label accepts _ => .scalar label accepts true
  | .date _ => .date true
  | .arrayOf decoding e _ => .arrayOf decoding e true
  | .dictOf decoding e _ => .dictOf decoding e true
  | .shape fs _ => .shape fs true
  | .reference waiting t eager _ => .reference waiting t eager true

/-- A checker whose class is the one that its structure asks for. -/
def WellClassed : Made → Prop
  | .arrayOf decoding e _ | .dictOf decoding e _ =>
    decoding = e.checker.producesEntity ∧ e.WellClassed
  | .reference waiting _ eager _ => waiting = eager.truthy
  | .scalar _ _ _ | .date _ | .shape _ _ => True

@[simp] theorem checker_require (m : Made) : m.require.checker = m.checker.require := by
  cases m <;> rfl

/-- Requiring a value keeps the class. -/
theorem WellClassed.require {m : Made} (h : m.WellClassed) : m.require.WellClassed := by
  cases m <;> exact h

/-! ### Answers -/

/-- What is of those that decode is found by the structure. -/
theorem WellClassed.decoding_eq {m : Made} (h : m.WellClassed) :
    m.decoding = m.checker.decodes := by
  cases m with
  | arrayOf | dictOf => exact h.1
  | _ => rfl

/-- What decodes tells whether it produces entities without looking a name up. -/
theorem WellClassed.producesEntity_eq {m : Made} (h : m.WellClassed) (hd : m.decoding = true) :
    m.producesEntity = pure m.checker.producesEntity := by
  cases m with
  | date | reference => rfl
  | scalar | shape => cases hd
  | arrayOf decoding e r | dictOf decoding e r =>
    obtain rfl : decoding = true := hd
    rw [checker, Checker.producesEntity, ← h.1, producesEntity]

/-- So does what is asked when an array or a dictionary is built of it. -/
theorem WellClassed.yieldsEntities_eq {m : Made} (h : m.WellClassed) :
    m.yieldsEntities = pure m.checker.producesEntity := by
  rw [yieldsEntities]
  cases hd : m.decoding with
  | true => exact h.producesEntity_eq hd
  | false =>
    cases m with
    | date | reference => cases hd
    | scalar | shape => rfl
    | arrayOf decoding e r | dictOf decoding e r =>
      obtain rfl : decoding = false := hd
      rw [checker, Checker.producesEntity, ← h.1]
      rfl

/-- What decodes produces entities, if it is not the checker for dates. -/
theorem WellClassed.decoding_element {m : Made} (h : m.WellClassed)
    (hp : m.checker.producesEntity = true) : m.decoding = true := by
  rw [h.decoding_eq]
  cases hm : m.checker <;> rw [hm] at hp <;> first | exact hp | rfl

/-- What decodes tells whether it has to be waited for without looking a name up. -/
theorem WellClassed.deferred_eq : {m : Made} → m.WellClassed → m.decoding = true →
    m.deferred = pure m.checker.deferred
  | .date _, _, _ => rfl
  | .reference _ _ _ _, h, _ => congrArg pure h
  | .arrayOf true e _, h, _ => deferred_eq (m := e) h.2 (h.2.decoding_element h.1.symm)
  | .dictOf true e _, h, _ => deferred_eq (m := e) h.2 (h.2.decoding_element h.1.symm)

/-- **What produces entities resolves the target of its reference when it is asked for their
class**, and nothing else. -/
theorem WellClassed.entity_eq {t : Target} : {m : Made} → m.WellClassed →
    m.checker.producesEntity = true → m.checker.target? = some t →
    m.entity = some <$> Asking.resolve t
  | .reference _ _ _ _, _, _, ht => by
    cases ht
    rfl
  | .arrayOf decoding e _, h, hp, ht => by
    obtain rfl : decoding = true := h.1.trans hp
    exact entity_eq (m := e) h.2 hp ht
  | .dictOf decoding e _, h, hp, ht => by
    obtain rfl : decoding = true := h.1.trans hp
    exact entity_eq (m := e) h.2 hp ht

end Made

/-! ### Building -/

namespace Expression

mutual

/-- The checker that is built, with its class. -/
def make : Expression → Asking Made
  | .array => pure (.scalar "array" Checker.isArray false)
  | .bool => pure (.scalar "bool" Checker.isBool false)
  | .number => pure (.scalar "number" Checker.isNumber false)
  | .object => pure (.scalar "object" Checker.isObject false)
  | .string => pure (.scalar "string" Checker.isString false)
  | .date => pure (.date false)
  | .arrayOf x => do (← x.make).arrayOver
  | .dictOf x => do (← x.make).dictOver
  | .shape fs => do pure (.shape (Table.ofList (← makeFields fs)) false)
  | .reference t option eager => pure (Made.referenceTo t option eager)
  | .required x => do pure (← x.make).require
termination_by structural x => x

/-- The checkers of the fields of a shape, with their classes. -/
def makeFields : List (String × Expression) → Asking (List (String × Made))
  | [] => pure []
  | (name, x) :: fs => do
    let m ← x.make
    pure ((name, m) :: (← makeFields fs))
termination_by structural fs => fs

end

theorem fieldCheckers_put (t : Table Made) (name : String) (m : Made) :
    Made.fieldCheckers (Table.put t name m) = Table.put (Made.fieldCheckers t) name m.checker := by
  induction t with
  | nil => rfl
  | cons f t ih =>
    obtain ⟨k, m'⟩ := f
    rw [Table.put, Made.fieldCheckers, Table.put]
    split
    · rfl
    · rw [Made.fieldCheckers, ih]

theorem fieldCheckers_ofList (fs : List (String × Made)) :
    Made.fieldCheckers (Table.ofList fs) = Table.ofList (Made.fieldCheckers fs) := by
  suffices h : ∀ t, Made.fieldCheckers (fs.foldl (fun t e => Table.put t e.1 e.2) t) =
      (Made.fieldCheckers fs).foldl (fun t e => Table.put t e.1 e.2) (Made.fieldCheckers t) from
    h []
  induction fs with
  | nil => exact fun _ => rfl
  | cons f fs ih =>
    intro t
    rw [List.foldl_cons, ih, fieldCheckers_put]
    rfl

mutual

/-- **Building looks no name up and gives every checker the class that its structure asks for.** -/
theorem exists_make : (x : Expression) →
    ∃ m, x.make = pure m ∧ m.checker = x.checker ∧ m.WellClassed
  | .array | .bool | .number | .object | .string | .date | .reference _ _ _ =>
    ⟨_, rfl, rfl, by trivial⟩
  | .arrayOf x => by
    obtain ⟨m, hm, same, classed⟩ := exists_make x
    refine ⟨.arrayOf m.checker.producesEntity m false, ?_, ?_, rfl, classed⟩
    · rw [make, hm, pure_bind, Made.arrayOver, classed.yieldsEntities_eq, pure_bind]
    · rw [Made.checker, same, checker]
  | .dictOf x => by
    obtain ⟨m, hm, same, classed⟩ := exists_make x
    refine ⟨.dictOf m.checker.producesEntity m false, ?_, ?_, rfl, classed⟩
    · rw [make, hm, pure_bind, Made.dictOver, classed.yieldsEntities_eq, pure_bind]
    · rw [Made.checker, same, checker]
  | .shape fs => by
    obtain ⟨ms, hms, same⟩ := exists_makeFields fs
    refine ⟨.shape (Table.ofList ms) false, ?_, ?_, trivial⟩
    · rw [make, hms, pure_bind]
    · rw [Made.checker, fieldCheckers_ofList, same, checker, Checker.ofFields]
  | .required x => by
    obtain ⟨m, hm, same, classed⟩ := exists_make x
    refine ⟨m.require, ?_, ?_, classed.require⟩
    · rw [make, hm, pure_bind]
    · rw [Made.checker_require, same, checker]

/-- The same of the fields of a shape. -/
theorem exists_makeFields : (fs : List (String × Expression)) →
    ∃ ms, makeFields fs = pure ms ∧ Made.fieldCheckers ms = fieldCheckers fs
  | [] => ⟨[], rfl, rfl⟩
  | (name, x) :: fs => by
    obtain ⟨m, hm, same, -⟩ := exists_make x
    obtain ⟨ms, hms, sames⟩ := exists_makeFields fs
    refine ⟨(name, m) :: ms, ?_, ?_⟩
    · rw [makeFields, hm, pure_bind, hms, pure_bind]
    · rw [Made.fieldCheckers, same, sames, fieldCheckers]

end

/-- **Capabilities propagate exactly.**  Whatever names are registered, building looks none up.
What is built decodes if the expression is, requiring apart, the one for dates or a chain over a
reference; it produces entities if it is such a chain, and is deferred if the reference at its end
was built eager, and it says so without looking a name up; asked for the class of its entities, it
looks up just the target of that reference, as it stands then.  The checker that remembers no class
has the same capabilities. -/
theorem capabilities_exact (x : Expression) : ∃ m,
    (∀ g noted, x.make.run g noted = (.ok m, noted)) ∧
    m.checker = x.checker ∧
    (m.decoding = true ↔ x.bare = .date ∨ ∃ t eager, Chain t eager x.bare) ∧
    (∀ g noted, m.yieldsEntities.run g noted = (.ok x.checker.producesEntity, noted)) ∧
    (m.decoding = true → ∀ g noted,
      m.producesEntity.run g noted = (.ok x.checker.producesEntity, noted) ∧
      m.deferred.run g noted = (.ok x.checker.deferred, noted)) ∧
    (∀ t eager, Chain t eager x.bare → ∀ g noted,
      m.entity.run g noted = (some <$> g.resolve t, noted ++ [t])) ∧
    (x.checker.decodes = true ↔ x.bare = .date ∨ ∃ t eager, Chain t eager x.bare) ∧
    (x.checker.producesEntity = true ↔ ∃ t eager, Chain t eager x.bare) ∧
    (x.checker.deferred = true ↔ ∃ t, Chain t true x.bare) ∧
    (∀ t eager, Chain t eager x.bare → x.checker.target? = some t) := by
  obtain ⟨m, hm, same, classed⟩ := exists_make x
  have entity : ∀ t eager, Chain t eager x.bare → m.entity = some <$> Asking.resolve t := by
    intro t eager chain
    obtain ⟨produces, -, target⟩ := chain.told x
    rw [← same] at produces target
    exact classed.entity_eq produces target
  refine ⟨m, fun g noted => ?_, same, ?_, fun g noted => ?_, fun hd g noted => ⟨?_, ?_⟩,
    fun t eager chain g noted => ?_, x.decodes_iff, x.producesEntity_iff, x.deferred_iff,
    fun t eager chain => (chain.told x).2.2⟩
  · rw [hm, Asking.run_pure]
  · rw [classed.decoding_eq, same, x.decodes_iff]
  · rw [classed.yieldsEntities_eq, same, Asking.run_pure]
  · rw [classed.producesEntity_eq hd, same, Asking.run_pure]
  · rw [classed.deferred_eq hd, same, Asking.run_pure]
  · rw [entity t eager chain, Asking.run_resolve]

/-- The options say that the reference is eager, and the word given that it is not; the array of
dictionaries over it, required at two places, produces entities at once. -/
example : (required (.arrayOf (.required (.dictOf (.reference (.named "User") true
    (.bool false)))))).checker.deferred = false := rfl

end Expression

end EntitySchema
