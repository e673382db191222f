/-
**Where the flag is heeded.**

Every checker has a flag that says whether the absent value is a failure.  It is heeded where the
checker is applied on its own, and so it is in the fields of a shape; the elements of an array and
the values of a dictionary may be absent whatever their checkers say.

So the flags of checkers in these places can be cleared, at any depth, and nothing is checked or
decoded otherwise.  And to set the flag of a checker is to refuse the absent value and nothing else.

Main definitions:

* `Checker.relax` — the same checker, without its flag;
* `Checker.erase` — **a checker without the flags that are not heeded**;
* `Checker.Bare` — no element of an array or a dictionary has its flag set.

Main results:

* `Checker.bare_erase`, `Checker.erase_of_bare` — erasing clears just these flags;
* `Checker.equivalent_erase` — and what is erased takes no part;
* `Checker.heeded_flags` — **the flag acts only where it may.**
-/

import EntitySchema.Proofs.EquivalentCheckers

set_option autoImplicit false

namespace EntitySchema

namespace Checker

/-! ### Erasing -/

/-- The same checker, with the absent value as no failure. -/
def relax : Checker → Checker
  | .scalar l p _ => .scalar l p false
  | .date _ => .date false
  | .arrayOf e _ => .arrayOf e false
  | .dictOf e _ => .dictOf e false
  | .shape fs _ => .shape fs false
  | .reference t e _ => .reference t e false

@[simp] theorem required_relax (c : Checker) : c.relax.required = false := by
  cases c <;> rfl

theorem relax_of_required_eq_false {c : Checker} (h : c.required = false) : c.relax = c := by
  cases c <;> cases h <;> rfl

mutual

/-- **The same checker without the flags of what is the element of an array or a dictionary**, at
any depth.  Its own flag stays, and so do those of the fields of shapes. -/
def erase : Checker → Checker
  | .arrayOf e r => .arrayOf e.erase.relax r
  | .dictOf e r => .dictOf e.erase.relax r
  | .shape fs r => .shape (eraseFields fs) r
  | c => c
termination_by structural c => c

/-- The fields of a shape, each with its flag. -/
def eraseFields : List (String × Checker) → List (String × Checker)
  | [] => []
  | (name, c) :: fs => (name, c.erase) :: eraseFields fs
termination_by structural fs => fs

end

/-- **No element of an array or a dictionary has its flag set**, at any depth. -/
inductive Bare : Checker → Prop
  | scalar (label : String) (accepts : Value → Bool) (r : Bool) : Bare (.scalar label accepts r)
  | date (r : Bool) : Bare (.date r)
  | arrayOf {e : Checker} (r : Bool) (flag : e.required = false) (h : Bare e) : Bare (.arrayOf e r)
  | dictOf {e : Checker} (r : Bool) (flag : e.required = false) (h : Bare e) : Bare (.dictOf e r)
  | shape {fs : List (String × Checker)} (r : Bool) (h : ∀ f ∈ fs, Bare f.2) : Bare (.shape fs r)
  | reference (t : Target) (eager : Value) (r : Bool) : Bare (.reference t eager r)

theorem Bare.relax {c : Checker} (h : Bare c) : Bare c.relax := by
  cases h with
  | scalar l p => exact .scalar l p false
  | date => exact .date false
  | arrayOf _ flag h => exact .arrayOf false flag h
  | dictOf _ flag h => exact .dictOf false flag h
  | shape _ h => exact .shape false h
  | reference t e => exact .reference t e false

/-- Erasing leaves the flag of the checker itself. -/
@[simp] theorem required_erase (c : Checker) : c.erase.required = c.required := by
  cases c <;> rfl

mutual

/-- Erasing clears all flags that are not heeded. -/
theorem bare_erase : (c : Checker) → Bare c.erase
  | .scalar l p r => .scalar l p r
  | .date r => .date r
  | .arrayOf e r => .arrayOf r (required_relax _) (bare_erase e).relax
  | .dictOf e r => .dictOf r (required_relax _) (bare_erase e).relax
  | .shape fs r => .shape r (bare_eraseFields fs)
  | .reference t e r => .reference t e r

/-- The same of the fields of a shape. -/
theorem bare_eraseFields : (fs : List (String × Checker)) → ∀ f ∈ eraseFields fs, Bare f.2
  | [] => List.forall_mem_nil _
  | (_, c) :: fs => List.forall_mem_cons.2 ⟨bare_erase c, bare_eraseFields fs⟩

end

/-- Fields of which each is left as it is are left as they are. -/
theorem eraseFields_eq_self {fs : List (String × Checker)} (same : ∀ f ∈ fs, f.2.erase = f.2) :
    eraseFields fs = fs := by
  induction fs with
  | nil => rfl
  | cons f fs ih =>
    obtain ⟨first, rest⟩ := List.forall_mem_cons.1 same
    rw [eraseFields, first, ih rest]

/-- Erasing clears no other flags. -/
theorem erase_of_bare {c : Checker} (h : Bare c) : c.erase = c := by
  induction h with
  | scalar | date | reference => rfl
  | arrayOf r flag _ ih | dictOf r flag _ ih => rw [erase, ih, relax_of_required_eq_false flag]
  | shape r _ ih => rw [erase, eraseFields_eq_self ih]

/-! ### What is erased takes no part -/

variable {g : Catalog}

/-- The flag of a checker may be cleared. -/
theorem Equivalent.relax {c c' : Checker} (same : Equivalent g c c') :
    Equivalent g c.relax c' := by
  cases same with
  | scalar l p r r' => exact .scalar l p false r'
  | date r r' => exact .date false r'
  | arrayOf r r' h => exact .arrayOf false r' h
  | dictOf r r' h => exact .dictOf false r' h
  | shape r r' heads h => exact .shape false r' heads h
  | reference r r' target truthy => exact .reference false r' target truthy

theorem heads_eraseFields (fs : List (String × Checker)) :
    (eraseFields fs).map (fun f => (f.1, f.2.required)) = fs.map fun f => (f.1, f.2.required) := by
  induction fs with
  | nil => rfl
  | cons f fs ih =>
    rw [eraseFields, List.map_cons, List.map_cons, ih, required_erase]

mutual

/-- **What is erased takes no part.** -/
theorem equivalent_erase : (c : Checker) → Equivalent g c.erase c
  | .scalar l p r => .scalar l p r r
  | .date r => .date r r
  | .arrayOf e r => .arrayOf r r (equivalent_erase e).relax
  | .dictOf e r => .dictOf r r (equivalent_erase e).relax
  | .shape fs r => .shape r r (heads_eraseFields fs) (equivalent_eraseFields fs)
  | .reference _ _ r => .reference r r rfl rfl

/-- The same of the fields of a shape. -/
theorem equivalent_eraseFields : (fs : List (String × Checker)) →
    ∀ p ∈ (eraseFields fs).zip fs, Equivalent g p.1.2 p.2.2
  | [] => List.forall_mem_nil _
  | (_, c) :: fs => List.forall_mem_cons.2 ⟨equivalent_erase c, equivalent_eraseFields fs⟩

end

/-- **The flag acts only where it may.**  Without the flags of the elements of arrays and
dictionaries a checker, whose own flag stays, has the same outcomes: of checks with its own flag,
with the absent value as a failure and without, under every name, in every heap and whatever names
are registered; and of decoding, in every session.  A checker of which the flag is set has the
outcomes of that checker, but that it refuses the absent value; to set it again changes nothing. -/
theorem heeded_flags (c : Checker) :
    (Bare c.erase ∧ c.erase.required = c.required ∧ c.erase.decodes = c.decodes ∧
      (∀ g h v name, Method.check g h c.erase.required c.erase v name =
        Method.check g h c.required c v name) ∧
      (∀ g h required v name, Method.check g h required c.erase v name =
        Method.check g h required c v name) ∧
      ∀ raw s, Session.outcome (Loading.decode c.erase raw) s =
        Session.outcome (Loading.decode c raw) s) ∧
    (c.require.decodes = c.decodes ∧
      (∀ g h v name, v ≠ .null → Method.check g h c.require.required c.require v name =
        Method.check g h c.required c v name) ∧
      (∀ g h name, Method.check g h c.require.required c.require .null name =
        failCheck (.missing name)) ∧
      (∀ g h required v name, Method.check g h required c.require v name =
        Method.check g h required c v name) ∧
      (∀ raw s, Session.outcome (Loading.decode c.require raw) s =
        Session.outcome (Loading.decode c raw) s) ∧
      c.require.require = c.require) := by
  have erased : ∀ g h required v name, Method.check g h required c.erase v name =
      Method.check g h required c v name := fun _ h required v name =>
    (equivalent_erase c).check_eq required v name
  refine ⟨⟨bare_erase c, required_erase c, ?_, ?_, erased, ?_⟩, decodes_require c, ?_, ?_, ?_, ?_,
    require_require c⟩
  · exact (equivalent_erase (g := .initial) c).capabilities_eq.2.1
  · intro g h v name
    rw [required_erase, erased]
  · intro raw s
    exact (equivalent_erase c).outcome_decode raw
  · intro g h v name there
    have present : v.isNull = false := by cases v <;> first | rfl | exact absurd rfl there
    exact checkWith_require_of_present g h (Method.validate g h) present c name
  · intro g h name
    rw [Method.check, checkWith_null, required_require, if_pos rfl]
  · intro g h required v name
    exact (equivalent_require c).check_eq required v name
  · intro raw s
    exact (equivalent_require c).outcome_decode raw

/-- A team: required members, each under a name and with a required age, and lists of their
friends, of whom each is required. -/
def team : Checker :=
  .shape [("members", .dictOf (.shape [("age", Checker.number.require)] true) true),
    ("friends", .arrayOf (.reference (.named "User") (.bool true) true) false)] false

/-- A team of one member, who is absent. -/
def emptyTeam : Value := .dict [(.str "members", .dict [(.str "a", .null)])]

/-- A team is checked without the flags that are not heeded as with them; to set its own flag
changes nothing where there is one. -/
theorem heeded_flags_team : team.erase ≠ team ∧
    Method.check .initial [] true team.erase emptyTeam "t" =
      Method.check .initial [] true team emptyTeam "t" ∧
    (Value.dict []) ≠ .null ∧ Method.check .initial [] true team.require (.dict []) "t" =
      Method.check .initial [] false team (.dict []) "t" := by
  obtain ⟨⟨-, -, -, -, erased, -⟩, -, required, -⟩ := heeded_flags team
  refine ⟨?_, erased _ _ _ _ _, by rintro ⟨⟩, required _ _ _ _ (by rintro ⟨⟩)⟩
  intro same
  simp [team, erase, eraseFields, relax] at same

end Checker

end EntitySchema
