/-
**The report of an entity and its validation.**

An entity can be asked to validate itself, which stops at the first field that fails, and to report
on its fields, which checks each of them on its own.  The two agree: the report has the failed check
of every field that fails by one, the entity is valid if there is none, and otherwise validation
fails by the first.

A report fails itself only if a field refers to a class that is not registered, since that is no
failed check.  Validation then fails by the same, or has stopped at an earlier field.

Main definitions:

* `Validation.failedCheck?` — the failed check that a check ends with, if it does;
* `Validation.checkOf` — the check of one field of an entity.

Main results:

* `Heap.Genuine.refuses` — an entity fails by a failed check, or since a class is not registered;
* `Validation.fieldFailures_cases` — what comes of checking all fields on their own;
* `Validation.report_agrees` — **the report of an entity agrees with its validation.**
-/

import EntitySchema.Proofs.Boundaries

set_option autoImplicit false

namespace EntitySchema

namespace Validation

variable {g : Catalog} {h : Heap} {a : Address} {cls : ClassId}

/-! ### Checks on their own -/

/-- The failed check that a check ends with, if it ends with one. -/
def failedCheck? : Except Failure Unit → Option CheckError
  | .error (.check e) => some e
  | _ => none

/-- The check of one field of an entity, with its flag. -/
def checkOf (g : Catalog) (h : Heap) (a : Address) (f : String × Checker) : Except Failure Unit :=
  Method.check g h f.2.required f.2 (h.field g a f.1) f.1

/-- A check that passes or fails by a failed check. -/
def Checks (r : Except Failure Unit) : Prop := ∀ f, r = .error f → ∃ e, f = .check e

/-- The members of a list are all of a kind, or there is a first that is not. -/
theorem forall_or_exists_first {α : Type} (P : α → Prop) (xs : List α) :
    (∀ x ∈ xs, P x) ∨
      ∃ before x after, xs = before ++ x :: after ∧ (∀ y ∈ before, P y) ∧ ¬ P x := by
  induction xs with
  | nil => exact .inl (List.forall_mem_nil _)
  | cons x xs ih =>
    by_cases hx : P x
    · rcases ih with all | ⟨before, y, after, rfl, all, hy⟩
      · exact .inl (List.forall_mem_cons.2 ⟨hx, all⟩)
      · exact .inr ⟨x :: before, y, after, rfl, List.forall_mem_cons.2 ⟨hx, all⟩, hy⟩
    · exact .inr ⟨[], x, xs, rfl, List.forall_mem_nil _, hx⟩

section

variable (visit : Address → Except Failure Unit)

/-- A field that is checked adds its failed check to those of the rest. -/
theorem fieldFailures_cons {r : Value × Heap.Rule} (checks : Checks (checkField g h visit a r))
    (rs : List (Value × Heap.Rule)) : fieldFailures g h visit a (r :: rs) =
      (fieldFailures g h visit a rs >>= fun rest =>
        .ok ((failedCheck? (checkField g h visit a r)).toList ++ rest)) := by
  rw [fieldFailures]
  cases hr : checkField g h visit a r with
  | ok u => rfl
  | error f =>
    obtain ⟨e, rfl⟩ := checks f hr
    rfl

/-- Where all fields are checked, their failed checks are reported. -/
theorem fieldFailures_of_checks {rs : List (Value × Heap.Rule)}
    (checks : ∀ r ∈ rs, Checks (checkField g h visit a r)) : fieldFailures g h visit a rs =
      .ok (rs.filterMap fun r => failedCheck? (checkField g h visit a r)) := by
  induction rs with
  | nil => rfl
  | cons r rs ih =>
    obtain ⟨own, rest⟩ := List.forall_mem_cons.1 checks
    rw [fieldFailures_cons visit own, ih rest, List.filterMap_cons]
    cases failedCheck? (checkField g h visit a r) <;> rfl

/-- A field whose check fails otherwise ends the report. -/
theorem fieldFailures_of_other {before after : List (Value × Heap.Rule)} {r : Value × Heap.Rule}
    {f : Failure} (checks : ∀ q ∈ before, Checks (checkField g h visit a q))
    (hr : checkField g h visit a r = .error f) (other : ∀ e, f ≠ .check e) :
    fieldFailures g h visit a (before ++ r :: after) = .error f := by
  induction before with
  | nil =>
    rw [List.nil_append, fieldFailures, hr]
    cases f with
    | check e => exact absurd rfl (other e)
    | _ => rfl
  | cons q before ih =>
    obtain ⟨own, rest⟩ := List.forall_mem_cons.1 checks
    rw [List.cons_append, fieldFailures_cons visit own, ih rest]
    rfl

end

/-! ### Checks that do not pass -/

/-- A check fails by a failed check, or since a class is not registered. -/
def Refuses (r : Except Failure Unit) : Prop :=
  ∀ f, r = .error f → (∃ e, f = .check e) ∨ ∃ name, f = .unknownEntity name

end Validation

namespace Inspection

variable {g : Catalog} {h : Heap}

/-- What is wrong with a value by itself is told by a failed check, or is that a class is not
registered. -/
theorem refuses_of_atFault? {p : Place} {field : String} {f : Failure}
    (hf : atFault? g h p field = some f) :
    (∃ e, f = .check e) ∨ ∃ name, f = .unknownEntity name := by
  obtain ⟨d, hd, rfl⟩ := Option.map_eq_some_iff.1 hf
  have own := ofValue_of_defect? hd
  cases d with
  | nested cause => exact absurd own id
  | other f => exact .inr own
  | _ => exact .inl ⟨_, rfl⟩

/-- A check fails by a failed check, or since a class is not registered, if that is so of the
entities in the value. -/
theorem refuses_check {v : Value} {required : Bool} {c : Checker} {name : String}
    (entities : ∀ a, h.Holds v a → h.isEntity a = true →
      Validation.Refuses (Method.validate g h a)) :
    Validation.Refuses (Method.check g h required c v name) := by
  intro f failed
  obtain ⟨p, hp, hf⟩ := exists_place_of_check failed
  rcases failureAt?_cases hf with own | ⟨a, f', left, hown, rfl⟩
  · exact refuses_of_atFault? own
  · have held : h.Holds v a := holds_of_place hp (left.1 ▸ .direct (.object a))
    rcases entities a held left.isEntity f' (failureOf_eq_some.1 hown) with
      ⟨e, rfl⟩ | ⟨unknown, rfl⟩
    · exact .inl ⟨_, rfl⟩
    · exact .inr ⟨unknown, rfl⟩

end Inspection

namespace Heap

variable {g : Catalog} {h : Heap} {a : Address} {cls : ClassId}

/-- **A genuine entity fails by a failed check, or since a class is not registered.** -/
theorem Genuine.refuses {v : Value} (genuine : h.Genuine v) (free : SelfFree g h v)
    (ha : h.Holds v a) : h.isEntity a = true → Validation.Refuses (Method.validate g h a) := by
  refine free.induction
    (P := fun a => h.isEntity a = true → Validation.Refuses (Method.validate g h a))
    (fun a ha ih entity f failed => ?_) ha
  obtain ⟨cls, hs⟩ := exists_species entity
  have own : h.Genuine (.object a) := genuine.object ha
  rw [own.validate_eq (free.object ha) hs] at failed
  obtain ⟨before, k, after, hschema, -, hk⟩ := exists_of_forM_eq_error failed
  have member : k ∈ g.schemaOf cls := by rw [hschema]; simp
  exact Inspection.refuses_check (fun b hb => ih b (own.contains hs member hb)) f hk

end Heap

namespace Validation

variable {g : Catalog} {h : Heap} {a : Address} {cls : ClassId}

/-- The check of a field of a genuine entity fails by a failed check, or since a class is not
registered. -/
theorem refuses_checkOf (genuine : h.Genuine (.object a)) (free : h.SelfFree g (.object a))
    (f : String × Checker) : Refuses (checkOf g h a f) :=
  Inspection.refuses_check fun _ hb =>
    genuine.refuses free (Heap.holds_of_field hb (.direct (.object a)))

/-- The report of a genuine entity has the failed checks of its fields. -/
theorem report_eq (genuine : h.Genuine (.object a)) (free : h.SelfFree g (.object a))
    (hs : (h.get a).species = .entity cls) : Method.report g h (.object a) =
      (fieldFailures g h (Method.validate g h) a (Heap.classRules g cls) >>= fun errors =>
        .ok { valid := errors.isEmpty, errors := errors }) := by
  have held : h.Holds (.object a) a := .direct (.object a)
  have method : Heap.objectAttribute? g h a "check" = some (.method (.object a) "check") :=
    genuine.method held (by simp [Heap.isEntity, hs]) (.inl rfl)
  rw [Method.report, Method.send, Heap.attribute?, method]
  simp only [Method.invoke_check free, failuresWith, genuine.rules held hs, bind, Except.bind]
  cases fieldFailures g h (Method.validate g h) a (Heap.classRules g cls) <;> rfl

/-- **All fields are checked on their own**: either each passes or fails by a failed check, and
these are the failures; or there is a first whose class is not registered, and that is told. -/
theorem fieldFailures_cases (cls : ClassId) (genuine : h.Genuine (.object a))
    (free : h.SelfFree g (.object a)) :
    ((∀ k ∈ g.schemaOf cls, Checks (checkOf g h a k)) ∧
      fieldFailures g h (Method.validate g h) a (Heap.classRules g cls) =
        .ok ((g.schemaOf cls).filterMap fun k => failedCheck? (checkOf g h a k))) ∨
    ∃ before k after name, g.schemaOf cls = before ++ k :: after ∧
      (∀ j ∈ before, Checks (checkOf g h a j)) ∧ checkOf g h a k = .error (.unknownEntity name) ∧
      fieldFailures g h (Method.validate g h) a (Heap.classRules g cls) =
        .error (.unknownEntity name) := by
  rcases forall_or_exists_first (fun k => Checks (checkOf g h a k)) (g.schemaOf cls) with
    all | ⟨before, k, after, hschema, all, hk⟩
  · refine .inl ⟨all, ?_⟩
    rw [fieldFailures_of_checks, Heap.classRules, List.filterMap_map]
    · rfl
    · exact List.forall_mem_map.2 all
  · obtain ⟨f, hf, other⟩ : ∃ f, checkOf g h a k = .error f ∧ ∀ e, f ≠ .check e := by
      simpa [Checks] using hk
    obtain ⟨name, rfl⟩ :=
      (refuses_checkOf genuine free k f hf).resolve_left (not_exists.2 other)
    refine .inr ⟨before, k, after, name, hschema, all, hf, ?_⟩
    rw [Heap.classRules, hschema, List.map_append, List.map_cons]
    exact fieldFailures_of_other _ (List.forall_mem_map.2 all) hf other

/-- A traversal all of whose members are checked fails by the first failed check. -/
theorem forM_of_checks {α : Type} {f : α → Except Failure Unit} {xs : List α}
    (checks : ∀ x ∈ xs, Checks (f x)) :
    xs.forM f = match xs.filterMap fun x => failedCheck? (f x) with
      | [] => .ok ()
      | e :: _ => .error (.check e) := by
  induction xs with
  | nil => rfl
  | cons x xs ih =>
    obtain ⟨own, rest⟩ := List.forall_mem_cons.1 checks
    have step : (x :: xs).forM f = f x >>= fun _ => xs.forM f := rfl
    rw [step, List.filterMap_cons]
    cases hx : f x with
    | ok u => exact ih rest
    | error f' =>
      obtain ⟨e, rfl⟩ := own f' hx
      rfl

/-- A traversal with a member that fails otherwise fails by the same, or by a failed
check before. -/
theorem forM_of_other {α : Type} {f : α → Except Failure Unit} {before after : List α} {x : α}
    {f' : Failure} (checks : ∀ y ∈ before, Checks (f y)) (hx : f x = .error f') :
    (before ++ x :: after).forM f = .error f' ∨
      ∃ y ∈ before, ∃ e, f y = .error (.check e) ∧
        (before ++ x :: after).forM f = .error (.check e) := by
  induction before with
  | nil =>
    have step : (x :: after).forM f = f x >>= fun _ => after.forM f := rfl
    exact .inl (by rw [List.nil_append, step, hx]; rfl)
  | cons y before ih =>
    obtain ⟨own, rest⟩ := List.forall_mem_cons.1 checks
    have step : (y :: before ++ x :: after).forM f =
      f y >>= fun _ => (before ++ x :: after).forM f := rfl
    rw [step]
    cases hy : f y with
    | ok u =>
      rcases ih rest with failed | ⟨z, hz, e, hze, failed⟩
      · exact .inl failed
      · exact .inr ⟨z, List.mem_cons_of_mem y hz, e, hze, failed⟩
    | error f'' =>
      obtain ⟨e, rfl⟩ := own f'' hy
      exact .inr ⟨y, List.mem_cons_self .., e, hy, rfl⟩

/-- **The report of an entity agrees with its validation.**  If there is a report, every field
passes or fails by a failed check, and the report has just these failed checks, in the order of the
schema; it is valid if there are none, which is so if the validation passes, and else the validation
fails by the first.  If the report fails, a field refers to a class that is not registered, and the
validation fails by the same or by the failed check of an earlier field. -/
theorem report_agrees (genuine : h.Genuine (.object a)) (free : h.SelfFree g (.object a))
    (hs : (h.get a).species = .entity cls) :
    (∀ report, Method.report g h (.object a) = .ok report →
      (∀ k ∈ g.schemaOf cls, Checks (checkOf g h a k)) ∧
      report.errors = (g.schemaOf cls).filterMap (fun k => failedCheck? (checkOf g h a k)) ∧
      (report.valid = true ↔ report.errors = []) ∧
      (report.errors = [] ↔ Method.validate g h a = .ok ()) ∧
      ∀ e rest, report.errors = e :: rest → Method.validate g h a = .error (.check e)) ∧
    ∀ f, Method.report g h (.object a) = .error f → (∃ name, f = .unknownEntity name) ∧
      ∃ before k after, g.schemaOf cls = before ++ k :: after ∧ checkOf g h a k = .error f ∧
        (Method.validate g h a = .error f ∨ ∃ j ∈ before, ∃ e, checkOf g h a j = .error (.check e) ∧
          Method.validate g h a = .error (.check e)) := by
  have validated : Method.validate g h a = (g.schemaOf cls).forM (checkOf g h a) :=
    genuine.validate_eq free hs
  have reported := report_eq genuine free hs
  rw [validated]
  rcases fieldFailures_cases cls genuine free with
    ⟨all, failures⟩ | ⟨before, k, after, name, hschema, all, hk, failed⟩
  · -- every field is checked
    rw [reported, failures]
    refine ⟨?_, nofun⟩
    rintro _ ⟨⟩
    refine ⟨all, rfl, List.isEmpty_iff, ?_, ?_⟩
    · rw [forM_of_checks all]
      split <;> simp [*]
    · intro e rest hrest
      dsimp only at hrest
      rw [forM_of_checks all, hrest]
  · -- a field is not: its class is not registered
    rw [reported, failed]
    refine ⟨nofun, ?_⟩
    rintro _ ⟨⟩
    refine ⟨⟨name, rfl⟩, before, k, after, hschema, hk, ?_⟩
    rw [hschema]
    exact forM_of_other all hk

/-- A user whose friend is nameless reports that, and fails by it. -/
theorem report_agrees_ann :
    Method.report Inspection.users Inspection.twoUsers (.object 1) =
      .ok ⟨false, [.nested "friend" (.missing "name")]⟩ ∧
    Method.validate Inspection.users Inspection.twoUsers 1 =
      .error (.check (.nested "friend" (.missing "name"))) := by
  have free : Heap.SelfFree Inspection.users Inspection.twoUsers (.object 1) :=
    Inspection.selfFree_twoUsers.object (.direct (.list (by simp) (.object 1)))
  have reported : Method.report Inspection.users Inspection.twoUsers (.object 1) =
      .ok ⟨false, [.nested "friend" (.missing "name")]⟩ := rfl
  obtain ⟨-, -, -, -, validated⟩ :=
    (report_agrees (Inspection.genuine_twoUsers _) free rfl).1 _ reported
  exact ⟨reported, validated _ _ rfl⟩

end Validation

end EntitySchema
