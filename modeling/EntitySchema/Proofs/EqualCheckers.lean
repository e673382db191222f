/-
**Equal checkers are interchangeable.**

Equality of checkers passes over some of what they are made of: the tests of scalars, which are
compared by their labels, the order of the fields of a shape, and what was given as the eagerness of
a reference, as long as it counts as true in both and is equal.  A check ends with its first
failure, and which one is first depends on the order of the fields; whether there is one does not.

So two checkers that are equal and were built in the usual ways are *alike*: scalars have the same
test, shapes have alike checkers under the same names, and references the same target and
eagerness.  Checkers that are alike accept the same values, have the same capabilities, and decode
alike.

Main definitions:

* `Checker.Standard` — the tests go with the labels, and no shape has two fields of one name;
* `Checker.Alike` — checkers that are alike.

Main results:

* `Expression.standard` — what is built in the usual ways is standard;
* `Checker.alike_of_same` — **standard checkers that are equal are alike**;
* `Checker.Alike.present_iff`, `Checker.Alike.decodeWith_eq`, `Checker.Alike.awaitWith_eq` — what is
  alike accepts the same values and decodes alike;
* `Checker.interchangeable` — **equal checkers are interchangeable.**
-/

import EntitySchema.Loading
import EntitySchema.Proofs.Capabilities
import EntitySchema.Proofs.Validity

set_option autoImplicit false

namespace EntitySchema

/-! ### Tables with one thing under each name -/

namespace Table

variable {α : Type}

/-- What is found under a name stands there. -/
theorem mem_of_get? {t : Table α} {name : String} {x : α} (h : get? t name = some x) :
    (name, x) ∈ t := by
  induction t with
  | nil => cases h
  | cons e t ih =>
    obtain ⟨k, y⟩ := e
    rw [get?] at h
    split at h
    · next found =>
      cases h
      exact List.mem_cons.2 (.inl (by rw [found]))
    · exact List.mem_cons_of_mem _ (ih h)

/-- What stands under a name is found there, if no other thing does. -/
theorem get?_eq_some_of_mem {t : Table α} (nodup : (names t).Nodup) {e : String × α} (he : e ∈ t) :
    get? t e.1 = some e.2 := by
  induction t with
  | nil => cases he
  | cons d t ih =>
    obtain ⟨fresh, nodup⟩ := List.nodup_cons.1 nodup
    rcases List.mem_cons.1 he with rfl | he
    · exact if_pos rfl
    · have other : d.1 ≠ e.1 := fun same => fresh (same ▸ List.mem_map_of_mem he)
      exact (if_neg other).trans (ih nodup he)

theorem nodup_put {t : Table α} (nodup : (names t).Nodup) (name : String) (x : α) :
    (names (put t name x)).Nodup := by
  induction t with
  | nil => exact List.nodup_singleton name
  | cons e t ih =>
    obtain ⟨k, y⟩ := e
    obtain ⟨fresh, rest⟩ := List.nodup_cons.1 nodup
    rw [put]
    split
    · exact nodup
    · next other =>
      refine List.nodup_cons.2 ⟨fun again => ?_, ih rest⟩
      rcases (mem_names_put t name k x).1 again with same | again
      · exact other same
      · exact fresh again

/-- What a sequence of writes leaves was written, and stands alone under its name. -/
theorem ofList_spec (es : List (String × α)) :
    (names (ofList es)).Nodup ∧ ∀ e ∈ ofList es, e ∈ es := by
  suffices h : ∀ t : Table α, (names t).Nodup →
      (names (es.foldl (fun t e => put t e.1 e.2) t)).Nodup ∧
      ∀ e ∈ es.foldl (fun t e => put t e.1 e.2) t, e ∈ t ∨ e ∈ es by
    obtain ⟨nodup, mem⟩ := h [] List.nodup_nil
    exact ⟨nodup, fun e he => (mem e he).resolve_left List.not_mem_nil⟩
  induction es with
  | nil => exact fun t nodup => ⟨nodup, fun e he => .inl he⟩
  | cons d es ih =>
    intro t nodup
    obtain ⟨nodup', mem⟩ := ih _ (nodup_put nodup d.1 d.2)
    refine ⟨nodup', fun e he => ?_⟩
    rcases mem e he with he | he
    · rcases mem_put he with he | rfl
      · exact .inl he
      · exact .inr (List.mem_cons_self ..)
    · exact .inr (List.mem_cons_of_mem _ he)

end Table

/-! ### Standard checkers -/

namespace Checker

/-- The tests of scalars, by their labels. -/
def standardTests : List (String × (Value → Bool)) :=
  [("array", isArray), ("bool", isBool), ("number", isNumber), ("object", isObject),
   ("string", isString)]

/-- The label of a scalar tells its test. -/
theorem standardTests_unique {label : String} {p q : Value → Bool} (hp : (label, p) ∈ standardTests)
    (hq : (label, q) ∈ standardTests) : p = q := by
  have nodup : (Table.names standardTests).Nodup := by decide
  exact Option.some.inj ((Table.get?_eq_some_of_mem nodup hp).symm.trans
    (Table.get?_eq_some_of_mem nodup hq))

/-- A checker whose scalars have the tests that go with their labels, and whose shapes have one
field of each name. -/
inductive Standard : Checker → Prop
  | scalar {label : String} {accepts : Value → Bool} (r : Bool)
      (h : (label, accepts) ∈ standardTests) : Standard (.scalar label accepts r)
  | date (r : Bool) : Standard (.date r)
  | arrayOf {e : Checker} (r : Bool) (h : Standard e) : Standard (.arrayOf e r)
  | dictOf {e : Checker} (r : Bool) (h : Standard e) : Standard (.dictOf e r)
  | shape {fs : List (String × Checker)} (r : Bool) (nodup : (Table.names fs).Nodup)
      (h : ∀ f ∈ fs, Standard f.2) : Standard (.shape fs r)
  | reference (t : Target) (eager : Value) (r : Bool) : Standard (.reference t eager r)

theorem Standard.require {c : Checker} (h : c.Standard) : c.require.Standard := by
  cases h with
  | scalar _ h => exact .scalar _ h
  | date => exact .date _
  | arrayOf _ h => exact .arrayOf _ h
  | dictOf _ h => exact .dictOf _ h
  | shape _ nodup h => exact .shape _ nodup h
  | reference => exact .reference ..

end Checker

mutual

/-- What is built in the usual ways is standard. -/
theorem Expression.standard : (x : Expression) → x.checker.Standard
  | .array | .bool | .number | .object | .string =>
    .scalar _ (by simp [Checker.standardTests])
  | .date => .date _
  | .arrayOf x => .arrayOf _ (Expression.standard x)
  | .dictOf x => .dictOf _ (Expression.standard x)
  | .shape fs => by
    obtain ⟨nodup, mem⟩ := Table.ofList_spec (Expression.fieldCheckers fs)
    exact .shape _ nodup fun f hf => Expression.standard_fields fs f (mem f hf)
  | .reference _ _ _ => .reference ..
  | .required x => (Expression.standard x).require

/-- The same of the fields of a shape. -/
theorem Expression.standard_fields : (fs : List (String × Expression)) →
    ∀ f ∈ Expression.fieldCheckers fs, f.2.Standard
  | [] => List.forall_mem_nil _
  | (_, x) :: fs => List.forall_mem_cons.2 ⟨Expression.standard x, Expression.standard_fields fs⟩

end

namespace Checker

/-! ### Checkers that are alike -/

/-- **Checkers that are alike**: they differ at most in the order of the fields of shapes and in
what was given as the eagerness of references. -/
inductive Alike : Checker → Checker → Prop
  | scalar (label : String) (accepts : Value → Bool) (r : Bool) :
      Alike (.scalar label accepts r) (.scalar label accepts r)
  | date (r : Bool) : Alike (.date r) (.date r)
  | arrayOf {e e' : Checker} (r : Bool) (h : Alike e e') : Alike (.arrayOf e r) (.arrayOf e' r)
  | dictOf {e e' : Checker} (r : Bool) (h : Alike e e') : Alike (.dictOf e r) (.dictOf e' r)
  | shape {fs fs' : List (String × Checker)} (r : Bool)
      (names : ∀ name, name ∈ Table.names fs ↔ name ∈ Table.names fs')
      (h : ∀ f ∈ fs, ∀ f' ∈ fs', f.1 = f'.1 → Alike f.2 f'.2) : Alike (.shape fs r) (.shape fs' r)
  | reference {eager eager' : Value} (t : Target) (r : Bool) (h : eager.truthy = eager'.truthy) :
      Alike (.reference t eager r) (.reference t eager' r)

section

variable {ask : Address → Address → Except Failure Bool}

mutual

/-- **Standard checkers that are equal are alike.** -/
theorem alike_of_same : (a : Checker) → a.Standard → (b : Checker) → b.Standard →
    sameWith ask a b = .ok true → Alike a b
  | .scalar label accepts r, .scalar _ ha, b, hb, same => by
    cases hb with
    | @scalar label' accepts' r' hb =>
      obtain ⟨rfl, rfl⟩ : label = label' ∧ r = r' := by
        simpa [sameWith, pure, Except.pure] using same
      obtain rfl := standardTests_unique ha hb
      exact .scalar ..
    | _ => cases same
  | .date r, _, b, hb, same => by
    cases hb with
    | date r' =>
      obtain rfl : r = r' := by simpa [sameWith, pure, Except.pure] using same
      exact .date r
    | _ => cases same
  | .arrayOf e r, .arrayOf _ ha, b, hb, same => by
    cases hb with
    | @arrayOf e' r' hb =>
      rw [sameWith] at same
      split at same
      · next flag =>
        subst flag
        exact .arrayOf r (alike_of_same e ha e' hb same)
      · cases same
    | _ => cases same
  | .dictOf e r, .dictOf _ ha, b, hb, same => by
    cases hb with
    | @dictOf e' r' hb =>
      rw [sameWith] at same
      split at same
      · next flag =>
        subst flag
        exact .dictOf r (alike_of_same e ha e' hb same)
      · cases same
    | _ => cases same
  | .shape fs r, .shape _ nodup ha, b, hb, same => by
    cases hb with
    | @shape fs' r' nodup' hb =>
      rw [sameWith] at same
      split at same
      · next flag =>
        obtain ⟨rfl, size⟩ := flag
        have found := exists_of_sameFields fs ha hb same
        -- as many names, each of them among the others: the same names
        have sub : Table.names fs ⊆ Table.names fs' := by
          intro name hname
          obtain ⟨f, hf, rfl⟩ := List.mem_map.1 hname
          obtain ⟨c', hc', -⟩ := found f hf
          exact List.mem_map.2 ⟨_, Table.mem_of_get? hc', rfl⟩
        have size' : (Table.names fs').length ≤ (Table.names fs).length := by
          simp [Table.names, size]
        have perm := (nodup.subperm sub).perm_of_length_le size'
        refine .shape r (fun name => perm.mem_iff) fun f hf f' hf' heq => ?_
        obtain ⟨c', hc', alike⟩ := found f hf
        rw [heq, Table.get?_eq_some_of_mem nodup' hf'] at hc'
        cases hc'
        exact alike
      · cases same
    | _ => cases same
  | .reference t eager r, _, b, hb, same => by
    cases hb with
    | reference t' eager' r' =>
      rw [sameWith] at same
      split at same
      · next parts =>
        obtain ⟨rfl, rfl, truthy⟩ := parts
        exact .reference t r truthy
      · cases same
    | _ => cases same

/-- Each of the first fields is alike to one under its name among the second. -/
theorem exists_of_sameFields : (fs : List (String × Checker)) → (∀ f ∈ fs, f.2.Standard) →
    ∀ {fs' : List (String × Checker)}, (∀ f' ∈ fs', f'.2.Standard) →
      sameFields ask fs fs' = .ok true →
      ∀ f ∈ fs, ∃ c', Table.get? fs' f.1 = some c' ∧ Alike f.2 c'
  | [], _, _, _, _ => List.forall_mem_nil _
  | (name, c) :: fs, ha, fs', hb, same => by
    obtain ⟨first, rest⟩ := List.forall_mem_cons.1 ha
    rw [sameFields] at same
    cases found : Table.get? fs' name with
    | none =>
      rw [found] at same
      cases same
    | some c' =>
      rw [found] at same
      obtain ⟨here, hhere, same⟩ := bind_eq_ok.1 same
      cases here with
      | false => cases same
      | true =>
        have standard : c'.Standard := hb _ (Table.mem_of_get? found)
        exact List.forall_mem_cons.2
          ⟨⟨c', found, alike_of_same c first c' standard hhere⟩,
            exists_of_sameFields fs rest hb same⟩

end

end

/-! ### What passes -/

section

variable {g : Catalog} {h : Heap} {visit : Address → Except Failure Unit}

/-- An array passes if its elements do. -/
theorem presentWith_arrayOf_eq_ok_iff {e : Checker} {r : Bool} {v : Value} {name : String} :
    presentWith g h visit (.arrayOf e r) v name = .ok ⟨⟩ ↔ ∃ xs, v.elements? = some xs ∧
      ∀ p ∈ xs.zipIdx, checkWith g h visit false e p.1 (elementPath name p.2) = .ok ⟨⟩ := by
  rw [presentWith]
  cases v.elements? with
  | none =>
    constructor
    · rintro ⟨⟩
    · rintro ⟨_, ⟨⟩, _⟩
  | some xs =>
    refine forM_eq_ok_iff.trans ⟨fun ok => ⟨xs, rfl, ok⟩, ?_⟩
    rintro ⟨_, ⟨⟩, ok⟩
    exact ok

/-- A dictionary passes if its values do. -/
theorem presentWith_dictOf_eq_ok_iff {e : Checker} {r : Bool} {v : Value} {name : String} :
    presentWith g h visit (.dictOf e r) v name = .ok ⟨⟩ ↔ ∃ es, v = .dict es ∧
      ∀ p ∈ es, checkWith g h visit false e p.2 (entryPath name p.1) = .ok ⟨⟩ := by
  cases v with
  | dict es =>
    refine forM_eq_ok_iff.trans ⟨fun ok => ⟨es, rfl, ok⟩, ?_⟩
    rintro ⟨_, ⟨⟩, ok⟩
    exact ok
  | _ =>
    constructor
    · rintro ⟨⟩
    · rintro ⟨_, ⟨⟩, _⟩

/-- The fields of a shape pass if each does, with its own flag. -/
theorem presentFields_eq_ok_iff {fs : List (String × Checker)} {v : Value} {name : String} :
    presentFields g h visit fs v name = .ok ⟨⟩ ↔ ∀ f ∈ fs,
      checkWith g h visit f.2.required f.2 (shapeItem g h v f.1) (fieldPath name f.1) = .ok ⟨⟩ := by
  induction fs with
  | nil => exact ⟨fun _ => List.forall_mem_nil _, fun _ => rfl⟩
  | cons f fs ih =>
    rw [presentFields, List.forall_mem_cons, ← ih, bind_eq_ok]
    constructor
    · rintro ⟨⟨⟩, first, rest⟩
      exact ⟨first, rest⟩
    · rintro ⟨first, rest⟩
      exact ⟨⟨⟩, first, rest⟩

/-- A check passes alike if what is there does. -/
theorem checkWith_iff_of_present {a b : Checker} {required : Bool} {v : Value} {name : String}
    (present : presentWith g h visit a v name = .ok ⟨⟩ ↔ presentWith g h visit b v name = .ok ⟨⟩) :
    checkWith g h visit required a v name = .ok ⟨⟩ ↔
      checkWith g h visit required b v name = .ok ⟨⟩ := by
  rw [checkWith, checkWith, checkPresence_eq_ok_iff, checkPresence_eq_ok_iff, present]

namespace Alike

variable {a b : Checker}

theorem required_eq (alike : Alike a b) : a.required = b.required := by
  cases alike <;> rfl

/-- **What is alike accepts the same values.**  The fields of shapes are matched by name, whatever
their order. -/
theorem present_iff (alike : Alike a b) (v : Value) (name : String) :
    presentWith g h visit a v name = .ok ⟨⟩ ↔ presentWith g h visit b v name = .ok ⟨⟩ := by
  induction alike generalizing v name with
  | scalar | date | reference => exact Iff.rfl
  | arrayOf r _ ih =>
    rw [presentWith_arrayOf_eq_ok_iff, presentWith_arrayOf_eq_ok_iff]
    exact exists_congr fun xs => and_congr_right fun _ => forall₂_congr fun p _ =>
      checkWith_iff_of_present (ih p.1 _)
  | dictOf r _ ih =>
    rw [presentWith_dictOf_eq_ok_iff, presentWith_dictOf_eq_ok_iff]
    exact exists_congr fun es => and_congr_right fun _ => forall₂_congr fun p _ =>
      checkWith_iff_of_present (ih p.2 _)
  | @shape fs fs' r names alikes ih =>
    rw [presentWith, presentWith]
    split
    · exact Iff.rfl
    · rw [presentFields_eq_ok_iff, presentFields_eq_ok_iff]
      constructor
      · intro ok f' hf'
        obtain ⟨f, hf, heq⟩ := List.mem_map.1 ((names f'.1).2 (List.mem_map_of_mem hf'))
        rw [← (alikes f hf f' hf' heq).required_eq,
          ← checkWith_iff_of_present (ih f hf f' hf' heq _ _), ← heq]
        exact ok f hf
      · intro ok f hf
        obtain ⟨f', hf', heq⟩ := List.mem_map.1 ((names f.1).1 (List.mem_map_of_mem hf))
        rw [(alikes f hf f' hf' heq.symm).required_eq,
          checkWith_iff_of_present (ih f hf f' hf' heq.symm _ _), ← heq]
        exact ok f' hf'

end Alike

end

/-! ### Capabilities and decoding -/

namespace Alike

variable {a b : Checker}

/-- What is alike has the same capabilities. -/
theorem capabilities_eq (alike : Alike a b) : a.producesEntity = b.producesEntity ∧
    a.decodes = b.decodes ∧ a.deferred = b.deferred ∧ a.target? = b.target? := by
  induction alike with
  | scalar | date | shape => exact ⟨rfl, rfl, rfl, rfl⟩
  | arrayOf _ _ ih | dictOf _ _ ih => exact ⟨ih.1, ih.1, ih.2.2.1, ih.2.2.2⟩
  | reference t r truthy => exact ⟨rfl, rfl, truthy, rfl⟩

/-- What is alike decodes alike, at once. -/
theorem decodeWith_eq (alike : Alike a b) (g : Catalog) (make : ClassId → Value → Build Value) :
    decodeWith g make a = decodeWith g make b := by
  induction alike with
  | scalar | date | shape | reference => rfl
  | arrayOf _ _ ih | dictOf _ _ ih =>
    funext raw
    rw [decodeWith, decodeWith, ih]

/-- What is alike is waited for alike. -/
theorem awaitWith_eq (alike : Alike a b) (seek : ClassId → Value → Action Value) :
    awaitWith seek a = awaitWith seek b := by
  induction alike with
  | scalar | date | shape | reference => rfl
  | arrayOf _ _ ih | dictOf _ _ ih =>
    funext raw h
    rw [awaitWith, awaitWith, ih]

end Alike

/-- **Equal checkers are interchangeable.**  Of two checkers that were built in the usual ways and
are equal, a value passes the one if it passes the other, whatever the heap and the names that are
registered; they have the same capabilities; and what one makes of a raw value the other makes of it
too, with the same effects. -/
theorem interchangeable {x y : Expression} {ask : Address → Address → Except Failure Bool}
    (same : sameWith ask x.checker y.checker = .ok true) :
    (∀ g h v name, Method.check g h x.checker.required x.checker v name = .ok ⟨⟩ ↔
      Method.check g h y.checker.required y.checker v name = .ok ⟨⟩) ∧
    x.checker.decodes = y.checker.decodes ∧ x.checker.deferred = y.checker.deferred ∧
    x.checker.producesEntity = y.checker.producesEntity ∧
    ∀ raw, Loading.decode x.checker raw = Loading.decode y.checker raw := by
  have alike : Alike x.checker y.checker :=
    alike_of_same _ x.standard _ y.standard same
  obtain ⟨produces, decodes, deferred, -⟩ := alike.capabilities_eq
  refine ⟨fun g h v name => ?_, decodes, deferred, produces, fun raw => ?_⟩
  · rw [Method.check, Method.check, alike.required_eq]
    exact checkWith_iff_of_present (alike.present_iff v name)
  · rw [Loading.decode, Loading.decode, deferred]
    simp only [alike.awaitWith_eq, Construction.decode, alike.decodeWith_eq]

/-! ### Two shapes -/

/-- A person, with a shape in a shape and an eager reference. -/
def person : Expression :=
  .shape [("name", .required .string),
    ("home", .shape [("street", .string), ("number", .number)]),
    ("friends", .arrayOf (.reference (.named "User") false (.bool true)))]

/-- The same with the fields in other orders, and with the eagerness given as a number. -/
def personReordered : Expression :=
  .shape [("friends", .arrayOf (.reference (.named "User") true (.int 1))),
    ("home", .shape [("number", .number), ("street", .string)]),
    ("name", .required .string)]

/-- A person without a name is accepted by neither, though each looks at other fields first. -/
theorem interchangeable_person :
    sameWith (fun _ _ => (.ok false : Except Failure Bool)) person.checker
      personReordered.checker = .ok true ∧
    (Method.check Catalog.initial [] false person.checker (.dict []) "x" = .ok ⟨⟩ ↔
      Method.check Catalog.initial [] false personReordered.checker (.dict []) "x" = .ok ⟨⟩) ∧
    Loading.decode person.checker .null = Loading.decode personReordered.checker .null := by
  have same : sameWith (fun _ _ => (.ok false : Except Failure Bool)) person.checker
      personReordered.checker = .ok true := rfl
  obtain ⟨passes, -, -, -, decoded⟩ := interchangeable same
  exact ⟨same, passes _ _ _ _, decoded _⟩

end Checker

end EntitySchema
