/-
**The first failure of a check is the first of all its failures.**

A check stops at the first failure.  An *inspection* does not stop: it lists every place that a
checker comes to in a value, in order, and asks at each place on its own whether something is wrong
there.  A place is named by the steps that lead to it from the root, and the failure found there
names the field by writing these steps, one after the other, behind the name of the root.

An entity of the right class counts as one place: it contributes the first failure of its own
schema, as the cause of a nested failure if that is the failure of a check, and as it is otherwise.

Main definitions:

* `Inspection.Step`, `Inspection.Place`, `Inspection.places` — the places of an inspection;
* `Inspection.Defect`, `Inspection.defect?` — what is wrong at a place by itself;
* `Inspection.entityFailure?` — the first failure of an entity's own schema;
* `Inspection.failures` — **all failures of a check**, in order.

Main results:

* `Inspection.presentWith_eq_first` — the check of a value that is there, for any way to visit
  entities;
* `Inspection.validate_eq_entityFailure?` — the validation of an entity that holds no entity which
  contains itself;
* `Inspection.check_eq_first` — **a check fails with the first of all failures, and passes if there
  is none.**
-/

import EntitySchema.Proofs.Containment

set_option autoImplicit false

namespace EntitySchema

namespace Inspection

/-! ### Places -/

/-- One step from a value to a part of it. -/
inductive Step where
  | index (i : Nat)
  | key (k : Value)
  | field (name : String)

/-- A step as it is written behind the name of a field. -/
def Step.text : Step → String
  | .index i => "[" ++ toString i ++ "]"
  | .key k => "[" ++ k.toText ++ "]"
  | .field name => "." ++ name

/-- The name of the place that steps lead to from a root of a given name. -/
def nameAt (root : String) (position : List Step) : String :=
  position.foldl (fun name s => name ++ s.text) root

/-- A place of an inspection: the steps that lead to it, the value that is there, the checker that
it is checked by, and whether it must not be absent. -/
structure Place where
  position : List Step
  required : Bool
  checker : Checker
  value : Value

/-- A place seen from one step above. -/
def Place.below (s : Step) (p : Place) : Place := { p with position := s :: p.position }

/-- The place of a value itself, and the places in it if it is there. -/
def rooted (required : Bool) (c : Checker) (v : Value) (inside : List Place) : List Place :=
  ⟨[], required, c, v⟩ :: if v.isNull then [] else inside

variable (g : Catalog) (h : Heap)

mutual

/-- The places in a value that is there: elements by index, entries in the order of insertion,
fields in the order of the shape.  Elements and entries may be absent whatever their
checker says. -/
def inside : Checker → Value → List Place
  | .arrayOf e _, v =>
    match v.elements? with
    | some xs => xs.zipIdx.flatMap fun p =>
        (rooted false e p.1 (inside e p.1)).map (Place.below (.index p.2))
    | none => []
  | .dictOf e _, v =>
    match v with
    | .dict es => es.flatMap fun p =>
        (rooted false e p.2 (inside e p.2)).map (Place.below (.key p.1))
    | _ => []
  | .shape fs _, v => if Checker.isPrimitive v then [] else insideFields fs v
  | .scalar _ _ _, _ => []
  | .date _, _ => []
  | .reference _ _ _, _ => []
termination_by structural c => c

/-- The places in the fields of a shape, each with the flag of its own checker. -/
def insideFields : List (String × Checker) → Value → List Place
  | [], _ => []
  | (field, c) :: fs, v =>
    let item := Checker.shapeItem g h v field
    (rooted c.required c item (inside c item)).map (Place.below (.field field)) ++
      insideFields fs v
termination_by structural fs => fs

end

/-- All places of an inspection, in order. -/
def places (required : Bool) (c : Checker) (v : Value) : List Place :=
  rooted required c v (inside g h c v)

/-! ### What is wrong at a place -/

/-- What is wrong at a place, whatever the place is called. -/
inductive Defect where
  | missing
  | mismatch (why : Mismatch)
  | notArray
  | notDictionary (actual : String)
  | nested (cause : CheckError)
  /-- A failure that is no failed check of a field, such as a class that is not registered. -/
  | other (f : Failure)

/-- A defect as the failure of the field where it is. -/
def Defect.failure (field : String) : Defect → Failure
  | .missing => .check (.missing field)
  | .mismatch why => .check (.mismatch field why)
  | .notArray => .check (.notArray field)
  | .notDictionary actual => .check (.notDictionary field actual)
  | .nested cause => .check (.nested field cause)
  | .other f => f

/-- The failure of an entity as the defect of the place where it is. -/
def Defect.ofEntity : Failure → Defect
  | .check e => .nested e
  | f => .other f

section

variable (own : Address → Option Failure)

/-- What is wrong with a value where an entity should be: its class, or else the entity itself. -/
def entityDefect? (t : Target) (v : Value) : Option Defect :=
  match g.resolve t with
  | .error f => some (.other f)
  | .ok cls =>
    let other : Defect := .mismatch (.insteadOf (g.nameOf cls) (Heap.typeName g h v))
    match v with
    | .object a => if Heap.isInstance g h a cls then (own a).map Defect.ofEntity else some other
    | _ => some other

/-- What is wrong with a value that is there, parts of it apart; `own` tells the first failure of an
entity. -/
def presentDefect? (c : Checker) (v : Value) : Option Defect :=
  match c with
  | .scalar label accepts _ => if accepts v then none else some (.mismatch (.isNot label))
  | .date _ =>
    match v with
    | .date _ | .moment _ => none
    | v => some (.mismatch (.insteadOf "a date" (Heap.typeName g h v)))
  | .arrayOf _ _ => if v.elements?.isSome then none else some .notArray
  | .dictOf _ _ =>
    match v with
    | .dict _ => none
    | v => some (.notDictionary (Heap.typeName g h v))
  | .shape _ _ => if Checker.isPrimitive v then some (.mismatch (.isNot "a shape")) else none
  | .reference t _ _ => entityDefect? g h own t v

/-- What is wrong at a place by itself. -/
def defect? (p : Place) : Option Defect :=
  if p.value.isNull then (if p.required then some .missing else none)
  else presentDefect? g h own p.checker p.value

/-- The failure at a place, its field being named by the position. -/
def failureAt? (root : String) (p : Place) : Option Failure :=
  (defect? g h own p).map (Defect.failure (nameAt root p.position))

/-- The failures at all places, in order. -/
def failuresBy (required : Bool) (c : Checker) (v : Value) (root : String) : List Failure :=
  (places g h required c v).filterMap (failureAt? g h own root)

/-- The failures of the field that a rule of the schema of an object is for. -/
def fieldFailures (a : Address) : Value × Heap.Rule → List Failure
  | (.str name, .checker c) => failuresBy g h own c.required c (Heap.field g h a name) name
  | (_, .checker _) => [.misuse .notAName]
  | (_, .other v) =>
    [if (Heap.attribute? g h 0 v "validate").isSome then .misuse .notCallable
      else .noAttribute "validate"]

/-- The failures of all fields of an object, in the order of its schema. -/
def schemaFailures (a : Address) : List Failure :=
  match Heap.rules g h a with
  | .ok rs => rs.flatMap (fieldFailures g h own a)
  | .error f => [f]

end

/-- The first failure of an entity's own schema, through at most `fuel` entities one inside the
other. An entity that has something else in place of its validation contributes what comes of
calling that. -/
def entityFailure? : Nat → Address → Option Failure
  | 0, _ => some .endless
  | fuel + 1, a =>
    match Heap.objectAttribute? g h a "validate" with
    | some (.method (.object b) "validate") => (schemaFailures g h (entityFailure? fuel) b).head?
    | some m =>
      match Method.invoke g h m with
      | .ok _ => none
      | .error f => some f
    | none => some (.noAttribute "validate")

/-- **All failures of a check**, in order. -/
def failures (required : Bool) (c : Checker) (v : Value) (root : String) : List Failure :=
  failuresBy g h (entityFailure? g h (h.length + 2)) required c v root

/-! ### The first of some failures -/

/-- The outcome of a check that fails with the first of some failures, if there is one. -/
def first : List Failure → Except Failure Unit
  | [] => .ok ()
  | f :: _ => .error f

theorem first_append (fs gs : List Failure) :
    first (fs ++ gs) = (do first fs; first gs) := by
  cases fs with
  | nil => rfl
  | cons f fs => rfl

/-- A traversal fails with the first failure of its members. -/
theorem forM_eq_first {α : Type} {f : α → Except Failure Unit} {fails : α → List Failure}
    {xs : List α} (hf : ∀ x ∈ xs, f x = first (fails x)) :
    xs.forM f = first (xs.flatMap fails) := by
  induction xs with
  | nil => rfl
  | cons x xs ih =>
    rw [List.flatMap_cons, first_append, ← hf x (List.mem_cons_self ..),
      ← ih fun y hy => hf y (List.mem_cons_of_mem x hy)]
    rfl

/-! ### Places and names -/

section

variable {g : Catalog} {h : Heap} {own : Address → Option Failure}

/-- Places below another are checked as they are by themselves, under the name that leads
to them. -/
theorem filterMap_below (root : String) (s : Step) (ps : List Place) :
    (ps.map (Place.below s)).filterMap (failureAt? g h own root) =
      ps.filterMap (failureAt? g h own (root ++ s.text)) := by
  rw [List.filterMap_map]
  rfl

/-- Of a value that may be absent, the failures are those of its absence or those inside. -/
theorem first_rooted (required : Bool) (c : Checker) (v : Value) (ps : List Place) (root : String) :
    first ((rooted required c v ps).filterMap (failureAt? g h own root)) =
      checkPresence required v root
        (first (((presentDefect? g h own c v).map (Defect.failure root)).toList ++
          ps.filterMap (failureAt? g h own root))) := by
  by_cases hv : v.isNull = true
  · cases required <;>
      simp [rooted, failureAt?, defect?, checkPresence, hv, first, Defect.failure, failCheck,
        nameAt]
  · have here : failureAt? g h own root ⟨[], required, c, v⟩ =
        (presentDefect? g h own c v).map (Defect.failure root) := by
      simp [failureAt?, defect?, hv, nameAt]
    rw [rooted, if_neg hv, checkPresence, if_neg hv, List.filterMap_cons, here]
    cases (presentDefect? g h own c v).map (Defect.failure root) <;> rfl

end

/-! ### The check of a value that is there -/

section

variable {g : Catalog} {h : Heap} {own : Address → Option Failure}

/-- The outcome of the validation of an entity that `own` tells the first failure of. -/
def outcomeOf (own : Address → Option Failure) (a : Address) : Except Failure Unit :=
  first (own a).toList

theorem presentEntity_eq_first (t : Target) (v : Value) (root : String) :
    Checker.presentEntity g h (outcomeOf own) t v root =
      first ((entityDefect? g h own t v).map (Defect.failure root)).toList := by
  unfold Checker.presentEntity entityDefect?
  cases g.resolve t with
  | error f => rfl
  | ok cls =>
    cases v with
    | object a =>
      simp only [bind, Except.bind]
      split
      · unfold outcomeOf
        cases own a with
        | none => rfl
        | some f => cases f <;> rfl
      · rfl
    | _ => rfl

mutual

/-- The check of a value that is there fails with the first failure of the value itself or of the
places inside. -/
theorem presentWith_eq_first : (c : Checker) → (v : Value) → (root : String) →
    Checker.presentWith g h (outcomeOf own) c v root =
      first (((presentDefect? g h own c v).map (Defect.failure root)).toList ++
        (inside g h c v).filterMap (failureAt? g h own root))
  | .scalar label accepts _, v, root => by
    simp only [Checker.presentWith, presentDefect?, inside]
    split <;> rfl
  | .date _, v, root => by cases v <;> rfl
  | .arrayOf e r, v, root => by
    simp only [Checker.presentWith, presentDefect?, inside]
    cases v.elements? with
    | none => rfl
    | some xs =>
      simp only [Option.isSome_some, if_true, Option.map_none, Option.toList_none, List.nil_append,
        List.filterMap_flatMap]
      -- the first failure of all is that of the first element that fails
      refine forM_eq_first ?_
      intro p _
      have name : elementPath root p.2 = root ++ (Step.index p.2).text := by
        simp only [elementPath, Step.text, String.append_assoc]
      rw [filterMap_below, first_rooted, name, presentWith_eq_first e p.1]
  | .dictOf e r, v, root => by
    cases v with
    | dict es =>
      simp only [Checker.presentWith, presentDefect?, inside, Option.map_none, Option.toList_none,
        List.nil_append, List.filterMap_flatMap]
      refine forM_eq_first ?_
      intro p _
      have name : entryPath root p.1 = root ++ (Step.key p.1).text := by
        simp only [entryPath, Step.text, String.append_assoc]
      rw [filterMap_below, first_rooted, name, presentWith_eq_first e p.2]
    | _ => rfl
  | .shape fs r, v, root => by
    simp only [Checker.presentWith, presentDefect?, inside]
    split
    · rfl
    · exact presentFields_eq_first fs v root
  | .reference t eager r, v, root => by
    simp only [Checker.presentWith, presentDefect?, inside, List.filterMap_nil, List.append_nil]
    exact presentEntity_eq_first t v root

/-- The check of the fields of a shape fails with the first failure of the places in them. -/
theorem presentFields_eq_first : (fs : List (String × Checker)) → (v : Value) → (root : String) →
    Checker.presentFields g h (outcomeOf own) fs v root =
      first ((insideFields g h fs v).filterMap (failureAt? g h own root))
  | [], _, _ => rfl
  | (field, c) :: fs, v, root => by
    have name : fieldPath root field = root ++ (Step.field field).text := by
      simp only [fieldPath, Step.text, String.append_assoc]
    simp only [Checker.presentFields, insideFields, List.filterMap_append]
    rw [first_append, filterMap_below, first_rooted, name, presentWith_eq_first c,
      presentFields_eq_first fs v root]

end

/-- A check visiting entities of which `own` tells the first failure fails with the first of the
failures at all places. -/
theorem checkWith_eq_first {visit : Address → Except Failure Unit} {v : Value}
    (hv : ∀ a, h.Holds v a → visit a = outcomeOf own a) (required : Bool) (c : Checker)
    (root : String) : Checker.checkWith g h visit required c v root =
      first (failuresBy g h own required c v root) := by
  rw [Checker.checkWith_congr required c root hv, Checker.checkWith, presentWith_eq_first,
    failuresBy, places, first_rooted]

end

/-! ### The validation of an entity -/

section

variable {g : Catalog} {h : Heap}

/-- The check of a field fails with the first of its failures. -/
theorem checkField_eq_first {own : Address → Option Failure} {a : Address}
    {rs : List (Value × Heap.Rule)} (hrs : Heap.rules g h a = .ok rs)
    (hv : ∀ b, Heap.Contains g h a b → Method.validate g h b = outcomeOf own b)
    {r : Value × Heap.Rule} (hr : r ∈ rs) :
    Validation.checkField g h (Method.validate g h) a r = first (fieldFailures g h own a r) := by
  obtain ⟨k, rule⟩ := r
  cases rule with
  | checker c =>
    cases k with
    | str name =>
      refine checkWith_eq_first ?_ c.required c name
      intro b hb
      exact hv b ⟨rs, hrs, name, .checker c, hr, hb⟩
    | _ => rfl
  | other w => cases k <;> rfl

/-- Where `own` tells the outcomes of the entities that an object contains, the validation of its
fields fails with the first of their failures. -/
theorem validateWith_eq_first {own : Address → Option Failure} {a : Address}
    (hv : ∀ b, Heap.Contains g h a b → Method.validate g h b = outcomeOf own b) :
    Validation.validateWith g h (Method.validate g h) a = first (schemaFailures g h own a) := by
  unfold Validation.validateWith schemaFailures
  cases hrs : Heap.rules g h a with
  | error f => rfl
  | ok rs =>
    refine forM_eq_first ?_
    intro r hr
    exact checkField_eq_first hrs hv hr

theorem first_head? (fs : List Failure) : first fs.head?.toList = first fs := by
  cases fs <;> rfl

/-- What an entity asked for its validation answers is the first failure of the schema that it goes
by, if the validation of that schema is. -/
theorem validate_of_schema {v : Value} (hv : Heap.SelfFree g h v) {a : Address} (ha : h.Holds v a)
    {n : Nat} (hb : ∀ b, Heap.objectAttribute? g h a "validate" =
        some (.method (.object b) "validate") →
      Validation.validateWith g h (Method.validate g h) b =
        first (schemaFailures g h (entityFailure? g h n) b)) :
    Method.validate g h a = outcomeOf (entityFailure? g h (n + 1)) a := by
  have called : ∀ m, discard (Method.invoke g h m) = first (Option.toList
      (match Method.invoke g h m with
        | .ok _ => none
        | .error f => some f)) := by
    intro m
    cases Method.invoke g h m <;> rfl
  unfold outcomeOf Method.validate Method.send entityFailure?
  simp only [Heap.attribute?]
  cases hm : Heap.objectAttribute? g h a "validate" with
  | none => rfl
  | some m =>
    simp only
    split
    · next b heq =>
      cases heq
      -- the method belongs to an object that the value holds, so it is no deeper
      have free : Heap.SelfFree g h (.object b) := hv.object (Method.holds_of_asked hm ha)
      rw [Method.invoke_validate free, hb b hm, first_head?]
      cases first (schemaFailures g h (entityFailure? g h n) b) <;> rfl
    · next heq =>
      cases heq
      exact called m
    · next heq => cases heq

/-- The validation of the fields of an object fails with the first of their failures. -/
theorem validateWith_eq_schemaFailures {v : Value} (hv : Heap.SelfFree g h v) :
    ∀ (k : Nat) (a : Address), h.Holds v a → Heap.rank g h a ≤ k → ∀ n, k ≤ n →
      Validation.validateWith g h (Method.validate g h) a =
        first (schemaFailures g h (entityFailure? g h n) a) := by
  intro k
  -- along the ranks: what `a` contains has a lower one
  induction k using Nat.strong_induction_on with
  | _ k ih =>
    intro a ha hk n hn
    refine validateWith_eq_first ?_
    intro b hab
    have hb : h.Holds v b := hab.holds ha
    have lt : Heap.rank g h b < Heap.rank g h a := Heap.rank_lt hab (hv b hb)
    obtain ⟨m, rfl⟩ : ∃ m, n = m + 1 := ⟨n - 1, by omega⟩
    refine validate_of_schema hv hb ?_
    intro c hc
    have hac : Heap.Contains g h a c := by
      obtain ⟨rs, hrs, name, r, hr, hheld⟩ := hab
      exact ⟨rs, hrs, name, r, hr, Method.holds_of_asked hc hheld⟩
    have hcv : h.Holds v c := hac.holds ha
    have lt_c : Heap.rank g h c < Heap.rank g h a := Heap.rank_lt hac (hv c hcv)
    exact ih (Heap.rank g h c) (by omega) c hcv le_rfl m (by omega)

/-- An entity that a self-free value holds fails with the first failure of its own schema. -/
theorem validate_eq_entityFailure? {v : Value} (hv : Heap.SelfFree g h v) {a : Address}
    (ha : h.Holds v a) :
    Method.validate g h a = outcomeOf (entityFailure? g h (h.length + 2)) a := by
  refine validate_of_schema hv ha ?_
  intro b hb
  exact validateWith_eq_schemaFailures hv (h.length + 1) b (Method.holds_of_asked hb ha)
    (Heap.rank_le b) (h.length + 1) le_rfl

end

/-! ### All failures of a check -/

variable {g : Catalog} {h : Heap}

/-- **A check fails with the first of all failures, and passes if there is none.**  This is so for
each flag: that of the checker itself, and either of the two that may be asked for instead. -/
theorem check_eq_first {v : Value} (hv : Heap.SelfFree g h v) (c : Checker) (name : String)
    (required : Bool) :
    Method.check g h required c v name = first (failures g h required c v name) :=
  checkWith_eq_first (fun _ ha => validate_eq_entityFailure? hv ha) required c name

/-! ### A team with a nameless friend -/

/-- A class of users, who have a name and may have a friend. -/
def users : Catalog where
  classes := Catalog.initial.classes ++
    [⟨"User", "User", [1, 0],
      [("name", Checker.string.require), ("friend", .reference (.named "User") .null false)],
      none, none⟩]
  names := [("User", 1)]

/-- A nameless user, and a friend of it. -/
def twoUsers : Heap :=
  [.entity 1 .null [] [("name", .null), ("friend", .null)],
   .entity 1 .null [] [("name", .str "Ann"), ("friend", .object 0)]]

theorem selfFree_twoUsers : Heap.SelfFree users twoUsers (.list [.null, .object 1]) := by
  have nothing : (Value.dict []).Inert := Value.inert_dict (by simp)
  have nameless : Heap.SelfFree users twoUsers (.object 0) := by
    refine Heap.SelfFree.of_attributes ?_ ?_
    · intro p hp
      simp only [Heap.get, twoUsers, Cell.entity, List.getElem?_cons_zero, Option.getD_some,
        List.map_nil, List.mem_cons, List.not_mem_nil, or_false] at hp
      rcases hp with rfl | rfl | rfl | rfl
      · exact .of_inert Value.inert_null
      · exact .of_inert nothing
      · exact .of_inert Value.inert_null
      · exact .of_inert Value.inert_null
    · rintro rs hrs name r hr
      cases hrs
      rcases List.mem_cons.1 hr with heq | hr
      · cases heq
        exact .of_inert Value.inert_null
      · cases List.mem_singleton.1 hr
        exact .of_inert Value.inert_null
  have ann : Heap.SelfFree users twoUsers (.object 1) := by
    refine Heap.SelfFree.of_attributes ?_ ?_
    · intro p hp
      simp only [Heap.get, twoUsers, Cell.entity, List.getElem?_cons_zero, List.getElem?_cons_succ,
        Option.getD_some, List.map_nil, List.mem_cons, List.not_mem_nil, or_false] at hp
      rcases hp with rfl | rfl | rfl | rfl
      · exact .of_inert Value.inert_null
      · exact .of_inert nothing
      · exact .of_inert (Value.inert_str _)
      · exact nameless
    · rintro rs hrs name r hr
      cases hrs
      rcases List.mem_cons.1 hr with heq | hr
      · cases heq
        exact .of_inert (Value.inert_str _)
      · cases List.mem_singleton.1 hr
        exact nameless
  refine Heap.SelfFree.of_leads ?_
  rintro a (_ | _ | _ | ⟨hx, hl⟩)
  rcases List.mem_cons.1 hx with rfl | hx
  · cases hl
  · rcases List.mem_singleton.1 hx with rfl
    cases hl
    exact ann

/-- A member of a team who is a friend of a nameless user fails with the failure of that user,
wrapped once for each entity on the way. -/
theorem check_team : Method.check users twoUsers true
    (.arrayOf (.reference (.named "User") .null false) false) (.list [.null, .object 1]) "team" =
      .error (.check (.nested "team[1]" (.nested "friend" (.missing "name")))) := by
  rw [check_eq_first selfFree_twoUsers]
  rfl

end Inspection

end EntitySchema
