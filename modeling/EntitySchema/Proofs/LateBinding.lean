/-
**Names of classes are bound late.**

A reference may name the class that it is to.  The name is resolved whenever the class is needed: in
a check, in decoding and loading, and when it is asked what entities are produced.  As long as the
names are registered as they are, all this is as if the class had been given at first.

Main definitions:

* `Checker.names` — the names in a checker;
* `Target.resolved`, `Checker.resolved` — **a checker in which names are replaced by the classes
  they stand for.**

Main results:

* `Checker.names_resolved` — where all names are registered, none is left;
* `Checker.equivalent_resolved` — names take no part but through the classes they stand for;
* `Checker.late_binding` — **late binding is transparent.**
-/

import EntitySchema.Proofs.EquivalentCheckers

set_option autoImplicit false

namespace EntitySchema

/-- The target itself, by the class it stands for.  A name under which there is no class stays. -/
def Target.resolved (g : Catalog) (t : Target) : Target :=
  match g.resolve t with
  | .ok found => .cls found
  | .error _ => t

theorem Target.resolved_of_ok {g : Catalog} {t : Target} {found : ClassId}
    (h : g.resolve t = .ok found) : t.resolved g = .cls found := by
  rw [resolved, h]

theorem Target.resolve_resolved (g : Catalog) (t : Target) :
    g.resolve (t.resolved g) = g.resolve t := by
  rw [resolved]
  cases h : g.resolve t with
  | ok found => rfl
  | error e => exact h

namespace Checker

/-! ### Names -/

mutual

/-- The names of classes in a checker, at any depth. -/
def names : Checker → List String
  | .arrayOf e _ | .dictOf e _ => e.names
  | .shape fs _ => namesOfFields fs
  | .reference (.named name) _ _ => [name]
  | _ => []
termination_by structural c => c

/-- The names of classes in the fields of a shape. -/
def namesOfFields : List (String × Checker) → List String
  | [] => []
  | (_, c) :: fs => c.names ++ namesOfFields fs
termination_by structural fs => fs

end

mutual

/-- **The checker in which every name, at any depth, is replaced by the class it stands for.** -/
def resolved (g : Catalog) : Checker → Checker
  | .arrayOf e r => .arrayOf (e.resolved g) r
  | .dictOf e r => .dictOf (e.resolved g) r
  | .shape fs r => .shape (resolvedFields g fs) r
  | .reference t eager r => .reference (t.resolved g) eager r
  | c => c
termination_by structural c => c

/-- The same in the fields of a shape. -/
def resolvedFields (g : Catalog) : List (String × Checker) → List (String × Checker)
  | [] => []
  | (name, c) :: fs => (name, c.resolved g) :: resolvedFields g fs
termination_by structural fs => fs

end

variable {g : Catalog}

mutual

/-- Where all names are registered, none is left. -/
theorem names_resolved : (c : Checker) →
    (∀ name ∈ c.names, ∃ cls, g.resolve (.named name) = .ok cls) → (c.resolved g).names = []
  | .scalar _ _ _, _ | .date _, _ => rfl
  | .arrayOf e _, known => names_resolved e known
  | .dictOf e _, known => names_resolved e known
  | .shape fs _, known => names_resolvedFields fs known
  | .reference (.cls _) _ _, _ => rfl
  | .reference (.named name) eager r, known => by
    obtain ⟨cls, hcls⟩ := known name (List.mem_singleton_self name)
    rw [resolved, Target.resolved_of_ok hcls]
    rfl

/-- The same of the fields of a shape. -/
theorem names_resolvedFields : (fs : List (String × Checker)) →
    (∀ name ∈ namesOfFields fs, ∃ cls, g.resolve (.named name) = .ok cls) →
    namesOfFields (resolvedFields g fs) = []
  | [], _ => rfl
  | (_, c) :: fs, known => by
    have here := names_resolved c fun name hname => known name (List.mem_append_left _ hname)
    have rest := names_resolvedFields fs fun name hname =>
      known name (List.mem_append_right _ hname)
    rw [resolvedFields, namesOfFields, here, rest, List.append_nil]

end

/-! ### What the names stand for -/

@[simp] theorem required_resolved (c : Checker) : (c.resolved g).required = c.required := by
  cases c <;> rfl

theorem heads_resolvedFields (fs : List (String × Checker)) :
    (resolvedFields g fs).map (fun f => (f.1, f.2.required)) =
      fs.map fun f => (f.1, f.2.required) := by
  induction fs with
  | nil => rfl
  | cons f fs ih =>
    rw [resolvedFields, List.map_cons, List.map_cons, ih, required_resolved]

mutual

/-- **Names take no part but through the classes they stand for.** -/
theorem equivalent_resolved : (c : Checker) → Equivalent g (c.resolved g) c
  | .scalar l p r => .scalar l p r r
  | .date r => .date r r
  | .arrayOf e r => .arrayOf r r (equivalent_resolved e)
  | .dictOf e r => .dictOf r r (equivalent_resolved e)
  | .shape fs r => .shape r r (heads_resolvedFields fs) (equivalent_resolvedFields fs)
  | .reference t _ r => .reference r r (t.resolve_resolved g) rfl

/-- The same of the fields of a shape. -/
theorem equivalent_resolvedFields : (fs : List (String × Checker)) →
    ∀ p ∈ (resolvedFields g fs).zip fs, Equivalent g p.1.2 p.2.2
  | [] => List.forall_mem_nil _
  | (_, c) :: fs => List.forall_mem_cons.2 ⟨equivalent_resolved c, equivalent_resolvedFields fs⟩

end

/-! ### Late binding -/

/-- What a checker loads of a raw value, if at most `fuel` entities are entered one after the
other. -/
def loadWithin (fuel : Nat) : Checker → Value → Action Value :=
  loadWith (Loading.loadWithin fuel) (Loading.findWith (Loading.loadWithin fuel))

/-- **Late binding is transparent.**  Let all names in a checker be registered.  The checker in
which they are replaced by the classes they stand for has no names, and in every session with these
classes under these names it has the same outcomes: of checks, of decoding, and of loading, however
many entities are entered one after the other; failures, lookups and what becomes of the session
included.  What it is able to do is the same, and so is the class of the entities it produces. -/
theorem late_binding {c : Checker}
    (known : ∀ name ∈ c.names, ∃ cls, g.resolve (.named name) = .ok cls) :
    (c.resolved g).names = [] ∧ (c.resolved g).required = c.required ∧
    (∀ h required v name, Method.check g h required (c.resolved g) v name =
      Method.check g h required c v name) ∧
    ((c.resolved g).producesEntity = c.producesEntity ∧ (c.resolved g).decodes = c.decodes ∧
      (c.resolved g).deferred = c.deferred ∧
      (c.resolved g).target?.map g.resolve = c.target?.map g.resolve) ∧
    ∀ s : Session, s.catalog = g → ∀ raw,
      Session.outcome (Loading.decode (c.resolved g) raw) s =
        Session.outcome (Loading.decode c raw) s ∧
      ∀ fuel, Session.outcome (loadWithin fuel (c.resolved g) raw) s =
          Session.outcome (loadWithin fuel c raw) s ∧
        Session.outcome (Session.arrange (loadWithin fuel (c.resolved g) raw)) s =
          Session.outcome (Session.arrange (loadWithin fuel c raw)) s ∧
        (Session.outcome (loadWithin fuel c raw) s).2.catalog = g := by
  have same : Equivalent g (c.resolved g) c := equivalent_resolved c
  refine ⟨names_resolved c known, required_resolved c, fun h required v name =>
    same.check_eq required v name, same.capabilities_eq, ?_⟩
  intro s hs raw
  subst hs
  refine ⟨same.outcome_decode raw, fun fuel => ?_⟩
  have within := Loading.agreeOn_loadWithin (g := s.catalog) fuel
  have agree : Session.AgreeOn (Session.Under s.catalog)
      (loadWithin fuel (c.resolved s.catalog) raw) (loadWithin fuel c raw) :=
        same.agreeOn_loadWith within (Loading.agreeOn_findWith within) raw
  exact ⟨(agree s rfl).1, (agree.arrange s rfl).1, (agree s rfl).2⟩

/-- A class of painters, who are looked up by the class itself. -/
def gallery : Catalog where
  classes := Catalog.initial.classes ++ [⟨"Painter", "Painter", [1, 0], [("name", Checker.string)],
    some (Lookup.ofRecords [(.str "a", .dict [(.str "name", .str "ann")])]), none⟩]
  names := [("Painter", 1)]

/-- The painters of some rooms, named before there is a class of them. -/
def painters : Checker :=
  .dictOf (.arrayOf (.reference (.named "Painter") (.bool true) false) false) false

/-- The painters of two rooms: of the one somebody and nobody, of the other none. -/
def rooms : Value :=
  .dict [(.str "one", .list [.dict [(.str "_id", .str "a")], .null]), (.str "two", .list [])]

/-- The painters of the rooms are looked up as if their class had been given. -/
theorem late_binding_painters :
    (∀ name ∈ painters.names, ∃ cls, gallery.resolve (.named name) = .ok cls) ∧
    painters.resolved gallery =
      .dictOf (.arrayOf (.reference (.cls 1) (.bool true) false) false) false ∧
    Session.outcome (Loading.decode (painters.resolved gallery) rooms)
        { Session.initial with catalog := gallery } =
      Session.outcome (Loading.decode painters rooms)
        { Session.initial with catalog := gallery } := by
  have known : ∀ name ∈ painters.names, ∃ cls, gallery.resolve (.named name) = .ok cls :=
    List.forall_mem_singleton.2 ⟨1, rfl⟩
  obtain ⟨-, -, -, -, bound⟩ := late_binding known
  exact ⟨known, rfl, (bound _ rfl _).1⟩

end Checker

end EntitySchema
