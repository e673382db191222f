/-
**Circles of entities.**

Entities may hold each other.  The raw data of an entity embed the raw data of what its fields hold,
but a deferred field tells identifiers alone.  Its validation consults whatever its references refer
to, deferred or not.  So circles through deferred fields are no matter for raw data, and they are
for validation: an entity passes it only if no chain of references from it comes to a circle, and
where nothing else is wrong with the entities of a circle, their validation has no end.

Main definitions:

* `Value.Bears`, `Heap.Embeds` — the entities whose raw data are embedded in those of another;
* `Checker.Asks`, `Heap.Consults` — the entities that are validated with another;
* `Heap.Circular` — a chain from an object comes to a circle;
* `Heap.Native`, `Heap.Faultless` — entities that are asked through their classes, and entities with
  nothing wrong but what is wrong with the entities that they consult.

Main results:

* `Checker.blames_of_presentWith` — what a check that fails is to blame on;
* `Heap.Native.acc_of_validate`, `Heap.Native.validate_ne_endless` — **validation ends well only
  without circles, and always ends without them**;
* `Heap.Native.acc_of_toRaw`, `Heap.Native.toRaw_ne_endless` — the same for raw data;
* `Heap.Native.endless_of_validate_error` — where nothing else is wrong, nothing else goes wrong.
-/

import EntitySchema.Proofs.FailedSaves
import EntitySchema.Proofs.ReferenceChains
import EntitySchema.Proofs.SavedRecords
import EntitySchema.Proofs.Termination
import EntitySchema.Proofs.Validity

set_option autoImplicit false

namespace EntitySchema

open Relation

/-! ### Circles -/

/-- A chain from an object comes to a circle. -/
def Heap.Circular (r : Address → Address → Prop) (a : Address) : Prop :=
  ∃ b, ReflTransGen r a b ∧ TransGen r b b

/-- Where chains of objects of the heap come to no circle they end. -/
theorem Heap.acc_iff_not_circular {h : Heap} {r : Address → Address → Prop}
    (inside : ∀ a b, r a b → a < h.length) {a : Address} :
    Acc (fun c b => r b c) a ↔ ¬ Heap.Circular r a := by
  constructor
  · rintro ends ⟨b, reached, back⟩
    have ends_b : Acc (fun c b => r b c) b := by
      clear back
      induction reached with
      | refl => exact ends
      | tail _ step ih => exact ih.inv step
    -- no chain that ends comes back to its start
    have irrefl : ∀ c, Acc (fun c b => r b c) c → ¬ TransGen r c c := by
      intro c hc
      induction hc with
      | intro c _ ih =>
        intro back
        obtain ⟨d, first, rest⟩ := TransGen.head'_iff.1 back
        exact ih d first (TransGen.tail' rest first)
    exact irrefl b ends_b back
  · intro straight
    exact acc_of_straight (S := {b | b < h.length}) (Set.finite_lt_nat _) inside
      fun b reached back => straight ⟨b, reached, back⟩

/-! ### What raw data embed -/

/-- The objects that a value is, or that are among its items or its values. -/
inductive Value.Bears : Value → Address → Prop
  | object (a : Address) : Bears (.object a) a
  | list {xs : List Value} {x : Value} {a : Address} : x ∈ xs → Bears x a → Bears (.list xs) a
  | tuple {xs : List Value} {x : Value} {a : Address} : x ∈ xs → Bears x a → Bears (.tuple xs) a
  | dict {es : Entries} {e : Value × Value} {a : Address} :
      e ∈ es → Bears e.2 a → Bears (.dict es) a
  | ordered {es : Entries} {e : Value × Value} {a : Address} :
      e ∈ es → Bears e.2 a → Bears (.ordered es) a

/-- The absent value bears nothing. -/
theorem Value.Bears.isNull {v : Value} {a : Address} (h : v.Bears a) : v.isNull = false := by
  cases h <;> rfl

theorem Value.Bears.leadsTo {v : Value} {a : Address} (h : v.Bears a) : v.LeadsTo a := by
  induction h with
  | object a => exact .object a
  | list hx _ ih => exact .list hx ih
  | tuple hx _ ih => exact .tuple hx ih
  | dict he _ ih => exact .dict he ih
  | ordered he _ ih => exact .ordered he ih

namespace Encoding

variable {g : Catalog} {h : Heap} {visit : Address → Except Failure Value}

theorem identifierOnly_ne_endless (h : Heap) (a : Address) :
    identifierOnly h a ≠ .error .endless := by
  unfold identifierOnly
  intro failed
  split at failed <;> cases failed

mutual

/-- A raw form without end is that of an entity in the value, and with identifiers alone there is
none. -/
theorem exists_of_encodeWith_endless (byId : Bool) : (v : Value) →
    encodeWith h visit byId v = .error .endless →
    byId = false ∧ ∃ a, v.Bears a ∧ h.isEntity a = true ∧ visit a = .error .endless
  | .object a, failed => by
    simp only [encodeWith] at failed
    split at failed
    · next entity =>
      cases byId with
      | true => exact absurd failed (identifierOnly_ne_endless h a)
      | false => exact ⟨rfl, a, .object a, entity, failed⟩
    · cases failed
  | .list xs, failed => by
    rcases bind_eq_error.1 failed with failed | ⟨_, _, failed⟩
    · obtain ⟨lazy, x, hx, a, ha, rest⟩ := exists_of_encodeItems_endless byId xs failed
      exact ⟨lazy, a, .list hx ha, rest⟩
    · cases failed
  | .tuple xs, failed => by
    rcases bind_eq_error.1 failed with failed | ⟨_, _, failed⟩
    · obtain ⟨lazy, x, hx, a, ha, rest⟩ := exists_of_encodeItems_endless byId xs failed
      exact ⟨lazy, a, .tuple hx ha, rest⟩
    · cases failed
  | .dict es, failed => by
    rcases bind_eq_error.1 failed with failed | ⟨_, _, failed⟩
    · obtain ⟨lazy, e, he, a, ha, rest⟩ := exists_of_encodeEntries_endless byId es failed
      exact ⟨lazy, a, .dict he ha, rest⟩
    · cases failed
  | .ordered es, failed => by
    rcases bind_eq_error.1 failed with failed | ⟨_, _, failed⟩
    · obtain ⟨lazy, e, he, a, ha, rest⟩ := exists_of_encodeEntries_endless byId es failed
      exact ⟨lazy, a, .ordered he ha, rest⟩
    · cases failed
  | .null, failed | .bool _, failed | .int _, failed | .float _, failed | .nan _, failed
  | .str _, failed | .bytes _, failed | .set _, failed | .date _, failed | .moment _, failed
  | .stamp _, failed | .zone _, failed | .function _, failed | .method _ _, failed
  | .cls _, failed | .checker _ _, failed | .store _, failed | .thing _, failed => by cases failed
termination_by structural v => v

theorem exists_of_encodeItems_endless (byId : Bool) : (xs : List Value) →
    encodeItems h visit byId xs = .error .endless →
    byId = false ∧ ∃ x ∈ xs, ∃ a, x.Bears a ∧ h.isEntity a = true ∧ visit a = .error .endless
  | [], failed => by cases failed
  | x :: xs, failed => by
    rcases bind_eq_error.1 failed with failed | ⟨_, _, failed⟩
    · obtain ⟨lazy, a, rest⟩ := exists_of_encodeWith_endless byId x failed
      exact ⟨lazy, x, List.mem_cons_self .., a, rest⟩
    · rcases bind_eq_error.1 failed with failed | ⟨_, _, failed⟩
      · obtain ⟨lazy, y, hy, rest⟩ := exists_of_encodeItems_endless byId xs failed
        exact ⟨lazy, y, List.mem_cons_of_mem x hy, rest⟩
      · cases failed
termination_by structural xs => xs

theorem exists_of_encodeEntries_endless (byId : Bool) : (es : Entries) →
    encodeEntries h visit byId es = .error .endless →
    byId = false ∧ ∃ e ∈ es, ∃ a, e.2.Bears a ∧ h.isEntity a = true ∧ visit a = .error .endless
  | [], failed => by cases failed
  | (k, v) :: es, failed => by
    rcases bind_eq_error.1 failed with failed | ⟨_, _, failed⟩
    · obtain ⟨lazy, a, rest⟩ := exists_of_encodeWith_endless byId v failed
      exact ⟨lazy, (k, v), List.mem_cons_self .., a, rest⟩
    · rcases bind_eq_error.1 failed with failed | ⟨_, _, failed⟩
      · obtain ⟨lazy, e, he, rest⟩ := exists_of_encodeEntries_endless byId es failed
        exact ⟨lazy, e, List.mem_cons_of_mem _ he, rest⟩
      · cases failed
termination_by structural es => es

end

/-- Where there is a raw form of a value there is one of every entity in it. -/
theorem exists_of_encodeWith_ok {v : Value} {a : Address} (bears : v.Bears a)
    (entity : h.isEntity a = true) : ∀ {w : Value}, encodeWith h visit false v = .ok w →
      ∃ d, visit a = .ok d := by
  have item : ∀ {xs ys : List Value} {x : Value}, x ∈ xs → encodeItems h visit false xs = .ok ys →
      ∃ w, encodeWith h visit false x = .ok w := by
    intro xs
    induction xs with
    | nil => exact fun hx => absurd hx List.not_mem_nil
    | cons x xs ih =>
      intro ys y hy told
      obtain ⟨w, hw, told⟩ := bind_eq_ok.1 told
      obtain ⟨ws, hws, -⟩ := bind_eq_ok.1 told
      rcases List.mem_cons.1 hy with rfl | hy
      · exact ⟨w, hw⟩
      · exact ih hy hws
  have value : ∀ {es ds : Entries} {e : Value × Value}, e ∈ es →
      encodeEntries h visit false es = .ok ds → ∃ w, encodeWith h visit false e.2 = .ok w := by
    intro es
    induction es with
    | nil => exact fun he => absurd he List.not_mem_nil
    | cons e es ih =>
      intro ds d hd told
      obtain ⟨w, hw, told⟩ := bind_eq_ok.1 told
      obtain ⟨ws, hws, -⟩ := bind_eq_ok.1 told
      rcases List.mem_cons.1 hd with rfl | hd
      · exact ⟨w, hw⟩
      · exact ih hd hws
  induction bears with
  | object a =>
    intro w told
    rw [encodeWith, if_pos entity, if_neg Bool.false_ne_true] at told
    exact ⟨w, told⟩
  | list hx _ ih | tuple hx _ ih =>
    intro w told
    obtain ⟨ws, hws, -⟩ := bind_eq_ok.1 told
    obtain ⟨y, hy⟩ := item hx hws
    exact ih entity hy
  | dict he _ ih | ordered he _ ih =>
    intro w told
    obtain ⟨ws, hws, -⟩ := bind_eq_ok.1 told
    obtain ⟨y, hy⟩ := value he hws
    exact ih entity hy

end Encoding

/-! ### What validation asks -/

/-- The entities that a check of a value asks whether they are valid. -/
inductive Checker.Asks (g : Catalog) (h : Heap) : Checker → Value → Address → Prop
  | reference {t : Target} {e : Value} {r : Bool} {a : Address} {cls : ClassId} :
      g.resolve t = .ok cls → h.isInstance g a cls = true →
      Asks g h (.reference t e r) (.object a) a
  | array {c : Checker} {r : Bool} {v x : Value} {xs : List Value} {a : Address} :
      v.elements? = some xs → x ∈ xs → Asks g h c x a → Asks g h (.arrayOf c r) v a
  | dictionary {c : Checker} {r : Bool} {es : Entries} {e : Value × Value} {a : Address} :
      e ∈ es → Asks g h c e.2 a → Asks g h (.dictOf c r) (.dict es) a
  | shape {fs : List (String × Checker)} {r : Bool} {v : Value} {f : String × Checker}
      {a : Address} : isPrimitive v = false → f ∈ fs → Asks g h f.2 (shapeItem g h v f.1) a →
      Asks g h (.shape fs r) v a

namespace Checker

variable {g : Catalog} {h : Heap} {visit : Address → Except Failure Unit} {c : Checker} {v : Value}
  {a : Address}

namespace Asks

theorem isEntity (asks : Asks g h c v a) : h.isEntity a = true := by
  induction asks with
  | reference _ is => exact Heap.isEntity_of_isInstance is
  | array _ _ _ ih | dictionary _ _ ih | shape _ _ _ ih => exact ih

theorem holds (asks : Asks g h c v a) : h.Holds v a := by
  induction asks with
  | reference _ _ => exact .direct (.object _)
  | array hxs hx _ ih => exact holds_of_element hxs hx ih
  | dictionary he _ ih => exact holds_of_entry he ih
  | shape _ _ _ ih => exact holds_of_shapeItem ih

/-- The absent value asks nobody. -/
theorem isNull (asks : Asks g h c v a) : v.isNull = false := by
  cases v with
  | null =>
    obtain ⟨b, leads, -⟩ := asks.holds.exists_leads
    cases leads
  | _ => rfl

end Asks

/-- Where a value passes, all entities that are asked do. -/
theorem Asks.passes (asks : Asks g h c v a) : ∀ {name : String},
    checkWith g h visit false c v name = .ok ⟨⟩ → visit a = .ok ⟨⟩ := by
  have field : ∀ {fs : List (String × Checker)} {v : Value} {name : String},
      presentFields g h visit fs v name = .ok ⟨⟩ → ∀ f ∈ fs, ∃ path,
        checkWith g h visit false f.2 (shapeItem g h v f.1) path = .ok ⟨⟩ := by
    intro fs v name
    induction fs with
    | nil => exact fun _ _ hf => absurd hf List.not_mem_nil
    | cons f fs ih =>
      intro ok
      obtain ⟨_, first, rest⟩ := bind_eq_ok.1 ok
      exact List.forall_mem_cons.2 ⟨⟨_, (checkWith_eq_ok_iff.1 first).2⟩, ih rest⟩
  induction asks with
  | reference resolved is =>
    intro name ok
    obtain ⟨_, -, -, valid⟩ := checkWith_object_eq_ok_iff.1 ok
    exact valid
  | array hxs hx _ ih =>
    intro name ok
    obtain ⟨path, passed⟩ := exists_of_checkWith_array hxs ok _ hx
    exact ih passed
  | dictionary he _ ih =>
    intro name ok
    obtain ⟨path, passed⟩ := exists_of_checkWith_dict ok _ he
    exact ih passed
  | @shape fs r v f a primitive hf asks ih =>
    intro name ok
    have there : v.isNull = false := (Asks.shape (r := r) primitive hf asks).isNull
    rw [checkWith, checkPresence_eq_ok_iff, there, if_neg Bool.false_ne_true, presentWith,
      primitive,
      if_neg Bool.false_ne_true] at ok
    obtain ⟨path, passed⟩ := field ok f hf
    exact ih passed

end Checker

/-- What a failure is to blame on: something else is wrong, or an entity that is asked fails, and
then the one is that of work without end if the other is. -/
def Blames (visit : Address → Except Failure Unit) (asked : Address → Prop) (fault : Prop)
    (e : Failure) : Prop :=
  (fault ∧ e ≠ .endless) ∨ ∃ a e', asked a ∧ visit a = .error e' ∧ (e = .endless ↔ e' = .endless)

theorem Blames.mono {visit : Address → Except Failure Unit} {asked asked' : Address → Prop}
    {fault fault' : Prop} {e : Failure} (blames : Blames visit asked fault e)
    (more : ∀ a, asked a → asked' a) (worse : fault → fault') : Blames visit asked' fault' e := by
  rcases blames with ⟨own, other⟩ | ⟨a, e', ha, rest⟩
  · exact .inl ⟨worse own, other⟩
  · exact .inr ⟨a, e', more a ha, rest⟩

/-- A traversal that fails is to blame on one of the members. -/
theorem blames_of_forM {α : Type} {visit : Address → Except Failure Unit}
    {f f₀ : α → Except Failure Unit} (asked : α → Address → Prop) {xs : List α}
    (each : ∀ x ∈ xs, ∀ e, f x = .error e → Blames visit (asked x) (f₀ x ≠ .ok ⟨⟩) e)
    {e : Failure} (failed : xs.forM f = .error e) :
    Blames visit (fun a => ∃ x ∈ xs, asked x a) (xs.forM f₀ ≠ .ok ⟨⟩) e := by
  obtain ⟨before, x, after, rfl, -, hx⟩ := exists_of_forM_eq_error failed
  have mem : x ∈ before ++ x :: after := by simp
  refine (each x mem e hx).mono (fun a ha => ⟨x, mem, ha⟩) ?_
  exact fun wrong ok => wrong (forM_eq_ok_iff.1 ok x mem)

namespace Checker

variable {g : Catalog} {h : Heap} {visit : Address → Except Failure Unit}

theorem blames_of_checkWith {c : Checker} {v : Value} {name : String} (required : Bool)
    {asked : Address → Prop}
    (present : ∀ e, presentWith g h visit c v name = .error e →
      Blames visit asked (presentWith g h (fun _ => .ok ⟨⟩) c v name ≠ .ok ⟨⟩) e)
    {e : Failure} (failed : checkWith g h visit required c v name = .error e) :
    Blames visit asked (checkWith g h (fun _ => .ok ⟨⟩) required c v name ≠ .ok ⟨⟩) e := by
  unfold checkWith checkPresence at failed ⊢
  cases hv : v.isNull with
  | true =>
    rw [hv, if_pos rfl] at failed
    rw [if_pos rfl, failed]
    refine .inl ⟨nofun, ?_⟩
    split at failed <;> cases failed
    exact nofun
  | false =>
    rw [hv, if_neg Bool.false_ne_true] at failed
    rw [if_neg Bool.false_ne_true]
    exact present e failed

theorem blames_of_presentEntity {t : Target} {ev v : Value} {r : Bool} {name : String} {e : Failure}
    (failed : presentEntity g h visit t v name = .error e) :
    Blames visit (Asks g h (.reference t ev r) v)
      (presentEntity g h (fun _ => .ok ⟨⟩) t v name ≠ .ok ⟨⟩) e := by
  unfold presentEntity at failed ⊢
  cases hcls : g.resolve t with
  | error e' =>
    rw [hcls] at failed
    cases failed
    exact .inl ⟨nofun, fun heq => resolve_ne_endless g t (heq ▸ hcls)⟩
  | ok cls =>
    rw [hcls, ok_bind] at failed
    rw [ok_bind]
    cases v with
    | object a =>
      dsimp only at failed ⊢
      cases is : h.isInstance g a cls with
      | false =>
        rw [is, if_neg Bool.false_ne_true] at failed
        cases failed
        exact .inl ⟨nofun, nofun⟩
      | true =>
        rw [is, if_pos rfl] at failed
        refine .inr ⟨a, ?_⟩
        cases hv : visit a with
        | ok u =>
          rw [hv] at failed
          cases failed
        | error e' =>
          rw [hv] at failed
          refine ⟨e', .reference hcls is, rfl, ?_⟩
          cases e' <;> cases failed <;> simp
    | _ =>
      cases failed
      exact .inl ⟨nofun, nofun⟩

mutual

/-- What a check that fails is to blame on. -/
theorem blames_of_presentWith : (c : Checker) → (v : Value) → (name : String) → ∀ {e : Failure},
    presentWith g h visit c v name = .error e →
      Blames visit (Asks g h c v) (presentWith g h (fun _ => .ok ⟨⟩) c v name ≠ .ok ⟨⟩) e
  | .scalar _ _ _, v, name, e, failed | .date _, v, name, e, failed => by
    refine .inl ⟨fun ok => ?_, ?_⟩
    · cases failed.symm.trans ok
    · rintro rfl
      unfold presentWith at failed
      split at failed <;> cases failed
  | .arrayOf c r, v, name, e, failed => by
    unfold presentWith at failed ⊢
    cases hxs : v.elements? with
    | none =>
      rw [hxs] at failed
      cases failed
      exact .inl ⟨nofun, nofun⟩
    | some xs =>
      rw [hxs] at failed
      -- the first element that fails is to blame, or what it asks
      refine (blames_of_forM (fun p => Asks g h c p.1) (fun p _ e failed => ?_) failed).mono
        (fun a asks => ?_) id
      · exact blames_of_checkWith false
          (fun e => blames_of_presentWith c p.1 _) failed
      · obtain ⟨p, hp, asks⟩ := asks
        exact .array hxs ((List.mem_zipIdx' hp).2 ▸ List.getElem_mem _) asks
  | .dictOf c r, v, name, e, failed => by
    unfold presentWith at failed ⊢
    cases v with
    | dict es =>
      refine (blames_of_forM (fun p => Asks g h c p.2) (fun p _ e failed => ?_) failed).mono
        (fun a asks => ?_) id
      · exact blames_of_checkWith false
          (fun e => blames_of_presentWith c p.2 _) failed
      · obtain ⟨p, hp, asks⟩ := asks
        exact .dictionary hp asks
    | _ =>
      cases failed
      exact .inl ⟨nofun, nofun⟩
  | .shape fs r, v, name, e, failed => by
    unfold presentWith at failed ⊢
    cases primitive : isPrimitive v with
    | true =>
      rw [primitive, if_pos rfl] at failed
      cases failed
      exact .inl ⟨nofun, nofun⟩
    | false =>
      rw [primitive, if_neg Bool.false_ne_true] at failed
      rw [if_neg Bool.false_ne_true]
      refine (blames_of_presentFields fs v name failed).mono (fun a asks => ?_) id
      obtain ⟨f, hf, asks⟩ := asks
      exact .shape primitive hf asks
  | .reference t e r, v, name, _, failed => blames_of_presentEntity failed
termination_by structural c => c

theorem blames_of_presentFields : (fs : List (String × Checker)) → (v : Value) → (name : String) →
    ∀ {e : Failure}, presentFields g h visit fs v name = .error e →
      Blames visit (fun a => ∃ f ∈ fs, Asks g h f.2 (shapeItem g h v f.1) a)
        (presentFields g h (fun _ => .ok ⟨⟩) fs v name ≠ .ok ⟨⟩) e
  | [], _, _, _, failed => by cases failed
  | (field, c) :: fs, v, name, e, failed => by
    rcases bind_eq_error.1 failed with failed | ⟨_, _, failed⟩
    · have own := blames_of_checkWith c.required
        (fun e => blames_of_presentWith c (shapeItem g h v field) (fieldPath name field)) failed
      refine own.mono (fun a asks => ⟨_, List.mem_cons_self .., asks⟩) fun wrong ok => ?_
      obtain ⟨_, first, -⟩ := bind_eq_ok.1 ok
      exact wrong first
    · refine (blames_of_presentFields fs v name failed).mono (fun a asks => ?_) fun wrong ok => ?_
      · obtain ⟨f, hf, asks⟩ := asks
        exact ⟨f, List.mem_cons_of_mem _ hf, asks⟩
      · obtain ⟨_, -, rest⟩ := bind_eq_ok.1 ok
        exact wrong rest
termination_by structural fs => fs

end

end Checker

/-! ### Entities that embed and consult others -/

namespace Heap

/-- An entity is embedded in the raw data of an object: it is in a field that is not deferred. -/
def Embeds (g : Catalog) (h : Heap) (a b : Address) : Prop :=
  ∃ rs, rules g h a = .ok rs ∧ ∃ name r, (.str name, r) ∈ rs ∧ Encoding.byId r = false ∧
    (field g h a name).Bears b ∧ h.isEntity b = true

/-- An entity is asked whether it is valid when an object is validated. -/
def Consults (g : Catalog) (h : Heap) (a b : Address) : Prop :=
  ∃ rs, rules g h a = .ok rs ∧ ∃ name c, (.str name, .checker c) ∈ rs ∧
    Checker.Asks g h c (field g h a name) b

/-- The entities that validation comes to have no fault, if the entities that each of them consults
are taken to have none. -/
def Faultless (g : Catalog) (h : Heap) (a : Address) : Prop :=
  ∀ b, ReflTransGen (Consults g h) a b → Validation.validateWith g h (fun _ => .ok ⟨⟩) b = .ok ⟨⟩

/-- The entities that a value holds have nothing of their own in place of the methods that lead from
one to the other. -/
def Native (h : Heap) (v : Value) : Prop :=
  ∀ a, h.Holds v a → h.isEntity a = true → ∀ name ∈ ["to_raw", "validate"],
    (h.get a).own? name = none

variable {g : Catalog} {h : Heap} {a b : Address}

theorem rules_ne_endless (g : Catalog) (h : Heap) (a : Address) :
    rules g h a ≠ .error .endless := by
  unfold rules
  dsimp only
  intro failed
  split at failed
  · cases failed
  · cases failed
  · split at failed
    · cases failed
    · split at failed <;> cases failed

/-- What goes by a schema is an object of the heap. -/
theorem lt_of_rules {rs : List (Value × Rule)} (hrs : rules g h a = .ok rs) : a < h.length := by
  by_contra out
  have none : get h a = ⟨.plain, []⟩ := by
    rw [get, List.getElem?_eq_none (Nat.le_of_not_lt out)]
    rfl
  rw [rules, none] at hrs
  cases hrs

theorem Embeds.contains (embeds : Embeds g h a b) : Contains g h a b := by
  obtain ⟨rs, hrs, name, r, hr, -, bears, -⟩ := embeds
  exact ⟨rs, hrs, name, r, hr, .direct bears.leadsTo⟩

theorem Embeds.isEntity (embeds : Embeds g h a b) : h.isEntity b = true := by
  obtain ⟨_, _, _, _, _, -, -, entity⟩ := embeds
  exact entity

theorem Consults.contains (consults : Consults g h a b) : Contains g h a b := by
  obtain ⟨rs, hrs, name, c, hc, asks⟩ := consults
  exact ⟨rs, hrs, name, .checker c, hc, asks.holds⟩

theorem Consults.isEntity (consults : Consults g h a b) : h.isEntity b = true := by
  obtain ⟨_, _, _, _, _, asks⟩ := consults
  exact asks.isEntity

theorem Embeds.lt (embeds : Embeds g h a b) : a < h.length := by
  obtain ⟨rs, hrs, -⟩ := embeds
  exact lt_of_rules hrs

theorem Consults.lt (consults : Consults g h a b) : a < h.length := by
  obtain ⟨rs, hrs, -⟩ := consults
  exact lt_of_rules hrs

namespace Native

theorem object {v : Value} (native : h.Native v) (ha : h.Holds v a) : h.Native (.object a) :=
  fun b hb => native b (ha.trans hb)

/-- What a native entity contains is native. -/
theorem contained (native : h.Native (.object a)) (hab : Contains g h a b) :
    h.Native (.object b) := native.object (hab.holds (.direct (.object a)))

theorem method (native : h.Native (.object a)) (entity : h.isEntity a = true) {name : String}
    (hname : name ∈ ["to_raw", "validate"]) :
    objectAttribute? g h a name = some (.method (.object a) name) := by
  obtain ⟨cls, hs⟩ := exists_species entity
  have own := native a (.direct (.object a)) entity name hname
  have plain : ∀ n ∈ ["to_raw", "validate"],
      n ∉ ["__class__", "__dict__", "__weakref__", "id"] := by
    decide
  have given : ∀ n ∈ ["to_raw", "validate"],
      sharedAttribute? g cls n = none ∧ Value.entityMethods.contains n = true := by
    simp [sharedAttribute?, classMethods, Value.entityMethods]
  rw [objectAttribute?_of_species hs (plain name hname), own, givenAttribute?, (given name hname).1,
    (given name hname).2, Bool.or_true]
  rfl

end Native

end Heap

/-! ### The fields of an object -/

namespace Validation

open Heap

variable {g : Catalog} {h : Heap} {visit : Address → Except Failure Unit} {a b : Address}

/-- Where an object passes, all entities that it consults do. -/
theorem passes_of_consults (consults : Consults g h a b)
    (ok : validateWith g h visit a = .ok ⟨⟩) : visit b = .ok ⟨⟩ := by
  obtain ⟨rs, hrs, name, c, hc, asks⟩ := consults
  rw [validateWith, hrs, ok_bind] at ok
  exact asks.passes (Checker.checkWith_eq_ok_iff.1 (forM_eq_ok_iff.1 ok _ hc)).2

/-- What a validation that fails is to blame on. -/
theorem blames_of_validateWith {e : Failure} (failed : validateWith g h visit a = .error e) :
    Blames visit (Consults g h a) (validateWith g h (fun _ => .ok ⟨⟩) a ≠ .ok ⟨⟩) e := by
  unfold validateWith at failed ⊢
  cases hrs : rules g h a with
  | error e' =>
    rw [hrs] at failed
    cases failed
    exact .inl ⟨nofun, fun heq => rules_ne_endless g h a (heq ▸ hrs)⟩
  | ok rs =>
    rw [hrs, ok_bind] at failed
    rw [ok_bind]
    let asked (r : Value × Rule) (b : Address) : Prop :=
      ∃ name c, r = (.str name, .checker c) ∧ Checker.Asks g h c (field g h a name) b
    refine (blames_of_forM asked (fun r _ e failed => ?_) failed).mono
      (fun b asks => ?_) id
    · obtain ⟨k, rule⟩ := r
      cases rule with
      | checker c =>
        cases k with
        | str name =>
          refine (Checker.blames_of_checkWith c.required
            (fun e => Checker.blames_of_presentWith c _ name) failed).mono (fun b asks => ?_) id
          exact ⟨name, c, rfl, asks⟩
        | _ =>
          cases failed
          exact .inl ⟨nofun, nofun⟩
      | other w =>
        have known : checkField g h visit a (k, .other w) =
            checkField g h (fun _ => .ok ⟨⟩) a (k, .other w) := by cases k <;> rfl
        rw [← known, failed]
        refine .inl ⟨nofun, ?_⟩
        rintro rfl
        cases k <;>
          · simp only [checkField] at failed
            split at failed <;> cases failed
    · obtain ⟨_, hr, name, c, rfl, asks⟩ := asks
      exact ⟨rs, hrs, name, c, hr, asks⟩

end Validation

namespace Encoding

open Heap

variable {g : Catalog} {h : Heap} {visit : Address → Except Failure Value} {a b : Address}

theorem unloaded_ne_endless (g : Catalog) (h : Heap) (a : Address) (name : String) (v : Value) :
    unloaded g h a name v ≠ .error .endless := by
  unfold unloaded
  intro failed
  split at failed
  · split at failed
    · unfold pendingAt at failed
      repeat' split at failed
      all_goals cases failed
    · cases failed
  · cases failed

/-- What is put aside stands for the absent value. -/
theorem isNull_of_unloaded {name : String} {v raw : Value}
    (there : unloaded g h a name v = .ok (some raw)) : v.isNull = true := by
  by_contra present
  rw [unloaded, if_neg present] at there
  cases there

theorem idEntry_ne_endless (g : Catalog) (h : Heap) (a : Address) :
    idEntry g h a ≠ .error .endless := by
  unfold idEntry
  intro failed
  split at failed <;> cases failed

/-- Raw data without end are those of an entity that is embedded. -/
theorem exists_of_rawWith_endless (failed : rawWith g h visit a = .error .endless) :
    ∃ b, Embeds g h a b ∧ visit b = .error .endless := by
  rcases bind_eq_error.1 failed with failed | ⟨_, -, failed⟩
  · exact absurd failed (idEntry_ne_endless g h a)
  rcases bind_eq_error.1 failed with failed | ⟨rs, hrs, failed⟩
  · exact absurd failed (rules_ne_endless g h a)
  rcases bind_eq_error.1 failed with failed | ⟨_, -, failed⟩
  swap
  · cases failed
  obtain ⟨⟨k, rule⟩, hr, failed⟩ := exists_of_mapM_eq_error failed
  cases k with
  | str name =>
    rcases bind_eq_error.1 failed with failed | ⟨raw?, -, failed⟩
    · exact absurd failed (unloaded_ne_endless g h a name _)
    · cases raw? with
      | some raw => cases failed
      | none =>
        rcases bind_eq_error.1 failed with failed | ⟨_, -, failed⟩
        · obtain ⟨lazy, b, bears, entity, endless⟩ := exists_of_encodeWith_endless _ _ failed
          exact ⟨b, ⟨rs, hrs, name, rule, hr, lazy, bears, entity⟩, endless⟩
        · cases failed
  | _ => cases failed

/-- Where an object tells its raw data, all entities that are embedded in them do. -/
theorem tells_of_embeds (embeds : Embeds g h a b) {d : Value}
    (told : rawWith g h visit a = .ok d) : ∃ w, visit b = .ok w := by
  obtain ⟨rs, hrs, name, rule, hr, lazy, bears, entity⟩ := embeds
  obtain ⟨_, -, told⟩ := bind_eq_ok.1 told
  rw [hrs, ok_bind] at told
  obtain ⟨fields, hfields, -⟩ := bind_eq_ok.1 told
  obtain ⟨_, told⟩ := exists_of_mapM_ok hfields _ hr
  obtain ⟨raw?, unloaded, told⟩ := bind_eq_ok.1 told
  cases raw? with
  | some raw =>
    -- what is put aside stands for an absent value, which bears nothing
    cases bears.isNull.symm.trans (isNull_of_unloaded unloaded)
  | none =>
    obtain ⟨w, hw, -⟩ := bind_eq_ok.1 told
    rw [lazy] at hw
    exact exists_of_encodeWith_ok bears entity hw

end Encoding

/-! ### Walks -/

namespace Method

variable {g : Catalog} {h : Heap} {a : Address}

/-- The validation of an entity, through at most `fuel` methods one inside the other. -/
def validateWithin (g : Catalog) (h : Heap) (fuel : Nat) (a : Address) : Except Failure Unit :=
  discard (ask g h (call g h fuel) "validate" a)

/-- The raw data of an entity, through at most `fuel` methods one inside the other. -/
def toRawWithin (g : Catalog) (h : Heap) (fuel : Nat) (a : Address) : Except Failure Value := do
  .ok (← ask g h (call g h fuel) "to_raw" a).toValue

theorem validateWithin_succ (fuel : Nat)
    (hm : Heap.objectAttribute? g h a "validate" = some (.method (.object a) "validate")) :
    validateWithin g h (fuel + 1) a =
      Validation.validateWith g h (validateWithin g h fuel) a := by
  rw [validateWithin, ask, hm]
  simp only [call, if_true]
  show discard (Validation.validateWith g h (validateWithin g h fuel) a >>= fun _ => _) = _
  cases Validation.validateWith g h (validateWithin g h fuel) a <;> rfl

theorem toRawWithin_succ (fuel : Nat)
    (hm : Heap.objectAttribute? g h a "to_raw" = some (.method (.object a) "to_raw")) :
    toRawWithin g h (fuel + 1) a = Encoding.rawWith g h (toRawWithin g h fuel) a := by
  rw [toRawWithin, ask, hm]
  simp only [call, String.reduceEq, if_false, if_true]
  show ((Encoding.rawWith g h (toRawWithin g h fuel) a >>= fun _ => _) >>= fun _ => _) = _
  cases Encoding.rawWith g h (toRawWithin g h fuel) a <;> rfl

end Method

namespace Heap.Native

variable {g : Catalog} {h : Heap} {a : Address}

/-- **Where validation ends well the chains of entities that are consulted end.** -/
theorem acc_of_validateWithin : ∀ (fuel : Nat) {a : Address}, h.Native (.object a) →
    h.isEntity a = true → Method.validateWithin g h fuel a = .ok ⟨⟩ →
    Acc (fun c b => Consults g h b c) a
  | 0, a, native, entity, ok => by
    rw [Method.validateWithin, Method.ask, native.method entity (by decide)] at ok
    cases ok
  | fuel + 1, a, native, entity, ok => by
    rw [Method.validateWithin_succ fuel (native.method entity (by decide))] at ok
    refine .intro a fun b consults => ?_
    exact acc_of_validateWithin fuel (native.contained consults.contains) consults.isEntity
      (Validation.passes_of_consults consults ok)

/-- **Where raw data are told the chains of embedded entities end.** -/
theorem acc_of_toRawWithin : ∀ (fuel : Nat) {a : Address} {d : Value}, h.Native (.object a) →
    h.isEntity a = true → Method.toRawWithin g h fuel a = .ok d →
    Acc (fun c b => Embeds g h b c) a
  | 0, a, d, native, entity, told => by
    rw [Method.toRawWithin, Method.ask, native.method entity (by decide)] at told
    cases told
  | fuel + 1, a, d, native, entity, told => by
    rw [Method.toRawWithin_succ fuel (native.method entity (by decide))] at told
    refine .intro a fun b embeds => ?_
    obtain ⟨w, told⟩ := Encoding.tells_of_embeds embeds told
    exact acc_of_toRawWithin fuel (native.contained embeds.contains) embeds.isEntity told

theorem acc_of_validate (native : h.Native (.object a)) (entity : h.isEntity a = true)
    (ok : Method.validate g h a = .ok ⟨⟩) : Acc (fun c b => Consults g h b c) a :=
  acc_of_validateWithin (Method.depth h) native entity ok

theorem acc_of_toRaw (native : h.Native (.object a)) (entity : h.isEntity a = true) {d : Value}
    (told : Method.toRaw g h a = .ok d) : Acc (fun c b => Embeds g h b c) a :=
  acc_of_toRawWithin (Method.depth h) native entity told

/-- **Validation ends where the chains of entities that are consulted do.** -/
theorem validate_ne_endless (native : h.Native (.object a)) (entity : h.isEntity a = true)
    (ends : Acc (fun c b => Consults g h b c) a) : Method.validate g h a ≠ .error .endless := by
  induction ends with
  | intro a _ ih =>
    intro failed
    rw [Method.validate_of_method (native.method entity (by decide))] at failed
    rcases Validation.blames_of_validateWith failed with ⟨-, other⟩ | ⟨b, e, consults, failed, same⟩
    · exact other rfl
    · rw [same.1 rfl] at failed
      exact ih b consults (native.contained consults.contains) consults.isEntity failed

/-- **Raw data end where the chains of embedded entities do.** -/
theorem toRaw_ne_endless (native : h.Native (.object a)) (entity : h.isEntity a = true)
    (ends : Acc (fun c b => Embeds g h b c) a) : Method.toRaw g h a ≠ .error .endless := by
  induction ends with
  | intro a _ ih =>
    intro failed
    rw [Method.toRaw_of_method (native.method entity (by decide))] at failed
    obtain ⟨b, embeds, failed⟩ := Encoding.exists_of_rawWith_endless failed
    exact ih b embeds (native.contained embeds.contains) embeds.isEntity failed

/-- Where nothing else is wrong, what fails is to blame on there being no end. -/
theorem endless_of_validateWithin_error : ∀ (fuel : Nat) {a : Address}, h.Native (.object a) →
    h.isEntity a = true → Faultless g h a → ∀ {e : Failure},
      Method.validateWithin g h fuel a = .error e → e = .endless
  | 0, a, native, entity, _, e, failed => by
    rw [Method.validateWithin, Method.ask, native.method entity (by decide)] at failed
    cases failed
    rfl
  | fuel + 1, a, native, entity, faultless, e, failed => by
    rw [Method.validateWithin_succ fuel (native.method entity (by decide))] at failed
    rcases Validation.blames_of_validateWith failed with
      ⟨fault, -⟩ | ⟨b, e', consults, failed, same⟩
    · exact absurd (faultless a .refl) fault
    · refine same.2 (endless_of_validateWithin_error fuel (native.contained consults.contains)
        consults.isEntity (fun c reached => ?_) failed)
      exact faultless c (.head consults reached)

theorem endless_of_validate_error (native : h.Native (.object a)) (entity : h.isEntity a = true)
    (faultless : Faultless g h a) {e : Failure} (failed : Method.validate g h a = .error e) :
    e = .endless :=
  endless_of_validateWithin_error (Method.depth h) native entity faultless failed

end Heap.Native

end EntitySchema
