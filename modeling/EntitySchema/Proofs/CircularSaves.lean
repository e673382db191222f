/-
**Saving entities of a circle.**

An entity is validated, its raw data are told, and then they are put under its identifier.  The last
step always comes to an end, be it with a refusal.  So saving comes to an end wherever the first two
do, and has no end in a circle of references whose entities have nothing else wrong with them: what
raw data cut to identifiers, validation follows.

Main definitions:

* `Session.Ends` — an action that does not go on without end.

Main results:

* `Session.ends_putRecord` — putting a record ends;
* `Persistence.circular_save` — **which circles validation, raw data and saving come to an end in.**
-/

import EntitySchema.Proofs.Circles
import EntitySchema.Proofs.SharedStore

set_option autoImplicit false

namespace EntitySchema

open Relation

/-! ### Actions that end -/

/-- An action that does not go on without end. -/
def Session.Ends {α : Type} (a : Action α) : Prop := ∀ s, (outcome a s).1 ≠ .error .endless

namespace Session

variable {α β : Type}

theorem Ends.bind {a : Action α} {f : α → Action β} (ha : Ends a) (hf : ∀ x, Ends (f x)) :
    Ends (a >>= f) := by
  intro s
  have own := ha s
  rcases hrun : outcome a s with ⟨e | x, s'⟩ <;> rw [hrun] at own
  · rw [outcome_bind_error hrun]
    intro failed
    cases failed
    exact own rfl
  · rw [outcome_bind_ok hrun]
    exact hf x s'

theorem ends_pure (x : α) : Ends (pure x) := fun _ => nofun

theorem ends_throw {e : Failure} (he : e ≠ .endless) : Ends (throw e : Action α) := by
  intro s failed
  cases failed
  exact he rfl

theorem ends_wait (rounds : Nat) : Ends (wait rounds) := fun _ => nofun

theorem ends_get : Ends get := fun _ => nofun

theorem ends_modify (f : Session → Session) : Ends (modify f : Action Unit) := fun _ => nofun

theorem ends_copy (v : Value) : Ends (copy v) := fun _ => nofun

theorem ends_get_bind {f : Session → Action α} (hf : ∀ s, Ends (f s)) : Ends (get >>= f) :=
  ends_get.bind hf

theorem ends_ofExcept {x : Except Failure α} (hx : x ≠ .error .endless) : Ends (ofExcept x) :=
  fun _ => hx

theorem ends_bound {x : Except Failure α} (hx : x ≠ .error .endless) : Ends (bound x) := by
  cases x with
  | ok x => exact ends_pure x
  | error e => exact (ends_wait 1).bind fun _ => ends_throw fun he => hx (he ▸ rfl)

theorem Ends.undone {a : Action α} (ha : Ends a) : Ends (undone a) := by
  intro s
  have own := ha s
  rcases hrun : outcome a s with ⟨e | x, s'⟩ <;> rw [hrun] at own
  · rw [outcome_undone_error hrun]
    exact own
  · rw [outcome_undone_ok hrun]
    exact own

theorem ends_rows (i : StoreId) : Ends (rows i) := by
  intro s
  rw [outcome_rows]
  split
  · exact nofun
  · exact nofun
  · split
    · exact nofun
    · exact nofun

theorem ends_keepRecord (i : StoreId) (r : Record) : Ends (keepRecord i r) := by
  refine ends_get_bind fun s => ?_
  split
  · refine (ends_copy _).bind fun v => ?_
    split
    · exact ends_modify _
    · exact ends_pure _
  · refine Ends.bind (ends_modify _) fun _ => ends_throw fun same => ?_
    cases same

/-- A record is put or refused, if its identifier leads to no object. -/
theorem ends_putRecord (i : StoreId) (kind : Value) {id : Value} (hid : id.Inert) (data : Value) :
    Ends (putRecord i kind id data) := by
  have named : Ends (textOf id) := fun s => by
    rw [outcome_textOf, Method.toText_of_inert s.catalog s.heap hid]
    exact nofun
  refine named.bind fun name => (ends_ofExcept fun failed => ?_).bind fun r => ?_
  · obtain ⟨ps, heq⟩ := Record.examine_error failed
    cases heq
  · refine ends_get_bind fun s => ?_
    cases s.store i with
    | memory rs => exact ends_keepRecord i r
    | file path link =>
      refine Ends.bind (ends_get_bind fun s => ?_) fun _ => Ends.undone ?_
      · cases s.linkOf i with
        | closed => exact ends_throw nofun
        | _ => exact ends_pure _
      · refine (ends_rows i).bind fun t => Ends.bind (ends_modify _) fun _ => Ends.bind ?_ fun _ =>
          ends_wait 3
        refine ends_bound fun failed => ?_
        cases FileTable.put_error failed

end Session

namespace Persistence

open Session Heap

variable {s : Session} {g : Catalog} {h : Heap} {a : Address} {cls : ClassId} {id : Value}
  {i : StoreId}

/-- Saving ends if the validation of the entity and its raw data do. -/
theorem save_ne_endless (hcat : s.catalog = g) (ho : Ordinary s.heap a cls id) (hid : id.Inert)
    (uses : s.Uses i cls)
    (valid : Method.validate g (s.identified a id).heap a ≠ .error .endless)
    (told : Method.toRaw g (s.identified a id).heap a ≠ .error .endless) :
    (outcome (save (.object a)) s).1 ≠ .error .endless := by
  have named : (s.identifierOf id).Inert := by
    unfold identifierOf
    split
    · exact Value.inert_str _
    · exact hid
  rw [outcome_save hcat ho uses]
  refine Ends.bind (ends_ofExcept valid) (fun _ => ?_) _
  refine Ends.bind (ends_ofExcept told) fun raw => ?_
  exact (ends_putRecord i _ named raw).bind fun _ => ends_pure _

/-- Saving fails as the validation of the entity does. -/
theorem save_of_validate_error (hcat : s.catalog = g) (ho : Ordinary s.heap a cls id)
    (uses : s.Uses i cls) {e : Failure}
    (failed : Method.validate g (s.identified a id).heap a = .error e) :
    (outcome (save (.object a)) s).1 = .error e := by
  rw [outcome_save hcat ho uses, failed]
  rfl

/-- **Which circles validation, raw data and saving come to an end in.**  The raw data of an entity
come to an end if every circle of entities in fields goes through a deferred one, and are told only
then.  Its validation comes to an end if there is no circle of references at all, deferred or not,
and it passes only then.  Where nothing else is wrong with the entities, validation has no end in a
circle, and so saving has none either. -/
theorem circular_save (native : h.Native (.object a)) (entity : h.isEntity a = true) :
    (¬ Circular (Embeds g h) a → Method.toRaw g h a ≠ .error .endless) ∧
    (Circular (Embeds g h) a → ∀ d, Method.toRaw g h a ≠ .ok d) ∧
    (¬ Circular (Consults g h) a → Method.validate g h a ≠ .error .endless) ∧
    (Circular (Consults g h) a → Method.validate g h a ≠ .ok ⟨⟩) ∧
    (Faultless g h a →
      (Circular (Consults g h) a → Method.validate g h a = .error .endless) ∧
      (¬ Circular (Consults g h) a → Method.validate g h a = .ok ⟨⟩)) ∧
    ∀ (s : Session) (cls : ClassId) (id : Value) (i : StoreId), s.catalog = g →
      (s.identified a id).heap = h → Ordinary s.heap a cls id → id.Inert → s.Uses i cls →
      (¬ Circular (Embeds g h) a → ¬ Circular (Consults g h) a →
        (outcome (save (.object a)) s).1 ≠ .error .endless) ∧
      (Faultless g h a → Circular (Consults g h) a →
        (outcome (save (.object a)) s).1 = .error .endless) := by
  have embeds : Acc (fun c b => Embeds g h b c) a ↔ ¬ Circular (Embeds g h) a :=
    acc_iff_not_circular fun _ _ => Embeds.lt
  have consults : Acc (fun c b => Consults g h b c) a ↔ ¬ Circular (Consults g h) a :=
    acc_iff_not_circular fun _ _ => Consults.lt
  have raw : ¬ Circular (Embeds g h) a → Method.toRaw g h a ≠ .error .endless :=
    fun straight => native.toRaw_ne_endless entity (embeds.2 straight)
  have valid : ¬ Circular (Consults g h) a → Method.validate g h a ≠ .error .endless :=
    fun straight => native.validate_ne_endless entity (consults.2 straight)
  have passes : Circular (Consults g h) a → Method.validate g h a ≠ .ok ⟨⟩ :=
    fun circular ok => consults.1 (native.acc_of_validate entity ok) circular
  have endless : Faultless g h a → Circular (Consults g h) a →
      Method.validate g h a = .error .endless := by
    intro faultless circular
    cases hv : Method.validate g h a with
    | ok u => exact absurd hv (passes circular)
    | error e => rw [native.endless_of_validate_error entity faultless hv]
  refine ⟨raw, fun circular d told => ?_, valid, passes, fun faultless =>
    ⟨endless faultless, ?_⟩, ?_⟩
  · exact embeds.1 (native.acc_of_toRaw entity told) circular
  · intro straight
    cases hv : Method.validate g h a with
    | ok u => rfl
    | error e =>
      obtain rfl := native.endless_of_validate_error entity faultless hv
      exact absurd hv (valid straight)
  · rintro s cls id i hcat rfl ho hid uses
    refine ⟨fun noEmbeds noConsults => ?_, fun faultless circular => ?_⟩
    · exact save_ne_endless hcat ho hid uses (valid noConsults) (raw noEmbeds)
    · exact save_of_validate_error hcat ho uses (endless faultless circular)

/-- A class of people, each of whom has a friend among them, who is looked up. -/
def fellows : Catalog where
  classes := Catalog.initial.classes ++ [⟨"Fellow", "Fellow", [1, 0],
    [("friend", .reference (.named "Fellow") (.bool true) false)], none, some (some 0)⟩]
  names := [("Fellow", 1)]

/-- Two people who are friends of each other, and a store for them. -/
def fellowship : Session :=
  { Session.initial with
    catalog := fellows
    heap := [.entity 1 (.str "a") [] [("friend", .object 1)],
      .entity 1 (.str "b") [] [("friend", .object 0)]]
    stores := [.memory []] }

/-- Each of the two goes by the schema of their class and is a friend of the other. -/
theorem rules_fellowship {a : Address} (ha : a < 2) :
    Heap.rules fellows fellowship.heap a = .ok (Heap.classRules fellows 1) ∧
      Heap.field fellows fellowship.heap a "friend" = .object (1 - a) ∧
      Heap.isInstance fellows fellowship.heap (1 - a) 1 = true := by
  rcases Nat.le_one_iff_eq_zero_or_eq_one.1 (Nat.le_of_lt_succ ha) with rfl | rfl <;>
    exact ⟨rfl, rfl, rfl⟩

/-- The raw data of one of two friends come to an end, but neither validation nor saving does. -/
theorem circular_save_fellowship :
    Method.toRaw fellows fellowship.heap 0 ≠ .error .endless ∧
    Method.validate fellows fellowship.heap 0 = .error .endless ∧
    (outcome (save (.object 0)) fellowship).1 = .error .endless := by
  have native : fellowship.heap.Native (.object 0) := by
    intro a _ entity
    have ha : a < 2 := Heap.lt_of_isEntity entity
    rcases Nat.le_one_iff_eq_zero_or_eq_one.1 (Nat.le_of_lt_succ ha) with rfl | rfl <;> decide
  have consults : ∀ a < 2, Consults fellows fellowship.heap a (1 - a) := by
    intro a ha
    obtain ⟨rules, friend, is⟩ := rules_fellowship ha
    refine ⟨_, rules, "friend", _, List.mem_singleton_self _, ?_⟩
    rw [friend]
    exact .reference rfl is
  have circular : Circular (Consults fellows fellowship.heap) 0 :=
    ⟨0, .refl, .tail (.single (consults 0 (by decide))) (consults 1 (by decide))⟩
  have lazy : ¬ Circular (Embeds fellows fellowship.heap) 0 := by
    rintro ⟨b, -, back⟩
    obtain ⟨c, ⟨rs, hrs, name, r, hr, eager, -⟩, -⟩ := TransGen.head'_iff.1 back
    cases (rules_fellowship (Heap.lt_of_rules hrs)).1.symm.trans hrs
    obtain ⟨-, rfl⟩ := Prod.mk.inj (List.mem_singleton.1 hr)
    cases eager
  have faultless : Faultless fellows fellowship.heap 0 := by
    intro b reached
    have hb : b < 2 := by
      rcases reached.cases_tail with rfl | ⟨c, -, consults⟩
      · decide
      · exact Heap.lt_of_isEntity consults.isEntity
    rcases Nat.le_one_iff_eq_zero_or_eq_one.1 (Nat.le_of_lt_succ hb) with rfl | rfl <;> rfl
  obtain ⟨raw, -, -, -, valid, saved⟩ :=
    circular_save (g := fellows) (h := fellowship.heap) (a := 0) native rfl
  refine ⟨raw lazy, (valid faultless).1 circular, ?_⟩
  exact (saved fellowship 1 (.str "a") 0 rfl rfl ⟨rfl, rfl, by decide⟩ (Value.inert_str "a")
    (.assigned rfl)).2 faultless circular

end Persistence

end EntitySchema
