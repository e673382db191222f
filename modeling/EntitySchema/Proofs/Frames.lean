/-
**What a value tells depends on the cells that it holds.**

A check, an encoding and a call look at the cells of the objects that a value leads to, at what
these cells lead to, and so on, and at nothing else of the heap.  So two heaps of any size that
agree on the cells that a value holds have the same outcomes for it: whatever is done to other
objects, the value tells the same raw data.

Main definitions:

* `Heap.Agrees` — another heap has the cells that a value holds as they are.

Main results:

* `Heap.attribute?_of_agrees`, `Heap.rules_of_agrees` — attributes and schemas;
* `Checker.presentWith_of_agrees`, `Encoding.encodeWith_of_agrees` — checks and encodings, for a
  given way to visit entities;
* `Method.call_of_agrees` — **calls**, with any bound;
* `Method.toRaw_of_agrees`, `Encoding.encode_of_agrees` — raw data and raw forms.
-/

import EntitySchema.Proofs.CallDepth

set_option autoImplicit false

namespace EntitySchema

namespace Heap

/-- Another heap has the cells that a value holds as they are. -/
def Agrees (h h' : Heap) (v : Value) : Prop := ∀ a, h.Holds v a → get h' a = get h a

variable {g : Catalog} {h h' : Heap} {v w : Value} {a : Address}

theorem Agrees.of_leads (agrees : Agrees h h' v) (hw : ∀ b, w.LeadsTo b → h.Holds v b) :
    Agrees h h' w := fun b hb => agrees b (hb.of_leads hw)

theorem Agrees.object (agrees : Agrees h h' v) (ha : h.Holds v a) : Agrees h h' (.object a) :=
  fun b hb => agrees b (ha.trans hb)

theorem Agrees.get (agrees : Agrees h h' (.object a)) : Heap.get h' a = Heap.get h a :=
  agrees a (.direct (.object a))

/-- What the one heap has for a value, the other has. -/
theorem Agrees.holds (agrees : Agrees h h' v) {b : Address} (hb : h'.Holds v b) : h.Holds v b := by
  induction hb with
  | direct ha => exact .direct ha
  | through _ hp hl ih =>
    rw [agrees _ ih] at hp
    exact .through ih hp hl

/-! ### Attributes and schemas -/

theorem objectAttribute?_of_get (same : get h' a = get h a) (name : String) :
    objectAttribute? g h' a name = objectAttribute? g h a name := by
  simp only [objectAttribute?, same]

theorem isEntity_of_get (same : get h' a = get h a) : isEntity h' a = isEntity h a := by
  simp only [isEntity, same]

theorem isInstance_of_get (same : get h' a = get h a) (c : ClassId) :
    isInstance g h' a c = isInstance g h a c := by
  simp only [isInstance, same]

theorem field_of_get (same : get h' a = get h a) (name : String) :
    field g h' a name = field g h a name := by
  rw [field, field, objectAttribute?_of_get same]

theorem attribute?_of_agrees (agrees : Agrees h h' v) (token : Nat) (name : String) :
    attribute? g h' token v name = attribute? g h token v name := by
  cases v with
  | object a => exact objectAttribute?_of_get agrees.get name
  | function a =>
    have same := agrees a (.direct (.function a))
    simp only [attribute?, same]
  | _ => rfl

theorem typeName_of_agrees (agrees : Agrees h h' v) : typeName g h' v = typeName g h v := by
  cases v with
  | object a => simp only [typeName, Value.typeName, objectName, agrees.get]
  | _ => rfl

/-- What an attribute of an object of its own leads to, the object holds. -/
theorem holds_of_own? {name : String} (hw : (get h a).own? name = some w) {b : Address}
    (hb : w.LeadsTo b) : h.Holds (.object a) b :=
  .through (.direct (.object a)) (mem_of_own? hw) hb

theorem rules_of_agrees (agrees : Agrees h h' (.object a)) : rules g h' a = rules g h a := by
  simp only [rules, agrees.get]
  split
  · rfl
  · rfl
  · next v own =>
    have there : Agrees h h' v := agrees.of_leads fun b hb => holds_of_own? own hb
    simp only [attribute?_of_agrees there]

/-- What stands in the schema of an object in place of a checker is held by the object. -/
theorem holds_of_other {rs : List (Value × Rule)} (hrs : rules g h a = .ok rs) {k : Value}
    (hr : (k, .other w) ∈ rs) {b : Address} (hb : w.LeadsTo b) : h.Holds (.object a) b := by
  simp only [rules] at hrs
  split at hrs
  · cases hrs
    obtain ⟨f, -, heq⟩ := List.mem_map.1 hr
    cases heq
  · cases hrs
  · next v own =>
    split at hrs
    · next es hes =>
      cases hrs
      obtain ⟨e, he, heq⟩ := List.mem_map.1 hr
      have same : w = e.2 := by
        have other : ruleOf g e.2 = .other w := congrArg Prod.snd heq
        unfold ruleOf at other
        split at other
        · split at other <;> cases other
          rfl
        · cases other
          rfl
      exact holds_of_own? own ((Value.leadsTo_of_entries hes he).2 b (same ▸ hb))
    · cases hrs

end Heap

open Heap (Agrees)

/-! ### Checks -/

namespace Checker

variable {g : Catalog} {h h' : Heap} {visit : Address → Except Failure Unit} {v : Value}

theorem shapeItem_of_agrees (agrees : Agrees h h' v) (field : String) :
    shapeItem g h' v field = shapeItem g h v field := by
  unfold shapeItem
  rw [Heap.attribute?_of_agrees agrees]

theorem presentEntity_of_agrees (agrees : Agrees h h' v) (t : Target) (name : String) :
    presentEntity g h' visit t v name = presentEntity g h visit t v name := by
  unfold presentEntity
  cases v with
  | object a => simp only [Heap.isInstance_of_get agrees.get, Heap.typeName_of_agrees agrees]
  | _ => rfl

mutual

/-- A check looks only at the cells that the value holds. -/
theorem presentWith_of_agrees : (c : Checker) → (v : Value) → (name : String) → Agrees h h' v →
    presentWith g h' visit c v name = presentWith g h visit c v name
  | .scalar _ _ _, _, _, _ => rfl
  | .date _, v, name, agrees => by
    have same : Heap.typeName g h' v = Heap.typeName g h v := Heap.typeName_of_agrees agrees
    cases v <;> simp only [presentWith, same]
  | .arrayOf e _, v, name, agrees => by
    simp only [presentWith]
    cases hxs : v.elements? with
    | none => rfl
    | some xs =>
      refine forM_congr fun p hp => ?_
      have mem : p.1 ∈ xs := (List.mem_zipIdx' hp).2 ▸ List.getElem_mem _
      rw [presentWith_of_agrees e p.1 _ fun b hb => agrees b (holds_of_element hxs mem hb)]
  | .dictOf e _, v, name, agrees => by
    cases v with
    | dict es =>
      refine forM_congr fun p hp => ?_
      rw [presentWith_of_agrees e p.2 _ fun b hb => agrees b (holds_of_entry hp hb)]
    | _ => simp only [presentWith, Heap.typeName_of_agrees agrees]
  | .shape fs _, v, name, agrees => by
    simp only [presentWith]
    rw [presentFields_of_agrees fs v name agrees]
  | .reference t _ _, v, name, agrees => presentEntity_of_agrees agrees t name
termination_by structural c => c

theorem presentFields_of_agrees : (fs : List (String × Checker)) → (v : Value) → (name : String) →
    Agrees h h' v → presentFields g h' visit fs v name = presentFields g h visit fs v name
  | [], _, _, _ => rfl
  | (field, c) :: fs, v, name, agrees => by
    simp only [presentFields, shapeItem_of_agrees agrees]
    rw [presentWith_of_agrees c _ _ fun b hb => agrees b (holds_of_shapeItem hb),
      presentFields_of_agrees fs v name agrees]
termination_by structural fs => fs

end

end Checker

namespace Validation

variable {g : Catalog} {h h' : Heap} {visit : Address → Except Failure Unit} {a : Address}
  (agrees : Agrees h h' (.object a))

include agrees

theorem checkField_of_agrees {rs : List (Value × Heap.Rule)} (hrs : Heap.rules g h a = .ok rs)
    {r : Value × Heap.Rule} (hr : r ∈ rs) :
    checkField g h' visit a r = checkField g h visit a r := by
  obtain ⟨k, rule⟩ := r
  cases rule with
  | checker c =>
    cases k with
    | str name =>
      have held : Agrees h h' (Heap.field g h a name) := agrees.of_leads fun b hb =>
        Heap.holds_of_field (.direct hb) (.direct (.object a))
      simp only [checkField, Checker.checkWith, Heap.field_of_get agrees.get,
        Checker.presentWith_of_agrees c _ _ held]
    | _ => rfl
  | other w =>
    have held : Agrees h h' w := agrees.of_leads fun b hb => Heap.holds_of_other hrs hr hb
    cases k <;> simp only [checkField, Heap.attribute?_of_agrees held]

theorem validateWith_of_agrees : validateWith g h' visit a = validateWith g h visit a := by
  unfold validateWith
  rw [Heap.rules_of_agrees agrees]
  cases hrs : Heap.rules g h a with
  | error e => rfl
  | ok rs => exact forM_congr fun r hr => checkField_of_agrees agrees hrs hr

theorem failuresWith_of_agrees : failuresWith g h' visit a = failuresWith g h visit a := by
  unfold failuresWith
  rw [Heap.rules_of_agrees agrees]
  cases hrs : Heap.rules g h a with
  | error e => rfl
  | ok rs =>
    exact fieldFailures_congr fun r hr => checkField_of_agrees agrees hrs hr

end Validation

/-! ### Encodings -/

namespace Encoding

variable {h h' : Heap} {visit : Address → Except Failure Value}

mutual

/-- An encoding looks only at the cells that the value leads to. -/
theorem encodeWith_of_get (byId : Bool) : (v : Value) →
    (∀ a, v.LeadsTo a → Heap.get h' a = Heap.get h a) →
      encodeWith h' visit byId v = encodeWith h visit byId v
  | .object a, same => by
    have here := same a (.object a)
    simp only [encodeWith, Heap.isEntity_of_get here, identifierOnly, here]
  | .list xs, same => by
    simp only [encodeWith]
    rw [encodeItems_of_get byId xs fun x hx a ha => same a (.list hx ha)]
  | .tuple xs, same => by
    simp only [encodeWith]
    rw [encodeItems_of_get byId xs fun x hx a ha => same a (.tuple hx ha)]
  | .dict es, same => by
    simp only [encodeWith]
    rw [encodeEntries_of_get byId es fun e he a ha => same a (.dict he ha)]
  | .ordered es, same => by
    simp only [encodeWith]
    rw [encodeEntries_of_get byId es fun e he a ha => same a (.ordered he ha)]
  | .null, _ | .bool _, _ | .int _, _ | .float _, _ | .nan _, _ | .str _, _ | .bytes _, _
  | .set _, _ | .date _, _ | .moment _, _ | .stamp _, _ | .zone _, _ | .function _, _
  | .method _ _, _ | .cls _, _ | .checker _ _, _ | .store _, _ | .thing _, _ => rfl
termination_by structural v => v

theorem encodeItems_of_get (byId : Bool) : (xs : List Value) →
    (∀ x ∈ xs, ∀ a, x.LeadsTo a → Heap.get h' a = Heap.get h a) →
      encodeItems h' visit byId xs = encodeItems h visit byId xs
  | [], _ => rfl
  | x :: xs, same => by
    obtain ⟨first, rest⟩ := List.forall_mem_cons.1 same
    simp only [encodeItems]
    rw [encodeWith_of_get byId x first, encodeItems_of_get byId xs rest]
termination_by structural xs => xs

theorem encodeEntries_of_get (byId : Bool) : (es : Entries) →
    (∀ e ∈ es, ∀ a, e.2.LeadsTo a → Heap.get h' a = Heap.get h a) →
      encodeEntries h' visit byId es = encodeEntries h visit byId es
  | [], _ => rfl
  | (k, v) :: es, same => by
    obtain ⟨first, rest⟩ := List.forall_mem_cons.1 same
    simp only [encodeEntries]
    rw [encodeWith_of_get byId v first, encodeEntries_of_get byId es rest]
termination_by structural es => es

end

theorem encodeWith_of_agrees {v : Value} (agrees : Agrees h h' v) (byId : Bool) :
    encodeWith h' visit byId v = encodeWith h visit byId v :=
  encodeWith_of_get byId v fun a ha => agrees a (.direct ha)

variable {g : Catalog} {a : Address} (agrees : Agrees h h' (.object a))

include agrees

theorem encodeField_of_agrees (r : Value × Heap.Rule) :
    encodeField g h' visit a r = encodeField g h visit a r := by
  obtain ⟨k, rule⟩ := r
  cases k with
  | str name =>
    have held : Agrees h h' (Heap.field g h a name) := agrees.of_leads fun b hb =>
      Heap.holds_of_field (.direct hb) (.direct (.object a))
    simp only [encodeField, unloaded, Heap.field_of_get agrees.get,
      Heap.objectAttribute?_of_get agrees.get, encodeWith_of_agrees held]
  | _ => rfl

theorem rawWith_of_agrees : rawWith g h' visit a = rawWith g h visit a := by
  have fields : ∀ rs : List (Value × Heap.Rule),
      rs.mapM (encodeField g h' visit a) = rs.mapM (encodeField g h visit a) :=
    fun rs => mapM_congr fun r _ => encodeField_of_agrees agrees r
  simp only [rawWith, idEntry, Heap.objectAttribute?_of_get agrees.get,
    Heap.rules_of_agrees agrees, fields]

end Encoding

/-! ### Calls -/

namespace Method

variable {g : Catalog} {h h' : Heap}

/-- **A call looks only at the cells that the value holds.** -/
theorem call_of_agrees : ∀ (n : Nat) {v : Value}, Agrees h h' v → call g h' n v = call g h n v
  | 0, _, _ => rfl
  | n + 1, v, agrees => by
    cases v with
    | method owner name =>
      cases owner with
      | object a =>
        have here : Agrees h h' (.object a) := agrees.object (.direct (.method a name))
        -- what the object contains is asked alike
        have asked : ∀ b, Heap.Contains g h a b → ∀ method,
            ask g h' (call g h' n) method b = ask g h (call g h n) method b := by
          intro b hb method
          have there : Agrees h h' (.object b) := here.object (hb.holds (.direct (.object a)))
          simp only [ask, Heap.objectAttribute?_of_get there.get]
          cases hm : Heap.objectAttribute? g h b method with
          | none => rfl
          | some m =>
            have own : Heap.attribute? g h 0 (.object b) method = some m := hm
            exact call_of_agrees n (there.of_leads fun c hc => Heap.holds_of_attribute? own hc)
        simp only [call]
        split
        · rw [Validation.validateWith_of_agrees here,
            Validation.validateWith_congr fun b hb => by rw [asked b hb]]
        · split
          · rw [Validation.failuresWith_of_agrees here,
              Validation.failuresWith_congr fun b hb => by rw [asked b hb]]
          · split
            · rw [Encoding.rawWith_of_agrees here,
                Encoding.rawWith_congr fun b hb => by rw [asked b hb]]
            · rfl
      | _ => rfl
    | _ => rfl

/-- What a value yields when it is called depends on the cells that it holds only. -/
theorem invoke_of_agrees {v : Value} (agrees : Agrees h h' v) : invoke g h' v = invoke g h v := by
  -- the bound depends on the size of the heap, but a bound that is enough for both does as well
  have bound : invoke g h' v = call g h' (max (depth h) (depth h')) v :=
    (congrFun (call_of_depth_le (by omega)) v).symm
  rw [bound, call_of_agrees _ agrees, call_of_depth_le (by omega)]
  rfl

theorem send_of_agrees {v : Value} (agrees : Agrees h h' v) (name : String) :
    send g h' v name = send g h v name := by
  unfold send
  rw [Heap.attribute?_of_agrees agrees]
  cases hm : Heap.attribute? g h 0 v name with
  | none => rfl
  | some m => exact invoke_of_agrees (agrees.of_leads fun b hb => Heap.holds_of_attribute? hm hb)

/-- **The raw data of an object depend on the cells that it holds only.** -/
theorem toRaw_of_agrees {a : Address} (agrees : Agrees h h' (.object a)) :
    toRaw g h' a = toRaw g h a := by
  rw [toRaw, send_of_agrees agrees]
  rfl

end Method

/-- **The raw form of a value depends on the cells that it holds only.** -/
theorem Encoding.encode_of_agrees {g : Catalog} {h h' : Heap} {v : Value} (agrees : Agrees h h' v)
    (byId : Bool) :
    encodeWith h' (Method.toRaw g h') byId v = encodeWith h (Method.toRaw g h) byId v := by
  rw [encodeWith_of_agrees agrees]
  exact encodeWith_congr byId v fun a ha => Method.toRaw_of_agrees (agrees.object (.direct ha))

end EntitySchema
