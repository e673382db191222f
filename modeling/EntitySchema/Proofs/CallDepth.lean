/-
**The bound on calls suffices.**

A method of an object may ask other objects, so a call has a bound on how many methods are entered
one inside the other.  An outcome other than that of meeting the bound stays when the bound is
raised: no check and no encoding looks at the failure of the bound, they all pass it on.  And each
round in which the bound is raised by one settles at least one more method of an object, or nothing
any more.  So the bound that is taken from the number of objects is as good as any higher one,
whatever the objects hold, circles included, and the methods of an object obey the equations that
one would write down without a bound.

Main definitions:

* `Approaches` — an outcome that a higher bound can only complete;
* `Method.settled` — the methods whose outcome is known with a bound.

Main results:

* `exists_stationary` — what grows and is bounded comes to a halt;
* `Method.approaches_call` — **a higher bound changes no outcome but that of meeting the bound**;
* `Method.call_of_depth_le` — **the bound on calls suffices**;
* `Method.validate_of_method`, `Method.toRaw_of_method` — validation and raw data without a bound,
  for every object that has the methods of its class.
-/

import EntitySchema.Proofs.Building
import Mathlib.Data.Finset.Card
import Mathlib.Data.Finset.Prod

set_option autoImplicit false

namespace EntitySchema

/-- What grows and is bounded comes to a halt. -/
theorem exists_stationary {f : Nat → Nat} {b : Nat} (hf : ∀ n, f n ≤ b) :
    ∃ n ≤ b, f (n + 1) ≤ f n := by
  by_contra never
  have grows : ∀ n ≤ b, f n < f (n + 1) := fun n hn =>
    Nat.lt_of_not_le fun hle => never ⟨n, hn, hle⟩
  have large : ∀ n ≤ b + 1, n ≤ f n := by
    intro n
    induction n with
    | zero => exact fun _ => Nat.zero_le _
    | succ n ih => exact fun hn => (ih (by omega)).trans_lt (grows n (by omega))
  exact absurd (hf (b + 1)) (Nat.not_le.2 (large (b + 1) le_rfl))

/-! ### Outcomes that a higher bound completes -/

/-- An outcome that stays what it is when the bound is raised, unless the bound was met. -/
def Approaches {α : Type} (x y : Except Failure α) : Prop := x = .error .endless ∨ x = y

namespace Approaches

variable {α β : Type} {x y : Except Failure α}

theorem refl (x : Except Failure α) : Approaches x x := .inr rfl

theorem eq_of_ne (h : Approaches x y) (hx : x ≠ .error .endless) : x = y := h.resolve_left hx

theorem bind {f f' : α → Except Failure β} (hx : Approaches x y)
    (hf : ∀ a, Approaches (f a) (f' a)) : Approaches (x >>= f) (y >>= f') := by
  rcases hx with rfl | rfl
  · exact .inl rfl
  · cases x with
    | error e => exact .refl _
    | ok a => exact hf a

theorem discarded (hx : Approaches x y) : Approaches (discard x) (discard y) := by
  rcases hx with rfl | rfl
  · exact .inl rfl
  · exact .refl _

theorem forM {f f' : β → Except Failure Unit} (hf : ∀ b, Approaches (f b) (f' b)) (xs : List β) :
    Approaches (xs.forM f) (xs.forM f') := by
  induction xs with
  | nil => exact .refl _
  | cons x xs ih => exact (hf x).bind fun _ => ih

theorem mapM {f f' : β → Except Failure α} (hf : ∀ b, Approaches (f b) (f' b)) (xs : List β) :
    Approaches (xs.mapM f) (xs.mapM f') := by
  induction xs with
  | nil => exact .refl _
  | cons x xs ih =>
    rw [List.mapM_cons, List.mapM_cons]
    exact (hf x).bind fun _ => ih.bind fun _ => .refl _

end Approaches

/-! ### Checks and encodings pass the failure of the bound on -/

namespace Checker

variable {g : Catalog} {h : Heap} {visit visit' : Address → Except Failure Unit}

theorem approaches_checkPresence (required : Bool) (v : Value) (name : String)
    {x y : Except Failure Unit} (hxy : Approaches x y) :
    Approaches (checkPresence required v name x) (checkPresence required v name y) := by
  unfold checkPresence
  split
  · exact .refl _
  · exact hxy

theorem approaches_presentEntity (hv : ∀ a, Approaches (visit a) (visit' a)) (t : Target)
    (v : Value) (name : String) :
    Approaches (presentEntity g h visit t v name) (presentEntity g h visit' t v name) := by
  refine (Approaches.refl _).bind fun cls => ?_
  cases v with
  | object a =>
    dsimp only
    split
    · rcases hv a with failed | same
      · rw [failed]
        exact .inl rfl
      · rw [same]
        exact .refl _
    · exact .refl _
  | _ => exact .refl _

mutual

/-- A check passes the failure of the bound on. -/
theorem approaches_presentWith (hv : ∀ a, Approaches (visit a) (visit' a)) :
    (c : Checker) → (v : Value) → (name : String) →
    Approaches (presentWith g h visit c v name) (presentWith g h visit' c v name)
  | .scalar _ _ _, _, _ | .date _, _, _ => .refl _
  | .arrayOf e _, v, name => by
    simp only [presentWith]
    cases v.elements? with
    | none => exact .refl _
    | some xs =>
      exact .forM (fun p : Value × Nat =>
        approaches_checkPresence _ _ _ (approaches_presentWith hv e p.1 _)) _
  | .dictOf e _, v, name => by
    cases v with
    | dict es =>
      exact .forM (fun p : Value × Value =>
        approaches_checkPresence _ _ _ (approaches_presentWith hv e p.2 _)) _
    | _ => exact .refl _
  | .shape fs _, v, name => by
    simp only [presentWith]
    split
    · exact .refl _
    · exact approaches_presentFields hv fs v name
  | .reference t _ _, v, name => approaches_presentEntity hv t v name
termination_by structural c => c

theorem approaches_presentFields (hv : ∀ a, Approaches (visit a) (visit' a)) :
    (fs : List (String × Checker)) → (v : Value) → (name : String) →
    Approaches (presentFields g h visit fs v name) (presentFields g h visit' fs v name)
  | [], _, _ => .refl _
  | (_, c) :: fs, v, name =>
    (approaches_checkPresence _ _ _ (approaches_presentWith hv c _ _)).bind fun _ =>
      approaches_presentFields hv fs v name
termination_by structural fs => fs

end

end Checker

namespace Validation

variable {g : Catalog} {h : Heap} {visit visit' : Address → Except Failure Unit}
  (hv : ∀ a, Approaches (visit a) (visit' a)) (a : Address)

include hv

theorem approaches_checkField (r : Value × Heap.Rule) :
    Approaches (checkField g h visit a r) (checkField g h visit' a r) := by
  obtain ⟨k, rule⟩ := r
  cases rule with
  | checker c =>
    cases k with
    | str name =>
      exact Checker.approaches_checkPresence _ _ _ (Checker.approaches_presentWith hv c _ name)
    | _ => exact .refl _
  | other w => exact .inr (by cases k <;> rfl)

theorem approaches_validateWith :
    Approaches (validateWith g h visit a) (validateWith g h visit' a) :=
  (Approaches.refl _).bind fun rs => .forM (approaches_checkField hv a) rs

/-- The failures that are collected do not include that of the bound, which is passed on. -/
theorem approaches_fieldFailures (rs : List (Value × Heap.Rule)) :
    Approaches (fieldFailures g h visit a rs) (fieldFailures g h visit' a rs) := by
  induction rs with
  | nil => exact .refl _
  | cons r rs ih =>
    simp only [fieldFailures]
    rcases approaches_checkField hv a r with failed | same
    · rw [failed]
      exact .inl rfl
    · rw [same]
      have then_rest (first : List CheckError) : Approaches
          (do let rest ← fieldFailures g h visit a rs; .ok (first ++ rest))
          (do let rest ← fieldFailures g h visit' a rs; .ok (first ++ rest)) :=
        ih.bind fun _ => .refl _
      split
      · exact then_rest []
      · exact then_rest [_]
      · exact .refl _

theorem approaches_failuresWith :
    Approaches (failuresWith g h visit a) (failuresWith g h visit' a) :=
  (Approaches.refl _).bind fun rs => approaches_fieldFailures hv a rs

end Validation

namespace Encoding

variable {g : Catalog} {h : Heap} {visit visit' : Address → Except Failure Value}

mutual

/-- An encoding passes the failure of the bound on. -/
theorem approaches_encodeWith (hv : ∀ a, Approaches (visit a) (visit' a)) (byId : Bool) :
    (v : Value) → Approaches (encodeWith h visit byId v) (encodeWith h visit' byId v)
  | .object a => by
    simp only [encodeWith]
    split
    · split
      · exact .refl _
      · exact hv a
    · exact .refl _
  | .list xs => (approaches_encodeItems hv byId xs).bind fun _ => .refl _
  | .tuple xs => (approaches_encodeItems hv byId xs).bind fun _ => .refl _
  | .dict es => (approaches_encodeEntries hv byId es).bind fun _ => .refl _
  | .ordered es => (approaches_encodeEntries hv byId es).bind fun _ => .refl _
  | .null | .bool _ | .int _ | .float _ | .nan _ | .str _ | .bytes _ | .set _ | .date _ | .moment _
  | .stamp _ | .zone _ | .function _ | .method _ _ | .cls _ | .checker _ _ | .store _ | .thing _ =>
    .refl _
termination_by structural v => v

theorem approaches_encodeItems (hv : ∀ a, Approaches (visit a) (visit' a)) (byId : Bool) :
    (xs : List Value) → Approaches (encodeItems h visit byId xs) (encodeItems h visit' byId xs)
  | [] => .refl _
  | x :: xs => (approaches_encodeWith hv byId x).bind fun _ =>
      (approaches_encodeItems hv byId xs).bind fun _ => .refl _
termination_by structural xs => xs

theorem approaches_encodeEntries (hv : ∀ a, Approaches (visit a) (visit' a)) (byId : Bool) :
    (es : Entries) → Approaches (encodeEntries h visit byId es) (encodeEntries h visit' byId es)
  | [] => .refl _
  | (_, v) :: es => (approaches_encodeWith hv byId v).bind fun _ =>
      (approaches_encodeEntries hv byId es).bind fun _ => .refl _
termination_by structural es => es

end

theorem approaches_encodeField (hv : ∀ a, Approaches (visit a) (visit' a)) (a : Address)
    (r : Value × Heap.Rule) :
    Approaches (encodeField g h visit a r) (encodeField g h visit' a r) := by
  obtain ⟨k, rule⟩ := r
  cases k with
  | str name =>
    refine (Approaches.refl _).bind fun unloaded => ?_
    cases unloaded with
    | some raw => exact .refl _
    | none => exact (approaches_encodeWith hv (byId rule) _).bind fun _ => .refl _
  | _ => exact .refl _

theorem approaches_rawWith (hv : ∀ a, Approaches (visit a) (visit' a)) (a : Address) :
    Approaches (rawWith g h visit a) (rawWith g h visit' a) :=
  (Approaches.refl _).bind fun _ => (Approaches.refl _).bind fun rs =>
    (Approaches.mapM (approaches_encodeField hv a) rs).bind fun _ => .refl _

end Encoding

/-! ### Calls -/

namespace Method

variable {g : Catalog} {h : Heap}

/-- **A higher bound changes no outcome but that of meeting the bound.** -/
theorem approaches_call : ∀ (n : Nat) (v : Value), Approaches (call g h n v) (call g h (n + 1) v)
  | 0, _ => .inl rfl
  | n + 1, v => by
    have asked : ∀ name b,
        Approaches (ask g h (call g h n) name b) (ask g h (call g h (n + 1)) name b) := by
      intro name b
      unfold ask
      cases Heap.objectAttribute? g h b name with
      | none => exact .refl _
      | some m => exact approaches_call n m
    cases v with
    | method owner name =>
      cases owner with
      | object a =>
        rw [call, call.eq_def g h (n + 1 + 1)]
        dsimp only
        split
        · exact (Validation.approaches_validateWith
              (fun b => (asked "validate" b).discarded) a).bind fun _ => .refl _
        · split
          · exact (Validation.approaches_failuresWith
              (fun b => (asked "validate" b).discarded) a).bind fun _ => .refl _
          · split
            · refine (Encoding.approaches_rawWith (fun b => ?_) a).bind fun _ => .refl _
              exact (asked "to_raw" b).bind fun _ => .refl _
            · exact .refl _
      | _ => exact .refl _
    | _ => exact .refl _

/-- A call depends on the calls with a lower bound only. -/
theorem call_succ_congr {m n : Nat} (same : call g h m = call g h n) :
    call g h (m + 1) = call g h (n + 1) := by
  funext v
  simp only [call, same]

/-- The methods that ask other objects. -/
def walks : List String := ["validate", "check", "to_raw"]

/-- A call that is no method of an object of the heap, or none that asks other objects, needs no
bound. -/
theorem call_of_not_walk {v : Value} (hv : ∀ a name, v = .method (.object a) name →
    a < h.length → name ∉ walks) (m n : Nat) : call g h (m + 1) v = call g h (n + 1) v := by
  cases v with
  | method owner name =>
    cases owner with
    | object a =>
      by_cases ha : a < h.length
      · have other : name ∉ walks := hv a name rfl ha
        simp only [walks, List.mem_cons, List.not_mem_nil, or_false, not_or] at other
        simp only [call, other, if_false]
      · -- there is no object, so there are neither rules nor an identifier
        have empty : Heap.get h a = ⟨.plain, []⟩ := by
          simp [Heap.get, List.getElem?_eq_none (Nat.le_of_not_lt ha)]
        have rules : Heap.rules g h a = .error (.noAttribute "schema") := by
          simp [Heap.rules, empty, Cell.own?]
        have id : Encoding.idEntry g h a = .error (.noAttribute idField) := by
          have absent : Heap.objectAttribute? g h a idField = none := by
            simp only [Heap.objectAttribute?, empty]
            rfl
          rw [Encoding.idEntry, absent]
        simp only [call, Validation.validateWith, Validation.failuresWith, Encoding.rawWith, rules,
          id]
        rfl
    | _ => rfl
  | _ => rfl

open Classical in
/-- The methods of objects of the heap whose outcome is known with a bound. -/
noncomputable def settled (g : Catalog) (h : Heap) (n : Nat) : Finset (Address × String) :=
  (Finset.range h.length ×ˢ walks.toFinset).filter fun p =>
    call g h n (.method (.object p.1) p.2) ≠ .error .endless

theorem mem_settled {n : Nat} {a : Address} {name : String} : (a, name) ∈ settled g h n ↔
    (a < h.length ∧ name ∈ walks) ∧ call g h n (.method (.object a) name) ≠ .error .endless := by
  simp only [settled, Finset.mem_filter, Finset.mem_product, Finset.mem_range, List.mem_toFinset]

theorem settled_subset (n : Nat) : settled g h n ⊆ settled g h (n + 1) := by
  rintro ⟨a, name⟩ mem
  obtain ⟨there, known⟩ := mem_settled.1 mem
  exact mem_settled.2 ⟨there, (approaches_call n _).eq_of_ne known ▸ known⟩

open Classical in
theorem card_settled_le (n : Nat) : (settled g h n).card ≤ 3 * h.length := by
  calc (settled g h n).card
      ≤ (Finset.range h.length ×ˢ walks.toFinset).card := Finset.card_filter_le _ _
    _ = h.length * 3 := by rw [Finset.card_product, Finset.card_range]; rfl
    _ = 3 * h.length := Nat.mul_comm _ _

/-- Once a higher bound settles nothing more, it changes no outcome. -/
theorem call_succ_of_settled {n : Nat}
    (halt : (settled g h (n + 2)).card ≤ (settled g h (n + 1)).card) :
    call g h (n + 2) = call g h (n + 1) := by
  have same : settled g h (n + 1) = settled g h (n + 2) :=
    Finset.eq_of_subset_of_card_le (settled_subset (n + 1)) halt
  funext v
  by_cases known : call g h (n + 1) v = .error .endless
  · by_contra differs
    have walk : ∃ a name, v = .method (.object a) name ∧ a < h.length ∧ name ∈ walks := by
      by_contra none
      exact differs (call_of_not_walk (fun a name hv ha hn => none ⟨a, name, hv, ha, hn⟩) (n + 1) n)
    obtain ⟨a, name, rfl, there⟩ := walk
    have mem : (a, name) ∈ settled g h (n + 2) :=
      mem_settled.2 ⟨there, fun failed => differs (failed.trans known.symm)⟩
    exact (mem_settled.1 (same ▸ mem)).2 known
  · exact ((approaches_call (n + 1) v).eq_of_ne known).symm

/-- **The bound on calls suffices**: with a higher one every call has the outcome that it has with
this. -/
theorem call_of_depth_le {n : Nat} (hn : depth h ≤ n + 1) : call g h n = call g h (depth h) := by
  obtain ⟨k, hk, halt⟩ := exists_stationary fun n => card_settled_le (g := g) (h := h) (n + 1)
  have still : ∀ m, call g h (k + 1 + m) = call g h (k + 1) := by
    intro m
    induction m with
    | zero => rfl
    | succ m ih => exact (call_succ_congr ih).trans (call_succ_of_settled halt)
  have reached : ∀ n, 3 * h.length + 1 ≤ n → call g h n = call g h (k + 1) := by
    intro n hn
    obtain ⟨m, rfl⟩ : ∃ m, n = k + 1 + m := ⟨n - (k + 1), by omega⟩
    exact still m
  unfold depth at hn ⊢
  rw [reached n (by omega), reached (3 * h.length + 2) (by omega)]

/-! ### Methods without a bound -/

/-- What an object is asked on the way is what it is asked from outside. -/
theorem ask_of_depth_le {n : Nat} (hn : depth h ≤ n + 1) (name : String) (b : Address) :
    ask g h (call g h n) name b = send g h (.object b) name := by
  rw [call_of_depth_le hn]
  rfl

/-- A call is one with any bound that is high enough, and of what it asks it is the same. -/
theorem invoke_eq (v : Value) : invoke g h v = call g h (depth h + 1) v :=
  (congrFun (call_of_depth_le (by omega)) v).symm

section

variable {a : Address}

/-- An object that has the method of its class validates its fields, and each entity in them. -/
theorem validate_of_method
    (hm : Heap.objectAttribute? g h a "validate" = some (.method (.object a) "validate")) :
    validate g h a = Validation.validateWith g h (validate g h) a := by
  have asked : (fun b => discard (ask g h (call g h (depth h)) "validate" b)) = validate g h := by
    funext b
    rw [ask_of_depth_le (by omega)]
    rfl
  conv_lhs => rw [validate, send, Heap.attribute?, hm]
  simp only [invoke_eq, call, if_true, asked]
  cases Validation.validateWith g h (validate g h) a <;> rfl

/-- An object that has the method of its class tells its fields as its raw data, and each entity in
them as its own. -/
theorem toRaw_of_method
    (hm : Heap.objectAttribute? g h a "to_raw" = some (.method (.object a) "to_raw")) :
    toRaw g h a = Encoding.rawWith g h (toRaw g h) a := by
  have asked : (fun b => do .ok (← ask g h (call g h (depth h)) "to_raw" b).toValue) =
      toRaw g h := by
    funext b
    rw [ask_of_depth_le (by omega)]
    rfl
  conv_lhs => rw [toRaw, send, Heap.attribute?, hm]
  simp only [invoke_eq, call, String.reduceEq, if_false, if_true, asked]
  cases Encoding.rawWith g h (toRaw g h) a <;> rfl

end

end Method

end EntitySchema
