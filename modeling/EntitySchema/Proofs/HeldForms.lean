/-
**What is told, written or shown of a value is of what it holds.**

The raw data of an object lead only to what the object holds: they are made of its attributes and of
what the objects in these tell in turn.  So the written form of a value, in which the raw data of an
entity stand for it, depends on the cells that the value holds only, and on the number of cells,
which bounds how deep it goes.

Main results:

* `Encoding.holds_of_encodeWith`, `Method.holds_of_toRaw` — what a raw form leads to;
* `Method.write_of_agrees`, `Method.toText_of_agrees` — **written and shown forms depend on the
  cells that are held.**
-/

import EntitySchema.Proofs.Frames

set_option autoImplicit false

namespace EntitySchema

/-! ### Raw forms -/

namespace Encoding

variable {h : Heap} {visit : Address → Except Failure Value} {byId : Bool}

mutual

/-- The raw form of a value leads only to what the value holds, if what is told of its objects
does. -/
theorem holds_of_encodeWith : (v : Value) → (∀ a, v.LeadsTo a → ∀ u, visit a = .ok u →
      ∀ b, u.LeadsTo b → h.Holds (.object a) b) →
    ∀ w, encodeWith h visit byId v = .ok w → ∀ b, w.LeadsTo b → h.Holds v b
  | .object a, told, w, hw, b, hb => by
    rw [encodeWith] at hw
    split at hw
    · split at hw
      · unfold identifierOnly at hw
        split at hw
        · next id own =>
          cases hw
          cases hb with
          | dictKey he hb =>
            obtain rfl := List.mem_singleton.1 he
            cases hb
          | dict he hb =>
            obtain rfl := List.mem_singleton.1 he
            exact Heap.holds_of_own? own hb
        · cases hw
      · exact told a (.object a) w hw b hb
    · cases hw
      exact .direct hb
  | .list xs, told, w, hw, b, hb => by
    rw [encodeWith] at hw
    obtain ⟨ys, hys, hw⟩ := bind_eq_ok.1 hw
    cases hw
    cases hb with
    | list hy hb =>
      obtain ⟨x, hx, held⟩ := holds_of_encodeItems xs (fun x hx a ha => told a (.list hx ha)) ys hys
        _ hy b hb
      exact held.of_leads fun c hc => .direct (.list hx hc)
  | .tuple xs, told, w, hw, b, hb => by
    rw [encodeWith] at hw
    obtain ⟨ys, hys, hw⟩ := bind_eq_ok.1 hw
    cases hw
    cases hb with
    | list hy hb =>
      obtain ⟨x, hx, held⟩ :=
        holds_of_encodeItems xs (fun x hx a ha => told a (.tuple hx ha)) ys hys
          _ hy b hb
      exact held.of_leads fun c hc => .direct (.tuple hx hc)
  | .dict es, told, w, hw, b, hb => by
    rw [encodeWith] at hw
    -- keys are told as they are, values by their forms
    obtain ⟨ds, hds, hw⟩ := bind_eq_ok.1 hw
    cases hw
    have lead : ∃ d ∈ ds, d.1.LeadsTo b ∨ d.2.LeadsTo b := by
      cases hb with
      | dictKey hd hb => exact ⟨_, hd, .inl hb⟩
      | dict hd hb => exact ⟨_, hd, .inr hb⟩
    obtain ⟨d, hd, lead⟩ := lead
    obtain ⟨e, he, held | held⟩ :=
      holds_of_encodeEntries es (fun e he a ha => told a (.dict he ha)) ds hds d hd b lead
    · exact .direct (.dictKey he held)
    · exact held.of_leads fun c hc => .direct (.dict he hc)
  | .ordered es, told, w, hw, b, hb => by
    rw [encodeWith] at hw
    obtain ⟨ds, hds, hw⟩ := bind_eq_ok.1 hw
    cases hw
    have lead : ∃ d ∈ ds, d.1.LeadsTo b ∨ d.2.LeadsTo b := by
      cases hb with
      | dictKey hd hb => exact ⟨_, hd, .inl hb⟩
      | dict hd hb => exact ⟨_, hd, .inr hb⟩
    obtain ⟨d, hd, lead⟩ := lead
    obtain ⟨e, he, held | held⟩ :=
      holds_of_encodeEntries es (fun e he a ha => told a (.ordered he ha)) ds hds d hd b lead
    · exact .direct (.orderedKey he held)
    · exact held.of_leads fun c hc => .direct (.ordered he hc)
  | .date _, _, _, hw, _, hb | .moment _, _, _, hw, _, hb | .stamp _, _, _, hw, _, hb => by
    cases hw
    cases hb
  | .null, _, _, hw, _, hb | .bool _, _, _, hw, _, hb | .int _, _, _, hw, _, hb
  | .float _, _, _, hw, _, hb | .nan _, _, _, hw, _, hb | .str _, _, _, hw, _, hb
  | .bytes _, _, _, hw, _, hb | .set _, _, _, hw, _, hb | .zone _, _, _, hw, _, hb
  | .function _, _, _, hw, _, hb | .method _ _, _, _, hw, _, hb | .cls _, _, _, hw, _, hb
  | .checker _ _, _, _, hw, _, hb | .store _, _, _, hw, _, hb | .thing _, _, _, hw, _, hb => by
    cases hw
    exact .direct hb
termination_by structural v => v

theorem holds_of_encodeItems : (xs : List Value) → (∀ x ∈ xs, ∀ a, x.LeadsTo a →
      ∀ u, visit a = .ok u → ∀ b, u.LeadsTo b → h.Holds (.object a) b) →
    ∀ ys, encodeItems h visit byId xs = .ok ys → ∀ y ∈ ys, ∀ b, y.LeadsTo b →
      ∃ x ∈ xs, h.Holds x b
  | [], _, _, hys, _, hy, _, _ => by
    cases hys
    cases hy
  | x :: xs, told, ys, hys, y, hy, b, hb => by
    obtain ⟨first, rest⟩ := List.forall_mem_cons.1 told
    rw [encodeItems] at hys
    obtain ⟨z, hz, hys⟩ := bind_eq_ok.1 hys
    obtain ⟨zs, hzs, hys⟩ := bind_eq_ok.1 hys
    cases hys
    rcases List.mem_cons.1 hy with rfl | hy
    · exact ⟨x, List.mem_cons_self .., holds_of_encodeWith x first y hz b hb⟩
    · obtain ⟨x', hx', held⟩ := holds_of_encodeItems xs rest zs hzs y hy b hb
      exact ⟨x', List.mem_cons_of_mem _ hx', held⟩
termination_by structural xs => xs

theorem holds_of_encodeEntries : (es : Entries) → (∀ e ∈ es, ∀ a, e.2.LeadsTo a →
      ∀ u, visit a = .ok u → ∀ b, u.LeadsTo b → h.Holds (.object a) b) →
    ∀ ds, encodeEntries h visit byId es = .ok ds → ∀ d ∈ ds, ∀ b, d.1.LeadsTo b ∨ d.2.LeadsTo b →
      ∃ e ∈ es, e.1.LeadsTo b ∨ h.Holds e.2 b
  | [], _, _, hds, _, hd, _, _ => by
    cases hds
    cases hd
  | (k, v) :: es, told, ds, hds, d, hd, b, hb => by
    obtain ⟨first, rest⟩ := List.forall_mem_cons.1 told
    rw [encodeEntries] at hds
    obtain ⟨w, hw, hds⟩ := bind_eq_ok.1 hds
    obtain ⟨ws, hws, hds⟩ := bind_eq_ok.1 hds
    cases hds
    rcases List.mem_cons.1 hd with rfl | hd
    · refine ⟨(k, v), List.mem_cons_self .., hb.imp_right fun hb => ?_⟩
      exact holds_of_encodeWith v first w hw b hb
    · obtain ⟨e, he, held⟩ := holds_of_encodeEntries es rest ws hws d hd b hb
      exact ⟨e, List.mem_cons_of_mem _ he, held⟩
termination_by structural es => es

end

/-- What is put aside for a field is taken out of a mapping. -/
theorem exists_of_pendingAt {pending v : Value} {name : String}
    (hv : pendingAt pending name = .ok (some v)) :
    ∃ es, pending.entries? = some es ∧ ∃ e ∈ es, e.2 = v := by
  have found {es : Entries} (hes : Entries.getStr? es name = some v) : ∃ e ∈ es, e.2 = v := by
    obtain ⟨e, he, rfl⟩ := Option.map_eq_some_iff.1 hes
    exact ⟨e, List.mem_of_find?_eq_some he, rfl⟩
  unfold pendingAt at hv
  split at hv
  · exact ⟨_, rfl, found (Except.ok.inj hv)⟩
  · exact ⟨_, rfl, found (Except.ok.inj hv)⟩
  · split at hv <;> cases hv
  · split at hv <;> cases hv
  · split at hv <;> cases hv
  · split at hv <;> cases hv
  · cases hv

variable {g : Catalog} {a : Address} (told : ∀ b, h.Holds (.object a) b → ∀ u, visit b = .ok u →
  ∀ c, u.LeadsTo c → h.Holds (.object b) c)

include told

/-- A field of the raw data of an object leads to what the object holds. -/
theorem holds_of_encodeField {r : Value × Heap.Rule} {q : Value × Value}
    (hq : encodeField g h visit a r = .ok q) :
    q.1.Inert ∧ ∀ b, q.2.LeadsTo b → h.Holds (.object a) b := by
  unfold encodeField at hq
  split at hq
  · next name _ =>
    have field : ∀ b, (Heap.field g h a name).LeadsTo b → h.Holds (.object a) b :=
      fun b hb => Heap.holds_of_field (.direct hb) (.direct (.object a))
    obtain ⟨aside, haside, hq⟩ := bind_eq_ok.1 hq
    cases aside with
    | none =>
      obtain ⟨w, hw, hq⟩ := bind_eq_ok.1 hq
      cases hq
      refine ⟨Value.inert_str name, fun b hb => ?_⟩
      exact (holds_of_encodeWith _ (fun c hc => told c (field c hc)) w hw b hb).of_leads field
    | some raw =>
      cases hq
      refine ⟨Value.inert_str name, fun b hb => ?_⟩
      unfold unloaded at haside
      split at haside
      · split at haside
        · next pending own =>
          have known : Heap.attribute? g h 0 (.object a) pendingField = some pending := own
          refine Heap.holds_of_attribute? known ?_
          obtain ⟨es, hes, e, he, rfl⟩ := exists_of_pendingAt haside
          exact (Value.leadsTo_of_entries hes he).2 b hb
        · cases haside
      · cases haside
  · cases hq

/-- **The raw data of an object** lead to what the object holds. -/
theorem holds_of_rawWith {u : Value} (hu : rawWith g h visit a = .ok u) :
    ∀ b, u.LeadsTo b → h.Holds (.object a) b := by
  unfold rawWith at hu
  obtain ⟨id, hid, hu⟩ := bind_eq_ok.1 hu
  obtain ⟨rules, -, hu⟩ := bind_eq_ok.1 hu
  obtain ⟨fields, hfields, hu⟩ := bind_eq_ok.1 hu
  cases hu
  have carried : ∀ e ∈ id, e.1.Inert ∧ ∀ b, e.2.LeadsTo b → h.Holds (.object a) b := by
    unfold idEntry at hid
    split at hid
    · next w own =>
      have known : Heap.attribute? g h 0 (.object a) idField = some w := own
      cases hid
      split
      · exact List.forall_mem_nil _
      · refine List.forall_mem_singleton.2 ⟨Value.inert_str _, fun b hb => ?_⟩
        exact Heap.holds_of_attribute? known hb
    · cases hid
  have parts := Entries.forall_mem_insertAll (P := Value.Inert)
    (Q := fun v => ∀ b, v.LeadsTo b → h.Holds (.object a) b) (fun p hp => by
      obtain ⟨r, -, hr⟩ := Value.exists_of_mapM hfields hp
      exact holds_of_encodeField told hr) carried
  intro b hb
  cases hb with
  | dictKey he hb => exact absurd hb ((parts _ he).1 b)
  | dict he hb => exact (parts _ he).2 b hb

end Encoding

/-! ### Calls -/

namespace Method

variable {g : Catalog} {h h' : Heap} {v w : Value} {a : Address}

/-- What a type makes of nothing leads to no object. -/
theorem inert_of_blank? {type : String} {u : Value} (hu : blank? type = some u) : u.Inert := by
  unfold blank? at hu
  split at hu <;> cases hu <;> intro b hb <;> cases hb <;> exact absurd ‹_ ∈ []› List.not_mem_nil

/-- **What a value yields when it is called** leads to what the value holds. -/
theorem holds_of_call : ∀ (n : Nat) {v : Value} {answer : Answer}, call g h n v = .ok answer →
    ∀ b, answer.toValue.LeadsTo b → h.Holds v b
  | 0, _, _, ht, _, _ => by cases ht
  | n + 1, v, answer, ht, b, hb => by
    have waits {owner : Owner} {name : String} (ht : deferredCall owner name = .ok answer) :
        False := by
      unfold deferredCall at ht
      split at ht
      · split at ht
        · cases ht
          cases hb
        · cases ht
      · split at ht
        · cases ht
          cases hb
        · cases ht
      · cases ht
    cases v with
    | method owner name =>
      cases owner with
      | object a =>
        simp only [call] at ht
        split at ht
        · obtain ⟨_, -, ht⟩ := bind_eq_ok.1 ht
          cases ht
          cases hb
        split at ht
        · obtain ⟨_, -, ht⟩ := bind_eq_ok.1 ht
          cases ht
          cases hb
        split at ht
        · obtain ⟨u, hu, ht⟩ := bind_eq_ok.1 ht
          cases ht
          refine (Encoding.holds_of_rawWith (fun c _ w hw d hd => ?_) hu b hb).of_leads ?_
          · -- what an object in it is asked for is a call with a lower bound
            obtain ⟨answer, asked, hw⟩ := bind_eq_ok.1 hw
            cases hw
            unfold ask at asked
            split at asked
            · next m hm =>
              have own : Heap.attribute? g h 0 (.object c) "to_raw" = some m := hm
              exact (holds_of_call n asked d hd).of_leads fun e he =>
                Heap.holds_of_attribute? own he
            · cases asked
          · intro c hc
            cases hc
            exact .direct (.method a name)
        · exact (waits ht).elim
      | _ =>
        simp only [call] at ht
        exact (waits ht).elim
    | cls c =>
      cases c with
      | builtin type =>
        simp only [call, make] at ht
        split at ht
        · next u hu =>
          cases ht
          exact absurd hb (inert_of_blank? hu b)
        · cases ht
      | _ =>
        cases ht
        cases hb
    | _ => cases ht

/-- **The raw data that an object tells** lead to what the object holds. -/
theorem holds_of_toRaw (ht : toRaw g h a = .ok v) : ∀ b, v.LeadsTo b → h.Holds (.object a) b := by
  intro b hb
  obtain ⟨answer, sent, ht⟩ := bind_eq_ok.1 ht
  cases ht
  unfold send at sent
  split at sent
  · next m hm =>
    exact (holds_of_call _ sent b hb).of_leads fun c hc => Heap.holds_of_attribute? hm hc
  · cases sent

end Method

/-! ### Written forms -/

namespace Value

variable {object object' : Address → Except Failure String}

mutual

/-- Two ways to write objects that agree on those that a value leads to write the value alike. -/
theorem writeWith_congr : (v : Value) → (∀ a, v.LeadsTo a → object a = object' a) →
    writeWith object v = writeWith object' v
  | .object a, same => same a (.object a)
  | .method (.object a) name, same => by
    simp only [writeWith, writeMethod, same a (.method a name)]
  | .list xs, same => by
    simp only [writeWith]
    rw [writeItems_congr xs fun x hx a ha => same a (.list hx ha)]
  | .tuple xs, same => by
    simp only [writeWith]
    rw [writeItems_congr xs fun x hx a ha => same a (.tuple hx ha)]
  | .set [], _ => rfl
  | .set (x :: xs), same => by
    simp only [writeWith]
    rw [writeItems_congr (x :: xs) fun x hx a ha => same a (.set hx ha)]
  | .dict es, same => by
    simp only [writeWith]
    rw [writeEntries_congr es fun e he a ha => same a (ha.elim (.dictKey he) (.dict he))]
  | .ordered [], _ => rfl
  | .ordered (e :: es), same => by
    simp only [writeWith]
    rw [writePairs_congr (e :: es) fun e he a ha => same a (ha.elim (.orderedKey he) (.ordered he))]
  | .method (.cls _) _, _ | .method (.value _) _, _ | .method (.constant _) _, _ | .null, _
  | .bool _, _ | .int _, _ | .float _, _ | .nan _, _ | .str _, _ | .bytes _, _ | .date _, _
  | .moment _, _ | .stamp _, _ | .zone _, _ | .function _, _ | .cls _, _ | .checker _ _, _
  | .store _, _ | .thing _, _ => rfl
termination_by structural v => v

theorem writeItems_congr : (xs : List Value) →
    (∀ x ∈ xs, ∀ a, x.LeadsTo a → object a = object' a) →
      writeItems object xs = writeItems object' xs
  | [], _ => rfl
  | x :: xs, same => by
    obtain ⟨first, rest⟩ := List.forall_mem_cons.1 same
    rw [writeItems, writeItems, writeWith_congr x first, writeItems_congr xs rest]
termination_by structural xs => xs

theorem writeEntries_congr : (es : Entries) →
    (∀ e ∈ es, ∀ a, e.1.LeadsTo a ∨ e.2.LeadsTo a → object a = object' a) →
      writeEntries object es = writeEntries object' es
  | [], _ => rfl
  | (k, v) :: es, same => by
    obtain ⟨first, rest⟩ := List.forall_mem_cons.1 same
    rw [writeEntries, writeEntries, writeWith_congr k fun a ha => first a (.inl ha),
      writeWith_congr v fun a ha => first a (.inr ha), writeEntries_congr es rest]
termination_by structural es => es

theorem writePairs_congr : (es : Entries) →
    (∀ e ∈ es, ∀ a, e.1.LeadsTo a ∨ e.2.LeadsTo a → object a = object' a) →
      writePairs object es = writePairs object' es
  | [], _ => rfl
  | (k, v) :: es, same => by
    obtain ⟨first, rest⟩ := List.forall_mem_cons.1 same
    rw [writePairs, writePairs, writeWith_congr k fun a ha => first a (.inl ha),
      writeWith_congr v fun a ha => first a (.inr ha), writePairs_congr es rest]
termination_by structural es => es

end

theorem showWith_congr {v : Value} (same : ∀ a, v.LeadsTo a → object a = object' a) :
    showWith object v = showWith object' v := by
  unfold showWith
  split
  all_goals first | rfl | exact writeWith_congr _ same

end Value

namespace Method

variable {g : Catalog} {h h' : Heap} {v : Value} {a : Address}

/-- What is done after a step need only be the same for what the step yields. -/
theorem bind_congr_of_ok {α β : Type} {x : Except Failure α} {f f' : α → Except Failure β}
    (same : ∀ y, x = .ok y → f y = f' y) : (x >>= f) = x >>= f' := by
  cases x with
  | error e => rfl
  | ok y => exact same y rfl

/-- The written form of an object depends on the cells that it holds only. -/
theorem writeObject_of_agrees (n : Nat) {a : Address} (agrees : Heap.Agrees h h' (.object a)) :
    writeObject g h' n a = writeObject g h n a := by
  induction n generalizing a with
  | zero => rw [writeObject, writeObject]
  | succ n ih =>
    rw [writeObject, writeObject, agrees.get, toRaw_of_agrees agrees]
    cases (Heap.get h a).species with
    | plain => dsimp only
    | entity c =>
      dsimp only
      refine bind_congr_of_ok fun raw ht => ?_
      rw [Value.writeWith_congr raw fun b hb => ih (agrees.object (holds_of_toRaw ht b hb))]

variable (size : List.length h' = List.length h) (agrees : Heap.Agrees h h' v)

include size agrees

/-- **The written form of a value depends on the cells that it holds only**, among as many. -/
theorem write_of_agrees : write g h' v = write g h v := by
  unfold write depth
  rw [size]
  exact Value.writeWith_congr v fun a ha => writeObject_of_agrees _ (agrees.object (.direct ha))

/-- **So does the shown form of a value.** -/
theorem toText_of_agrees : toText g h' v = toText g h v := by
  unfold toText depth
  rw [size]
  exact Value.showWith_congr fun a ha => writeObject_of_agrees _ (agrees.object (.direct ha))

end Method

end EntitySchema
