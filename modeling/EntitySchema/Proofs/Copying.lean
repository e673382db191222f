/-
**Copies.**

A copy of a value copies all objects that the value comprises, each once, and puts the copies in
their places; functions are what they are in a copy.  So a copy has the same shape as what was
copied:  objects that are shared in the one are shared in the other, and circles are circles.  The
cells of the copy are new, and none that was there is changed.

The cells to be copied are found in rounds.  Every round but the last finds one more cell, so as
many rounds as there are cells find all.

Main definitions:

* `Value.functions` — the functions that a value is made of;
* `Heap.Sound` — no cell leads out of the heap;
* `Heap.Comprises` — the objects that a copy of a value copies;
* `Heap.Mirrors`, `Heap.Copied` — **a value that is a copy of another**, cell by cell.

Main results:

* `Heap.mem_reach_iff` — a value reaches what it comprises, if that is there;
* `Heap.Copied.trans` — a copy of a copy is a copy;
* `Heap.copied_copy` — **copying makes a copy**, of cells that are new.
-/

import EntitySchema.Proofs.Showing

set_option autoImplicit false

namespace EntitySchema

/-! ### The objects and the functions of a value -/

namespace Value

mutual

/-- The functions that a value is made of. -/
def functions : Value → List Address
  | .function a => [a]
  | .list xs | .tuple xs | .set xs => functionsItems xs
  | .dict es | .ordered es => functionsEntries es
  | _ => []
termination_by structural v => v

/-- The functions that the values of a list are made of. -/
def functionsItems : List Value → List Address
  | [] => []
  | x :: xs => functions x ++ functionsItems xs
termination_by structural xs => xs

/-- The functions that the entries of a dictionary are made of. -/
def functionsEntries : Entries → List Address
  | [] => []
  | (k, v) :: es => functions k ++ functions v ++ functionsEntries es
termination_by structural es => es

end

mutual

/-- A value leads to the objects that it refers to, and to its functions. -/
theorem leadsTo_iff : (v : Value) → (a : Address) →
    (v.LeadsTo a ↔ a ∈ Heap.refs v ∨ a ∈ v.functions)
  | .object b, a => by
    simp only [Heap.refs, functions, List.mem_singleton, List.not_mem_nil, or_false]
    exact ⟨fun h => by cases h; rfl, fun h => h ▸ .object a⟩
  | .method (.object b) name, a => by
    simp only [Heap.refs, functions, List.mem_singleton, List.not_mem_nil, or_false]
    exact ⟨fun h => by cases h; rfl, fun h => h ▸ .method a name⟩
  | .function b, a => by
    simp only [Heap.refs, functions, List.mem_singleton, List.not_mem_nil, false_or]
    exact ⟨fun h => by cases h; rfl, fun h => h ▸ .function a⟩
  | .list xs, a => by
    rw [Heap.refs, functions, ← leadsTo_items_iff xs a]
    exact ⟨fun h => by cases h with | list hx h => exact ⟨_, hx, h⟩, fun ⟨_, hx, h⟩ => .list hx h⟩
  | .tuple xs, a => by
    rw [Heap.refs, functions, ← leadsTo_items_iff xs a]
    exact ⟨fun h => by cases h with | tuple hx h => exact ⟨_, hx, h⟩, fun ⟨_, hx, h⟩ => .tuple hx h⟩
  | .set xs, a => by
    rw [Heap.refs, functions, ← leadsTo_items_iff xs a]
    exact ⟨fun h => by cases h with | set hx h => exact ⟨_, hx, h⟩, fun ⟨_, hx, h⟩ => .set hx h⟩
  | .dict es, a => by
    rw [Heap.refs, functions, ← leadsTo_entries_iff es a]
    constructor
    · intro h
      cases h with
      | dictKey he h => exact ⟨_, he, .inl h⟩
      | dict he h => exact ⟨_, he, .inr h⟩
    · rintro ⟨e, he, h | h⟩
      · exact .dictKey he h
      · exact .dict he h
  | .ordered es, a => by
    rw [Heap.refs, functions, ← leadsTo_entries_iff es a]
    constructor
    · intro h
      cases h with
      | orderedKey he h => exact ⟨_, he, .inl h⟩
      | ordered he h => exact ⟨_, he, .inr h⟩
    · rintro ⟨e, he, h | h⟩
      · exact .orderedKey he h
      · exact .ordered he h
  | .method (.cls _) _, a | .method (.value _) _, a | .method (.constant _) _, a
  | .null, a | .bool _, a | .int _, a | .float _, a | .nan _, a | .str _, a | .bytes _, a
  | .date _, a | .moment _, a | .stamp _, a | .zone _, a
  | .cls _, a | .checker _ _, a | .store _, a | .thing _, a =>
    ⟨nofun, fun h => by rcases h with h | h <;> cases h⟩
termination_by structural v => v

theorem leadsTo_items_iff : (xs : List Value) → (a : Address) →
    ((∃ x ∈ xs, x.LeadsTo a) ↔ a ∈ Heap.refsItems xs ∨ a ∈ functionsItems xs)
  | [], a => by simp [Heap.refsItems, functionsItems]
  | x :: xs, a => by
    rw [List.exists_mem_cons_iff, leadsTo_iff x a, leadsTo_items_iff xs a, Heap.refsItems,
      functionsItems, List.mem_append, List.mem_append]
    exact or_or_or_comm
termination_by structural xs => xs

theorem leadsTo_entries_iff : (es : Entries) → (a : Address) →
    ((∃ e ∈ es, e.1.LeadsTo a ∨ e.2.LeadsTo a) ↔
      a ∈ Heap.refsEntries es ∨ a ∈ functionsEntries es)
  | [], a => by simp [Heap.refsEntries, functionsEntries]
  | (k, v) :: es, a => by
    rw [List.exists_mem_cons_iff, leadsTo_iff k a, leadsTo_iff v a, leadsTo_entries_iff es a,
      Heap.refsEntries, functionsEntries]
    simp only [List.mem_append]
    tauto
termination_by structural es => es

end

theorem LeadsTo.of_refs {v : Value} {a : Address} (ha : a ∈ Heap.refs v) : v.LeadsTo a :=
  (leadsTo_iff v a).2 (.inl ha)

theorem LeadsTo.of_functions {v : Value} {a : Address} (ha : a ∈ v.functions) : v.LeadsTo a :=
  (leadsTo_iff v a).2 (.inr ha)

end Value

/-! ### Values with other addresses -/

namespace Heap

variable (f f' : Address → Address)

mutual

/-- A value with other addresses refers to the objects at these. -/
theorem refs_rename : (v : Value) → refs (rename f v) = (refs v).map f
  | .object _ | .method (.object _) _ => rfl
  | .list xs | .tuple xs | .set xs => refsItems_rename xs
  | .dict es | .ordered es => refsEntries_rename es
  | .method (.cls _) _ | .method (.value _) _ | .method (.constant _) _
  | .null | .bool _ | .int _ | .float _ | .nan _ | .str _ | .bytes _
  | .date _ | .moment _ | .stamp _ | .zone _ | .function _
  | .cls _ | .checker _ _ | .store _ | .thing _ => rfl
termination_by structural v => v

theorem refsItems_rename : (xs : List Value) → refsItems (renameItems f xs) = (refsItems xs).map f
  | [] => rfl
  | x :: xs => by
    rw [renameItems, refsItems, refsItems, refs_rename x, refsItems_rename xs, List.map_append]
termination_by structural xs => xs

theorem refsEntries_rename : (es : Entries) →
    refsEntries (renameEntries f es) = (refsEntries es).map f
  | [] => rfl
  | (k, v) :: es => by
    rw [renameEntries, refsEntries, refsEntries, refs_rename k, refs_rename v,
      refsEntries_rename es,
      List.map_append, List.map_append]
termination_by structural es => es

end

theorem refsItems_eq_flatMap (xs : List Value) : refsItems xs = xs.flatMap refs := by
  induction xs with
  | nil => rfl
  | cons x xs ih => rw [refsItems, ih, List.flatMap_cons]

theorem refsEntries_eq_flatMap (es : Entries) :
    refsEntries es = es.flatMap fun e => refs e.1 ++ refs e.2 := by
  induction es with
  | nil => rfl
  | cons e es ih => rw [refsEntries, ih, List.flatMap_cons]

mutual

/-- A value with other addresses has the same functions. -/
theorem functions_rename : (v : Value) → (rename f v).functions = v.functions
  | .object _ | .method (.object _) _ => rfl
  | .list xs | .tuple xs | .set xs => functionsItems_rename xs
  | .dict es | .ordered es => functionsEntries_rename es
  | .method (.cls _) _ | .method (.value _) _ | .method (.constant _) _
  | .null | .bool _ | .int _ | .float _ | .nan _ | .str _ | .bytes _
  | .date _ | .moment _ | .stamp _ | .zone _ | .function _
  | .cls _ | .checker _ _ | .store _ | .thing _ => rfl
termination_by structural v => v

theorem functionsItems_rename : (xs : List Value) →
    Value.functionsItems (renameItems f xs) = Value.functionsItems xs
  | [] => rfl
  | x :: xs => by
    rw [renameItems, Value.functionsItems, Value.functionsItems, functions_rename x,
      functionsItems_rename xs]
termination_by structural xs => xs

theorem functionsEntries_rename : (es : Entries) →
    Value.functionsEntries (renameEntries f es) = Value.functionsEntries es
  | [] => rfl
  | (k, v) :: es => by
    rw [renameEntries, Value.functionsEntries, Value.functionsEntries, functions_rename k,
      functions_rename v, functionsEntries_rename es]
termination_by structural es => es

end

mutual

/-- Addresses are changed one after the other. -/
theorem rename_rename : (v : Value) → rename f' (rename f v) = rename (f' ∘ f) v
  | .object _ | .method (.object _) _ => rfl
  | .list xs | .tuple xs | .set xs => by rw [rename, rename, rename, renameItems_renameItems xs]
  | .dict es | .ordered es => by rw [rename, rename, rename, renameEntries_renameEntries es]
  | .method (.cls _) _ | .method (.value _) _ | .method (.constant _) _
  | .null | .bool _ | .int _ | .float _ | .nan _ | .str _ | .bytes _
  | .date _ | .moment _ | .stamp _ | .zone _ | .function _
  | .cls _ | .checker _ _ | .store _ | .thing _ => rfl
termination_by structural v => v

theorem renameItems_renameItems : (xs : List Value) →
    renameItems f' (renameItems f xs) = renameItems (f' ∘ f) xs
  | [] => rfl
  | x :: xs => by
    rw [renameItems, renameItems, renameItems, rename_rename x, renameItems_renameItems xs]
termination_by structural xs => xs

theorem renameEntries_renameEntries : (es : Entries) →
    renameEntries f' (renameEntries f es) = renameEntries (f' ∘ f) es
  | [] => rfl
  | (k, v) :: es => by
    rw [renameEntries, renameEntries, renameEntries, rename_rename k, rename_rename v,
      renameEntries_renameEntries es]
termination_by structural es => es

end

theorem cellRefs_renameCell (c : Cell) : cellRefs (renameCell f c) = (cellRefs c).map f := by
  rw [cellRefs, cellRefs, renameCell, List.flatMap_map, List.map_flatMap]
  exact congrArg (List.flatMap · c.attributes) (funext fun p => refs_rename f p.2)

theorem renameCell_renameCell (c : Cell) :
    renameCell f' (renameCell f c) = renameCell (f' ∘ f) c := by
  simp only [renameCell, List.map_map]
  exact congrArg (Cell.mk c.species) (List.map_congr_left fun p _ => congrArg (p.1, ·)
    (rename_rename f f' p.2))

/-! ### What a copy copies -/

/-- A value leads to cells that are there. -/
def Covers (h : Heap) (v : Value) : Prop := ∀ a, v.LeadsTo a → a < h.length

/-- No cell leads to one that is not there. -/
def Sound (h : Heap) : Prop := ∀ a, ∀ p ∈ (get h a).attributes, h.Covers p.2

/-- The objects that a copy of a value copies: those that it refers to, those that their attributes
refer to, and so on. -/
inductive Comprises (h : Heap) (v : Value) : Address → Prop
  | direct {a : Address} : a ∈ refs v → Comprises h v a
  | through {a b : Address} : Comprises h v a → b ∈ cellRefs (get h a) → Comprises h v b

variable {h h' h'' : Heap} {v w x : Value} {a b : Address}

theorem Covers.mono (covers : h.Covers v) (size : h.length ≤ h'.length) : h'.Covers v :=
  fun a ha => (covers a ha).trans_le size

theorem covers_of_inert (hv : v.Inert) : h.Covers v := fun a ha => absurd ha (hv a)

/-- The dictionary that a value makes leads nowhere else. -/
theorem Covers.toEntries (covers : h.Covers v) {isEntity : Address → Bool} {es : Entries}
    (hes : v.toEntries isEntity = .ok es) : ∀ e ∈ es, h.Covers e.1 ∧ h.Covers e.2 := by
  refine Value.forall_mem_toEntries hes (fun hm e he => ?_) fun xs hxs x hx k w two => ?_
  · have parts := Value.leadsTo_of_entries hm he
    exact ⟨fun a ha => covers a (parts.1 a ha), fun a ha => covers a (parts.2 a ha)⟩
  · have part : ∀ y ∈ [k, w], h.Covers y := fun y hy a ha =>
      covers a (Value.leadsTo_of_items hxs hx (Value.leadsTo_of_items two hy ha))
    exact ⟨part k (by simp), part w (by simp)⟩

theorem covers_of_forall (there : ∀ a ∈ refs v ++ v.functions, a < h.length) : h.Covers v :=
  fun a ha => there a (List.mem_append.2 ((Value.leadsTo_iff v a).1 ha))

theorem attributes_of_ge (ha : h.length ≤ a) : (get h a).attributes = [] := by
  rw [get, List.getElem?_eq_none ha]
  rfl

/-- It is enough to look at the cells that are there. -/
theorem sound_of_forall (there : ∀ a < h.length, ∀ p ∈ (get h a).attributes,
    ∀ b ∈ refs p.2 ++ p.2.functions, b < h.length) : h.Sound := by
  intro a p hp
  rcases Nat.lt_or_ge a h.length with lt | ge
  · exact covers_of_forall (there a lt p hp)
  · rw [attributes_of_ge ge] at hp
    cases hp

theorem mem_cellRefs {c : Cell} : b ∈ cellRefs c ↔ ∃ p ∈ c.attributes, b ∈ refs p.2 :=
  List.mem_flatMap

theorem Sound.lt_of_mem_cellRefs (sound : h.Sound) (hb : b ∈ cellRefs (get h a)) :
    b < h.length := by
  obtain ⟨p, hp, hb⟩ := mem_cellRefs.1 hb
  exact sound a p hp b (.of_refs hb)

/-- What a value comprises is among what is closed under the references of cells. -/
theorem Comprises.induction {P : Address → Prop} (roots : ∀ a ∈ refs v, P a)
    (step : ∀ a, P a → ∀ b ∈ cellRefs (get h a), P b) (ha : h.Comprises v a) : P a := by
  induction ha with
  | direct ha => exact roots _ ha
  | through _ hb ih => exact step _ ih _ hb

theorem Comprises.lt (sound : h.Sound) (covers : h.Covers v) (ha : h.Comprises v a) :
    a < h.length :=
  ha.induction (P := (· < h.length)) (fun a ha => covers a (.of_refs ha)) fun _ _ _ hb =>
    sound.lt_of_mem_cellRefs hb

/-- More cells make a value comprise no more. -/
theorem Comprises.of_extended (sound : h.Sound) (covers : h.Covers v) (grown : h <+: h')
    (ha : h'.Comprises v a) : h.Comprises v a := by
  refine ha.induction (P := h.Comprises v) (fun a ha => .direct ha) fun a ha b hb => .through ha ?_
  rwa [get_of_extended grown (ha.lt sound covers)] at hb

/-! ### The rounds -/

theorem nodup_eraseDups (as : List Address) : as.eraseDups.Nodup := by
  generalize hn : as.length = n
  induction n using Nat.strong_induction_on generalizing as with
  | _ n ih =>
    cases as with
    | nil => exact .nil
    | cons a as =>
      have shorter : (as.filter fun b => !b == a).length < n :=
        hn ▸ Nat.lt_succ_of_le (List.length_filter_le _ _)
      rw [List.eraseDups_cons, List.nodup_cons]
      refine ⟨fun mem => ?_, ih _ shorter _ rfl⟩
      have other := (List.mem_filter.1 (List.mem_eraseDups.1 mem)).2
      simp at other

theorem mem_newAmong {seen as : List Address} : a ∈ newAmong seen as ↔ a ∈ as ∧ a ∉ seen := by
  simp [newAmong]

/-- The rounds find what is closed under the references of cells: at the end of a round all cells
but those that it found have been followed, and there are rounds left for the cells not found. -/
theorem closed_grow {P : Address → Prop} (bounded : ∀ a, P a → a < h.length)
    (step : ∀ a, P a → ∀ b ∈ cellRefs (get h a), P b) :
    ∀ (fuel : Nat) (seen front : List Address), seen.Nodup →
    (∀ a ∈ seen, P a) → (∀ a ∈ front, a ∈ seen) →
    (∀ a ∈ seen, a ∉ front → ∀ b ∈ cellRefs (get h a), b ∈ seen) → h.length ≤ seen.length + fuel →
      (∀ a ∈ seen, a ∈ grow h fuel seen front) ∧
      ∀ a ∈ grow h fuel seen front, ∀ b ∈ cellRefs (get h a), b ∈ grow h fuel seen front
  | 0, seen, front, nodup, found, _, _, room => by
    -- all cells have been found
    have all : ∀ b, b < h.length → b ∈ seen := by
      intro b hb
      have sub : seen.Subperm (List.range h.length) :=
        List.subperm_of_subset nodup fun a ha => List.mem_range.2 (bounded a (found a ha))
      have perm := sub.perm_of_length_le (by simpa using room)
      exact perm.mem_iff.2 (List.mem_range.2 hb)
    exact ⟨fun _ ha => ha, fun a ha b hb => all b (bounded b (step a (found a ha) b hb))⟩
  | fuel + 1, seen, front, nodup, found, there, followed, room => by
    rw [grow]
    generalize hnext : newAmong seen (front.flatMap fun a => cellRefs (get h a)) = next
    have mem : ∀ b, b ∈ next ↔ (∃ a ∈ front, b ∈ cellRefs (get h a)) ∧ b ∉ seen := by
      intro b
      rw [← hnext, mem_newAmong, List.mem_flatMap]
    cases next with
    | nil =>
      refine ⟨fun _ ha => ha, fun a ha b hb => ?_⟩
      by_cases hf : a ∈ front
      · by_contra hn
        cases (mem b).2 ⟨⟨a, hf, hb⟩, hn⟩
      · exact followed a ha hf b hb
    | cons c next =>
      have fresh : (c :: next).Nodup := hnext ▸ nodup_eraseDups _
      have found' : ∀ a ∈ seen ++ c :: next, P a := by
        intro a ha
        rcases List.mem_append.1 ha with ha | ha
        · exact found a ha
        · obtain ⟨⟨b, hb, hab⟩, -⟩ := (mem a).1 ha
          exact step b (found b (there b hb)) a hab
      have followed' : ∀ a ∈ seen ++ c :: next, a ∉ c :: next →
          ∀ b ∈ cellRefs (get h a), b ∈ seen ++ c :: next := by
        intro a ha hn b hb
        have ha : a ∈ seen := (List.mem_append.1 ha).resolve_right hn
        by_cases hs : b ∈ seen
        · exact List.mem_append_left _ hs
        · have hf : a ∈ front := by_contra fun hf => hs (followed a ha hf b hb)
          exact List.mem_append_right _ ((mem b).2 ⟨⟨a, hf, hb⟩, hs⟩)
      have room' : h.length ≤ (seen ++ c :: next).length + fuel := by
        rw [List.length_append, List.length_cons]
        omega
      obtain ⟨grown, closed⟩ := closed_grow bounded step fuel (seen ++ c :: next) (c :: next)
        (nodup.append fresh fun a ha hn => ((mem a).1 hn).2 ha) found'
        (fun a ha => List.mem_append_right _ ha) followed' room'
      exact ⟨fun a ha => grown a (List.mem_append_left _ ha), closed⟩

/-- The rounds find only what is comprised. -/
theorem of_mem_grow {P : Address → Prop} (step : ∀ a, P a → ∀ b ∈ cellRefs (get h a), P b) :
    ∀ (fuel : Nat) (seen front : List Address), (∀ a ∈ seen, P a) → (∀ a ∈ front, P a) →
      ∀ a ∈ grow h fuel seen front, P a
  | 0, _, _, hs, _ => hs
  | fuel + 1, seen, front, hs, hf => by
    have found : ∀ b ∈ newAmong seen (front.flatMap fun a => cellRefs (get h a)), P b := by
      intro b hb
      obtain ⟨a, ha, hb⟩ := List.mem_flatMap.1 (mem_newAmong.1 hb).1
      exact step a (hf a ha) b hb
    rw [grow]
    split
    · exact hs
    · refine of_mem_grow step fuel _ _ (fun a ha => ?_) found
      rcases List.mem_append.1 ha with ha | ha
      · exact hs a ha
      · exact found a ha

theorem mem_roots : a ∈ newAmong [] (refs v) ↔ a ∈ refs v := by simp [mem_newAmong]

/-- What a value reaches it comprises. -/
theorem comprises_of_mem_reach (ha : a ∈ reach h v) : h.Comprises v a :=
  of_mem_grow (P := h.Comprises v) (fun _ ha _ hb => .through ha hb) _ _ _
    (fun _ ha => .direct (mem_roots.1 ha)) (fun _ ha => .direct (mem_roots.1 ha)) a ha

/-- **A value reaches what it comprises**, if all of it is there. -/
theorem mem_reach_iff (there : ∀ a, h.Comprises v a → a < h.length) :
    a ∈ reach h v ↔ h.Comprises v a := by
  refine ⟨comprises_of_mem_reach, fun ha => ?_⟩
  obtain ⟨grown, closed⟩ := closed_grow there (fun _ ha _ hb => .through ha hb) h.length
    (newAmong [] (refs v)) (newAmong [] (refs v)) (nodup_eraseDups _)
    (fun a ha => .direct (mem_roots.1 ha)) (fun _ ha => ha)
    (fun a ha hn => absurd ha hn) (Nat.le_add_left _ _)
  exact ha.induction (fun a ha => grown a (mem_roots.2 ha)) closed

/-- What was found stays found. -/
theorem mem_grow_of_mem {b : Address} : ∀ (fuel : Nat) (seen front : List Address), b ∈ seen →
    b ∈ grow h fuel seen front
  | 0, _, _, hb => hb
  | fuel + 1, seen, front, hb => by
    rw [grow]
    split
    · exact hb
    · exact mem_grow_of_mem fuel _ _ (List.mem_append_left _ hb)

/-- What is reached depends only on the cells that are reached. -/
theorem grow_congr : ∀ (fuel : Nat) (seen front : List Address), (∀ b ∈ front, b ∈ seen) →
    (∀ b ∈ grow h fuel seen front, get h' b = get h b) →
    grow h' fuel seen front = grow h fuel seen front
  | 0, _, _, _, _ => rfl
  | fuel + 1, seen, front, sub, agree => by
    have found : (front.flatMap fun a => cellRefs (get h' a)) =
        front.flatMap fun a => cellRefs (get h a) := by
      refine List.flatMap_congr fun b hb => ?_
      rw [agree b (mem_grow_of_mem _ _ _ (sub b hb))]
    rw [grow] at agree
    rw [grow, grow, found]
    split
    · rfl
    · next more =>
      rw [if_neg more] at agree
      exact grow_congr fuel _ _ (fun b hb => List.mem_append_right _ hb) agree

theorem reach_congr (length : h'.length = h.length) (agree : ∀ b ∈ reach h v, get h' b = get h b) :
    reach h' v = reach h v := by
  rw [reach, reach, length]
  exact grow_congr _ _ _ (fun _ => id) agree

/-- Rounds that are left when all is found find no more. -/
theorem grow_of_closed : ∀ (fuel more : Nat) (seen front : List Address), (∀ b ∈ front, b ∈ seen) →
    (∀ a ∈ grow h fuel seen front, ∀ b ∈ cellRefs (get h a), b ∈ grow h fuel seen front) →
    grow h (fuel + more) seen front = grow h fuel seen front
  | 0, 0, _, _, _, _ => rfl
  | 0, more + 1, seen, front, sub, closed => by
    have none : newAmong seen (front.flatMap fun a => cellRefs (get h a)) = [] := by
      refine List.eq_nil_iff_forall_not_mem.2 fun b hb => ?_
      obtain ⟨hb, new⟩ := mem_newAmong.1 hb
      obtain ⟨a, ha, hb⟩ := List.mem_flatMap.1 hb
      exact new (closed a (sub a ha) b hb)
    rw [Nat.zero_add, grow, grow, none]
    rfl
  | fuel + 1, more, seen, front, sub, closed => by
    rw [Nat.succ_add, grow, grow]
    rw [grow] at closed
    split
    · rfl
    · next left =>
      rw [if_neg left] at closed
      exact grow_of_closed fuel more _ _ (fun b hb => List.mem_append_right _ hb) closed

/-- **What is reached does not depend on what else there is**, if all of it is there. -/
theorem reach_of_same (size : h.length ≤ h'.length) (there : ∀ a, h.Comprises v a → a < h.length)
    (same : ∀ a, h.Comprises v a → get h' a = get h a) : reach h' v = reach h v := by
  obtain ⟨more, length⟩ := Nat.exists_eq_add_of_le size
  have closed : ∀ a ∈ reach h v, ∀ b ∈ cellRefs (get h a), b ∈ reach h v := fun a ha b hb =>
    (mem_reach_iff there).2 (.through ((mem_reach_iff there).1 ha) hb)
  have enough : grow h (h.length + more) (newAmong [] (refs v)) (newAmong [] (refs v)) =
      reach h v :=
    grow_of_closed _ more _ _ (fun _ => id) closed
  rw [reach, length, grow_congr _ _ _ (fun _ => id) fun b hb => same b ?_, enough]
  rw [enough] at hb
  exact (mem_reach_iff there).1 hb

/-! ### Copies -/

/-- A value mirrors another one by a renaming of what that one comprises: it is that value with
other addresses, different ones for different objects, and the cells at these are the cells of the
objects with other addresses. -/
structure Mirrors (h : Heap) (v : Value) (h' : Heap) (w : Value) (f : Address → Address) :
    Prop where
  value : w = rename f v
  cells : ∀ a, h.Comprises v a → get h' (f a) = renameCell f (get h a)
  injective : ∀ a b, h.Comprises v a → h.Comprises v b → f a = f b → a = b

/-- A value of one heap that is a copy of a value of another. -/
def Copied (h : Heap) (v : Value) (h' : Heap) (w : Value) : Prop := ∃ f, Mirrors h v h' w f

/-- What is comprised by a copy are the copies of what is comprised. -/
theorem Mirrors.comprises_iff {f : Address → Address} (mirrors : Mirrors h v h' w f) :
    h'.Comprises w b ↔ ∃ a, h.Comprises v a ∧ f a = b := by
  constructor
  · refine Comprises.induction (P := fun b => ∃ a, h.Comprises v a ∧ f a = b) ?_ ?_
    · intro b hb
      rw [mirrors.value, refs_rename] at hb
      obtain ⟨a, ha, rfl⟩ := List.mem_map.1 hb
      exact ⟨a, .direct ha, rfl⟩
    · rintro _ ⟨a, ha, rfl⟩ b hb
      rw [mirrors.cells a ha, cellRefs_renameCell] at hb
      obtain ⟨c, hc, rfl⟩ := List.mem_map.1 hb
      exact ⟨c, .through ha hc, rfl⟩
  · rintro ⟨a, ha, rfl⟩
    refine Comprises.induction (P := fun a => h.Comprises v a ∧ h'.Comprises w (f a)) ?_ ?_ ha |>.2
    · intro a ha
      refine ⟨.direct ha, .direct ?_⟩
      rw [mirrors.value, refs_rename]
      exact List.mem_map_of_mem ha
    · rintro a ⟨ha, hfa⟩ b hb
      refine ⟨.through ha hb, .through hfa ?_⟩
      rw [mirrors.cells a ha, cellRefs_renameCell]
      exact List.mem_map_of_mem hb

/-- **A copy of a copy is a copy.** -/
theorem Copied.trans (hvw : Copied h v h' w) (hwx : Copied h' w h'' x) : Copied h v h'' x := by
  obtain ⟨f, first⟩ := hvw
  obtain ⟨f', second⟩ := hwx
  have comprised : ∀ a, h.Comprises v a → h'.Comprises w (f a) :=
    fun a ha => first.comprises_iff.2 ⟨a, ha, rfl⟩
  refine ⟨f' ∘ f, ?_, fun a ha => ?_, fun a b ha hb heq => ?_⟩
  · rw [second.value, first.value, rename_rename]
  · rw [Function.comp, second.cells _ (comprised a ha), first.cells a ha, renameCell_renameCell]
  · exact first.injective a b ha hb
      (second.injective _ _ (comprised a ha) (comprised b hb) heq)

/-- A copy stays one as long as what it comprises is not changed. -/
theorem Copied.congr (copied : Copied h v h' w)
    (same : ∀ b, h'.Comprises w b → get h'' b = get h' b) : Copied h v h'' w := by
  obtain ⟨f, mirrors⟩ := copied
  refine ⟨f, mirrors.value, fun a ha => ?_, mirrors.injective⟩
  rw [same (f a) (mirrors.comprises_iff.2 ⟨a, ha, rfl⟩), mirrors.cells a ha]

/-- The address of a member of a list is that of its place from the start on. -/
theorem freshFrom_of_mem (start : Address) {old : List Address} (ha : a ∈ old) :
    ∃ i, old[i]? = some a ∧ freshFrom start old a = start + i := by
  have found : (old.findIdx? (· == a)).isSome = true := by
    rw [List.findIdx?_isSome, List.any_eq_true]
    exact ⟨a, ha, beq_self_eq_true a⟩
  obtain ⟨i, hi⟩ := Option.isSome_iff_exists.1 found
  obtain ⟨lt, at', -⟩ := List.findIdx?_eq_some_iff_getElem.1 hi
  refine ⟨i, ?_, by rw [freshFrom, hi]⟩
  rw [List.getElem?_eq_getElem lt, beq_iff_eq.1 at']

/-- Copying makes a copy, with the fresh addresses, if all of what is copied is there.  The cells
that were there stay what they are, what the copy comprises is new, and every new cell is the copy
of one that was comprised. -/
theorem mirrors_copy (there : ∀ a, h.Comprises v a → a < h.length) {f : Address → Address}
    (hf : freshFrom h.length (reach h v) = f) {r : Value × Heap} (hr : copy h v = r) :
    Mirrors h v r.2 r.1 f ∧ h <+: r.2 ∧
      (∀ a, h.Comprises v a → h.length ≤ f a ∧ f a < r.2.length) ∧
      ∀ b, h.length ≤ b → b < r.2.length →
        ∃ a, h.Comprises v a ∧ get r.2 b = renameCell f (get h a) := by
  subst hr
  generalize hcells : reach h v = cells at hf
  have made : copy h v = (rename f v, h ++ cells.map fun a => renameCell f (get h a)) := by
    rw [copy, hcells, hf]
  have mem : ∀ a, a ∈ cells ↔ h.Comprises v a := fun a => hcells ▸ mem_reach_iff there
  have placed : ∀ a, h.Comprises v a → ∃ i, cells[i]? = some a ∧ f a = h.length + i :=
    fun a ha => hf ▸ freshFrom_of_mem h.length ((mem a).2 ha)
  have cell : ∀ {i : Nat} {a : Address}, cells[i]? = some a →
      get (h ++ cells.map fun a => renameCell f (get h a)) (h.length + i) =
        renameCell f (get h a) := by
    intro i a hi
    rw [get, List.getElem?_append_right (Nat.le_add_right _ _), Nat.add_sub_cancel_left,
      List.getElem?_map, hi]
    rfl
  rw [made]
  refine ⟨⟨rfl, fun a ha => ?_, fun a b ha hb heq => ?_⟩, List.prefix_append _ _, fun a ha => ?_,
    fun b above below => ?_⟩
  · obtain ⟨i, hi, heq⟩ := placed a ha
    rw [heq]
    exact cell hi
  · obtain ⟨i, hi, hai⟩ := placed a ha
    obtain ⟨j, hj, hbj⟩ := placed b hb
    obtain rfl : i = j := Nat.add_left_cancel (hai.symm.trans (heq.trans hbj))
    exact Option.some.inj (hi.symm.trans hj)
  · obtain ⟨i, hi, heq⟩ := placed a ha
    have lt : i < cells.length := (List.getElem?_eq_some_iff.1 hi).1
    rw [heq, List.length_append, List.length_map]
    exact ⟨Nat.le_add_right _ _, Nat.add_lt_add_left lt _⟩
  · obtain ⟨i, rfl⟩ : ∃ i, b = h.length + i := ⟨b - h.length, by omega⟩
    simp only [List.length_append, List.length_map] at below
    have lt : i < cells.length := by omega
    exact ⟨cells[i], (mem _).1 (List.getElem_mem lt), cell (List.getElem?_eq_getElem lt)⟩

/-- **Copying makes a copy**, if all of what is copied is there. -/
theorem copied_copy (there : ∀ a, h.Comprises v a → a < h.length) {r : Value × Heap}
    (hr : copy h v = r) : ∃ f, Mirrors h v r.2 r.1 f ∧ h <+: r.2 ∧
      (∀ a, h.Comprises v a → h.length ≤ f a ∧ f a < r.2.length) ∧
      ∀ b, h.length ≤ b → b < r.2.length →
        ∃ a, h.Comprises v a ∧ get r.2 b = renameCell f (get h a) :=
  ⟨_, mirrors_copy there rfl hr⟩

/-- What a value with other addresses leads to. -/
theorem exists_of_leadsTo_rename {f : Address → Address} (hb : (rename f v).LeadsTo b) :
    (∃ a ∈ refs v, f a = b) ∨ b ∈ v.functions := by
  rcases (Value.leadsTo_iff _ _).1 hb with hb | hb
  · rw [refs_rename] at hb
    exact .inl (List.mem_map.1 hb)
  · rw [functions_rename] at hb
    exact .inr hb

theorem exists_of_mem_renameCell {f : Address → Address} {c : Cell} {p : String × Value}
    (hp : p ∈ (renameCell f c).attributes) : ∃ q ∈ c.attributes, p.2 = rename f q.2 := by
  obtain ⟨q, hq, rfl⟩ := List.mem_map.1 hp
  exact ⟨q, hq, rfl⟩

/-- What a new cell holds is a value of a cell that was comprised, with other addresses. -/
theorem exists_of_added {f : Address → Address}
    (added : ∀ b, h.length ≤ b → b < h'.length →
      ∃ a, h.Comprises v a ∧ get h' b = renameCell f (get h a))
    (above : h.length ≤ b) {p : String × Value} (hp : p ∈ (get h' b).attributes) :
    ∃ a q, h.Comprises v a ∧ q ∈ (get h a).attributes ∧ p.2 = rename f q.2 := by
  have below : b < h'.length := by
    by_contra beyond
    rw [attributes_of_ge (Nat.le_of_not_lt beyond)] at hp
    cases hp
  obtain ⟨a, ha, heq⟩ := added b above below
  rw [heq] at hp
  obtain ⟨q, hq, hpq⟩ := exists_of_mem_renameCell hp
  exact ⟨a, q, ha, hq, hpq⟩

end Heap

end EntitySchema
