/-
**Copies in two runs.**

What both runs are given by a store is there in both, at the same addresses, so copies of it are
made of the same objects, one after the other: they are the same, further on in the second run, and
no identifier in them leads to an object if none did.

Main definitions:

* `Pairing.Given` — a value that both runs are given as it is.

Main results:

* `Heap.Copy.named` — what a copy is asked for;
* `Pairing.Given.same`, `Pairing.Given.grow` — what is given is the same, and stays so;
* `Pairing.Given.copy` — **copies of what is given are the same.**
-/

import EntitySchema.Proofs.Pairing

set_option autoImplicit false

namespace EntitySchema

/-! ### Identifiers in copies -/

/-- What a part of a value refers to, the value refers to. -/
theorem Value.HasPart.refs {v w : Value} (part : v.HasPart w) {a : Address} (ha : a ∈ Heap.refs w) :
    a ∈ Heap.refs v := by
  induction part with
  | refl => exact ha
  | @item v x w xs hxs hx _ ih =>
    have item := ih ha
    cases v with
    | list ys | tuple ys | set ys =>
      cases hxs
      rw [Heap.refs, Heap.refsItems_eq_flatMap]
      exact List.mem_flatMap.2 ⟨x, hx, item⟩
    | dict es | ordered es =>
      cases hxs
      obtain ⟨e, he, rfl⟩ := List.mem_map.1 hx
      rw [Heap.refs, Heap.refsEntries_eq_flatMap]
      exact List.mem_flatMap.2 ⟨e, he, List.mem_append_left _ item⟩
    | str s =>
      cases hxs
      obtain ⟨c, -, rfl⟩ := List.mem_map.1 hx
      cases item
    | bytes bs =>
      cases hxs
      obtain ⟨b, -, rfl⟩ := List.mem_map.1 hx
      cases item
    | _ => cases hxs
  | @value v w es e hes he _ ih =>
    have value := ih ha
    cases v with
    | dict ds | ordered ds =>
      cases hes
      rw [Heap.refs, Heap.refsEntries_eq_flatMap]
      exact List.mem_flatMap.2 ⟨e, he, List.mem_append_right _ value⟩
    | _ => cases hes

/-- A value at other addresses is a function only if it is the same. -/
theorem Heap.eq_function_of_rename {f : Address → Address} {v : Value} {a : Address}
    (ha : rename f v = .function a) : v = .function a := by
  cases v with
  | function b => exact ha
  | method o n => cases o <;> cases ha
  | _ => cases ha

/-- **No identifier in a copy leads to an object** if none did that was copied. -/
theorem Heap.Copy.named {g : Catalog} {base : Nat} {h h' : Heap} {v w : Value}
    {f : Address → Address}
    (copy : h.Copy v h' w f) (named : h.Named g base v) : h'.Named g base w := by
  rw [copy.value]
  intro x part
  obtain ⟨u, hu, rfl⟩ := part.exists_of_rename
  obtain ⟨inert, old⟩ := named u hu
  refine ⟨?_, fun a ha => old a (eq_function_of_rename ha)⟩
  by_cases function : ∃ a, u = .function a
  · -- a function is not copied
    obtain ⟨a, rfl⟩ := function
    have same : Heap.get h' a = Heap.get h a := get_of_extended copy.grown
      (copy.there a (.direct (hu.leadsTo (.function a))))
    have kept : Checker.identifierOf g h' (.function a) =
        Checker.identifierOf g h (.function a) := by
      show (((Heap.get h' a).own? idField).or _).getD _ = _
      rw [same]
      rfl
    exact kept ▸ inert
  · rw [Checker.identifierOf_renamed (h := h) (fun a ha => copy.cells a (.direct (hu.refs ?_)))
      fun a ha => absurd ⟨a, ha⟩ function, rename_of_inert f _ inert]
    · exact inert
    · rw [ha]
      exact List.mem_singleton_self a

/-! ### Copies of what both runs are given -/

namespace Heap

theorem renameCell_congr {f f' : Address → Address} {c : Cell}
    (same : ∀ p ∈ c.attributes, rename f p.2 = rename f' p.2) : renameCell f c = renameCell f' c :=
  congrArg (Cell.mk c.species) (List.map_congr_left fun p hp => congrArg (p.1, ·) (same p hp))

theorem renameCell_of_same {f : Address → Address} {c : Cell}
    (same : ∀ p ∈ c.attributes, rename f p.2 = p.2) : renameCell f c = c :=
  (renameCell_congr fun p hp => (same p hp).trans (rename_id p.2).symm).trans (renameCell_id c)

/-- What a value comprises it comprises in a heap that has the cells as they are. -/
theorem Comprises.of_same {h h' : Heap} {v : Value} {a : Address} (ha : h.Comprises v a)
    (same : ∀ b, h.Comprises v b → get h' b = get h b) : h'.Comprises v a := by
  refine (ha.induction (P := fun b => h.Comprises v b ∧ h'.Comprises v b)
    (fun b hb => ⟨.direct hb, .direct hb⟩) fun b hb c hc => ⟨.through hb.1 hc, .through hb.2 ?_⟩).2
  rwa [same b hb.1]

end Heap

namespace Pairing

/-- A value that both runs are given as it is: its objects are old and kept, and no identifier in it
leads to an object if failures may differ. -/
structure Given (L : Pairing) (underway : Address → Prop) (h h' : Heap) (v : Value) : Prop where
  steady : L.Steady underway h h' v
  old : ∀ a : Nat, h.Holds v a → a < L.base
  named : ¬ L.strict → h.Named L.catalog L.base v

variable {L : Pairing} {U U' : Address → Prop} {h h' k k' : Heap} {v : Value}

namespace Given

variable (given : L.Given U h h' v)

include given

theorem grow (fit : L.Fit U h h') (grown : h <+: k) (grown' : h' <+: k')
    (begun : ∀ a : Nat, a < List.length h → U' a → U a) : L.Given U' k k' v := by
  have agrees : Heap.Agrees h k v := fun a ha => Heap.get_of_extended grown (given.steady a ha).1
  exact ⟨given.steady.grow fit grown grown' begun, fun a ha => given.old a (agrees.holds ha),
    fun lax => (given.named lax).of_agrees agrees⟩

/-- What is given is the same in both runs. -/
theorem same : L.Same U h h' v v where
  value := (rename_of_old fun a ha => given.old a (.direct ha)).symm
  steady := given.steady
  named := given.named

/-- The cells of what is given are the same in both runs. -/
theorem get_eq {a : Address} (ha : h.Holds v a) : Heap.get h' a = Heap.get h a := by
  have cell := (given.steady a ha).2.2
  rw [move_of_lt (given.old a ha)] at cell
  rw [cell]
  have same : ∀ p ∈ (Heap.get h a).attributes, Heap.rename L.move p.2 = p.2 :=
    fun p hp => rename_of_old fun b hb => given.old b (.through ha hp hb)
  exact Heap.renameCell_of_same same

/-- **Copies of what is given are the same**, further on in the second run. -/
theorem copy (fit : L.Fit U h h') {r r' : Value × Heap} (hr : h.copy v = r) (hr' : h'.copy v = r') :
    h <+: r.2 ∧ h' <+: r'.2 ∧ L.Fit U r.2 r'.2 ∧ L.Same U r.2 r'.2 r.1 r'.1 := by
  have there : ∀ a, h.Holds v a → a < h.length := fun a ha => (given.steady a ha).1
  have agrees : Heap.Agrees h h' v := fun a ha => given.get_eq ha
  have there' : ∀ a, h'.Holds v a → a < h'.length := fun a ha =>
    ((given.old a (agrees.holds ha)).trans_le fit.started).trans_le (by have := fit.size; omega)
  have reached : Heap.reach h' v = Heap.reach h v := Heap.reach_of_same (by have := fit.size; omega)
    (fun a ha => there a ha.holds) fun a ha => given.get_eq ha.holds
  generalize hf : Heap.freshFrom h.length (Heap.reach h v) = f
  generalize hf' : Heap.freshFrom h'.length (Heap.reach h' v) = f'
  have copy := Heap.copy_copy there hf hr
  have copy' := Heap.copy_copy there' hf' hr'
  -- what is new is further on in the second run, and in the same order
  have moved : ∀ a : Nat, a < L.base → L.move (f a) = f' a := by
    intro a old
    rw [← hf, ← hf', reached]
    unfold Heap.freshFrom
    split
    · next i _ =>
      rw [move_of_ge (by have := fit.started; omega), fit.size]
      omega
    · exact move_of_lt old
  have renamed {u : Value} (hu : ∀ a, u.LeadsTo a → h.Holds v a) :
      Heap.rename f' u = Heap.rename L.move (Heap.rename f u) := by
    rw [Heap.rename_rename]
    exact Heap.rename_congr u fun a ha => (moved a (given.old a (hu a (.of_refs ha)))).symm
  have value : r'.1 = Heap.rename L.move r.1 := by
    rw [copy'.value, copy.value]
    exact renamed fun a ha => .direct ha
  have size : List.length r'.2 = List.length r.2 + L.shift := by
    have := fit.size
    rw [← hr, ← hr']
    simp only [Heap.copy, List.length_append, List.length_map, reached]
    omega
  refine ⟨copy.grown, copy'.grown, fit.grow copy.grown size, ⟨value, fun b hb => ?_⟩, fun lax =>
    copy.named (given.named lax)⟩
  rw [copy.value] at hb
  obtain ⟨a, ha, stands⟩ := copy.holds_value (fun _ => .direct) (fun _ => .direct) hb
  cases stands with
  | copied comprised =>
    obtain ⟨above, below⟩ := copy.new a comprised
    refine ⟨below, fun hU => (fit.bounded _ hU).not_ge above, ?_⟩
    have comprised' : h'.Comprises v a := comprised.of_same fun b hb => given.get_eq hb.holds
    rw [moved a (given.old a ha), copy'.cells a comprised', given.get_eq ha, copy.cells a comprised,
      Heap.renameCell_renameCell]
    exact Heap.renameCell_congr fun p hp => (renamed fun b hb => .through ha hp hb).trans
      (Heap.rename_rename _ _ _)
  | shared =>
    obtain ⟨lt, apart, cell⟩ := given.steady _ ha
    refine ⟨lt.trans_le copy.grown.length_le, apart, ?_⟩
    rw [Heap.get_of_extended copy'.grown (fit.move_lt lt), cell,
      Heap.get_of_extended copy.grown lt]

end Given

end Pairing

end EntitySchema
