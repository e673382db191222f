/-
**Objects at other addresses.**

An object whose cell is that of another with other addresses is what that one is: it is of the same
class, its attributes, its fields and its schema are those of the other with other addresses.  So an
object in a copy contains itself only if the object that was copied does, and a copy of what is in
order is in order.

Main definitions:

* `Heap.StandsFor` — **an object of a copy stands for the one that was copied**, and a function,
  which is not copied, for itself.

Main results:

* `Heap.objectAttribute?_of_renamed`, `Heap.mem_rules_of_renamed` — attributes and schemas;
* `Heap.Copy.holds`, `Heap.Copy.contains` — what a copy holds stands for what was held;
* `Heap.Orderly.copy` — **a copy of what is in order is in order.**
-/

import EntitySchema.Proofs.Copying
import EntitySchema.Proofs.Inert
import EntitySchema.Proofs.Orderly
import EntitySchema.Proofs.RenamedValues

set_option autoImplicit false

namespace EntitySchema

/-! ### Attributes -/

namespace Heap

variable {g : Catalog} {h h' : Heap} {f : Address → Address} {a b c : Address}

theorem own?_renameCell (f : Address → Address) (c : Cell) (name : String) :
    (renameCell f c).own? name = (c.own? name).map (rename f) := by
  unfold Cell.own? renameCell
  induction c.attributes with
  | nil => rfl
  | cons p t ih =>
    obtain ⟨k, v⟩ := p
    simp only [List.map_cons, Table.get?]
    split
    · rfl
    · exact ih

/-- What its class gives an entity belongs to the entity where it is. -/
theorem givenAttribute?_rename (f : Address → Address) (a : Address) (cls : ClassId)
    (name : String) :
    givenAttribute? g (f a) cls name = (givenAttribute? g a cls name).map (rename f) := by
  unfold givenAttribute?
  cases hv : sharedAttribute? g cls name with
  | some v => exact congrArg some (rename_of_inert f v (inert_of_sharedAttribute? hv)).symm
  | none =>
    dsimp only
    split <;> rfl

theorem plainAttribute?_rename (f : Address → Address) (a : Address) (name : String) :
    plainAttribute? (f a) name = (plainAttribute? a name).map (rename f) := by
  unfold plainAttribute?
  split_ifs <;> rfl

section

variable (cell : get h' (f a) = renameCell f (get h a))

include cell

theorem species_of_renamed : (get h' (f a)).species = (get h a).species := by
  rw [cell]
  rfl

theorem isEntity_of_renamed : isEntity h' (f a) = isEntity h a := by
  unfold isEntity
  rw [species_of_renamed cell]

/-- **An attribute of an object at another address** is the attribute with other addresses. -/
theorem objectAttribute?_of_renamed (name : String) :
    objectAttribute? g h' (f a) name = (objectAttribute? g h a name).map (rename f) := by
  unfold objectAttribute?
  dsimp only
  rw [cell]
  have own := own?_renameCell f (get h a)
  have or_map (x y : Option Value) :
      (x.map (rename f)).or (y.map (rename f)) = (x.or y).map (rename f) := by cases x <;> rfl
  split
  · rfl
  split
  · simp only [Option.map_some, rename, renameEntries_eq_map, renameCell, List.map_map]
    rfl
  split
  · rfl
  have species : (renameCell f (get h a)).species = (get h a).species := rfl
  rw [species]
  cases (get h a).species with
  | plain =>
    dsimp only
    rw [own, plainAttribute?_rename, or_map]
  | entity k =>
    dsimp only
    rw [own, own, givenAttribute?_rename, or_map]
    split <;> rfl

theorem field_of_renamed (name : String) :
    field g h' (f a) name = rename f (field g h a name) := by
  unfold field
  rw [objectAttribute?_of_renamed cell]
  cases objectAttribute? g h a name <;> rfl

/-- **An object at another address goes by a schema with the same fields.** -/
theorem mem_rules_of_renamed {rs : List (Value × Rule)} (hrs : rules g h' (f a) = .ok rs)
    {name : String} {r : Rule} (hr : (.str name, r) ∈ rs) :
    ∃ rs' r', rules g h a = .ok rs' ∧ (.str name, r') ∈ rs' := by
  unfold rules at hrs ⊢
  dsimp only at hrs ⊢
  rw [species_of_renamed cell, cell, own?_renameCell] at hrs
  cases hown : (get h a).own? "schema" with
  | none =>
    rw [hown] at hrs
    cases hs : (get h a).species with
    | plain =>
      rw [hs] at hrs
      cases hrs
    | entity k =>
      rw [hs] at hrs
      cases hrs
      exact ⟨_, r, rfl, hr⟩
  | some v =>
    rw [hown] at hrs
    dsimp only [Option.map_some] at hrs ⊢
    -- only a mapping makes rules, and it is one wherever it leads
    have mapping : ∀ es, ((rename f v).entries? = some es) →
        ∃ es', v.entries? = some es' ∧ es = renameEntries f es' := by
      intro es hes
      cases v with
      | dict es' | ordered es' =>
        cases hes
        exact ⟨es', rfl, rfl⟩
      | method o n => cases o <;> cases hes
      | _ => cases hes
    split at hrs
    · next es hes =>
      cases hrs
      obtain ⟨es', hes', rfl⟩ := mapping es hes
      rw [hes']
      obtain ⟨e, he, heq⟩ := List.mem_map.1 hr
      rw [renameEntries_eq_map] at he
      obtain ⟨e', he', rfl⟩ := List.mem_map.1 he
      refine ⟨_, ruleOf g e'.2, rfl, List.mem_map.2 ⟨e', he', ?_⟩⟩
      have key : rename f e'.1 = .str name := congrArg Prod.fst heq
      have text : e'.1 = .str name := by
        cases hk : e'.1 with
        | str n =>
          rw [hk] at key
          exact key
        | method o n =>
          rw [hk] at key
          cases o <;> cases key
        | _ =>
          rw [hk] at key
          cases key
      rw [text]
    · cases hrs

end

/-! ### Copies -/

variable {v w u : Value}

/-- What a value comprises it holds. -/
theorem Comprises.holds (ha : h.Comprises v a) : h.Holds v a := by
  refine ha.induction (P := h.Holds v) (fun a ha => .direct (.of_refs ha)) fun a ha b hb => ?_
  obtain ⟨p, hp, hb⟩ := mem_cellRefs.1 hb
  exact .through ha hp (.of_refs hb)

/-- An attribute of an object refers to the object itself, or to what its cell refers to. -/
theorem refs_of_objectAttribute? {name : String} (hw : objectAttribute? g h a name = some w)
    (hb : b ∈ refs w) : b = a ∨ b ∈ cellRefs (get h a) := by
  have own {name : String} (hw : (get h a).own? name = some w) : b ∈ cellRefs (get h a) :=
    mem_cellRefs.2 ⟨_, mem_of_own? hw, hb⟩
  have leads : w.LeadsTo b := .of_refs hb
  unfold objectAttribute? at hw
  dsimp only at hw
  split at hw
  · cases hw
    cases hb
  split at hw
  · cases hw
    have parts : ∀ t : Table Value, b ∈ refsEntries (t.map fun p => (.str p.1, p.2)) →
        ∃ p ∈ t, b ∈ refs p.2 := by
      intro t
      induction t with
      | nil => exact nofun
      | cons p t ih =>
        rw [List.map_cons, refsEntries, List.append_assoc, List.mem_append, List.mem_append]
        rintro (hb | hb | hb)
        · cases hb
        · exact ⟨p, List.mem_cons_self .., hb⟩
        · obtain ⟨q, hq, hb⟩ := ih hb
          exact ⟨q, List.mem_cons_of_mem _ hq, hb⟩
    exact .inr (mem_cellRefs.2 (parts _ hb))
  split at hw
  · cases hw
    cases hb
  split at hw
  · split at hw
    · exact .inr (own hw)
    · rcases Option.or_eq_some_iff.1 hw with hw | ⟨_, hw⟩
      · exact .inr (own hw)
      · exact .inl (eq_of_givenAttribute? hw leads)
  · rcases Option.or_eq_some_iff.1 hw with hw | ⟨_, hw⟩
    · exact .inr (own hw)
    · exact .inl (eq_of_plainAttribute? hw leads)

/-- An object of a copy of a value stands for the one that was copied, and what is not copied stands
for itself. -/
inductive StandsFor (h : Heap) (v : Value) (f : Address → Address) : Address → Address → Prop
  | copied {a : Address} : h.Comprises v a → StandsFor h v f (f a) a
  | shared {a : Address} : h.Holds v a → StandsFor h v f a a

/-- What a copied value leads to stands for what the value leads to. -/
theorem exists_standsFor (comprised : ∀ a ∈ refs u, h.Comprises v a)
    (held : ∀ a, u.LeadsTo a → h.Holds v a)
    (hb : (rename f u).LeadsTo b) : ∃ a, u.LeadsTo a ∧ StandsFor h v f b a := by
  rcases exists_of_leadsTo_rename hb with ⟨a, ha, rfl⟩ | hb
  · exact ⟨a, .of_refs ha, .copied (comprised a ha)⟩
  · exact ⟨b, .of_functions hb, .shared (held b (.of_functions hb))⟩

/-- A copy of a value that is there: what the copy comprises is new. -/
structure Copy (h : Heap) (v : Value) (h' : Heap) (w : Value) (f : Address → Address) : Prop
    extends Mirrors h v h' w f where
  there : ∀ a, h.Holds v a → a < h.length
  grown : h <+: h'
  new : ∀ a, h.Comprises v a → h.length ≤ f a ∧ f a < h'.length

/-- Copying makes a copy of what is there, at fresh addresses. -/
theorem copy_copy (there : ∀ a, h.Holds v a → a < h.length)
    (hf : freshFrom h.length (reach h v) = f) {r : Value × Heap} (hr : h.copy v = r) :
    Copy h v r.2 r.1 f := by
  obtain ⟨mirrors, grown, new, -⟩ := mirrors_copy (fun a ha => there a ha.holds) hf hr
  exact { mirrors with there := there, grown := grown, new := new }

theorem exists_copy (there : ∀ a, h.Holds v a → a < h.length) {r : Value × Heap}
    (hr : h.copy v = r) : ∃ f, Copy h v r.2 r.1 f := ⟨_, copy_copy there rfl hr⟩

namespace Copy

variable (copy : Copy h v h' w f)

include copy

/-- What a cell that stands for another leads to stands for what that one leads to. -/
theorem part (stands : StandsFor h v f b a) {p : String × Value}
    (hp : p ∈ (get h' b).attributes) (hc : p.2.LeadsTo c) :
    ∃ q ∈ (get h a).attributes, ∃ d, q.2.LeadsTo d ∧ StandsFor h v f c d := by
  cases stands with
  | copied ha =>
    rw [copy.cells a ha] at hp
    obtain ⟨q, hq, heq⟩ := exists_of_mem_renameCell hp
    rw [heq] at hc
    obtain ⟨d, hd, stands⟩ := exists_standsFor
      (fun x hx => .through ha (mem_cellRefs.2 ⟨q, hq, hx⟩))
        (fun _ hx => .through ha.holds hq hx) hc
    exact ⟨q, hq, d, hd, stands⟩
  | shared ha =>
    rw [get_of_extended copy.grown (copy.there _ ha)] at hp
    exact ⟨p, hp, c, hc, .shared (.through ha hp hc)⟩

theorem holds (stands : StandsFor h v f b a) (hc : h'.Holds (.object b) c) :
    ∃ d, h.Holds (.object a) d ∧ StandsFor h v f c d := by
  induction hc with
  | direct hc =>
    cases hc
    exact ⟨a, .direct (.object a), stands⟩
  | through _ hp hc ih =>
    obtain ⟨d, hd, stands⟩ := ih
    obtain ⟨q, hq, e, he, stands⟩ := copy.part stands hp hc
    exact ⟨e, .through hd hq he, stands⟩

/-- What a copied value holds stands for what the value holds. -/
theorem holds_value (comprised : ∀ a ∈ refs u, h.Comprises v a)
    (held : ∀ a, u.LeadsTo a → h.Holds v a) (hb : h'.Holds (rename f u) b) :
    ∃ a, h.Holds u a ∧ StandsFor h v f b a := by
  obtain ⟨c, hc, hb⟩ := hb.exists_leads
  obtain ⟨d, hd, stands⟩ := exists_standsFor comprised held hc
  obtain ⟨a, ha, stands⟩ := copy.holds stands hb
  exact ⟨a, (Holds.direct hd).trans ha, stands⟩

/-- **What an object of a copy contains stands for what the object contains that was copied.** -/
theorem contains (stands : StandsFor h v f b a) (hc : Contains g h' b c) :
    ∃ d, Contains g h a d ∧ StandsFor h v f c d := by
  cases stands with
  | copied ha =>
    obtain ⟨rs, hrs, name, r, hr, hc⟩ := hc
    have cell := copy.cells a ha
    obtain ⟨rs', r', hrs', hr'⟩ := mem_rules_of_renamed cell hrs hr
    rw [field_of_renamed cell] at hc
    have comprised : ∀ x ∈ refs (field g h a name), h.Comprises v x := by
      intro x hx
      unfold field at hx
      cases hw : objectAttribute? g h a name with
      | none =>
        rw [hw] at hx
        cases hx
      | some w =>
        rw [hw] at hx
        rcases refs_of_objectAttribute? hw hx with rfl | hx
        · exact ha
        · exact .through ha hx
    obtain ⟨d, hd, stands⟩ := copy.holds_value comprised
      (fun x hx => holds_of_field (.direct hx) ha.holds) hc
    exact ⟨d, ⟨rs', hrs', name, r', hr', hd⟩, stands⟩
  | shared ha =>
    have agrees : Agrees h h' (.object a) := fun x hx =>
      get_of_extended copy.grown (copy.there x (ha.trans hx))
    have contains := agrees.contains hc
    exact ⟨c, contains, .shared (contains.holds ha)⟩

theorem eq_of_stands (left : StandsFor h v f b a) (right : StandsFor h v f b c) : a = c := by
  cases left with
  | copied ha =>
    generalize hb : f a = b at right
    cases right with
    | copied hc => exact copy.injective _ _ ha hc hb
    | shared hc => exact absurd (hb ▸ (copy.new a ha).1) (copy.there _ hc).not_ge
  | shared ha =>
    cases right with
    | copied hc => exact absurd (copy.new c hc).1 (copy.there _ ha).not_ge
    | shared => rfl

end Copy

/-- **A copy of what is in order is in order.** -/
theorem Orderly.copy {U : Address → Prop} (orderly : Orderly g U h v)
    (bounded : ∀ a, U a → a < h.length) {r : Value × Heap} (hr : h.copy v = r) :
    h <+: r.2 ∧ Orderly g U r.2 r.1 := by
  obtain ⟨f, copy⟩ := exists_copy (fun a ha => (orderly.there a ha).1) hr
  have held : ∀ b, r.2.Holds r.1 b → ∃ a, h.Holds v a ∧ StandsFor h v f b a := by
    intro b hb
    rw [copy.value] at hb
    exact copy.holds_value (fun _ => .direct) (fun _ => .direct) hb
  refine ⟨copy.grown, fun b hb => ?_, fun b hb hbb => ?_, fun b hb entity name hname => ?_⟩
  · obtain ⟨a, ha, stands⟩ := held b hb
    cases stands with
    | copied ha =>
      obtain ⟨above, below⟩ := copy.new a ha
      exact ⟨below, fun hU => absurd (bounded _ hU) above.not_gt⟩
    | shared ha =>
      obtain ⟨lt, apart⟩ := orderly.there _ ha
      exact ⟨lt.trans_le copy.grown.length_le, apart⟩
  · obtain ⟨a, ha, stands⟩ := held b hb
    obtain ⟨d, contains, stands'⟩ := copy.contains stands hbb
    obtain rfl := copy.eq_of_stands stands stands'
    exact orderly.free a ha contains
  · obtain ⟨a, ha, stands⟩ := held b hb
    cases stands with
    | copied ha' =>
      have cell := copy.cells a ha'
      rw [isEntity_of_renamed cell] at entity
      rw [cell, own?_renameCell, orderly.genuine a ha entity name hname]
      rfl
    | shared ha' =>
      have same := get_of_extended copy.grown (orderly.there _ ha).1
      rw [isEntity_of_get same] at entity
      rw [same]
      exact orderly.genuine _ ha entity name hname

end Heap

end EntitySchema
