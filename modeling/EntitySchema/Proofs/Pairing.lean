/-
**Two runs side by side.**

Two runs of one action go side by side if they find the same objects, but that what is new in the
first is further on in the second: an object is then *kept* in both if its cell in the second is the
one in the first with addresses moved accordingly, and so are all objects that it holds.

A pairing may be strict, and then whatever fails in one run fails alike in the other; in a pairing
that is not, it is enough that what succeeds in the first run does so in the second.  What is asked
of values may depend on where objects are then, so it is demanded that no identifier does.

Main definitions:

* `Pairing` — what two runs have to do with each other;
* `Pairing.Fit` — heaps of the two runs;
* `Pairing.Steady` — **a value whose objects are kept in both runs**;
* `Pairing.Moved`, `Pairing.Same` — the same value in both runs, and the same raw value.

Main results:

* `Pairing.Steady.move`, `Pairing.Steady.grow` — what is kept stays so;
* `Pairing.steady_of_cell` — **an object whose cell is the same is kept** if what it holds is.
-/

import EntitySchema.Proofs.Renaming
import EntitySchema.Proofs.StoredLookups

set_option autoImplicit false

namespace EntitySchema

/-! ### Pairings -/

/-- Two runs side by side: with which classes, of which some are met; from which address on objects
are new and by how much they are further on in the second run; whether also failures are to be the
same; which sessions go together, apart from their objects, and how their clocks may go on; which
values both runs are given by stores and classes; which payloads of eager references are for the
same entities; and what is to be known of that which the first run makes of a raw value. -/
structure Pairing where
  catalog : Catalog
  known : ClassId → Prop
  base : Nat
  shift : Nat
  strict : Prop
  together : Session → Session → Prop
  passes : Instant → Instant → Prop
  given : Value → Prop
  sought : Target → Value → Value → Prop
  told : Subject → Value → Heap → Value → Prop

namespace Pairing

variable (L : Pairing)

/-- Where an object of the first run is in the second. -/
def move (a : Nat) : Nat := if a < L.base then a else a + L.shift

/-- Heaps of the two runs: all that is new is further on in the second, and what is under way is
there. -/
structure Fit (underway : Address → Prop) (h h' : Heap) : Prop where
  size : List.length h' = List.length h + L.shift
  started : L.base ≤ List.length h
  bounded : ∀ a : Nat, underway a → a < List.length h

/-- A value whose objects are kept in both runs: they are there, none of them is under way, and
their cells are the same but for where objects are. -/
def Steady (underway : Address → Prop) (h h' : Heap) (v : Value) : Prop :=
  ∀ a : Nat, h.Holds v a → a < List.length h ∧ ¬ underway a ∧
    Heap.get h' (L.move a) = Heap.renameCell L.move (Heap.get h a)

variable {L} {U U' : Address → Prop} {h h' k k' : Heap} {v w : Value} {a b : Nat}

theorem move_of_lt (ha : a < L.base) : L.move a = a := if_pos ha

theorem move_of_ge (ha : L.base ≤ a) : L.move a = a + L.shift := if_neg ha.not_gt

theorem move_injective (L : Pairing) : L.move.Injective := by
  intro a b hab
  unfold move at hab
  split_ifs at hab <;> omega

theorem move_of_rigid (rigid : L.shift = 0) : L.move = id := by
  funext a
  unfold move
  split <;> simp [rigid]

/-- Nothing that a value leads to is new. -/
theorem rename_of_old (old : ∀ a : Nat, v.LeadsTo a → a < L.base) :
    Heap.rename L.move v = v :=
  (Heap.rename_congr v fun a ha => move_of_lt (old a (.of_refs ha))).trans (Heap.rename_id v)

namespace Fit

variable (fit : L.Fit U h h')

include fit

theorem move_length : L.move (List.length h) = List.length h' := by
  rw [move_of_ge fit.started, fit.size]

theorem move_lt (ha : a < List.length h) : L.move a < List.length h' := by
  have := fit.size
  unfold move
  split_ifs <;> omega

theorem grow (grown : h <+: k) (size : List.length k' = List.length k + L.shift) :
    L.Fit U k k' where
  size := size
  started := fit.started.trans grown.length_le
  bounded a ha := (fit.bounded a ha).trans_le grown.length_le

/-- An object that is new may come under way. -/
theorem enter (there : a < List.length h) : L.Fit (fun b => U b ∨ b = a) h h' where
  size := fit.size
  started := fit.started
  bounded b := by
    rintro (hb | rfl)
    · exact fit.bounded b hb
    · exact there

end Fit

/-! ### Values that are kept -/

namespace Steady

variable (steady : L.Steady U h h' v)

include steady

/-- **What is kept stays so as long as its cells stay what they are**, and none of them comes under
way. -/
theorem move (agrees : Heap.Agrees h k v)
    (there : ∀ a, h.Holds v a → Heap.get k' (L.move a) = Heap.get h' (L.move a))
    (size : List.length h ≤ List.length k) (begun : ∀ a : Nat, a < List.length h → U' a → U a) :
    L.Steady U' k k' v := by
  intro a ha
  have held := agrees.holds ha
  obtain ⟨lt, apart, cell⟩ := steady a held
  exact ⟨lt.trans_le size, fun hU => apart (begun a lt hU), by
    rw [there a held, cell, agrees a held]⟩

/-- What is kept stays so when the heaps grow, and what was added may be under way. -/
theorem grow (fit : L.Fit U h h') (grown : h <+: k) (grown' : h' <+: k')
    (begun : ∀ a : Nat, a < List.length h → U' a → U a) : L.Steady U' k k' v :=
  steady.move (fun a ha => Heap.get_of_extended grown (steady a ha).1)
    (fun a ha => Heap.get_of_extended grown' (fit.move_lt (steady a ha).1)) grown.length_le begun

theorem mono (fit : L.Fit U h h') (grown : h <+: k) (grown' : h' <+: k') : L.Steady U k k' v :=
  steady.grow fit grown grown' fun _ _ => id

/-- What was added may come under way. -/
theorem enter (fit : L.Fit U h h') (grown : h <+: k) (grown' : h' <+: k')
    (added : List.length h ≤ a) : L.Steady (fun b => U b ∨ b = a) k k' v :=
  steady.grow fit grown grown' fun _ lt hU => hU.resolve_right fun heq => (heq ▸ lt).not_ge added

theorem object (ha : v.LeadsTo a) : L.Steady U h h' (.object a) :=
  fun b hb => steady b ((Heap.Holds.direct ha).trans hb)

theorem agrees (rigid : L.shift = 0) : Heap.Agrees h h' v := by
  intro a ha
  have cell := (steady a ha).2.2
  rwa [move_of_rigid rigid, Heap.renameCell_id] at cell

end Steady

/-- A value is kept if the objects that it leads to are. -/
theorem steady_of_leads (parts : ∀ a, v.LeadsTo a → L.Steady U h h' (.object a)) :
    L.Steady U h h' v := by
  intro b hb
  obtain ⟨a, ha, held⟩ := hb.exists_leads
  exact parts a ha b held

theorem Steady.of_holds (steady : L.Steady U h h' v) (hw : ∀ a, w.LeadsTo a → h.Holds v a) :
    L.Steady U h h' w := fun a ha => steady a (ha.of_leads hw)

theorem Steady.of_leads (steady : L.Steady U h h' v) (hw : ∀ a, w.LeadsTo a → v.LeadsTo a) :
    L.Steady U h h' w := steady.of_holds fun a ha => .direct (hw a ha)

theorem steady_of_inert (hv : v.Inert) : L.Steady U h h' v :=
  steady_of_leads fun a ha => absurd ha (hv a)

theorem steady_list {xs : List Value} (parts : ∀ x ∈ xs, L.Steady U h h' x) :
    L.Steady U h h' (.list xs) :=
  steady_of_leads fun a ha => by
    cases ha with
    | list hx ha => exact (parts _ hx).object ha

theorem steady_dict {es : Entries} (parts : ∀ e ∈ es, L.Steady U h h' e.1 ∧ L.Steady U h h' e.2) :
    L.Steady U h h' (.dict es) :=
  steady_of_leads fun a ha => by
    cases ha with
    | dictKey he ha => exact (parts _ he).1.object ha
    | dict he ha => exact (parts _ he).2.object ha

/-- The items of a value that is kept are kept. -/
theorem Steady.items (steady : L.Steady U h h' v) {xs : List Value} (hxs : v.items? = some xs)
    {x : Value} (hx : x ∈ xs) : L.Steady U h h' x :=
  steady.of_leads fun _ ha => Value.leadsTo_of_items hxs hx ha

/-- The dictionary that a value that is kept makes has keys and values that are. -/
theorem Steady.toEntries (steady : L.Steady U h h' v) {isEntity : Address → Bool} {es : Entries}
    (hes : v.toEntries isEntity = .ok es) :
    ∀ e ∈ es, L.Steady U h h' e.1 ∧ L.Steady U h h' e.2 := by
  refine Value.forall_mem_toEntries hes (fun hm e he => ?_) fun xs hxs x hx k w two => ?_
  · have parts := Value.leadsTo_of_entries hm he
    exact ⟨steady.of_leads parts.1, steady.of_leads parts.2⟩
  · have part : ∀ y ∈ [k, w], L.Steady U h h' y := fun y hy => (steady.items hxs hx).items two hy
    exact ⟨part k (by simp), part w (by simp)⟩

/-- **An object whose cell is the same in both runs, but for where objects are, is kept** if what
its attributes hold is, whether or not the object itself was under way for these. -/
theorem steady_of_cell (there : a < List.length h) (apart : ¬ U a)
    (cell : Heap.get h' (L.move a) = Heap.renameCell L.move (Heap.get h a))
    (parts : ∀ p ∈ (Heap.get h a).attributes, L.Steady (fun b => U b ∨ b = a) h h' p.2) :
    L.Steady U h h' (.object a) := by
  intro b hb
  rcases hb.eq_or_exists with rfl | ⟨p, hp, held⟩
  · exact ⟨there, apart, cell⟩
  · obtain ⟨lt, apart, cell⟩ := parts p hp b held
    exact ⟨lt, fun hU => apart (.inl hU), cell⟩

end Pairing

/-! ### Raw values that are the same -/

namespace Value

/-- A value is part of another: the other itself, or part of one of its items or of the values of
its entries. -/
inductive HasPart : Value → Value → Prop
  | refl (v : Value) : HasPart v v
  | item {v x w : Value} {xs : List Value} : v.items? = some xs → x ∈ xs → HasPart x w → HasPart v w
  | value {v w : Value} {es : Entries} {e : Value × Value} : v.entries? = some es → e ∈ es →
      HasPart e.2 w → HasPart v w

theorem HasPart.leadsTo {v w : Value} (part : v.HasPart w) {a : Address} (ha : w.LeadsTo a) :
    v.LeadsTo a := by
  induction part with
  | refl => exact ha
  | item hxs hx _ ih => exact leadsTo_of_items hxs hx (ih ha)
  | value hes he _ ih => exact (leadsTo_of_entries hes he).2 a (ih ha)

/-- What is part of a value at other addresses is part of the value, at other addresses. -/
theorem HasPart.exists_of_rename {f : Address → Address} {v w : Value}
    (part : (Heap.rename f v).HasPart w) : ∃ u, v.HasPart u ∧ w = Heap.rename f u := by
  generalize hr : Heap.rename f v = r at part
  induction part generalizing v with
  | refl => exact ⟨v, .refl v, hr.symm⟩
  | item hxs hx _ ih =>
    rw [← hr, items?_rename] at hxs
    obtain ⟨ys, hys, rfl⟩ := Option.map_eq_some_iff.1 hxs
    obtain ⟨y, hy, rfl⟩ := List.mem_map.1 hx
    obtain ⟨u, hu, heq⟩ := ih rfl
    exact ⟨u, .item hys hy hu, heq⟩
  | value hes he _ ih =>
    rw [← hr, entries?_rename] at hes
    obtain ⟨ds, hds, rfl⟩ := Option.map_eq_some_iff.1 hes
    rw [Heap.renameEntries_eq_map] at he
    obtain ⟨d, hd, rfl⟩ := List.mem_map.1 he
    obtain ⟨u, hu, heq⟩ := ih rfl
    exact ⟨u, .value hds hd hu, heq⟩

end Value

/-- The identifier that a payload carries, in a heap. -/
def Checker.identifierOf (g : Catalog) (h : Heap) (raw : Value) : Value :=
  match raw.entries? with
  | some es => Entries.getStr es idField
  | none => (Heap.attribute? g h 0 raw idField).getD .null

theorem Checker.payloadId_eq (s : Session) (raw : Value) :
    payloadId s raw = identifierOf s.catalog s.heap raw := rfl

/-- A payload that leads to no object carries the identifier that is in it. -/
theorem Checker.identifierOf_of_inert {g : Catalog} {h : Heap} {raw : Value} (hraw : raw.Inert) :
    identifierOf g h raw = identifierIn raw :=
  payloadId_of_inert { Session.initial with catalog := g, heap := h } hraw

/-- **A payload at other addresses carries the identifier at other addresses**, if objects are the
same there and functions are where they were. -/
theorem Checker.identifierOf_renamed {g : Catalog} {h h' : Heap} {f : Address → Address} {v : Value}
    (objects : ∀ a, v = .object a → Heap.get h' (f a) = Heap.renameCell f (Heap.get h a))
    (functions : ∀ a, v = .function a → Heap.get h' a = Heap.renameCell f (Heap.get h a)) :
    identifierOf g h' (Heap.rename f v) = Heap.rename f (identifierOf g h v) := by
  have asked {o o' : Option Value} (same : o' = o.map (Heap.rename f)) :
      o'.getD .null = Heap.rename f (o.getD .null) := by
    rw [same]
    cases o <;> rfl
  cases v with
  | dict es | ordered es => exact Entries.getStr_renameEntries es idField
  | object a => exact asked (Heap.objectAttribute?_of_renamed (objects a rfl) idField)
  | function a =>
    refine asked ?_
    show ((Heap.get h' a).own? idField).or _ = Option.map _ (((Heap.get h a).own? idField).or _)
    rw [functions a rfl, Heap.own?_renameCell]
    cases (Heap.get h a).own? idField <;> rfl
  | cls c => cases c <;> rfl
  | method o n => cases o <;> rfl
  | _ => rfl

/-- What the identifier that a payload carries leads to, the payload holds. -/
theorem Checker.holds_of_identifierOf {g : Catalog} {h : Heap} {v : Value} {a : Address}
    (ha : (identifierOf g h v).LeadsTo a) : h.Holds v a := by
  unfold identifierOf at ha
  split at ha
  · next es hes =>
    exact Entries.getStr_of_forall (P := fun w => ∀ b, w.LeadsTo b → h.Holds v b)
      (fun _ hb => by cases hb)
      (fun e he b hb => .direct ((Value.leadsTo_of_entries hes he).2 b hb)) idField a ha
  · cases hw : Heap.attribute? g h 0 v idField with
    | none =>
      rw [hw] at ha
      cases ha
    | some w =>
      rw [hw] at ha
      exact Heap.holds_of_attribute? hw ha

/-- A value in which no identifier leads to an object: none that a mapping in it carries, and none
that an object does; and the functions in it are old. -/
def Heap.Named (g : Catalog) (base : Nat) (h : Heap) (v : Value) : Prop :=
  ∀ w, v.HasPart w → (Checker.identifierOf g h w).Inert ∧ ∀ a : Nat, w = .function a → a < base

namespace Heap

variable {g : Catalog} {base : Nat} {h h' : Heap} {v w : Value}

theorem identifierOf_of_agrees (agrees : Agrees h h' v) :
    Checker.identifierOf g h' v = Checker.identifierOf g h v := by
  unfold Checker.identifierOf
  rw [attribute?_of_agrees agrees]

theorem named_of_inert (hv : v.Inert) : h.Named g base v := by
  intro w part
  have inert : w.Inert := fun a ha => hv a (part.leadsTo ha)
  refine ⟨?_, ?_⟩
  · rw [Checker.identifierOf_of_inert inert]
    exact Checker.inert_identifierIn inert
  · rintro a rfl
    exact absurd (.function a) (inert a)

theorem Named.of_agrees (named : h.Named g base v) (agrees : Agrees h h' v) :
    h'.Named g base v := by
  intro w part
  rw [identifierOf_of_agrees (agrees.of_leads fun b hb => .direct (part.leadsTo hb))]
  exact named w part

theorem Named.item (named : h.Named g base v) {xs : List Value} (hxs : v.items? = some xs)
    {x : Value} (hx : x ∈ xs) : h.Named g base x := fun w part => named w (.item hxs hx part)

theorem Named.value (named : h.Named g base v) {es : Entries} (hes : v.entries? = some es)
    {e : Value × Value} (he : e ∈ es) : h.Named g base e.2 :=
  fun w part => named w (.value hes he part)

/-- The values of the dictionary that a value makes. -/
theorem Named.toEntries (named : h.Named g base v) {isEntity : Address → Bool} {es : Entries}
    (hes : v.toEntries isEntity = .ok es) : ∀ e ∈ es, h.Named g base e.2 := by
  have both : ∀ e ∈ es, True ∧ h.Named g base e.2 := by
    refine Value.forall_mem_toEntries (P := fun _ => True) hes
      (fun hm e he => ⟨trivial, named.value hm he⟩) fun xs hxs x hx k w two => ⟨trivial, ?_⟩
    exact (named.item hxs hx).item two (List.mem_cons_of_mem _ (List.mem_singleton_self w))
  exact fun e he => (both e he).2

end Heap

namespace Pairing

variable {L : Pairing} {U U' : Address → Prop} {h h' k k' : Heap} {raw raw' : Value}

/-- The same value in two runs: the second is the first where objects are in the second run, and all
its objects are kept. -/
structure Moved (L : Pairing) (underway : Address → Prop) (h h' : Heap) (v v' : Value) : Prop where
  value : v' = Heap.rename L.move v
  steady : L.Steady underway h h' v

/-- The same raw value in two runs: if failures may differ, whatever is asked for by its identifiers
does not depend on where objects are. -/
structure Same (L : Pairing) (underway : Address → Prop) (h h' : Heap) (raw raw' : Value) : Prop
    extends L.Moved underway h h' raw raw' where
  named : ¬ L.strict → h.Named L.catalog L.base raw

theorem moved_of_inert {v : Value} (hv : v.Inert) : L.Moved U h h' v v where
  value := (Heap.rename_of_inert _ v hv).symm
  steady := steady_of_inert hv

theorem same_of_inert (hraw : raw.Inert) : L.Same U h h' raw raw where
  toMoved := moved_of_inert hraw
  named _ := Heap.named_of_inert hraw

theorem Moved.mono {v v' : Value} (moved : L.Moved U h h' v v') (fit : L.Fit U h h')
    (grown : h <+: k) (grown' : h' <+: k') : L.Moved U k k' v v' where
  value := moved.value
  steady := moved.steady.mono fit grown grown'

namespace Same

variable (same : L.Same U h h' raw raw')

include same

theorem grow (fit : L.Fit U h h') (grown : h <+: k) (grown' : h' <+: k')
    (begun : ∀ a : Nat, a < List.length h → U' a → U a) : L.Same U' k k' raw raw' where
  value := same.value
  steady := same.steady.grow fit grown grown' begun
  named lax := (same.named lax).of_agrees fun a ha =>
    Heap.get_of_extended grown (same.steady a ha).1

theorem item {xs : List Value} (hxs : raw.items? = some xs) {x : Value} (hx : x ∈ xs) :
    L.Same U h h' x (Heap.rename L.move x) where
  value := rfl
  steady := same.steady.items hxs hx
  named lax := (same.named lax).item hxs hx

/-- The values of the dictionary that is made of the same value. -/
theorem toEntries {isEntity : Address → Bool} {es : Entries}
    (hes : raw.toEntries isEntity = .ok es) :
    ∀ e ∈ es, L.Steady U h h' e.1 ∧ L.Same U h h' e.2 (Heap.rename L.move e.2) := fun e he =>
  ⟨(same.steady.toEntries hes e he).1, ⟨rfl, (same.steady.toEntries hes e he).2⟩,
    fun lax => (same.named lax).toEntries hes e he⟩

/-- The same value carries the same identifier, which leads to no object if failures may differ. -/
theorem identifier (rigid : L.strict → L.shift = 0) :
    L.Moved U h h' (Checker.identifierOf L.catalog h raw) (Checker.identifierOf L.catalog h' raw') ∧
      (¬ L.strict → (Checker.identifierOf L.catalog h raw).Inert) := by
  refine ⟨⟨?_, same.steady.of_holds fun a ha => Checker.holds_of_identifierOf ha⟩,
    fun lax => (same.named lax raw (.refl raw)).1⟩
  rw [same.value]
  refine Checker.identifierOf_renamed (fun a ha => (same.steady a (.direct (ha ▸ .object a))).2.2)
    fun a ha => ?_
  have cell := (same.steady a (.direct (ha ▸ .function a))).2.2
  by_cases strict : L.strict
  · rwa [move_of_rigid (rigid strict)] at cell ⊢
  · rwa [move_of_lt ((same.named strict raw (.refl raw)).2 a ha)] at cell

/-- An object of the same value is an entity in both runs or in none. -/
theorem isEntity : ∀ a, raw.LeadsTo a → Heap.isEntity h' (L.move a) = Heap.isEntity h a :=
  fun a ha => Heap.isEntity_of_renamed (same.steady a (.direct ha)).2.2

theorem isInstance {a : Address} (ha : raw.LeadsTo a) (cls : ClassId) :
    Heap.isInstance L.catalog h' (L.move a) cls = Heap.isInstance L.catalog h a cls := by
  unfold Heap.isInstance
  rw [Heap.species_of_renamed (same.steady a (.direct ha)).2.2]

end Same

end Pairing

end EntitySchema
