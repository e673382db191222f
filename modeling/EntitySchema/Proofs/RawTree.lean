/-
**The tree that raw data make.**

Construction and loading make entities in a heap, one after the other.  What they make is told here
without a heap, by functions from raw data to trees.  The tree of a construction leaves the deferred
fields absent, with their raw values put aside.  The tree of a loading has in their place what the
records under the identifiers make in turn; it is bounded, as loading is, by how many entities may
be entered one inside the other.

Raw values are *tame* if nothing in them has to be looked at in a heap, and if what they are made of
is tame again.

Main definitions:

* `Lookups` — what stands under the identifiers of classes;
* `Checker.treeWith` — the tree that a checker makes of a raw value;
* `Catalog.built`, `Catalog.loaded` — **the tree of a construction and that of a loading**;
* `Catalog.loadedWith` — that of a loading for given trees of what is entered and looked up;
* `Catalog.Tame` — a kind of raw values for which no heap is needed.

Main results:

* `Checker.treeWith_congr` — a tree depends on what is entered and named;
* `Checker.treeWith_mono` — a tree stays what it is if more can be entered and found;
* `Catalog.built_mono`, `Catalog.loaded_mono` — **a higher bound does not change a tree**;
* `Catalog.exists_built_of_loaded` — what can be loaded can be constructed.
-/

import EntitySchema.Loading
import EntitySchema.Proofs.Tree

set_option autoImplicit false

namespace EntitySchema

/-! ### Trees side by side -/

section

variable {α β : Type} {o o' : α → Option β}

theorem mapM_option_cons (o : α → Option β) (x : α) (xs : List α) : (x :: xs).mapM o =
    (o x).bind fun y => (xs.mapM o).bind fun ys => some (y :: ys) := List.mapM_cons

theorem mapM_eq_some_iff {xs : List α} {ys : List β} : xs.mapM o = some ys ↔
    xs.length = ys.length ∧ ∀ p ∈ xs.zip ys, o p.1 = some p.2 := by
  induction xs generalizing ys with
  | nil => cases ys <;> simp
  | cons x xs ih =>
    rw [mapM_option_cons, Option.bind_eq_some_iff]
    constructor
    · rintro ⟨y, hy, h⟩
      obtain ⟨ys', hys, h⟩ := Option.bind_eq_some_iff.1 h
      cases h
      obtain ⟨size, rest⟩ := ih.1 hys
      rw [List.zip_cons_cons, List.forall_mem_cons]
      exact ⟨congrArg (· + 1) size, hy, rest⟩
    · rintro ⟨size, all⟩
      cases ys with
      | nil => cases size
      | cons y ys =>
        rw [List.zip_cons_cons, List.forall_mem_cons] at all
        rw [ih.2 ⟨Nat.succ.inj size, all.2⟩]
        exact ⟨y, all.1, rfl⟩

theorem mapM_option_mono {xs : List α} (h : ∀ x ∈ xs, ∀ y, o x = some y → o' x = some y)
    {ys : List β} (hys : xs.mapM o = some ys) : xs.mapM o' = some ys := by
  obtain ⟨size, all⟩ := mapM_eq_some_iff.1 hys
  exact mapM_eq_some_iff.2 ⟨size, fun p hp => h p.1 (List.of_mem_zip hp).1 p.2 (all p hp)⟩

/-- Where there is a result for every member, there is one in another way if there is one
for each. -/
theorem exists_mapM_option {γ : Type} {o' : α → Option γ} {xs : List α} {ys : List β}
    (hys : xs.mapM o = some ys) (h : ∀ x ∈ xs, ∀ y, o x = some y → ∃ z, o' x = some z) :
    ∃ zs, xs.mapM o' = some zs := by
  obtain ⟨size, all⟩ := mapM_eq_some_iff.1 hys
  have each : ∀ x ∈ xs, ∃ z, o' x = some z := by
    intro x hx
    obtain ⟨y, hy⟩ := exists_mem_zip_of_mem_left size hx
    exact h x hx y (all (x, y) hy)
  obtain ⟨zs, size', hzs⟩ := Catalog.exists_zip each
  exact ⟨zs, mapM_eq_some_iff.2 ⟨size', hzs⟩⟩

end

theorem toOption_eq_some_iff {α : Type} {x : Except Failure α} {a : α} :
    x.toOption = some a ↔ x = .ok a := by
  cases x <;> simp [Except.toOption]

/-- Trees for the fields of a schema, under their names, if there is one for each of them.  What is
no field has the tree of the absent value. -/
def fieldTrees (o : String × Checker → Option Tree) : Schema → Option (String → Tree)
  | [] => some fun _ => .leaf .null
  | f :: fs => do
    let t ← o f
    let trees ← fieldTrees o fs
    some fun name => if name = f.1 then t else trees name

section

variable {o o' : String × Checker → Option Tree} {fs : Schema}

/-- A tree for each of the fields is one under the name of each. -/
theorem eq_of_fieldTrees (hn : (Table.names fs).Nodup) {trees : String → Tree}
    (h : fieldTrees o fs = some trees) : ∀ f ∈ fs, o f = some (trees f.1) := by
  induction fs generalizing trees with
  | nil => exact fun _ hf => nomatch hf
  | cons f fs ih =>
    obtain ⟨fresh, nodup⟩ := List.nodup_cons.1 hn
    obtain ⟨t, ht, h⟩ := Option.bind_eq_some_iff.1 h
    obtain ⟨rest, hrest, h⟩ := Option.bind_eq_some_iff.1 h
    cases h
    refine List.forall_mem_cons.2 ⟨by simpa using ht, ?_⟩
    intro f' hf'
    have other : f'.1 ≠ f.1 := fun heq => fresh (heq ▸ List.mem_map_of_mem hf')
    simpa [other] using ih nodup hrest f' hf'

theorem exists_of_fieldTrees {trees : String → Tree} (h : fieldTrees o fs = some trees) :
    ∀ f ∈ fs, ∃ t, o f = some t := by
  induction fs generalizing trees with
  | nil => exact fun _ hf => nomatch hf
  | cons f fs ih =>
    obtain ⟨t, ht, h⟩ := Option.bind_eq_some_iff.1 h
    obtain ⟨rest, hrest, -⟩ := Option.bind_eq_some_iff.1 h
    exact List.forall_mem_cons.2 ⟨⟨t, ht⟩, ih hrest⟩

theorem exists_fieldTrees (h : ∀ f ∈ fs, ∃ t, o f = some t) :
    ∃ trees, fieldTrees o fs = some trees := by
  induction fs with
  | nil => exact ⟨_, rfl⟩
  | cons f fs ih =>
    obtain ⟨⟨t, ht⟩, hrest⟩ := List.forall_mem_cons.1 h
    obtain ⟨rest, hrest⟩ := ih hrest
    rw [fieldTrees, ht, hrest]
    exact ⟨_, rfl⟩

/-- Where there is not a tree for every field there is a field without. -/
theorem exists_of_fieldTrees_eq_none (h : fieldTrees o fs = none) : ∃ f ∈ fs, o f = none := by
  by_contra all
  obtain ⟨trees, htrees⟩ : ∃ trees, fieldTrees o fs = some trees := by
    refine exists_fieldTrees ?_
    intro f hf
    cases ht : o f with
    | none => exact absurd ⟨f, hf, ht⟩ all
    | some t => exact ⟨t, rfl⟩
  rw [htrees] at h
  cases h

theorem fieldTrees_congr (h : ∀ f ∈ fs, o f = o' f) : fieldTrees o fs = fieldTrees o' fs := by
  induction fs with
  | nil => rfl
  | cons f fs ih =>
    obtain ⟨hf, hfs⟩ := List.forall_mem_cons.1 h
    rw [fieldTrees, fieldTrees, hf, ih hfs]

theorem fieldTrees_mono (h : ∀ f ∈ fs, ∀ t, o f = some t → o' f = some t) {trees : String → Tree}
    (htrees : fieldTrees o fs = some trees) : fieldTrees o' fs = some trees := by
  induction fs generalizing trees with
  | nil => exact htrees
  | cons f fs ih =>
    obtain ⟨hf, hfs⟩ := List.forall_mem_cons.1 h
    obtain ⟨t, ht, htrees⟩ := Option.bind_eq_some_iff.1 htrees
    obtain ⟨rest, hrest, htrees⟩ := Option.bind_eq_some_iff.1 htrees
    rw [fieldTrees, hf t ht, ih hfs hrest]
    exact htrees

end

/-! ### The tree of a raw value -/

/-- What stands under the identifiers of classes: the entries of a record, if there is one. -/
abbrev Lookups := ClassId → Value → Option Entries

namespace Checker

/-- The identifier that a mapping carries. -/
def identifierIn (raw : Value) : Value :=
  match raw.entries? with
  | some es => Entries.getStr es idField
  | none => .null

section

variable (g : Catalog) (enter seek : ClassId → Value → Option Tree)

/-- The tree of what an eager reference finds. -/
def fetchTree (target : Target) (raw : Value) : Option Tree :=
  if raw.truthy && !(identifierIn raw).isNull then do
    seek (← (g.resolve target).toOption) (identifierIn raw)
  else some (.leaf .null)

/-- The tree of what an embedded reference makes of its payload. -/
def enterTree (target : Target) (raw : Value) : Option Tree :=
  if raw.isNull then some (.leaf .null) else do enter (← (g.resolve target).toOption) raw

/-- The tree that a checker makes of a raw value; what does not decode is kept as it is. -/
def treeWith : Checker → Value → Option Tree
  | .arrayOf e _, raw => do
    let items ← (itemsOf raw).toOption
    let trees ← items.mapM fun x => treeWith e x
    some (.array trees)
  | .dictOf e _, raw => do
    let entries ← (entriesOf [] raw).toOption
    let trees ← (entries.map Prod.snd).mapM fun x => treeWith e x
    some (.dictionary (entries.map Prod.fst) trees)
  | .reference t eager _, raw =>
    if eager.truthy then fetchTree g seek t raw else enterTree g enter t raw
  | .date _, raw => do
    let v ← (raw.toMoment fun _ => "").toOption
    some (.leaf v)
  | _, raw => some (.leaf raw)

end

/-- What a checker enters in a raw value: the payloads of embedded references, each with the class
that the reference is to. -/
inductive Enters (g : Catalog) : Checker → Value → ClassId → Value → Prop
  | reference {t : Target} {eager : Value} (r : Bool) {raw : Value} {cls : ClassId} :
      eager.truthy = false → raw.isNull = false → g.resolve t = .ok cls →
      Enters g (.reference t eager r) raw cls raw
  | array {e : Checker} (r : Bool) {raw x y : Value} {items : List Value} {cls : ClassId} :
      itemsOf raw = .ok items → x ∈ items → Enters g e x cls y → Enters g (.arrayOf e r) raw cls y
  | dictionary {e : Checker} (r : Bool) {raw y : Value} {es : Entries} {p : Value × Value}
      {cls : ClassId} : entriesOf [] raw = .ok es → p ∈ es → Enters g e p.2 cls y →
      Enters g (.dictOf e r) raw cls y

namespace Enters

variable {g : Catalog} {c : Checker} {raw x : Value} {cls : ClassId}

/-- What is entered is there, and no deeper than the raw value. -/
theorem depth_le (h : Enters g c raw cls x) : raw.isNull = false ∧ x.depth ≤ raw.depth := by
  induction h with
  | reference r _ there _ => exact ⟨there, le_rfl⟩
  | array r hitems hx _ ih =>
    obtain ⟨there, deep⟩ := depth_of_itemsOf hitems hx
    exact ⟨there, ih.2.trans deep⟩
  | dictionary r hes hp _ ih =>
    obtain ⟨there, deep⟩ := depth_of_entriesOf hes hp
    exact ⟨there, ih.2.trans deep.le⟩

/-- Entities are entered by checkers that produce them and are not deferred. -/
theorem embeds (h : Enters g c raw cls x) : c.producesEntity = true ∧ c.deferred = false := by
  induction h with
  | reference r lazy _ _ => exact ⟨rfl, lazy⟩
  | array r _ _ _ ih => exact ih
  | dictionary r _ _ _ ih => exact ih

end Enters

/-- The class and the identifier that an eager reference names in a raw value, be it an element of
an array or a value of a dictionary. -/
inductive Names (g : Catalog) : Checker → Value → ClassId → Value → Prop
  | reference {t : Target} {eager : Value} (r : Bool) {raw : Value} {cls : ClassId} :
      eager.truthy = true → (identifierIn raw).isNull = false → g.resolve t = .ok cls →
      Names g (.reference t eager r) raw cls (identifierIn raw)
  | array {e : Checker} (r : Bool) {raw x id : Value} {items : List Value} {cls : ClassId} :
      itemsOf raw = .ok items → x ∈ items → Names g e x cls id → Names g (.arrayOf e r) raw cls id
  | dictionary {e : Checker} (r : Bool) {raw id : Value} {es : Entries} {p : Value × Value}
      {cls : ClassId} : entriesOf [] raw = .ok es → p ∈ es → Names g e p.2 cls id →
      Names g (.dictOf e r) raw cls id

/-- Only what is deferred names anything. -/
theorem Names.deferred {g : Catalog} {c : Checker} {raw id : Value} {cls : ClassId}
    (h : Names g c raw cls id) : c.deferred = true := by
  induction h with
  | reference r eager _ _ => exact eager
  | array r _ _ _ ih => exact ih
  | dictionary r _ _ _ ih => exact ih

section

variable {g : Catalog} {enter enter' seek seek' : ClassId → Value → Option Tree}

theorem treeWith_arrayOf (e : Checker) (r : Bool) (raw : Value) :
    treeWith g enter seek (.arrayOf e r) raw = (itemsOf raw).toOption.bind fun items =>
      (items.mapM fun x => treeWith g enter seek e x).bind fun trees => some (.array trees) := rfl

theorem treeWith_dictOf (e : Checker) (r : Bool) (raw : Value) :
    treeWith g enter seek (.dictOf e r) raw = (entriesOf [] raw).toOption.bind fun entries =>
      ((entries.map Prod.snd).mapM fun x => treeWith g enter seek e x).bind fun trees =>
        some (.dictionary (entries.map Prod.fst) trees) := rfl

/-- What a checker makes of a raw value it makes of it also where more can be found, and more be
made of what it enters. -/
theorem treeWith_mono : (c : Checker) → (raw : Value) →
    (∀ cls x t, Enters g c raw cls x → enter cls x = some t → enter' cls x = some t) →
    (∀ cls id t, seek cls id = some t → seek' cls id = some t) → ∀ t,
      treeWith g enter seek c raw = some t → treeWith g enter' seek' c raw = some t
  | .scalar _ _ _, _, _, _, _, h => h
  | .shape _ _, _, _, _, _, h => h
  | .date _, _, _, _, _, h => h
  | .reference t eager r, raw, he, hs, _, h => by
    rw [treeWith] at h ⊢
    cases heager : eager.truthy with
    | true =>
      rw [heager, if_pos rfl, fetchTree] at h
      rw [if_pos rfl, fetchTree]
      split at h
      · next hid =>
        obtain ⟨cls, hcls, h⟩ := Option.bind_eq_some_iff.1 h
        rw [if_pos hid, hcls]
        exact hs _ _ _ h
      · next hid =>
        rw [if_neg hid]
        exact h
    | false =>
      rw [heager, if_neg Bool.false_ne_true, enterTree] at h
      rw [if_neg Bool.false_ne_true, enterTree]
      split at h
      · next hn =>
        rw [if_pos hn]
        exact h
      · next hn =>
        obtain ⟨cls, hcls, h⟩ := Option.bind_eq_some_iff.1 h
        rw [if_neg hn, hcls]
        have there := Bool.eq_false_of_not_eq_true hn
        exact he _ _ _ (.reference r heager there (toOption_eq_some_iff.1 hcls)) h
  | .arrayOf e r, raw, he, hs, t, h => by
    rw [treeWith_arrayOf] at h ⊢
    obtain ⟨items, hitems, h⟩ := Option.bind_eq_some_iff.1 h
    obtain ⟨trees, htrees, h⟩ := Option.bind_eq_some_iff.1 h
    rw [hitems, Option.bind_some, mapM_option_mono ?_ htrees]
    · exact h
    · intro x hx u hu
      exact treeWith_mono e x
        (fun cls y t hy => he cls y t (.array r (toOption_eq_some_iff.1 hitems) hx hy)) hs u hu
  | .dictOf e r, raw, he, hs, t, h => by
    rw [treeWith_dictOf] at h ⊢
    obtain ⟨es, hes, h⟩ := Option.bind_eq_some_iff.1 h
    obtain ⟨trees, htrees, h⟩ := Option.bind_eq_some_iff.1 h
    rw [hes, Option.bind_some, mapM_option_mono ?_ htrees]
    · exact h
    · intro x hx u hu
      obtain ⟨q, hq, rfl⟩ := List.mem_map.1 hx
      exact treeWith_mono e q.2
        (fun cls y t hy => he cls y t (.dictionary r (toOption_eq_some_iff.1 hes) hq hy)) hs u hu

/-- What a checker makes of a raw value depends on what it enters and names. -/
theorem treeWith_congr : (c : Checker) → (raw : Value) →
    (∀ cls x, Enters g c raw cls x → enter cls x = enter' cls x) →
    (∀ cls id, Names g c raw cls id → seek cls id = seek' cls id) →
    treeWith g enter seek c raw = treeWith g enter' seek' c raw
  | .scalar _ _ _, _, _, _ | .shape _ _, _, _, _ | .date _, _, _, _ => rfl
  | .reference t e r, raw, henter, hseek => by
    rw [treeWith, treeWith]
    cases he : e.truthy with
    | true =>
      rw [if_pos rfl, if_pos rfl, fetchTree, fetchTree]
      split
      · next named =>
        cases hcls : g.resolve t with
        | error e => rfl
        | ok cls =>
          have there : (identifierIn raw).isNull = false := by
            simpa using (Bool.and_eq_true_iff.1 named).2
          exact hseek cls _ (.reference r he there hcls)
      · rfl
    | false =>
      rw [if_neg Bool.false_ne_true, if_neg Bool.false_ne_true, enterTree, enterTree]
      split
      · rfl
      · next there =>
        cases hcls : g.resolve t with
        | error e => rfl
        | ok cls => exact henter cls raw (.reference r he (Bool.eq_false_of_not_eq_true there) hcls)
  | .arrayOf c r, raw, henter, hseek => by
    rw [treeWith_arrayOf, treeWith_arrayOf]
    cases hitems : itemsOf raw with
    | error e => rfl
    | ok items =>
      have each : ∀ x ∈ items, treeWith g enter seek c x = treeWith g enter' seek' c x :=
        fun x hx => treeWith_congr c x (fun cls y hy => henter cls y (.array r hitems hx hy))
          fun cls id hid => hseek cls id (.array r hitems hx hid)
      rw [Except.toOption, Option.bind_some, Option.bind_some, mapM_congr each]
  | .dictOf c r, raw, henter, hseek => by
    rw [treeWith_dictOf, treeWith_dictOf]
    cases hes : entriesOf [] raw with
    | error e => rfl
    | ok es =>
      have each : ∀ x ∈ es.map Prod.snd, treeWith g enter seek c x = treeWith g enter' seek' c x :=
        List.forall_mem_map.2 fun p hp =>
          treeWith_congr c p.2 (fun cls y hy => henter cls y (.dictionary r hes hp hy))
            fun cls id hid => hseek cls id (.dictionary r hes hp hid)
      rw [Except.toOption, Option.bind_some, Option.bind_some, mapM_congr each]

/-- Where there is a tree of whatever can be entered, there is one of what a checker makes that is
not deferred. -/
theorem exists_treeWith : (c : Checker) → c.deferred = false → (raw : Value) →
    (∀ cls x t, enter cls x = some t → ∃ t', enter' cls x = some t') → ∀ t,
      treeWith g enter seek c raw = some t → ∃ t', treeWith g enter' seek' c raw = some t'
  | .scalar _ _ _, _, _, _, _, h => ⟨_, h⟩
  | .shape _ _, _, _, _, _, h => ⟨_, h⟩
  | .date _, _, _, _, _, h => ⟨_, h⟩
  | .reference t eager r, hd, raw, he, _, h => by
    have lazy : eager.truthy = false := hd
    rw [treeWith, lazy, if_neg Bool.false_ne_true, enterTree] at h ⊢
    split at h
    · next hn =>
      rw [if_pos hn]
      exact ⟨_, rfl⟩
    · next hn =>
      obtain ⟨cls, hcls, h⟩ := Option.bind_eq_some_iff.1 h
      rw [if_neg hn, hcls]
      exact he _ _ _ h
  | .arrayOf e r, hd, raw, he, t, h => by
    rw [treeWith_arrayOf] at h ⊢
    obtain ⟨items, hitems, h⟩ := Option.bind_eq_some_iff.1 h
    obtain ⟨trees, htrees, -⟩ := Option.bind_eq_some_iff.1 h
    have others : ∀ x t, treeWith g enter seek e x = some t →
        ∃ t', treeWith g enter' seek' e x = some t' := fun x => exists_treeWith e hd x he
    obtain ⟨trees', htrees'⟩ := exists_mapM_option htrees fun x _ => others x
    rw [hitems, Option.bind_some, htrees']
    exact ⟨_, rfl⟩
  | .dictOf e r, hd, raw, he, t, h => by
    rw [treeWith_dictOf] at h ⊢
    obtain ⟨es, hes, h⟩ := Option.bind_eq_some_iff.1 h
    obtain ⟨trees, htrees, -⟩ := Option.bind_eq_some_iff.1 h
    have others : ∀ x t, treeWith g enter seek e x = some t →
        ∃ t', treeWith g enter' seek' e x = some t' := fun x => exists_treeWith e hd x he
    obtain ⟨trees', htrees'⟩ := exists_mapM_option htrees fun x _ => others x
    rw [hes, Option.bind_some, htrees']
    exact ⟨_, rfl⟩

/-- What decodes and does not produce entities is a date. -/
theorem exists_date {c : Checker} (hd : c.decodes = true) (hp : c.producesEntity = false) :
    ∃ r, c = .date r := by
  cases c with
  | date r => exact ⟨r, rfl⟩
  | _ =>
    rw [decodes, hp] at hd
    · cases hd
    · intro _ h
      cases h

end

end Checker

/-! ### The trees of constructions and loadings -/

namespace Catalog

variable (g : Catalog)

/-- The tree of a field of an entity that is constructed: the absent value if it is deferred. -/
def builtField (enter : ClassId → Value → Option Tree) (data : Entries) (f : String × Checker) :
    Option Tree :=
  if f.2.deferred then some (.leaf .null)
  else if f.2.decodes then
    Checker.treeWith g enter (fun _ _ => none) f.2 (Entries.getStr data f.1)
  else some (.leaf (Entries.getStr data f.1))

/-- The tree of an entity that is constructed, with at most `fuel` entities one inside the other. -/
def built : Nat → ClassId → Value → Option Tree
  | 0, _, _ => none
  | fuel + 1, cls, raw => do
    let data ← (Construction.entriesOf [] raw).toOption
    let trees ← fieldTrees (builtField g (built fuel) data) (g.schemaOf cls)
    some (.entity cls (Entries.getStr data idField)
      (Construction.asideEntries data (g.schemaOf cls)) trees)

/-- The tree of what is found under an identifier, for a given way to load it. -/
def foundWith (look : Lookups) (load : ClassId → Value → Option Tree) (cls : ClassId) (id : Value) :
    Option Tree :=
  match look cls id with
  | none => some (.leaf .null)
  | some es => load cls (.dict es)

/-- The tree of a field of an entity that is loaded. -/
def loadedField (enter seek : ClassId → Value → Option Tree) (raw : Value) (data : Entries)
    (f : String × Checker) : Option Tree :=
  if f.2.producesEntity then do
    Checker.treeWith g enter seek f.2 (← (Loading.rawField raw f.1).toOption)
  else if f.2.decodes then Checker.treeWith g enter seek f.2 (Entries.getStr data f.1)
  else some (.leaf (Entries.getStr data f.1))

/-- The tree of an entity that is loaded, for given trees of what is entered and of what is looked
up. -/
def loadedWith (enter seek : ClassId → Value → Option Tree) (cls : ClassId) (raw : Value) :
    Option Tree := do
  let data ← (Construction.entriesOf [] raw).toOption
  let trees ← fieldTrees (loadedField g enter seek raw data) (g.schemaOf cls)
  some (.entity cls (Entries.getStr data idField) [] trees)

/-- The tree of an entity that is loaded, with at most `fuel` entities entered one after the
other. -/
def loaded (look : Lookups) : Nat → ClassId → Value → Option Tree
  | 0, _, _ => none
  | fuel + 1, cls, raw => do
    let data ← (Construction.entriesOf [] raw).toOption
    let trees ← fieldTrees (loadedField g (loaded look fuel) (foundWith look (loaded look fuel)) raw
      data) (g.schemaOf cls)
    some (.entity cls (Entries.getStr data idField) [] trees)

/-- The tree of what is constructed for a subject. -/
def builtFor (fuel : Nat) : Subject → Value → Option Tree
  | .entity cls, raw => built g fuel cls raw
  | .decoded c, raw => Checker.treeWith g (built g fuel) (fun _ _ => none) c raw

variable {g} {look : Lookups} {fuel : Nat} {cls : ClassId} {raw : Value} {t : Tree}

/-- What the tree of a construction is made of. -/
theorem built_succ_eq_some : built g (fuel + 1) cls raw = some t ↔
    ∃ data trees, Construction.entriesOf [] raw = .ok data ∧
      fieldTrees (builtField g (built g fuel) data) (g.schemaOf cls) = some trees ∧
      t = .entity cls (Entries.getStr data idField)
        (Construction.asideEntries data (g.schemaOf cls)) trees := by
  rw [built]
  constructor
  · intro h
    obtain ⟨data, hdata, h⟩ := Option.bind_eq_some_iff.1 h
    obtain ⟨trees, htrees, h⟩ := Option.bind_eq_some_iff.1 h
    exact ⟨data, trees, toOption_eq_some_iff.1 hdata, htrees, (Option.some.inj h).symm⟩
  · rintro ⟨data, trees, hdata, htrees, rfl⟩
    rw [hdata, Except.toOption]
    exact congrArg (Option.bind · _) htrees

/-- What the tree of a loading is made of. -/
theorem loaded_succ_eq_some : loaded g look (fuel + 1) cls raw = some t ↔
    ∃ data trees, Construction.entriesOf [] raw = .ok data ∧
      fieldTrees (loadedField g (loaded g look fuel) (foundWith look (loaded g look fuel)) raw data)
        (g.schemaOf cls) = some trees ∧
      t = .entity cls (Entries.getStr data idField) [] trees := by
  rw [loaded]
  constructor
  · intro h
    obtain ⟨data, hdata, h⟩ := Option.bind_eq_some_iff.1 h
    obtain ⟨trees, htrees, h⟩ := Option.bind_eq_some_iff.1 h
    exact ⟨data, trees, toOption_eq_some_iff.1 hdata, htrees, (Option.some.inj h).symm⟩
  · rintro ⟨data, trees, hdata, htrees, rfl⟩
    rw [hdata, Except.toOption]
    exact congrArg (Option.bind · _) htrees

/-- What is loaded is an entity of the class, nothing of which is put aside. -/
theorem entity_of_loaded (ht : loaded g look fuel cls raw = some t) :
    ∃ id fields, t = .entity cls id [] fields := by
  cases fuel with
  | zero => cases ht
  | succ fuel =>
    obtain ⟨_, trees, -, -, rfl⟩ := loaded_succ_eq_some.1 ht
    exact ⟨_, trees, rfl⟩

/-- The raw value of a field that is loaded is the one it is constructed from. -/
theorem eq_getStr_of_rawField {h : Heap} {name : String} {x : Value} {data : Entries}
    (hx : Loading.rawField raw name = .ok x) (hdata : Construction.entriesOf h raw = .ok data) :
    x = Entries.getStr data name := by
  unfold Loading.rawField at hx
  cases hes : raw.entries? with
  | some es =>
    rw [hes] at hx
    cases hx
    rw [Construction.entriesOf, Value.toEntries, hes] at hdata
    split at hdata
    · cases hdata
      rfl
    · next hf =>
      cases hdata
      cases raw <;> simp_all [Value.entries?, Value.truthy]
  | none =>
    rw [hes] at hx
    dsimp only at hx
    split at hx
    · cases hx
    · next hf =>
      cases hx
      rw [Construction.entriesOf, if_neg hf] at hdata
      cases hdata
      rfl

/-- A field of an entity that is loaded, by its raw value. -/
theorem loadedField_eq_some {enter seek : ClassId → Value → Option Tree} {data : Entries}
    {f : String × Checker} {h : Heap} (hdata : Construction.entriesOf h raw = .ok data) :
    loadedField g enter seek raw data f = some t ↔
      (f.2.producesEntity = true →
        Loading.rawField raw f.1 = .ok (Entries.getStr data f.1)) ∧
      if f.2.decodes then Checker.treeWith g enter seek f.2 (Entries.getStr data f.1) = some t
      else t = .leaf (Entries.getStr data f.1) := by
  unfold loadedField
  cases hp : f.2.producesEntity with
  | true =>
    have decodes := Checker.decodes_of_producesEntity hp
    rw [if_pos rfl, if_pos decodes]
    constructor
    · intro h
      obtain ⟨x, hx, h⟩ := Option.bind_eq_some_iff.1 h
      have raw_x := toOption_eq_some_iff.1 hx
      obtain rfl := eq_getStr_of_rawField raw_x hdata
      exact ⟨fun _ => raw_x, h⟩
    · rintro ⟨hx, h⟩
      rw [hx rfl]
      exact h
  | false =>
    rw [if_neg Bool.false_ne_true]
    by_cases hdec : f.2.decodes = true
    · rw [if_pos hdec, if_pos hdec]
      exact ⟨fun h => ⟨nofun, h⟩, fun h => h.2⟩
    · rw [if_neg hdec, if_neg hdec]
      exact ⟨fun h => ⟨nofun, (Option.some.inj h).symm⟩, fun h => congrArg some h.2.symm⟩

/-- A field that does not produce entities is loaded as it is constructed. -/
theorem loadedField_of_plain {enter enter' seek : ClassId → Value → Option Tree} {data : Entries}
    {f : String × Checker} (hp : f.2.producesEntity = false) :
    loadedField g enter seek raw data f = builtField g enter' data f ∧
      ∀ t, builtField g enter' data f = some t → ∃ v, t = .leaf v := by
  have undeferred : f.2.deferred = false := by
    cases hd : f.2.deferred with
    | false => rfl
    | true => exact absurd (Checker.producesEntity_of_deferred _ hd) (by simp [hp])
  rw [loadedField, builtField, hp, undeferred, if_neg Bool.false_ne_true,
    if_neg Bool.false_ne_true]
  by_cases hdec : f.2.decodes = true
  · obtain ⟨r, hr⟩ := Checker.exists_date hdec hp
    rw [if_pos hdec, if_pos hdec, hr]
    refine ⟨rfl, fun t ht => ?_⟩
    obtain ⟨v, -, ht⟩ := Option.bind_eq_some_iff.1 ht
    exact ⟨v, (Option.some.inj ht).symm⟩
  · rw [if_neg hdec, if_neg hdec]
    exact ⟨rfl, fun t ht => ⟨_, (Option.some.inj ht).symm⟩⟩

/-! ### Higher bounds -/

/-- A field is constructed alike where more can be entered. -/
theorem builtField_mono {enter enter' : ClassId → Value → Option Tree} {data : Entries}
    (he : ∀ cls x t, enter cls x = some t → enter' cls x = some t) {f : String × Checker}
    (h : builtField g enter data f = some t) : builtField g enter' data f = some t := by
  unfold builtField at h ⊢
  by_cases hd : f.2.deferred = true
  · rw [if_pos hd] at h ⊢
    exact h
  · rw [if_neg hd] at h ⊢
    by_cases hdec : f.2.decodes = true
    · rw [if_pos hdec] at h ⊢
      exact Checker.treeWith_mono f.2 _ (fun cls x t _ => he cls x t) (fun _ _ _ h => h) t h
    · rw [if_neg hdec] at h ⊢
      exact h

/-- **A higher bound does not change the tree of a construction.** -/
theorem built_mono {fuel fuel' : Nat} (hle : fuel ≤ fuel') (h : built g fuel cls raw = some t) :
    built g fuel' cls raw = some t := by
  induction fuel generalizing fuel' cls raw t with
  | zero => cases h
  | succ fuel ih =>
    obtain ⟨fuel', rfl⟩ : ∃ k, fuel' = k + 1 := ⟨fuel' - 1, by omega⟩
    obtain ⟨data, trees, hdata, htrees, rfl⟩ := built_succ_eq_some.1 h
    refine built_succ_eq_some.2 ⟨data, trees, hdata, fieldTrees_mono ?_ htrees, rfl⟩
    intro f _ u hu
    exact builtField_mono (fun cls x t hx => ih (by omega) hx) hu

/-- A field is loaded alike where more can be found, and more be loaded of what is entered. -/
theorem loadedField_mono {enter enter' seek seek' : ClassId → Value → Option Tree} {data : Entries}
    (hdata : Construction.entriesOf [] raw = .ok data) {f : String × Checker}
    (he : ∀ cls x t, Checker.Enters g f.2 (Entries.getStr data f.1) cls x →
      enter cls x = some t → enter' cls x = some t)
    (hs : ∀ cls id t, seek cls id = some t → seek' cls id = some t)
    (h : loadedField g enter seek raw data f = some t) :
    loadedField g enter' seek' raw data f = some t := by
  rw [loadedField_eq_some hdata] at h ⊢
  refine ⟨h.1, ?_⟩
  by_cases hdec : f.2.decodes = true
  · rw [if_pos hdec] at h ⊢
    exact Checker.treeWith_mono f.2 _ he hs t h.2
  · rw [if_neg hdec] at h ⊢
    exact h.2

/-- What is found stays what it is if it can still be loaded. -/
theorem foundWith_mono {load load' : ClassId → Value → Option Tree} {id : Value}
    (hl : ∀ es, look cls id = some es → ∀ t, load cls (.dict es) = some t →
      load' cls (.dict es) = some t)
    (h : foundWith look load cls id = some t) : foundWith look load' cls id = some t := by
  unfold foundWith at h ⊢
  cases hes : look cls id with
  | none =>
    rw [hes] at h
    exact h
  | some es =>
    rw [hes] at h
    exact hl es hes t h

/-- **A higher bound does not change the tree of a loading.** -/
theorem loaded_mono {fuel fuel' : Nat} (hle : fuel ≤ fuel')
    (h : loaded g look fuel cls raw = some t) : loaded g look fuel' cls raw = some t := by
  induction fuel generalizing fuel' cls raw t with
  | zero => cases h
  | succ fuel ih =>
    obtain ⟨fuel', rfl⟩ : ∃ k, fuel' = k + 1 := ⟨fuel' - 1, by omega⟩
    obtain ⟨data, trees, hdata, htrees, rfl⟩ := loaded_succ_eq_some.1 h
    refine loaded_succ_eq_some.2 ⟨data, trees, hdata, fieldTrees_mono ?_ htrees, rfl⟩
    intro f _ u hu
    exact loadedField_mono hdata (fun cls x t _ hx => ih (by omega) hx)
      (fun cls id t ht => foundWith_mono (fun es _ t ht => ih (by omega) ht) ht) hu

/-! ### What can be loaded can be constructed -/

/-- What can be loaded can be constructed: of what is constructed only the deferred fields are not
loaded, and these are left absent. -/
theorem exists_built_of_loaded (h : loaded g look fuel cls raw = some t) :
    ∃ t', built g fuel cls raw = some t' := by
  induction fuel generalizing cls raw t with
  | zero => cases h
  | succ fuel ih =>
    obtain ⟨data, trees, hdata, htrees, rfl⟩ := loaded_succ_eq_some.1 h
    have fields : ∀ f ∈ g.schemaOf cls, ∃ u, builtField g (built g fuel) data f = some u := by
      intro f hf
      obtain ⟨u, hu⟩ := exists_of_fieldTrees htrees f hf
      obtain ⟨-, hu⟩ := (loadedField_eq_some hdata).1 hu
      unfold builtField
      by_cases hd : f.2.deferred = true
      · exact ⟨_, if_pos hd⟩
      · rw [if_neg hd]
        by_cases hdec : f.2.decodes = true
        · rw [if_pos hdec] at hu ⊢
          exact Checker.exists_treeWith f.2 (Bool.eq_false_of_not_eq_true hd) _
            (fun cls x t hx => ih hx) u hu
        · exact ⟨_, if_neg hdec⟩
    obtain ⟨trees', htrees'⟩ := exists_fieldTrees fields
    exact ⟨_, built_succ_eq_some.2 ⟨data, trees', hdata, htrees', rfl⟩⟩

/-! ### Tame raw values -/

/-- A kind of raw values for which no heap is needed: what is a mapping to one heap is the same
mapping to every other, no payload is an object, and the payloads of eager references carry an
identifier as mappings or carry none.  What they are made of, and what is found by them, is of the
kind again. -/
structure Tame (g : Catalog) (look : Lookups) (kind : Subject → Value → Prop) : Prop where
  data {cls : ClassId} {raw : Value} : kind (.entity cls) raw →
    ∀ h, Construction.entriesOf h raw = Construction.entriesOf [] raw
  field {cls : ClassId} {raw : Value} {es : Entries} : kind (.entity cls) raw →
    Construction.entriesOf [] raw = .ok es → ∀ f ∈ g.schemaOf cls,
      kind (.decoded f.2) (Entries.getStr es f.1)
  items {e : Checker} {r : Bool} {raw : Value} {xs : List Value} :
    e.producesEntity = true → kind (.decoded (.arrayOf e r)) raw →
      Checker.itemsOf raw = .ok xs → ∀ x ∈ xs, kind (.decoded e) x
  mapping {e : Checker} {r : Bool} {raw : Value} : e.producesEntity = true →
    kind (.decoded (.dictOf e r)) raw → ∀ h, Checker.entriesOf h raw = Checker.entriesOf [] raw
  values {e : Checker} {r : Bool} {raw : Value} {es : Entries} :
    e.producesEntity = true → kind (.decoded (.dictOf e r)) raw →
      Checker.entriesOf [] raw = .ok es → ∀ p ∈ es, kind (.decoded e) p.2
  payload {t : Target} {e : Value} {r : Bool} {raw : Value} :
    kind (.decoded (.reference t e r)) raw → e.truthy = false → ∀ a, raw ≠ .object a
  embedded {t : Target} {e : Value} {r : Bool} {raw : Value} {cls : ClassId} :
    kind (.decoded (.reference t e r)) raw → e.truthy = false → raw.isNull = false →
      g.resolve t = .ok cls → kind (.entity cls) raw
  identifier {t : Target} {e : Value} {r : Bool} {raw : Value} :
    kind (.decoded (.reference t e r)) raw → e.truthy = true → ∀ s,
      Checker.payloadId s raw = Checker.identifierIn raw
  written {t : Target} {e : Value} {r : Bool} {raw : Value} :
    kind (.decoded (.reference t e r)) raw → e.truthy = true → ∀ g h,
      ∃ text, Method.write g h (Checker.identifierIn raw) = .ok text
  found {t : Target} {e : Value} {r : Bool} {raw : Value} {cls : ClassId} {es : Entries} :
    kind (.decoded (.reference t e r)) raw → e.truthy = true → g.resolve t = .ok cls →
      look cls (Checker.identifierIn raw) = some es → kind (.entity cls) (.dict es)

end Catalog

end EntitySchema
