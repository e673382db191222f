/-
**What is loaded is in order.**

What is loaded is made of the raw data it is loaded from, of records and of what lookups of classes'
own answer with.  If all of these are in order, so is it, whatever refers to whatever: an entity
that is being filled is under way, so nothing that is loaded for its fields holds it, and when they
are all filled it holds orderly values only.

Main definitions:

* `Session.Tidy` — a session whose records and answers are in order, apart from what is under way;
* `Loading.Filling` — how far the fields of an entity have been loaded.

Main results:

* `Session.Tidy.enter` — what is new may come under way;
* `Loading.Filling.loadFields` — the fields of an entity, one after the other;
* `Loading.yields_loadWithin_orderly`, `Loading.yields_findWith_orderly` — **what is loaded or found
  is in order.**
-/

import EntitySchema.Proofs.Persisting
import EntitySchema.Proofs.Renaming
import EntitySchema.Proofs.Settled

set_option autoImplicit false

namespace EntitySchema

/-- What is found, as a value. -/
def Finding.value : Finding → Value
  | .raw data => data
  | .entity a => .object a

namespace Session

instance : Onward Extends := ⟨.refl, .trans, fun _ now => extends_of_grown List.prefix_rfl now⟩

/-- A session in which every record is in order, and whatever a class's own lookup answers with, and
in which all that is under way is there. -/
structure Tidy (g : Catalog) (underway : Address → Prop) (s : Session) : Prop where
  catalog : s.catalog = g
  bounded : ∀ a, underway a → a < s.heap.length
  records : ∀ r, s.Has r → s.heap.Orderly g underway (.dict r.data)
  answers : ∀ cls owner f id found, g.lookupOf? cls = some (owner, f) → f id = some found →
    s.heap.Orderly g underway found.value

section

variable {g : Catalog} {U : Address → Prop} {s s' : Session}

theorem Tidy.extends (tidy : s.Tidy g U) (later : s.Extends s') : s'.Tidy g U where
  catalog := later.catalog.trans tidy.catalog
  bounded a ha := (tidy.bounded a ha).trans_le later.heap.length_le
  records r hr := (tidy.records r (later.has hr)).mono later.heap
  answers cls owner f id found hf hid := (tidy.answers cls owner f id found hf hid).mono later.heap

/-- **An object that is new may come under way.** -/
theorem Tidy.enter (tidy : s.Tidy g U) (later : s.Extends s') {a : Address}
    (added : s.heap.length ≤ a) (there : a < s'.heap.length) :
    s'.Tidy g fun b => U b ∨ b = a where
  catalog := later.catalog.trans tidy.catalog
  bounded b := by
    rintro (hb | rfl)
    · exact (tidy.bounded b hb).trans_le later.heap.length_le
    · exact there
  records r hr := (tidy.records r (later.has hr)).enter later.heap added
  answers cls owner f id found hf hid :=
    (tidy.answers cls owner f id found hf hid).enter later.heap added

/-- What a store gives of a record in order is in order. -/
theorem Gives.orderly {r : Record} {d : Value} (gives : s.Gives r d s')
    (bounded : ∀ a, U a → a < s.heap.length) (record : s.heap.Orderly g U (.dict r.data)) :
    s.Extends s' ∧ s'.heap.Orderly g U d := by
  cases gives with
  | data => exact ⟨.refl s, record⟩
  | copy =>
    obtain ⟨grown, orderly⟩ := record.copy bounded rfl
    exact ⟨extends_of_grown grown s.now, orderly⟩

end

end Session

namespace Loading

open Session

variable {g : Catalog} {U : Address → Prop} {s s' : Session} {cls : ClassId} {raw v : Value}

/-- **Loading keeps to what is in order.** -/
theorem keeps_orderly (g : Catalog) (U : Address → Prop) :
    Keeps Extends (Tidy g U) (Heap.Orderly g U) where
  kept _ _ later tidy := tidy.extends later
  mono _ _ _ later orderly := orderly.mono later.heap
  inert _ _ := Heap.orderly_of_inert
  items _ _ _ orderly hxs _ hx := orderly.items hxs hx
  entries _ _ _ _ orderly hes := orderly.toEntries hes
  list _ _ := Heap.orderly_list
  dict _ _ := Heap.orderly_dict

/-! ### Fields that are filled -/

/-- How far an entity has been loaded since a session: its cell is there and was added to the heap,
and what it holds so far is in order, as long as it is under way. -/
structure Filling (g : Catalog) (U : Address → Prop) (s : Session) (cls : ClassId) (a : Address)
    (s' : Session) : Prop where
  reached : s.Extends s'
  added : s.heap.length ≤ a
  there : a < s'.heap.length
  cell : ∃ id pending v, Heap.get s'.heap a =
    Cell.ofFields cls id pending (Table.names (g.schemaOf cls)) v
  parts : ∀ p ∈ (Heap.get s'.heap a).attributes, s'.heap.Orderly g (fun b => U b ∨ b = a) p.2

/-- An entity that was constructed of what is in order is about to be filled. -/
theorem filling_ofRaw (hg : g.WellFormed) (tidy : s.Tidy g U) (hraw : s.heap.Orderly g U raw)
    {h : Heap} (made : Construction.ofRaw g cls raw s.heap = .ok (v, h)) :
    ∃ a, v = .object a ∧ Filling g U s cls a { s with heap := h } := by
  obtain ⟨data, h₀, w, -, values, -, grown, bounded, rfl, rfl, started⟩ :=
    Construction.exists_of_ofRaw_eq_ok (Heap.kinds_orderly hg U) hg tidy.bounded hraw made
  have cell : Heap.get (h₀ ++ [Cell.ofFields cls (Entries.getStr data idField)
      (Construction.asideEntries data (g.schemaOf cls)) (Table.names (g.schemaOf cls)) w])
        h₀.length = _ := Heap.get_alloc_self h₀ _
  refine ⟨h₀.length, rfl, extends_of_grown (grown.trans (List.prefix_append ..)) s.now,
    grown.length_le, by simp, ⟨_, _, _, cell⟩, fun p hp => ?_⟩
  rw [cell] at hp
  exact (Heap.orderly_started (fun e he => (values e he).mono grown) started p hp).enter
    (List.prefix_append ..) le_rfl

namespace Filling

variable {a : Address} {s₁ s₂ : Session}

/-- **One more field is filled** with what is in order. -/
theorem settle (hg : g.WellFormed) (filling : Filling g U s cls a s₁) (later : s₁.Extends s₂)
    {name : String} (hname : name ∈ Table.names (g.schemaOf cls)) {x : Value}
    (hx : s₂.heap.Orderly g (fun b => U b ∨ b = a) x) :
    Filling g U s cls a { s₂ with heap := s₂.heap.settle a name x } := by
  have there := filling.there.trans_le later.heap.length_le
  -- what is in order does not hold the entity itself, so it stays so when that is written to
  have spared {w : Value} (orderly : s₂.heap.Orderly g (fun b => U b ∨ b = a) w) :
      (s₂.heap.settle a name x).Orderly g (fun b => U b ∨ b = a) w :=
    orderly.move (fun b hb => Heap.get_settle_of_ne _ (fun heq => (orderly.there b hb).2
      (.inr heq.symm)) _ _) (by simp) fun _ _ => id
  obtain ⟨id, pending, v, cell⟩ := filling.cell
  have parts : ∀ p ∈ (Cell.ofFields cls id pending (Table.names (g.schemaOf cls)) v).attributes,
      s₂.heap.Orderly g (fun b => U b ∨ b = a) p.2 := by
    rw [← cell]
    exact fun p hp => (filling.parts p hp).mono later.heap
  have settled := Heap.get_settle_self hg there
    ((Heap.get_of_extended later.heap filling.there).trans cell) hname x
  refine ⟨(filling.reached.trans later).settle filling.added name x, filling.added,
    by simpa using there,
    ⟨_, _, _, settled⟩, ?_⟩
  rw [settled]
  refine fun p hp => spared (Heap.orderly_ofFields (parts _ (List.mem_cons_self ..)) ?_ ?_ p hp)
  · refine (parts (pendingField, _) (List.mem_cons_of_mem _ (List.mem_cons_self ..))).of_leads ?_
    intro b hb
    cases hb with
    | dictKey he hb => exact .dictKey (List.mem_of_mem_filter he) hb
    | dict he hb => exact .dict (List.mem_of_mem_filter he) hb
  · intro n hn
    split
    · exact hx
    · exact parts (n, v n)
        (List.mem_cons_of_mem _ (List.mem_cons_of_mem _ (List.mem_map_of_mem hn)))

/-- **The fields of an entity are filled one after the other**, each with what is in order. -/
theorem loadFields (hg : g.WellFormed) (tidy : s.Tidy g U) (hraw : s.heap.Orderly g U raw)
    {value : Checker → Value → Action Value}
    (hvalue : ∀ c x s₁, s₁.Tidy g (fun b => U b ∨ b = a) →
      s₁.heap.Orderly g (fun b => U b ∨ b = a) x →
        Yields Extends (Heap.Orderly g fun b => U b ∨ b = a) (value c x) s₁)
    {fs : Schema} (hfs : ∀ f ∈ fs, f ∈ g.schemaOf cls) (filling : Filling g U s cls a s₁)
    {u : Unit} (loaded : outcome (Loading.loadFields value a raw fs) s₁ = (.ok u, s₂)) :
    Filling g U s cls a s₂ := by
  induction fs generalizing s₁ with
  | nil =>
    cases loaded
    exact filling
  | cons f fs ih =>
    obtain ⟨hf, hfs⟩ := List.forall_mem_cons.1 hfs
    rw [Loading.loadFields] at loaded
    split at loaded
    · obtain ⟨x, hx, loaded⟩ := outcome_ofExcept_bind_eq_ok loaded
      obtain ⟨y, s₃, hy, loaded⟩ := outcome_bind_eq_ok loaded
      rw [outcome_bind_ok (outcome_settle a f.1 y s₃)] at loaded
      have entered := tidy.enter filling.reached filling.added filling.there
      have data := hraw.enter filling.reached.heap filling.added
      obtain ⟨later, orderly⟩ := hvalue f.2 x s₁ entered
        ((keeps_orderly g _).rawField data hx) y s₃ hy
      exact ih hfs (filling.settle hg later (List.mem_map_of_mem hf) orderly) loaded
    · exact ih hfs filling loaded

/-- An entity of which all fields are filled is in order. -/
theorem orderly (hg : g.WellFormed) (tidy : s.Tidy g U) (filling : Filling g U s cls a s₁) :
    s₁.heap.Orderly g U (.object a) := by
  obtain ⟨id, pending, v, cell⟩ := filling.cell
  exact Heap.orderly_of_cell hg cell filling.there
    (fun hU => (tidy.bounded a hU).not_ge filling.added) filling.parts

end Filling

/-! ### Entities that are found and loaded -/

/-- What is constructed of what is in order is in order. -/
theorem yields_ofRaw_orderly (hg : g.WellFormed) (tidy : s.Tidy g U)
    (hraw : s.heap.Orderly g U raw) :
    Yields Extends (Heap.Orderly g U) (Session.build (Construction.ofRaw g cls raw)) s := by
  intro v s' built
  obtain ⟨h', made, rfl⟩ := exists_of_outcome_build built
  obtain ⟨a, rfl, filling⟩ := filling_ofRaw hg tidy hraw made
  exact ⟨filling.reached, filling.orderly hg tidy⟩

/-- **What is found is in order**, if what is loaded of records in order is. -/
theorem yields_findWith_orderly (hg : g.WellFormed) {load : ClassId → Value → Action Value}
    (hload : ∀ cls raw s, s.Tidy g U → s.heap.Orderly g U raw →
      Yields Extends (Heap.Orderly g U) (load cls raw) s)
    (cls : ClassId) (id : Value) (tidy : s.Tidy g U) :
    Yields Extends (Heap.Orderly g U) (findWith load cls id) s := by
  have null {h : Heap} : h.Orderly g U .null := Heap.orderly_of_inert Value.inert_null
  obtain rfl := tidy.catalog
  intro v s' found
  rcases findWith_cases found with
    ⟨own, hown, answered⟩ | ⟨s₁, opens, ⟨rfl, rfl⟩ | ⟨r, d, s₂, hr, gives, loaded⟩⟩
  · unfold answer at answered
    have noted : s.Extends { s with lookups := s.lookups ++ [⟨cls, id, s.now⟩] } :=
      ⟨rfl, List.prefix_rfl, fun hr => hr.of_stores (fun _ _ hj => .inl hj) fun _ => rfl⟩
    cases hid : own.2 id with
    | none =>
      rw [hid] at answered
      cases answered
      exact ⟨noted, null⟩
    | some told =>
      have orderly := tidy.answers cls own.1 own.2 id told hown hid
      rw [hid] at answered
      cases told with
      | raw data =>
        dsimp only at answered
        rw [outcome_get_bind] at answered
        obtain ⟨later, found⟩ := yields_ofRaw_orderly hg (tidy.extends noted) orderly v s' answered
        exact ⟨noted.trans later, found⟩
      | entity a =>
        cases answered
        exact ⟨noted, orderly⟩
  · exact ⟨opens.extends, null⟩
  · have opened := tidy.extends opens.extends
    obtain ⟨given, orderly⟩ :=
      gives.orderly opened.bounded ((tidy.records r hr).mono opens.extends.heap)
    obtain ⟨later, found⟩ := hload cls d s₂ (opened.extends given) orderly v s' loaded
    exact ⟨(opens.extends.trans given).trans later, found⟩

/-- **What is loaded of raw data in order is in order**, whatever the bound and whatever is under
way. -/
theorem yields_loadWithin_orderly (hg : g.WellFormed) : ∀ (fuel : Nat) (U : Address → Prop)
    (cls : ClassId) (raw : Value) (s : Session), s.Tidy g U → s.heap.Orderly g U raw →
      Yields Extends (Heap.Orderly g U) (loadWithin fuel cls raw) s
  | 0, _, _, _, s, _, _ => yields_throw _ s
  | fuel + 1, U, cls, raw, s, tidy, hraw => by
    intro v s' loaded
    rw [loadWithin, outcome_get_bind, tidy.catalog] at loaded
    dsimp only at loaded
    obtain ⟨w, s₁, built, loaded⟩ := outcome_bind_eq_ok loaded
    obtain ⟨h', made, rfl⟩ := exists_of_outcome_build built
    obtain ⟨a, rfl, filling⟩ := filling_ofRaw hg tidy hraw made
    dsimp only at loaded
    obtain ⟨u, s₂, fields, loaded⟩ := outcome_bind_eq_ok loaded
    cases loaded
    have within := yields_loadWithin_orderly hg fuel fun b => U b ∨ b = a
    have filled :=
      filling.loadFields hg tidy hraw
        (fun c x s₁ => (keeps_orderly g _).yields_loadWith within
          (fun cls id s tidy => yields_findWith_orderly hg within cls id tidy) c x s₁)
        (fun _ => id) fields
    exact ⟨filled.reached, filled.orderly hg tidy⟩

end Loading

end EntitySchema
