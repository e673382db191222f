/-
**Raw data after fields were given values.**

An entity that was constructed has raw values put aside for its deferred fields, and a field that is
given a value keeps what is put aside for it.  When the entity tells its raw data, a field that was
given something tells the raw form of what it was given last, by identifier where it is deferred,
and what is put aside for it does not show; but a field that was last given nothing tells what is
put aside for it, if there is anything.  A field that was never given a value tells what it told at
the start: a value that does not hold the entity holds only cells that are still what they were.

Main definitions:

* `Heap.Assigned` — **fields of an entity are given values one after the other**;
* `Heap.formOf` — what the raw data of an entity say for a field.

Main results:

* `Heap.kinds_covers` — construction leads out of the heap as little as its raw values do;
* `Heap.Assigned.kept` — what the fields hold does not hold the entity, and no other cell is
  changed;
* `Heap.toRaw_of_assigned` — **the raw data of an entity whose fields were given values.**
-/

import EntitySchema.Proofs.Constructed
import EntitySchema.Proofs.Frames
import EntitySchema.Proofs.Lasting
import EntitySchema.Proofs.SavedRecords

set_option autoImplicit false

namespace EntitySchema

namespace Heap

variable {g : Catalog} {h h' : Heap} {v : Value} {a : Address}

/-! ### What is constructed leads nowhere else -/

/-- A heap that is sound stays so where a cell is added that does not lead out of it. -/
theorem Sound.append (sound : h.Sound) {c : Cell} (hc : ∀ p ∈ c.attributes, h.Covers p.2) :
    Sound (h ++ [c]) := by
  have size : h.length ≤ (h ++ [c]).length := by simp
  intro a p hp
  rcases lt_trichotomy a h.length with ha | rfl | ha
  · rw [get_of_extended (List.prefix_append h [c]) ha] at hp
    exact (sound a p hp).mono size
  · have here : get (h ++ [c]) h.length = c := get_alloc_self h c
    rw [here] at hp
    exact (hc p hp).mono size
  · have none : (get (h ++ [c]) a).attributes = [] :=
      attributes_of_ge (by rw [List.length_append]; exact ha)
    rw [none] at hp
    cases hp

/-- Construction leads out of the heap as little as its raw values do. -/
theorem kinds_covers (g : Catalog) :
    Construction.Kinds g Sound Covers (fun _ => True) Covers where
  monoRaw _ _ _ grown covers := covers.mono grown.length_le
  mono _ _ _ grown covers := covers.mono grown.length_le
  absent _ := covers_of_inert Value.inert_null
  kept _ _ covers := covers
  moment _ m := covers_of_inert (Value.inert_moment m)
  items h raw xs covers hxs x hx a ha := covers a (Value.leadsTo_of_items hxs hx ha)
  entries _ _ _ _ covers hes := covers.toEntries hes
  identifier _ _ _ _ _ _ := trivial
  noIdentifier := trivial
  list h xs parts a ha := by
    cases ha with
    | list hx ha => exact parts _ hx a ha
  dict h es parts a ha := by
    cases ha with
    | dictKey he ha => exact (parts _ he).1 a ha
    | dict he ha => exact (parts _ he).2 a ha
  cell h cls data v sound values _ started := by
    refine ⟨sound.append fun p hp => ?_, fun a ha => ?_⟩
    · have under : ∀ name, h.Covers (Entries.getStr data name) :=
        Entries.getStr_of_forall (covers_of_inert Value.inert_null) values
      simp only [Cell.ofFields, List.mem_cons] at hp
      rcases hp with rfl | rfl | hp
      · exact under idField
      · intro a ha
        cases ha with
        | dictKey he ha =>
          obtain ⟨q, -, rfl⟩ := List.mem_map.1 he
          exact absurd ha (Value.inert_str _ a)
        | dict he ha =>
          obtain ⟨q, hq, rfl⟩ := List.mem_map.1 he
          rw [(Construction.name_of_mem_putAside hq).2] at ha
          exact under _ a ha
      · obtain ⟨name, hname, rfl⟩ := List.mem_map.1 hp
        obtain ⟨f, hf, rfl⟩ := List.mem_map.1 hname
        exact (started f hf).2.2
    · cases ha
      simp

/-! ### What raw data say for a field -/

/-- What the raw data of an entity say for a field. -/
def formOf (g : Catalog) (h : Heap) (a : Address) (f : String × Checker) :
    Except Failure Value := do
  .ok (← Encoding.encodeField g h (Method.toRaw g h) a (.str f.1, .checker f.2)).2

theorem formOf_eq_ok {f : String × Checker} {x : Value} : formOf g h a f = .ok x ↔
    Encoding.encodeField g h (Method.toRaw g h) a (.str f.1, .checker f.2) = .ok (.str f.1, x) := by
  constructor
  · intro told
    obtain ⟨p, hp, told⟩ := bind_eq_ok.1 told
    cases told
    rw [hp, ← Ordinary.fst_of_encodeField hp]
  · intro told
    rw [formOf, told]
    rfl

/-- An entity has raw data where each of its fields has a raw form, and they say just these. -/
theorem Ordinary.toRaw_eq_ok_iff_formOf (hg : g.WellFormed) {cls : ClassId} {id : Value}
    (ho : Ordinary h a cls id) {d : Value} : Method.toRaw g h a = .ok d ↔
      ∃ w, d = .dict (g.rawData cls id w) ∧ ∀ f ∈ g.schemaOf cls, formOf g h a f = .ok (w f.1) := by
  simp only [formOf_eq_ok]
  exact ho.toRaw_eq_ok_iff hg

/-- A field tells what is put aside for it if it holds nothing, and else the raw form of what it
holds. -/
theorem formOf_of_cell (hg : g.WellFormed) {cls : ClassId} {id : Value} {pending : Entries}
    {w : String → Value}
    (hc : get h a = Cell.ofFields cls id pending (Table.names (g.schemaOf cls)) w)
    {f : String × Checker} (hf : f ∈ g.schemaOf cls) : formOf g h a f =
      if (w f.1).isNull then .ok ((Entries.getStr? pending f.1).getD .null)
      else Encoding.encodeWith h (Method.toRaw g h) f.2.deferred (w f.1) := by
  have hname : f.1 ∈ Table.names (g.schemaOf cls) := List.mem_map_of_mem hf
  simp only [formOf, Encoding.encodeField, field_of_cell hg hc hname, Encoding.unloaded,
    objectAttribute?_pending hc, Encoding.pendingAt, Encoding.byId]
  cases hn : (w f.1).isNull with
  | true =>
    rw [Value.eq_null_of_isNull hn]
    cases Entries.getStr? pending f.1 <;> rfl
  | false => cases Encoding.encodeWith h (Method.toRaw g h) f.2.deferred (w f.1) <;> rfl

/-! ### Fields that are given values -/

theorem not_holds_of_inert (hv : v.Inert) : ¬ h.Holds v a := by
  intro held
  obtain ⟨b, hb, -⟩ := held.exists_leads
  exact hv b hb

/-- Fields of an entity are given values one after the other, none of which holds the entity; in
between the heap may grow.  The table has what was given last first. -/
inductive Assigned (g : Catalog) (cls : ClassId) (a : Address) (h : Heap) :
    Table Value → Heap → Prop
  | start : Assigned g cls a h [] h
  | grow {given : Table Value} {h' h'' : Heap} : Assigned g cls a h given h' → h' <+: h'' →
      h''.Sound → Assigned g cls a h given h''
  | assign {given : Table Value} {h' h'' : Heap} {name : String} {v : Value} :
      Assigned g cls a h given h' → name ∈ Table.names (g.schemaOf cls) → h'.Covers v →
      ¬ h'.Holds v a → h'.assign a name v = .ok h'' → Assigned g cls a h ((name, v) :: given) h''

/-- What the fields of an entity hold that were given values: what they were given last, or what
they held at the start. -/
def heldAfter (given : Table Value) (v : String → Value) (name : String) : Value :=
  (Table.get? given name).getD (v name)

/-- A field of an entity can be given any value, and nothing else is changed. -/
theorem assign_field (hg : g.WellFormed) {cls : ClassId} {name : String}
    (hname : name ∈ Table.names (g.schemaOf cls)) (v : Value) :
    h.assign a name v = .ok (put h a name v) := by
  have free : ∀ n ∈ reservedNames, name ≠ n := fun n hn heq =>
    hg.unreserved cls name hname (heq ▸ hn)
  simp only [assign, free "__class__" (by decide), free "__dict__" (by decide),
    free "__weakref__" (by decide), free "id" (by decide), if_false, false_and]

/-- A write to an object does not matter to a value that does not hold it. -/
theorem agrees_put (apart : ¬ h.Holds v a) (name : String) (x : Value) :
    Agrees h (put h a name x) v := by
  intro b hb
  refine get_put_of_ne h ?_ name x
  rintro rfl
  exact apart hb

theorem agrees_of_extended (sound : h.Sound) (covers : h.Covers v) (grown : h <+: h') :
    Agrees h h' v := fun _ hb => get_of_extended grown (hb.lt sound covers)

section

variable {cls : ClassId} {id : Value} {pending : Entries} {w : String → Value} {given : Table Value}

/-- An entity some of whose fields were given values, in a heap whose other cells are what they
were. -/
structure Kept (g : Catalog) (cls : ClassId) (a : Address) (id : Value) (pending : Entries)
    (w : String → Value) (h h' : Heap) : Prop where
  sound : h'.Sound
  there : a < h'.length
  others : ∀ b < h.length, b ≠ a → get h' b = get h b
  size : h.length ≤ h'.length
  cell : get h' a = Cell.ofFields cls id pending (Table.names (g.schemaOf cls)) w
  apart : ∀ name ∈ Table.names (g.schemaOf cls), ¬ h'.Holds (w name) a

namespace Kept

/-- What a field holds does not lead out of the heap. -/
theorem covers (kept : Kept g cls a id pending w h h') {name : String}
    (hname : name ∈ Table.names (g.schemaOf cls)) : h'.Covers (w name) := by
  refine kept.sound a (name, w name) ?_
  rw [kept.cell]
  exact List.mem_cons_of_mem _ (List.mem_cons_of_mem _ (List.mem_map_of_mem hname))

theorem grow (kept : Kept g cls a id pending w h h') {h'' : Heap} (grown : h' <+: h'')
    (sound : h''.Sound) : Kept g cls a id pending w h h'' where
  sound := sound
  there := kept.there.trans_le grown.length_le
  others b hb hne := (get_of_extended grown (hb.trans_le kept.size)).trans (kept.others b hb hne)
  size := kept.size.trans grown.length_le
  cell := (get_of_extended grown kept.there).trans kept.cell
  apart name hname held := kept.apart name hname
    ((agrees_of_extended kept.sound (kept.covers hname) grown).holds held)

theorem assign (hg : g.WellFormed) (kept : Kept g cls a id pending w h h') {name : String}
    (hname : name ∈ Table.names (g.schemaOf cls)) (covers : h'.Covers v) (apart : ¬ h'.Holds v a) :
    Kept g cls a id pending (fun n => if n = name then v else w n) h (put h' a name v) where
  sound b p hp := by
    refine Covers.mono (h := h') ?_ (length_put h' a name v).ge
    by_cases heq : a = b
    · subst heq
      rw [get_put_self h' kept.there, Cell.put] at hp
      rcases Table.mem_put hp with hp | rfl
      · exact kept.sound a p hp
      · exact covers
    · rw [get_put_of_ne h' heq] at hp
      exact kept.sound b p hp
  there := kept.there.trans_eq (length_put h' a name v).symm
  others b hb hne := (get_put_of_ne h' hne.symm name v).trans (kept.others b hb hne)
  size := kept.size.trans_eq (length_put h' a name v).symm
  cell := by
    have free : ∀ n ∈ reservedNames, name ≠ n := fun n hn heq =>
      hg.unreserved cls name hname (heq ▸ hn)
    rw [get_put_self h' kept.there, kept.cell]
    exact Cell.put_field (hg.nodup cls) hname (free idField (by decide))
      (free pendingField (by decide)) v
  apart n hn := by
    split
    · exact fun held => apart ((agrees_put apart name v).holds held)
    · have before := kept.apart n hn
      exact fun held => before ((agrees_put before name v).holds held)

end Kept

/-- **What the fields hold does not hold the entity**, however often they are given values, and all
other cells are what they were. -/
theorem Assigned.kept (hg : g.WellFormed) (kept : Kept g cls a id pending w h h)
    (assigned : Assigned g cls a h given h') :
    Kept g cls a id pending (heldAfter given w) h h' := by
  induction assigned with
  | start => exact kept
  | grow _ grown sound ih => exact ih.grow grown sound
  | @assign given h₁ h₂ name v _ hname covers apart done ih =>
    rw [assign_field hg hname] at done
    cases done
    have held : heldAfter ((name, v) :: given) w =
        fun n => if n = name then v else heldAfter given w n := by
      funext n
      unfold heldAfter
      rw [Table.get?]
      by_cases heq : n = name
      · rw [if_pos heq, if_pos heq.symm]
        rfl
      · rw [if_neg heq, if_neg (Ne.symm heq)]
    rw [held]
    exact ih.assign hg hname covers apart

/-- A field that was never given a value tells what it told at the start. -/
theorem Assigned.formOf_of_none (hg : g.WellFormed) (kept : Kept g cls a id pending w h h)
    (assigned : Assigned g cls a h given h') {f : String × Checker} (hf : f ∈ g.schemaOf cls)
    (none : Table.get? given f.1 = none) : formOf g h' a f = formOf g h a f := by
  have after := assigned.kept hg kept
  have hname : f.1 ∈ Table.names (g.schemaOf cls) := List.mem_map_of_mem hf
  have same : heldAfter given w f.1 = w f.1 := by rw [heldAfter, none]; rfl
  have agrees : Agrees h h' (w f.1) := fun b hb =>
    after.others b (hb.lt kept.sound (kept.covers hname)) fun heq =>
      kept.apart f.1 hname (heq ▸ hb)
  rw [formOf_of_cell hg after.cell hf, formOf_of_cell hg kept.cell hf, same,
    Encoding.encode_of_agrees agrees]

end

/-- An entity that was just constructed: what its fields hold was there before. -/
theorem kept_of_ofRaw (hg : g.WellFormed) {cls : ClassId} {raw : Value} {h₁ : Heap}
    (sound : h.Sound) (covers : h.Covers raw)
    (made : Construction.ofRaw g cls raw h = .ok (.object a, h₁)) :
    ∃ data w, Construction.entriesOf h raw = .ok data ∧
      Kept g cls a (Entries.getStr data idField) (Construction.asideEntries data (g.schemaOf cls)) w
        h₁ h₁ := by
  obtain ⟨data, h₀, w, hdata, values, -, grown, sound₀, heq, rfl, started⟩ :=
    Construction.exists_of_ofRaw_eq_ok (kinds_covers g) hg sound covers made
  cases heq
  obtain ⟨sound₁, -⟩ := (kinds_covers g).cell h₀ cls data w sound₀
    (fun e he => (values e he).mono grown.length_le) trivial started
  refine ⟨data, w, hdata, sound₁, by simp, fun _ _ _ => rfl, le_rfl, get_alloc_self h₀ _,
    fun name hname held => ?_⟩
  -- what was there before the entity does not lead to it
  obtain ⟨f, hf, rfl⟩ := List.mem_map.1 hname
  have covers₀ : Covers h₀ (w f.1) := (started f hf).2.2
  have before := (agrees_of_extended sound₀ covers₀ (List.prefix_append h₀ _)).holds held
  exact lt_irrefl _ (before.lt sound₀ covers₀)

/-- **The raw data of an entity whose fields were given values**: a field that was given a value
tells the raw form of what it was given last, by identifier if it is deferred, unless that is
nothing and a raw value is put aside for the field, which it tells then; a field that was never
given one tells what it told when the entity was constructed. -/
theorem toRaw_of_assigned (hg : g.WellFormed) {cls : ClassId} {raw : Value} {h₁ h₂ : Heap}
    {given : Table Value} (sound : h.Sound) (covers : h.Covers raw)
    (made : Construction.ofRaw g cls raw h = .ok (.object a, h₁))
    (assigned : Assigned g cls a h₁ given h₂) :
    ∃ data, Construction.entriesOf h raw = .ok data ∧
      (∀ d, Method.toRaw g h₁ a = .ok d ↔
        ∃ w, d = .dict (g.rawData cls (Entries.getStr data idField) w) ∧
          ∀ f ∈ g.schemaOf cls, formOf g h₁ a f = .ok (w f.1)) ∧
      (∀ d, Method.toRaw g h₂ a = .ok d ↔
        ∃ w, d = .dict (g.rawData cls (Entries.getStr data idField) w) ∧
          ∀ f ∈ g.schemaOf cls, formOf g h₂ a f = .ok (w f.1)) ∧
      ∀ f ∈ g.schemaOf cls, formOf g h₂ a f =
        match Table.get? given f.1 with
        | none => formOf g h₁ a f
        | some v =>
          if v.isNull && f.2.deferred && !(Entries.getStr data f.1).isNull then
            .ok (Entries.getStr data f.1)
          else Encoding.encodeWith h₂ (Method.toRaw g h₂) f.2.deferred v := by
  obtain ⟨data, w, hdata, kept⟩ := kept_of_ofRaw hg sound covers made
  have after := assigned.kept hg kept
  refine ⟨data, hdata, fun d => (Ordinary.of_cell hg kept.cell).toRaw_eq_ok_iff_formOf hg,
    fun d => (Ordinary.of_cell hg after.cell).toRaw_eq_ok_iff_formOf hg, fun f hf => ?_⟩
  split
  · next none => exact assigned.formOf_of_none hg kept hf none
  · next v last =>
    have held : heldAfter given w f.1 = v := by rw [heldAfter, last]; rfl
    have aside : Entries.getStr? (Construction.asideEntries data (g.schemaOf cls)) f.1 = _ :=
      Construction.getStr?_asideEntries (hg.nodup cls) hf
    rw [formOf_of_cell hg after.cell hf, held, aside]
    cases hn : v.isNull with
    | false => rfl
    | true =>
      obtain rfl := Value.eq_null_of_isNull hn
      simp only [Bool.true_and]
      cases f.2.deferred && !(Entries.getStr data f.1).isNull <;> rfl

/-- A class of writers, and one of letters, whose writers are looked up. -/
def letters : Catalog where
  classes := (Catalog.initial.classes ++ [⟨"Writer", "Writer", [1, 0], [], none, none⟩]) ++
    [⟨"Letter", "Letter", [2, 0],
      [("text", Checker.string), ("author", .reference (.named "Writer") (.bool true) false)],
      none, none⟩]
  names := [("Writer", 1), ("Letter", 2)]

theorem wellFormed_letters : letters.WellFormed := by
  have writers : (⟨Catalog.initial.classes ++ [⟨"Writer", "Writer", [1, 0], [], none, none⟩], []⟩ :
      Catalog).WellFormed := Catalog.wellFormed_initial.append (by decide) (by decide)
  exact writers.append (by decide) (by decide)

/-- A letter by a writer who is not loaded. -/
def rawLetter : Value :=
  .dict [(.str "_id", .str "a"), (.str "text", .str "Hi"),
    (.str "author", .dict [(.str "_id", .str "v")])]

/-- The letter as it is constructed. -/
def letter : Heap :=
  [Cell.ofFields 2 (.str "a") [(.str "author", .dict [(.str "_id", .str "v")])] ["text", "author"]
    fun name => if name = "text" then .str "Hi" else .null]

/-- The letter, and another writer. -/
def letterAndWriter : Heap := letter ++ [.entity 1 (.str "w") [] []]

/-- The letter with another text. -/
def letterWithText : Heap := put letterAndWriter 0 "text" (.str "Ho")

/-- The letter with another text and another writer. -/
def letterWithWriter : Heap := put letterWithText 0 "author" (.object 1)

/-- A letter that is given another text and another writer tells both, the writer by identifier; and
if it is given no writer after that, it tells the one who was not loaded. -/
theorem toRaw_of_assigned_letter :
    Assigned letters 2 0 letter [("author", .object 1), ("text", .str "Ho")] letterWithWriter ∧
    Method.toRaw letters letterWithWriter 0 = .ok (.dict [(.str "_id", .str "a"),
      (.str "text", .str "Ho"), (.str "author", .dict [(.str "_id", .str "w")])]) ∧
    Method.toRaw letters (put letterWithWriter 0 "author" .null) 0 = .ok (.dict
      [(.str "_id", .str "a"), (.str "text", .str "Ho"),
        (.str "author", .dict [(.str "_id", .str "v")])]) := by
  have made : Construction.ofRaw letters 2 rawLetter [] = .ok (.object 0, letter) := rfl
  have sound : Sound [] := sound_of_forall (by decide)
  have covers : Covers [] rawLetter := covers_of_forall (by decide)
  have field : ∀ name ∈ ["text", "author"], name ∈ Table.names (letters.schemaOf 2) := by decide
  have anything := fun h name hname v => assign_field (h := h) (a := 0) wellFormed_letters
    (field name hname) v
  -- the other writer does not hold the letter
  have writer : ∀ b, Holds letterWithText (.object 1) b → b = 1 := by
    intro b hb
    induction hb with
    | direct ha =>
      cases ha
      rfl
    | through _ hp hl ih =>
      subst ih
      have inert : ∀ p ∈ (get letterWithText 1).attributes, p.2.Inert :=
        List.forall_mem_cons.2
          ⟨Value.inert_str _, List.forall_mem_singleton.2 (Value.inert_dict (by simp))⟩
      exact absurd hl (inert _ hp _)
  have withText : Assigned letters 2 0 letter [("text", .str "Ho")] letterWithText :=
    .assign (.grow .start (List.prefix_append letter _) (sound_of_forall (by decide)))
      (field _ (by decide)) (covers_of_inert (Value.inert_str _))
      (not_holds_of_inert (Value.inert_str _)) (anything _ _ (by decide) _)
  have withWriter : Assigned letters 2 0 letter [("author", .object 1), ("text", .str "Ho")]
      letterWithWriter :=
    .assign withText (field _ (by decide)) (covers_of_forall (by decide))
      (fun held => absurd (writer 0 held) (by decide)) (anything _ _ (by decide) _)
  have withNone := withWriter.assign (field "author" (by decide)) (covers_of_inert Value.inert_null)
    (not_holds_of_inert Value.inert_null) (anything _ _ (by decide) _)
  refine ⟨withWriter, ?_, ?_⟩
  · obtain ⟨data, hdata, -, told, forms⟩ :=
      toRaw_of_assigned wellFormed_letters sound covers made withWriter
    cases hdata
    refine (told _).2
      ⟨fun n => if n = "text" then .str "Ho" else .dict [(.str "_id", .str "w")], rfl, ?_⟩
    intro f hf
    rw [forms f hf]
    revert f
    exact List.forall_mem_cons.2 ⟨rfl, List.forall_mem_singleton.2 rfl⟩
  · obtain ⟨data, hdata, -, told, forms⟩ :=
      toRaw_of_assigned wellFormed_letters sound covers made withNone
    cases hdata
    refine (told _).2
      ⟨fun n => if n = "text" then .str "Ho" else .dict [(.str "_id", .str "v")], rfl, ?_⟩
    intro f hf
    rw [forms f hf]
    revert f
    exact List.forall_mem_cons.2 ⟨rfl, List.forall_mem_singleton.2 rfl⟩

end Heap

end EntitySchema
