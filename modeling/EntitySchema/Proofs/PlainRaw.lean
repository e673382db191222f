/-
**When raw data are plain.**

An entity is constructed from raw values that are made of plain data, days, moments and entities by
lists, tuples and dictionaries under texts.  When it tells its raw data, what its fields hold
becomes plain part by part, and so does each entity in them.  But what is put aside for a deferred
field is told as it was given, and so are the keys of a dictionary, which need not be texts where
the dictionary was made of pairs.  So the raw data are plain exactly if, in the entity and in every
entity that its fields lead to, all that is put aside is plain and all dictionaries in the fields
have texts as keys.

The entities that an entity holds were there before it, so what they tell is known before: the
induction is on the address.

Main definitions:

* `Value.MadeOf`, `Value.RawOf` — values, and raw values, made of plain data, days, moments and
  entities;
* `Value.keyed` — whether all dictionaries in a value have texts as keys;
* `Heap.Built` — **entities that were constructed from such raw values, one after the other**;
* `Heap.Leads`, `Heap.Neat` — what the fields of an object lead to, and what makes its raw data
  plain.

Main results:

* `Value.MadeOf.exists_encodeWith` — the raw form of a value, and when it is plain;
* `Heap.kinds_made`, `Heap.Built.ready` — what construction keeps to, and how the entities look
  then;
* `Heap.Built.exists_toRaw` — the raw data of all these entities, and when they are plain;
* `Heap.isPlain_toRaw_iff` — **the raw data of an entity that was constructed.**
-/

import EntitySchema.Proofs.Assigning
import EntitySchema.Proofs.WrittenData
import Mathlib.Logic.Relation

set_option autoImplicit false

namespace EntitySchema

namespace Entries

/-- What is found under a name in a dictionary of pairs is the second of a pair, if it is not
absent. -/
theorem exists_of_getStr?_insertAll {ps : List (Value × Value)} {es : Entries} {name : String}
    {v : Value} (found : getStr? (insertAll es ps) name = some v) :
    getStr? es name = some v ∨ (.str name, v) ∈ ps := by
  induction ps generalizing es with
  | nil => exact .inl found
  | cons e ps ih =>
    obtain ⟨k, w⟩ := e
    have rest : getStr? (insertAll (insert es k w) ps) name = some v := found
    rcases ih rest with found | mem
    · by_cases hk : k = .str name
      · subst hk
        rw [getStr?_insert_self] at found
        cases found
        exact .inr (List.mem_cons_self ..)
      · rw [getStr?_insert_of_ne es hk] at found
        exact .inl found
    · exact .inr (List.mem_cons_of_mem _ mem)

end Entries

/-! ### Values made of some objects -/

namespace Value

/-- Whether a value can be an identifier: it is a text or absent. -/
def isIdentifier : Value → Bool
  | .null | .str _ => true
  | _ => false

/-- Values made of plain data, days, moments and some objects, by lists, tuples and dictionaries. -/
inductive MadeOf (p : Address → Prop) : Value → Prop
  | atom {v : Value} : v.isAtom = true → MadeOf p v
  | date (d : Date) : MadeOf p (.date d)
  | moment (m : Moment) : MadeOf p (.moment m)
  | stamp (m : Moment) : MadeOf p (.stamp m)
  | object {a : Address} : p a → MadeOf p (.object a)
  | list {xs : List Value} : (∀ x ∈ xs, MadeOf p x) → MadeOf p (.list xs)
  | tuple {xs : List Value} : (∀ x ∈ xs, MadeOf p x) → MadeOf p (.tuple xs)
  | dict {es : Entries} : (∀ e ∈ es, MadeOf p e.1) → (∀ e ∈ es, MadeOf p e.2) → MadeOf p (.dict es)

/-- Where the items of a list are pairs, an identifier among them is a text or absent. -/
def Identified (xs : List Value) : Prop :=
  ∀ x ∈ xs, ∀ v, x.items? = some [.str idField, v] → v.isIdentifier = true

/-- Raw values made of plain data, days, moments and some objects, by lists, tuples and dictionaries
under texts; all identifiers in them are texts or absent. -/
inductive RawOf (p : Address → Prop) : Value → Prop
  | atom {v : Value} : v.isAtom = true → RawOf p v
  | date (d : Date) : RawOf p (.date d)
  | moment (m : Moment) : RawOf p (.moment m)
  | stamp (m : Moment) : RawOf p (.stamp m)
  | object {a : Address} : p a → RawOf p (.object a)
  | list {xs : List Value} : (∀ x ∈ xs, RawOf p x) → Identified xs → RawOf p (.list xs)
  | tuple {xs : List Value} : (∀ x ∈ xs, RawOf p x) → Identified xs → RawOf p (.tuple xs)
  | dict {es : Entries} : Entries.textKeyed es = true → (∀ e ∈ es, RawOf p e.2) →
      (Entries.getStr es idField).isIdentifier = true → RawOf p (.dict es)

variable {p q : Address → Prop} {v : Value}

theorem isPlain_of_isIdentifier (h : v.isIdentifier = true) : v.isPlain = true := by
  cases v <;> first | rfl | cases h

theorem MadeOf.mono (made : v.MadeOf p) (hpq : ∀ a, p a → q a) : v.MadeOf q := by
  induction made with
  | atom h => exact .atom h
  | date d => exact .date d
  | moment m => exact .moment m
  | stamp m => exact .stamp m
  | object ha => exact .object (hpq _ ha)
  | list _ ih => exact .list ih
  | tuple _ ih => exact .tuple ih
  | dict _ _ keys values => exact .dict keys values

theorem RawOf.mono (hv : v.RawOf p) (hpq : ∀ a, p a → q a) : v.RawOf q := by
  induction hv with
  | atom h => exact .atom h
  | date d => exact .date d
  | moment m => exact .moment m
  | stamp m => exact .stamp m
  | object ha => exact .object (hpq _ ha)
  | list _ ids ih => exact .list ih ids
  | tuple _ ids ih => exact .tuple ih ids
  | dict keyed _ id ih => exact .dict keyed ih id

theorem RawOf.made (hv : v.RawOf p) : v.MadeOf p := by
  induction hv with
  | atom h => exact .atom h
  | date d => exact .date d
  | moment m => exact .moment m
  | stamp m => exact .stamp m
  | object ha => exact .object ha
  | list _ _ ih => exact .list ih
  | tuple _ _ ih => exact .tuple ih
  | dict keyed _ _ ih =>
    refine .dict (fun e he => ?_) ih
    obtain ⟨name, hname⟩ := Entries.exists_text_of_textKeyed keyed e he
    exact hname ▸ .atom rfl

/-- What a value is made of includes all objects that it leads to. -/
theorem MadeOf.of_leadsTo (made : v.MadeOf p) {a : Address} (ha : v.LeadsTo a) : p a := by
  induction made with
  | atom h =>
    cases ha <;> cases h
  | date | moment | stamp => cases ha
  | object hp =>
    cases ha
    exact hp
  | list _ ih =>
    cases ha with
    | list hx ha => exact ih _ hx ha
  | tuple _ ih =>
    cases ha with
    | tuple hx ha => exact ih _ hx ha
  | dict _ _ keys values =>
    cases ha with
    | dictKey he ha => exact keys _ he ha
    | dict he ha => exact values _ he ha

/-- The items of a raw value are raw values. -/
theorem RawOf.items (hv : v.RawOf p) {xs : List Value} (hxs : v.items? = some xs) :
    ∀ x ∈ xs, x.RawOf p := by
  cases hv with
  | @atom v h =>
    cases v with
    | str s =>
      cases hxs
      exact List.forall_mem_map.2 fun c _ => .atom rfl
    | bytes | list | tuple | set | dict | ordered => cases h
    | _ => cases hxs
  | date | moment | stamp | object => cases hxs
  | list parts _ | tuple parts _ =>
    cases hxs
    exact parts
  | dict keyed _ _ =>
    cases hxs
    refine List.forall_mem_map.2 fun e he => ?_
    obtain ⟨name, hname⟩ := Entries.exists_text_of_textKeyed keyed e he
    exact hname ▸ .atom rfl

/-- The identifier in the entries that a raw value makes is a text or absent. -/
theorem RawOf.identifier (hv : v.RawOf p) {isEntity : Address → Bool} {es : Entries}
    (hes : v.toEntries isEntity = .ok es) : (Entries.getStr es idField).isIdentifier = true := by
  have pairs : ∀ xs, v.items? = some xs → Identified xs → v.entries? = none →
      (Entries.getStr es idField).isIdentifier = true := by
    intro xs hxs ids none
    rcases entries_or_pairs hes with hm | ⟨xs', ps, hxs', hps, rfl⟩
    · rw [none] at hm
      cases hm
    · obtain rfl := Option.some.inj (hxs.symm.trans hxs')
      unfold Entries.getStr
      cases found : Entries.getStr? (Entries.ofPairs ps) idField with
      | none => rfl
      | some w =>
        rcases Entries.exists_of_getStr?_insertAll found with absent | mem
        · cases absent
        · obtain ⟨x, hx, heq⟩ := exists_of_mapM hps mem
          exact ids x hx w (toEntry_eq_ok_iff.1 heq).1
  cases hv with
  | dict _ _ id =>
    cases hes
    exact id
  | list _ ids | tuple _ ids => exact pairs _ rfl ids rfl
  | @atom v h =>
    cases v with
    | str s =>
      -- the characters of a text are no pairs
      refine pairs _ rfl (List.forall_mem_map.2 fun c _ w two => ?_) rfl
      simp [items?] at two
    | bytes | list | tuple | set | dict | ordered => cases h
    | _ => cases hes
  | _ => cases hes

/-! ### Dictionaries with texts as keys -/

mutual

/-- Whether all dictionaries in a value have texts as keys, each once. -/
def keyed : Value → Bool
  | .list xs => keyedItems xs
  | .tuple xs => keyedItems xs
  | .dict es => Entries.textKeyed es && keyedEntries es
  | _ => true
termination_by structural v => v

/-- Whether all dictionaries in the values of a list have texts as keys. -/
def keyedItems : List Value → Bool
  | [] => true
  | x :: xs => keyed x && keyedItems xs
termination_by structural xs => xs

/-- Whether all dictionaries in the values of a dictionary have texts as keys. -/
def keyedEntries : Entries → Bool
  | [] => true
  | (_, v) :: es => keyed v && keyedEntries es
termination_by structural es => es

end

theorem keyedItems_iff {xs : List Value} : keyedItems xs = true ↔ ∀ x ∈ xs, x.keyed = true := by
  induction xs with
  | nil => simp [keyedItems]
  | cons x xs ih => simp [keyedItems, ih]

theorem keyedEntries_iff {es : Entries} : keyedEntries es = true ↔ ∀ e ∈ es, e.2.keyed = true := by
  induction es with
  | nil => simp [keyedEntries]
  | cons e es ih => simp [keyedEntries, ih]

theorem keyed_of_isAtom (h : v.isAtom = true) : v.keyed = true := by
  cases v <;> first | rfl | cases h

theorem keyed_of_isIdentifier (h : v.isIdentifier = true) : v.keyed = true := by
  cases v <;> first | rfl | cases h

end Value

namespace Entries

/-- Whether the keys of a dictionary are texts, each once, is a matter of the keys. -/
theorem textKeyed_congr {es fs : Entries} (same : fs.map Prod.fst = es.map Prod.fst) :
    textKeyed fs = textKeyed es := by
  have keys : ∀ es : Entries, textKeyed es = true ↔ (∀ k ∈ es.map Prod.fst, ∃ name, k = .str name) ∧
      (es.map Prod.fst).Pairwise fun k l => Value.sameKey k l = false := by
    intro es
    rw [textKeyed_iff, Distinct, List.forall_mem_map, List.pairwise_map]
  rw [Bool.eq_iff_iff, keys, keys, same]

end Entries

/-! ### Raw forms -/

namespace Encoding

variable {h : Heap} {visit : Address → Except Failure Value} {byId : Bool} {P : Value → Prop}

theorem exists_encodeItems {xs : List Value} (hx : ∀ x ∈ xs, ∃ y,
    encodeWith h visit byId x = .ok y ∧ (y.isPlain = true ↔ P x)) :
    ∃ ys, encodeItems h visit byId xs = .ok ys ∧
      (Value.plainItems ys = true ↔ ∀ x ∈ xs, P x) := by
  induction xs with
  | nil => exact ⟨[], rfl, by simp [Value.plainItems]⟩
  | cons x xs ih =>
    obtain ⟨⟨y, hy, plain⟩, rest⟩ := List.forall_mem_cons.1 hx
    obtain ⟨ys, hys, plains⟩ := ih rest
    refine ⟨y :: ys, ?_, ?_⟩
    · rw [encodeItems, hy, hys]
      rfl
    · rw [Value.plainItems, Bool.and_eq_true, plain, plains, List.forall_mem_cons]

theorem exists_encodeEntries {es : Entries} (hes : ∀ e ∈ es, ∃ y,
    encodeWith h visit byId e.2 = .ok y ∧ (y.isPlain = true ↔ P e.2)) :
    ∃ fs, encodeEntries h visit byId es = .ok fs ∧ fs.map Prod.fst = es.map Prod.fst ∧
      (Value.plainEntries fs = true ↔ ∀ e ∈ es, P e.2) := by
  induction es with
  | nil => exact ⟨[], rfl, rfl, by simp [Value.plainEntries]⟩
  | cons e es ih =>
    obtain ⟨k, v⟩ := e
    obtain ⟨⟨y, hy, plain⟩, rest⟩ := List.forall_mem_cons.1 hes
    obtain ⟨fs, hfs, keys, plains⟩ := ih rest
    refine ⟨(k, y) :: fs, ?_, ?_, ?_⟩
    · rw [encodeEntries, hy, hfs]
      rfl
    · rw [List.map_cons, List.map_cons, keys]
    · rw [Value.plainEntries, Bool.and_eq_true, plain, plains, List.forall_mem_cons]

end Encoding

namespace Value

variable {h : Heap} {visit : Address → Except Failure Value} {p : Address → Prop} {v : Value}

/-- Whether all dictionaries in a value have texts as keys, and all objects that it leads to have
raw data that are plain. -/
def TellsPlain (visit : Address → Except Failure Value) (v : Value) : Prop :=
  v.keyed = true ∧ ∀ a, v.LeadsTo a → ∀ d, visit a = .ok d → d.isPlain = true

theorem tellsPlain_list_iff {xs : List Value} :
    TellsPlain visit (.list xs) ↔ ∀ x ∈ xs, TellsPlain visit x := by
  rw [TellsPlain, keyed, keyedItems_iff]
  constructor
  · exact fun told x hx => ⟨told.1 x hx, fun a ha => told.2 a (.list hx ha)⟩
  · refine fun told => ⟨fun x hx => (told x hx).1, fun a ha => ?_⟩
    cases ha with
    | list hx ha => exact (told _ hx).2 a ha

theorem tellsPlain_tuple_iff {xs : List Value} :
    TellsPlain visit (.tuple xs) ↔ ∀ x ∈ xs, TellsPlain visit x := by
  rw [TellsPlain, keyed, keyedItems_iff]
  constructor
  · exact fun told x hx => ⟨told.1 x hx, fun a ha => told.2 a (.tuple hx ha)⟩
  · refine fun told => ⟨fun x hx => (told x hx).1, fun a ha => ?_⟩
    cases ha with
    | tuple hx ha => exact (told _ hx).2 a ha

/-- Texts lead to no object, so of a dictionary under texts only the values count. -/
theorem tellsPlain_dict_iff {es : Entries} : TellsPlain visit (.dict es) ↔
    Entries.textKeyed es = true ∧ ∀ e ∈ es, TellsPlain visit e.2 := by
  rw [TellsPlain, keyed, Bool.and_eq_true, keyedEntries_iff]
  constructor
  · exact fun told => ⟨told.1.1, fun e he => ⟨told.1.2 e he, fun a ha => told.2 a (.dict he ha)⟩⟩
  · refine fun told => ⟨⟨told.1, fun e he => (told.2 e he).1⟩, fun a ha => ?_⟩
    cases ha with
    | dictKey he ha =>
      obtain ⟨name, hname⟩ := Entries.exists_text_of_textKeyed told.1 _ he
      rw [hname] at ha
      cases ha
    | dict he ha => exact (told.2 _ he).2 a ha

/-- **The raw form of a value**, where the objects that it leads to are entities and tell their raw
data:  it is plain just where these are and all dictionaries in the value have texts as keys. -/
theorem MadeOf.exists_encodeWith (made : v.MadeOf p)
    (told : ∀ a, p a → Heap.isEntity h a = true ∧ ∃ d, visit a = .ok d) :
    ∃ x, Encoding.encodeWith h visit false v = .ok x ∧
      (x.isPlain = true ↔ TellsPlain visit v) := by
  induction made with
  | @atom v hv =>
    have data : v.IsData := .atom hv
    refine ⟨v, Encoding.encodeWith_of_isData data, iff_of_true (isPlain_of_isAtom hv) ?_⟩
    exact ⟨keyed_of_isAtom hv, fun a ha => absurd ha (data.inert a)⟩
  | date d => exact ⟨_, rfl, iff_of_true rfl ⟨rfl, fun a ha => by cases ha⟩⟩
  | moment m => exact ⟨_, rfl, iff_of_true rfl ⟨rfl, fun a ha => by cases ha⟩⟩
  | stamp m => exact ⟨_, rfl, iff_of_true rfl ⟨rfl, fun a ha => by cases ha⟩⟩
  | @object a ha =>
    obtain ⟨entity, d, hd⟩ := told a ha
    refine ⟨d, by rw [Encoding.encodeWith, if_pos entity]; exact hd, ?_⟩
    constructor
    · refine fun plain => ⟨rfl, fun b hb d' hd' => ?_⟩
      cases hb
      cases hd.symm.trans hd'
      exact plain
    · exact fun all => all.2 a (.object a) d hd
  | list _ ih =>
    obtain ⟨ys, hys, plain⟩ := Encoding.exists_encodeItems ih
    refine ⟨.list ys, by rw [Encoding.encodeWith, hys]; rfl, ?_⟩
    rw [isPlain, plain, tellsPlain_list_iff]
  | tuple _ ih =>
    obtain ⟨ys, hys, plain⟩ := Encoding.exists_encodeItems ih
    refine ⟨.list ys, by rw [Encoding.encodeWith, hys]; rfl, ?_⟩
    rw [isPlain, plain, tellsPlain_tuple_iff]
  | dict _ _ _ ih =>
    obtain ⟨fs, hfs, keys, plain⟩ := Encoding.exists_encodeEntries ih
    refine ⟨.dict fs, by rw [Encoding.encodeWith, hfs]; rfl, ?_⟩
    rw [isPlain, Bool.and_eq_true, plain, tellsPlain_dict_iff, Entries.textKeyed_congr keys]

end Value

/-- Raw data under an identifier are plain if the raw forms of all fields are. -/
theorem isPlain_rawEntries_iff {id : Value} {names : List String} {w : String → Value}
    (hn : names.Nodup) (hid : idField ∉ names) (plain : id.isPlain = true) :
    (Value.dict (rawEntries id names w)).isPlain = true ↔ ∀ n ∈ names, (w n).isPlain = true := by
  rw [Value.isPlain, textKeyed_rawEntries hn hid, Bool.true_and, Value.plainEntries_iff, rawEntries,
    List.forall_mem_append, List.forall_mem_map]
  refine and_iff_right fun e he => ?_
  unfold idEntries at he
  split at he
  · cases he
  · rw [List.mem_singleton.1 he]
    exact plain

/-- What is put aside is the raw values of deferred fields, where there are any. -/
theorem Construction.mem_asideEntries {data : Entries} {fs : Schema} {e : Value × Value} :
    e ∈ asideEntries data fs ↔ ∃ f ∈ fs, f.2.deferred = true ∧
      (Entries.getStr data f.1).isNull = false ∧ e = (.str f.1, Entries.getStr data f.1) := by
  simp only [asideEntries, putAside, List.mem_map, List.mem_filterMap]
  constructor
  · rintro ⟨q, ⟨f, hf, heq⟩, rfl⟩
    split at heq
    · next kept =>
      cases heq
      simp only [Bool.and_eq_true, Bool.not_eq_true'] at kept
      exact ⟨f, hf, kept.1, kept.2, rfl⟩
    · cases heq
  · rintro ⟨f, hf, hd, hn, rfl⟩
    exact ⟨_, ⟨f, hf, by rw [hd, hn]; rfl⟩, rfl⟩

namespace Heap

variable {g : Catalog} {h h' : Heap} {p q : Address → Prop} {a b : Address}

/-! ### Entities as they are constructed -/

/-- An entity as it is constructed from a raw value: its identifier is a text or absent, deferred
fields hold nothing, and the objects that the others hold are among some that were there before. -/
def Ready (g : Catalog) (p : Address → Prop) (h : Heap) (a : Address) : Prop :=
  ∃ cls data v, get h a = Cell.ofFields cls (Entries.getStr data idField)
      (Construction.asideEntries data (g.schemaOf cls)) (Table.names (g.schemaOf cls)) v ∧
    (Entries.getStr data idField).isIdentifier = true ∧
    ∀ f ∈ g.schemaOf cls, (f.2.deferred = true → v f.1 = .null) ∧
      (v f.1).MadeOf fun b => p b ∧ b < a

theorem Ready.of_get (ready : Ready g p h a) (same : get h' a = get h a) : Ready g p h' a := by
  obtain ⟨cls, data, v, hc, hid, fields⟩ := ready
  exact ⟨cls, data, v, same.trans hc, hid, fields⟩

theorem Ready.mono (ready : Ready g p h a) (hpq : ∀ b < a, p b → q b) : Ready g q h a := by
  obtain ⟨cls, data, v, hc, hid, fields⟩ := ready
  exact ⟨cls, data, v, hc, hid, fun f hf =>
    ⟨(fields f hf).1, (fields f hf).2.mono fun b hb => ⟨hpq b hb.2 hb.1, hb.2⟩⟩⟩

/-- Construction keeps to raw values and values made of some entities, if the entities that it adds
are counted among them. -/
theorem kinds_made (g : Catalog) {n : Nat} (hp : ∀ a, n ≤ a → p a) : Construction.Kinds g
    (fun h => n ≤ h.length ∧ ∀ a, p a → a < h.length → Ready g p h a)
    (fun h raw => raw.RawOf fun a => p a ∧ a < h.length) (fun id => id.isIdentifier = true)
    (fun h v => v.MadeOf fun a => p a ∧ a < h.length) where
  monoRaw _ _ _ grown hv := hv.mono fun _ ha => ⟨ha.1, ha.2.trans_le grown.length_le⟩
  mono _ _ _ grown hv := hv.mono fun _ ha => ⟨ha.1, ha.2.trans_le grown.length_le⟩
  absent _ := .atom rfl
  kept _ _ hv := hv.made
  moment _ m := .moment m
  items h raw xs hv hxs := hv.items hxs
  entries h raw es _ hv hes := by
    refine Value.forall_mem_toEntries hes (fun hm e he => ?_) fun xs hxs x hx k w two => ?_
    · cases hv with
      | atom h =>
        cases raw with
        | dict | ordered => cases h
        | _ => cases hm
      | dict keyed values _ =>
        cases hm
        obtain ⟨name, hname⟩ := Entries.exists_text_of_textKeyed keyed e he
        exact ⟨hname ▸ .atom rfl, values e he⟩
      | _ => cases hm
    · have parts := (hv.items hxs x hx).items two
      exact ⟨(parts k (by simp)).made, parts w (by simp)⟩
  identifier h raw es _ hv hes := hv.identifier hes
  noIdentifier := rfl
  list _ _ parts := .list parts
  dict _ _ parts := .dict (fun e he => (parts e he).1) fun e he => (parts e he).2
  cell h cls data v made _ hid started := by
    refine ⟨⟨by simp; omega, fun a ha there => ?_⟩, .object ⟨hp _ made.1, by simp⟩⟩
    rcases Nat.lt_or_eq_of_le (Nat.le_of_lt_succ (by simpa using there)) with before | rfl
    · exact (made.2 a ha before).of_get (get_of_extended (List.prefix_append h _) before)
    · exact ⟨cls, data, v, get_alloc_self h _, hid, fun f hf =>
        ⟨(started f hf).1, (started f hf).2.2⟩⟩

/-- Entities that were constructed from raw values made of such entities, one after the other.  In
between the heap may change, but not these entities. -/
inductive Built (g : Catalog) : Heap → (Address → Prop) → Prop
  | start (h : Heap) : Built g h fun _ => False
  | build {h h' : Heap} {p : Address → Prop} {cls : ClassId} {raw x : Value} : Built g h p →
      raw.RawOf p → Construction.ofRaw g cls raw h = .ok (x, h') →
      Built g h' fun a => p a ∨ (h.length ≤ a ∧ a < h'.length)
  | keep {h h' : Heap} {p : Address → Prop} : Built g h p → h.length ≤ h'.length →
      (∀ a, p a → get h' a = get h a) → Built g h' p

/-- What is constructed from such a raw value is an entity, and all that are there then are as they
are constructed. -/
theorem ready_of_ofRaw (hg : g.WellFormed) (old : ∀ a, p a → a < h.length ∧ Ready g p h a)
    {cls : ClassId} {raw x : Value} (hraw : raw.RawOf p)
    (made : Construction.ofRaw g cls raw h = .ok (x, h')) :
    (∃ a, x = .object a ∧ h.length ≤ a ∧ a < h'.length) ∧
    ∀ a, p a ∨ (h.length ≤ a ∧ a < h'.length) → a < h'.length ∧
      Ready g (fun a => p a ∨ (h.length ≤ a ∧ a < h'.length)) h' a := by
  have kinds := kinds_made g (p := fun a => p a ∨ h.length ≤ a) (n := h.length) fun a => .inr
  have before : ∀ a, p a ∨ h.length ≤ a → a < h.length →
      Ready g (fun a => p a ∨ h.length ≤ a) h a := fun a ha there =>
    (old a (ha.resolve_right (Nat.not_le.2 there))).2.mono fun _ _ => .inl
  obtain ⟨data, h₀, v, -, values, hid, grown, made₀, rfl, rfl, started⟩ :=
    Construction.exists_of_ofRaw_eq_ok kinds hg ⟨le_rfl, before⟩
      (hraw.mono fun a ha => ⟨.inl ha, (old a ha).1⟩) made
  obtain ⟨⟨-, after⟩, -⟩ := kinds.cell h₀ cls data v made₀
    (fun e he => kinds.monoRaw _ _ _ grown (values e he)) hid started
  have size := grown.length_le
  refine ⟨⟨h₀.length, rfl, size, by simp⟩, fun a ha => ?_⟩
  have there : a < (h₀ ++ [Cell.ofFields cls (Entries.getStr data idField)
      (Construction.asideEntries data (g.schemaOf cls)) (Table.names (g.schemaOf cls))
        v]).length := by
    rcases ha with ha | ha
    · exact ((old a ha).1.trans_le size).trans (by simp)
    · exact ha.2
  refine ⟨there, (after a (ha.imp_right And.left) there).mono fun b hb hp => ?_⟩
  exact hp.imp_right fun new => ⟨new, hb.trans there⟩

theorem Built.ready (hg : g.WellFormed) (built : Built g h p) :
    ∀ a, p a → a < h.length ∧ Ready g p h a := by
  induction built with
  | start => exact fun a ha => ha.elim
  | build _ hraw made ih => exact (ready_of_ofRaw hg ih hraw made).2
  | keep _ size same ih =>
    exact fun a ha => ⟨(ih a ha).1.trans_le size, (ih a ha).2.of_get (same a ha)⟩

/-! ### What such entities tell -/

/-- A field of an object leads to another. -/
def Leads (h : Heap) (a b : Address) : Prop :=
  ∃ p ∈ (get h a).attributes, p.1 ≠ pendingField ∧ p.2.LeadsTo b

/-- What is put aside for an object is plain, and all dictionaries in its fields have texts
as keys. -/
structure Neat (h : Heap) (a : Address) : Prop where
  aside : ∀ es, (get h a).own? pendingField = some (.dict es) → ∀ e ∈ es, e.2.isPlain = true
  keyed : ∀ p ∈ (get h a).attributes, p.1 ≠ pendingField → p.2.keyed = true

section

variable {cls : ClassId} {data : Entries} {v : String → Value}
  (hg : g.WellFormed)
  (hc : get h a = Cell.ofFields cls (Entries.getStr data idField)
    (Construction.asideEntries data (g.schemaOf cls)) (Table.names (g.schemaOf cls)) v)

include hg hc

/-- What is not put aside for an entity is its identifier or in a field. -/
theorem forall_attributes_iff {P : Value → Prop} (id : P (Entries.getStr data idField)) :
    (∀ p ∈ (get h a).attributes, p.1 ≠ pendingField → P p.2) ↔
      ∀ f ∈ g.schemaOf cls, P (v f.1) := by
  rw [hc]
  simp only [Cell.ofFields, List.forall_mem_cons, List.forall_mem_map, Table.names]
  constructor
  · exact fun all f hf => all.2.2 f hf fun heq =>
      hg.unreserved cls f.1 (List.mem_map_of_mem hf) (heq ▸ by decide)
  · exact fun all => ⟨fun _ => id, fun absurd => (absurd rfl).elim, fun f hf _ => all f hf⟩

/-- The raw form of a field is plain if what is put aside for it is, or what it holds tells plain
raw data. -/
theorem exists_encodeField (ready : ∀ f ∈ g.schemaOf cls, (f.2.deferred = true → v f.1 = .null) ∧
    (v f.1).MadeOf p)
    (told : ∀ b, p b → isEntity h b = true ∧ ∃ d, Method.toRaw g h b = .ok d)
    {f : String × Checker} (hf : f ∈ g.schemaOf cls) :
    ∃ x, Encoding.encodeField g h (Method.toRaw g h) a (.str f.1, .checker f.2) =
        .ok (.str f.1, x) ∧
      (x.isPlain = true ↔ (f.2.deferred = true → (Entries.getStr data f.1).isPlain = true) ∧
        (v f.1).TellsPlain (Method.toRaw g h)) := by
  have aside : Entries.getStr? (Construction.asideEntries data (g.schemaOf cls)) f.1 = _ :=
    Construction.getStr?_asideEntries (hg.nodup cls) hf
  cases hd : f.2.deferred with
  | true =>
    have absent := (ready f hf).1 hd
    have form : Encoding.encodeWith h (Method.toRaw g h) f.2.deferred (v f.1) = .ok .null := by
      rw [absent]
      rfl
    refine ⟨_, Encoding.encodeField_told hg hc hf form, ?_⟩
    rw [absent, aside, hd]
    have nothing : Value.null.TellsPlain (Method.toRaw g h) :=
      ⟨rfl, fun b hb => absurd hb (Value.inert_null b)⟩
    cases hn : (Entries.getStr data f.1).isNull with
    | true => simp [Value.eq_null_of_isNull hn, nothing, Value.isNull, Value.isPlain]
    | false => simp [nothing, Value.isNull]
  | false =>
    obtain ⟨x, hx, plain⟩ := (ready f hf).2.exists_encodeWith told
    have form : Encoding.encodeWith h (Method.toRaw g h) f.2.deferred (v f.1) = .ok x := by
      rw [hd, hx]
    refine ⟨_, Encoding.encodeField_told hg hc hf form, ?_⟩
    rw [aside, hd, plain.symm]
    simp

variable (hid : (Entries.getStr data idField).isIdentifier = true)

include hid

theorem leads_iff : Leads h a b ↔ ∃ f ∈ g.schemaOf cls, (v f.1).LeadsTo b := by
  have none : ¬ (Entries.getStr data idField).LeadsTo b := by
    generalize Entries.getStr data idField = id at hid
    intro hb
    cases hb <;> cases hid
  have all := forall_attributes_iff hg hc (P := fun v => ¬ v.LeadsTo b) none
  rw [← not_iff_not]
  simp only [Leads, not_exists, not_and]
  exact all

/-- What is put aside for a deferred field is its raw value, unless that is absent, which
is plain. -/
theorem neat_iff : Neat h a ↔
    (∀ f ∈ g.schemaOf cls, f.2.deferred = true → (Entries.getStr data f.1).isPlain = true) ∧
      ∀ f ∈ g.schemaOf cls, (v f.1).keyed = true := by
  have keyed := forall_attributes_iff hg hc (P := fun v => v.keyed = true)
    (Value.keyed_of_isIdentifier hid)
  have own : (get h a).own? pendingField =
      some (.dict (Construction.asideEntries data (g.schemaOf cls))) := by rw [hc]; rfl
  constructor
  · refine fun neat => ⟨fun f hf hd => ?_, keyed.1 neat.keyed⟩
    cases hn : (Entries.getStr data f.1).isNull with
    | true =>
      rw [Value.eq_null_of_isNull hn]
      rfl
    | false => exact neat.aside _ own _ (Construction.mem_asideEntries.2 ⟨f, hf, hd, hn, rfl⟩)
  · refine fun ⟨plain, under⟩ => ⟨fun es hes e he => ?_, keyed.2 under⟩
    cases own.symm.trans hes
    obtain ⟨f, hf, hd, -, rfl⟩ := Construction.mem_asideEntries.1 he
    exact plain f hf hd

end

/-- **Each of these entities has raw data**, and they are plain just where it and all entities that
its fields lead to, and those that their fields lead to, and so on, are neat. -/
theorem Built.exists_toRaw (hg : g.WellFormed) (built : Built g h p) : ∀ a, p a →
    ∃ d, Method.toRaw g h a = .ok d ∧
      (d.isPlain = true ↔ ∀ b, Relation.ReflTransGen (Leads h) a b → Neat h b) := by
  intro a
  -- what the fields hold was there before the entity
  induction a using Nat.strong_induction_on with
  | _ a ih =>
  intro ha
  obtain ⟨-, cls, data, v, hc, hid, fields⟩ := built.ready hg a ha
  have told : ∀ b, p b ∧ b < a → isEntity h b = true ∧ ∃ d, Method.toRaw g h b = .ok d := by
    rintro b ⟨hb, before⟩
    obtain ⟨-, _, _, _, hcb, -⟩ := built.ready hg b hb
    obtain ⟨d, hd, -⟩ := ih b before hb
    exact ⟨isEntity_of_cell hcb, d, hd⟩
  obtain ⟨w, hw⟩ := Catalog.exists_named (hg.nodup cls) fun f hf =>
    exists_encodeField hg hc fields told hf
  refine ⟨_, ((Ordinary.of_cell hg hc).toRaw_eq_ok_iff hg).2 ⟨w, rfl, fun f hf => (hw f hf).1⟩, ?_⟩
  have plain : (Value.dict (g.rawData cls (Entries.getStr data idField) w)).isPlain = true ↔
      ∀ f ∈ g.schemaOf cls, (w f.1).isPlain = true := by
    refine (isPlain_rawEntries_iff (hg.nodup cls) (hg.id_not_mem cls)
      (Value.isPlain_of_isIdentifier hid)).trans ?_
    rw [Table.names, List.forall_mem_map]
  rw [plain]
  constructor
  · intro all b hb
    have each := fun f hf => (hw f hf).2.1 (all f hf)
    rcases hb.cases_head with rfl | ⟨c, hc', hb⟩
    · exact (neat_iff hg hc hid).2 ⟨fun f hf => (each f hf).1, fun f hf => (each f hf).2.1⟩
    · obtain ⟨f, hf, hl⟩ := (leads_iff hg hc hid).1 hc'
      obtain ⟨hpc, before⟩ := (fields f hf).2.of_leadsTo hl
      obtain ⟨d, hd, neat⟩ := ih c before hpc
      exact neat.1 ((each f hf).2.2 c hl d hd) b hb
  · intro all f hf
    obtain ⟨aside, keyed⟩ := (neat_iff hg hc hid).1 (all a .refl)
    refine (hw f hf).2.2 ⟨aside f hf, keyed f hf, fun c hl d hd => ?_⟩
    obtain ⟨hpc, before⟩ := (fields f hf).2.of_leadsTo hl
    obtain ⟨d', hd', neat⟩ := ih c before hpc
    cases hd.symm.trans hd'
    exact neat.2 fun b hb => all b (.head ((leads_iff hg hc hid).2 ⟨f, hf, hl⟩) hb)

/-- **The raw data of an entity that was constructed** from a raw value made of plain data, days,
moments and entities that were constructed likewise: there are some, and they are plain just where,
in the entity and in all entities that its fields lead to, what is put aside is plain and
dictionaries have texts as keys. -/
theorem isPlain_toRaw_iff (hg : g.WellFormed) (built : Built g h p) {cls : ClassId} {raw x : Value}
    (hraw : raw.RawOf p) (made : Construction.ofRaw g cls raw h = .ok (x, h')) :
    ∃ a d, x = .object a ∧ Method.toRaw g h' a = .ok d ∧
      (d.isPlain = true ↔ ∀ b, Relation.ReflTransGen (Leads h') a b → Neat h' b) := by
  obtain ⟨⟨a, rfl, new⟩, -⟩ := ready_of_ofRaw hg (built.ready hg) hraw made
  obtain ⟨d, hd, plain⟩ := (built.build hraw made).exists_toRaw hg a (.inr new)
  exact ⟨a, d, rfl, hd, plain⟩

/-- What is given of a writer who is not loaded, the day of birth among it. -/
def datedWriter : Value :=
  .dict [(.str "_id", .str "v"), (.str "born", .date ⟨2024, 1, 2, by decide⟩)]

/-- A letter by that writer. -/
def rawDatedLetter : Value :=
  .dict [(.str "_id", .str "a"), (.str "text", .str "Hi"), (.str "author", datedWriter)]

/-- The letter as it is constructed. -/
def datedLetter : Heap :=
  [Cell.ofFields 2 (.str "a") [(.str "author", datedWriter)] ["text", "author"]
    fun name => if name = "text" then .str "Hi" else .null]

/-- A letter by a writer who is not loaded has plain raw data, but not where a day is given of the
writer. -/
theorem isPlain_toRaw_letter :
    (∃ d, Method.toRaw letters letter 0 = .ok d ∧ d.isPlain = true) ∧
    ∃ d, Method.toRaw letters datedLetter 0 = .ok d ∧ d.isPlain = false := by
  have text : ∀ s, (Value.str s).RawOf fun _ => False := fun s => .atom rfl
  have built : Built letters [] fun _ => False := .start []
  constructor
  · have writer : (Value.dict [(.str "_id", .str "v")]).RawOf fun _ => False :=
      .dict rfl (List.forall_mem_singleton.2 (text "v")) rfl
    have raw : rawLetter.RawOf fun _ => False :=
      .dict (by decide) (List.forall_mem_cons.2 ⟨text "a", List.forall_mem_cons.2
        ⟨text "Hi", List.forall_mem_singleton.2 writer⟩⟩) rfl
    have made : Construction.ofRaw letters 2 rawLetter [] = .ok (.object 0, letter) := rfl
    obtain ⟨a, d, heq, told, plain⟩ := isPlain_toRaw_iff wellFormed_letters built raw made
    cases heq
    refine ⟨d, told, plain.2 fun b hb => ?_⟩
    -- the fields of the letter lead nowhere
    have atoms : ∀ p ∈ (get letter 0).attributes, p.1 ≠ pendingField → p.2.isAtom = true := by
      decide
    rcases hb.cases_head with rfl | ⟨c, ⟨p, hp, other, leads⟩, -⟩
    · refine ⟨fun es hes e he => ?_, fun p hp other => Value.keyed_of_isAtom (atoms p hp other)⟩
      cases hes
      rw [List.mem_singleton.1 he]
      rfl
    · exact absurd leads ((Value.IsData.atom (atoms p hp other)).inert c)
  · have writer : datedWriter.RawOf fun _ => False :=
      .dict (by decide) (List.forall_mem_cons.2
        ⟨text "v", List.forall_mem_singleton.2 (.date _)⟩) rfl
    have raw : rawDatedLetter.RawOf fun _ => False :=
      .dict (by decide) (List.forall_mem_cons.2 ⟨text "a", List.forall_mem_cons.2
        ⟨text "Hi", List.forall_mem_singleton.2 writer⟩⟩) rfl
    have made : Construction.ofRaw letters 2 rawDatedLetter [] = .ok (.object 0, datedLetter) := rfl
    obtain ⟨a, d, heq, told, plain⟩ := isPlain_toRaw_iff wellFormed_letters built raw made
    cases heq
    refine ⟨d, told, Bool.eq_false_of_not_eq_true fun hd => ?_⟩
    have aside := (plain.1 hd 0 .refl).aside _ rfl _ (List.mem_singleton_self _)
    cases aside

end Heap

end EntitySchema
