/-
**Saved references find what they refer to.**

An entity in an eager field is stored as its identifier alone, and looked up under the kind of the
class that the field is to hold.  It was itself stored under the kind of its own class, which may be
another if its class is built on that one.  Where the two kinds are the same, an entity that is
saved after the one it refers to is found with an entity of the same identifier in that field.

Main definitions:

* `Session.Recorded` — **an entity that has a record**, with its identifier in it.

Main results:

* `Persistence.recorded_of_save` — an entity that was saved has a record;
* `Loading.find_reference` — **an eager field is found with the entity that it referred to.**
-/

import EntitySchema.Proofs.Reloading

set_option autoImplicit false

namespace EntitySchema

theorem Value.Lasts.inert {inFile : Bool} {v : Value} (h : v.Lasts inFile) : v.Inert := by
  cases inFile with
  | false => exact h
  | true => exact (isData_of_isPlain v h).inert

/-- The identifier alone lasts if the identifier does. -/
theorem Value.Lasts.payload {inFile : Bool} {id : Value} (h : id.Lasts inFile) :
    (Value.dict [(.str idField, id)]).Lasts inFile := by
  cases inFile with
  | false => exact inert_dict_iff.2 (List.forall_mem_singleton.2 ⟨inert_str _, h⟩)
  | true =>
    have plain : id.isPlain = true := h
    simp [Lasts, isPlain, plainEntries, Entries.textKeyed, plain]

/-- What a field of an entity holds stays when the entity is identified. -/
theorem Heap.field_identified {g : Catalog} {s : Session} {a : Address} {cls : ClassId} {id : Value}
    (ho : Ordinary s.heap a cls id) {name : String} (hname : name ∉ reservedNames) :
    field g (s.identified a id).heap a name = field g s.heap a name := by
  have free : name ≠ "id" ∧ name ≠ idField ∧ name ≠ "__dict__" := by
    refine ⟨?_, ?_, ?_⟩ <;>
    · rintro rfl
      exact hname (by decide)
  unfold Session.identified
  split
  · rw [field, field, objectAttribute?, objectAttribute?, get_put_self _ ho.there]
    simp only [Cell.put, Cell.own?, Table.get?_put_of_ne _ free.2.1, free.1, free.2.2, if_false]
  · rfl

namespace Session

theorem inert_identifierOf (s : Session) {id : Value} (h : id.Inert) :
    (s.identifierOf id).Inert := by
  unfold identifierOf
  split
  · exact Value.inert_str _
  · exact h

/-- **An entity that has a record.**  It is of a class and has an identifier; and the store keeps a
record under the kind of the class and the text of the identifier, which holds the identifier. -/
structure Recorded (s : Session) (i : StoreId) (a : Address) (cls : ClassId) (id : Value) :
    Prop where
  species : (Heap.get s.heap a).species = .entity cls
  own : (Heap.get s.heap a).own? idField = some id
  there : id.isNull = false
  lasts : id.Lasts (s.inFile i)
  record : ∃ rs ds, s.Keeps i rs ∧
    MemoryStore.get? rs ⟨.text (s.catalog.kindOf cls), id.toText⟩ = some ds ∧
    Entries.getStr ds idField = id

variable {s : Session} {i : StoreId} {x : Address} {d : ClassId} {id : Value}

/-- Identifying an entity leaves one that has an identifier as it is. -/
theorem Recorded.own_identified (h : s.Recorded i x d id) {a : Address} {cls : ClassId}
    {own : Value}
    (ho : Heap.Ordinary s.heap a cls own) :
    (Heap.get (s.identified a own).heap x).species = .entity d ∧
      (Heap.get (s.identified a own).heap x).own? idField = some id := by
  unfold identified
  split
  · next absent =>
    by_cases same : a = x
    · subst same
      cases h.own.symm.trans ho.id
      cases absent.symm.trans h.there
    · rw [Heap.put, Heap.get_write_of_ne _ same]
      exact ⟨h.species, h.own⟩
  · exact ⟨h.species, h.own⟩

end Session

namespace Persistence

open Session

variable {s s' : Session} {i : StoreId} {rs : List Record} {a : Address} {cls : ClassId}
  {id : Value}

/-- An entity that was saved has a record, if its identifier lasts in the store. -/
theorem recorded_of_save (hg : s.catalog.WellFormed) (uses : s.Uses i cls) (keeps : s.Keeps i rs)
    (ho : Heap.Ordinary s.heap a cls id) (lasts : (s.identifierOf id).Lasts (s.inFile i))
    {v : Value}
    (run : outcome (save (.object a)) s = (.ok v, s')) :
    s'.Recorded i a cls (s.identifierOf id) := by
  rcases save_cases hg rfl uses keeps ho with
    ⟨e, s₁, _, hrun, -⟩ | ⟨name, visit, w, ds, s₁, hname, -, -, -, hrun, carried, tended, -⟩
  · cases hrun.symm.trans run
  · obtain rfl : s₁ = s' := congrArg Prod.snd (hrun.symm.trans run)
    have place : s₁.inFile i = s.inFile i :=
      tended.place.trans (inFile_of_stores (s.identified_stores a id))
    have catalog : s₁.catalog = s.catalog :=
      tended.on.catalog.trans (s.identified_on a id).catalog
    have kept := Heap.get_of_extended tended.heap ho.identified.there
    have known : Entries.getStr (s.catalog.rawData cls (s.identifierOf id) w) idField =
        s.identifierOf id := getStr_rawEntries_id (hg.id_not_mem cls)
    rw [Method.toText_of_inert _ _ lasts.inert] at hname
    cases hname
    refine ⟨?_, ?_, s.identifierOf_not_null id, place ▸ lasts, _, ds, tended.keeps, ?_, ?_⟩
    · rw [kept]
      exact ho.identified.species
    · rw [kept]
      exact ho.identified.id
    · rw [catalog]
      exact MemoryStore.get?_put_self _ _
    · exact (carried.same idField (by rw [known]; exact lasts)).trans known

/-- **An entity that was saved with another in an eager field** has a record that refers to the
other by its identifier; and the record of the other is still there, unless the entity was saved
over it with another identifier. -/
theorem reference_of_save (hg : s.catalog.WellFormed) (uses : s.Uses i cls)
    (ho : Heap.Ordinary s.heap a cls id) (hid : id.Inert) {x : Address} {d : ClassId}
    {other : Value}
    (recorded : s.Recorded i x d other) {name : String} {c : Checker}
    (hf : (name, c) ∈ s.catalog.schemaOf cls) (deferred : c.deferred = true)
    (holds : Heap.field s.catalog s.heap a name = .object x)
    (apart : s.catalog.kindOf cls = s.catalog.kindOf d →
      (s.identifierOf id).toText = other.toText → s.identifierOf id = other) {v : Value}
    (run : outcome (save (.object a)) s = (.ok v, s')) (keeps : s'.Keeps i rs) :
    ∃ ds dx, MemoryStore.get? rs
        ⟨.text (s.catalog.kindOf cls), (s.identifierOf id).toText⟩ = some ds ∧
      Entries.getStr ds name = .dict [(.str idField, other)] ∧
      MemoryStore.get? rs ⟨.text (s.catalog.kindOf d), other.toText⟩ = some dx ∧
      Entries.getStr dx idField = other := by
  have hname : name ∈ Table.names (s.catalog.schemaOf cls) := List.mem_map_of_mem hf
  have inert := inert_identifierOf s hid
  obtain ⟨rs₀, dx, keeps₀, there, signed⟩ := recorded.record
  rcases save_cases hg rfl uses keeps₀ ho with
    ⟨e, s₁, _, hrun, -⟩ | ⟨text, visit, w, ds, s₁, htext, -, -, told, hrun, carried, tended, -⟩
  · cases hrun.symm.trans run
  · obtain rfl : s₁ = s' := congrArg Prod.snd (hrun.symm.trans run)
    obtain rfl := tended.keeps.unique keeps
    rw [Method.toText_of_inert _ _ inert] at htext
    cases htext
    -- the raw form of the field is the identifier of the other entity alone
    have form : w name = .dict [(.str idField, other)] := by
      obtain ⟨species, own⟩ := recorded.own_identified ho
      have field := (Heap.field_identified (g := s.catalog) ho
        (hg.unreserved cls name hname)).trans holds
      have isEntity : Heap.isEntity (s.identified a id).heap x = true := by
        rw [Heap.isEntity, species]
      have encoded := told (name, c) hf
      simp only [Encoding.encodeField, Encoding.unloaded, field, Value.isNull, Bool.false_eq_true,
        if_false, Encoding.byId, deferred, ok_bind, Encoding.encodeWith, isEntity, if_true,
        Encoding.identifierOnly, own, Except.ok.injEq, Prod.mk.injEq, true_and] at encoded
      exact encoded.symm
    have payload : Entries.getStr ds name = .dict [(.str idField, other)] := by
      have raw : Entries.getStr (s.catalog.rawData cls (s.identifierOf id) w) name =
          .dict [(.str idField, other)] :=
        (getStr_rawEntries_field hname (hg.id_not_mem cls)).trans form
      exact (carried.same name (by rw [raw]; exact recorded.lasts.payload)).trans raw
    refine ⟨ds, ?_⟩
    by_cases same : (⟨.text (s.catalog.kindOf d), other.toText⟩ : RecordKey) =
        ⟨.text (s.catalog.kindOf cls), (s.identifierOf id).toText⟩
    · obtain ⟨kinds, texts⟩ := RecordKey.mk.inj same
      have equal := apart (Kind.text.inj kinds.symm) texts.symm
      rw [same]
      refine ⟨ds, MemoryStore.get?_put_self _ _, payload, MemoryStore.get?_put_self _ _, ?_⟩
      have known : Entries.getStr (s.catalog.rawData cls (s.identifierOf id) w) idField = other :=
        (getStr_rawEntries_id (hg.id_not_mem cls)).trans equal
      exact (carried.same idField (by rw [known]; exact recorded.lasts)).trans known
    · exact ⟨dx, MemoryStore.get?_put_self _ _, payload,
        (MemoryStore.get?_put_of_ne _ same).trans there, signed⟩

end Persistence

/-! ### Finding -/

/-- What is loaded of a record is an entity with the identifier in the record, and what is decoded
in its fields is what the checkers make of the record. -/
theorem Catalog.exists_of_loaded_dict {g : Catalog} (hg : g.WellFormed) {look : Lookups}
    {fuel : Nat}
    {cls : ClassId} {data : Entries} {t : Tree}
    (ht : g.loaded look fuel cls (.dict data) = some t) :
    ∃ trees less, t = .entity cls (Entries.getStr data idField) [] trees ∧
      ∀ f ∈ g.schemaOf cls, f.2.decodes = true →
        Checker.treeWith g (g.loaded look less) (foundWith look (g.loaded look less)) f.2
          (Entries.getStr data f.1) = some (trees f.1) := by
  cases fuel with
  | zero => cases ht
  | succ fuel =>
    obtain ⟨data', trees, hdata, htrees, rfl⟩ := loaded_succ_eq_some.1 ht
    cases (Construction.entriesOf_dict [] data).symm.trans hdata
    refine ⟨trees, fuel, rfl, fun f hf hdec => ?_⟩
    obtain ⟨-, told⟩ := (loadedField_eq_some hdata).1 (eq_of_fieldTrees (hg.nodup cls) htrees f hf)
    rwa [if_pos hdec] at told

/-- An eager reference to an identifier is loaded with what is found under it. -/
theorem Checker.exists_of_fetchTree {g : Catalog} {seek : ClassId → Value → Option Tree}
    {target : Target} {other : Value} {t : Tree} (there : other.isNull = false)
    (ht : fetchTree g seek target (.dict [(.str idField, other)]) = some t) :
    ∃ w, g.resolve target = .ok w ∧ seek w other = some t := by
  have carried : identifierIn (.dict [(.str idField, other)]) = other := rfl
  rw [fetchTree, carried, there] at ht
  obtain ⟨w, hw, ht⟩ := Option.bind_eq_some_iff.1 ht
  exact ⟨w, toOption_eq_some_iff.1 hw, ht⟩

namespace Loading

open Session

variable {s s₁ s₂ s₃ : Session} {i : StoreId} {rs : List Record} {a : Address} {cls : ClassId}
  {id : Value}

/-- An entity that is saved with another in an eager field, which has a record, is found with an
entity in that field that has the identifier of the other. -/
theorem find_of_recorded (hg : s.catalog.WellFormed) (uses : s.Uses i cls)
    (ho : Heap.Ordinary s.heap a cls id) (hid : id.Inert) {x : Address} {d : ClassId}
    {other : Value}
    (recorded : s.Recorded i x d other) {name : String} {target : Target} {eager : Value} {r : Bool}
    (hf : (name, .reference target eager r) ∈ s.catalog.schemaOf cls) (he : eager.truthy = true)
    (holds : Heap.field s.catalog s.heap a name = .object x)
    (kind : ∀ w, s.catalog.resolve target = .ok w → s.catalog.kindOf w = s.catalog.kindOf d)
    (apart : s.catalog.kindOf cls = s.catalog.kindOf d →
      (s.identifierOf id).toText = other.toText → s.identifierOf id = other) {v : Value}
    (saved : outcome (Persistence.save (.object a)) s = (.ok v, s₁)) (keeps : s₁.Keeps i rs)
    (catalog : s₂.catalog = s.catalog) (draws : s₂.DrawsOn cls i rs)
    (inert : ∀ r ∈ rs, (Value.dict r.data).Inert) {u : Value}
    (found : outcome (find cls (s.identifierOf id)) s₂ = (.ok u, s₃)) :
    ∃ b y w, u = .object b ∧ Heap.field s.catalog s₃.heap b name = .object y ∧
      s.catalog.resolve target = .ok w ∧ (Heap.get s₃.heap y).species = .entity w ∧
      Heap.field s.catalog s₃.heap y "id" = other := by
  obtain ⟨ds, dx, there, payload, thereOther, signed⟩ :=
    Persistence.reference_of_save hg uses ho hid recorded hf he holds apart saved keeps
  have inertId : (s.identifierOf id).Inert := inert_identifierOf s hid
  have hname : name ∈ Table.names (s.catalog.schemaOf cls) := List.mem_map_of_mem hf
  generalize s.catalog = g at *
  have finds := refines_find_of_draws hg inert inertId catalog draws
  rw [found] at finds
  obtain ⟨-, ⟨_, t, ⟨⟩, ht, reads⟩ | ⟨⟨e, ⟨⟩⟩, -⟩⟩ := finds
  replace reads := reads.mono (Heap.only_within_self _ s₃.heap)
  rw [Catalog.foundWith, Catalog.lookIn, there] at ht
  obtain ⟨trees, less, rfl, fields⟩ := Catalog.exists_of_loaded_dict hg ht
  -- the field is loaded with what is found under the identifier of the other
  have field := fields _ hf rfl
  rw [payload, Checker.treeWith, if_pos he] at field
  obtain ⟨w, hw, looked⟩ := Checker.exists_of_fetchTree recorded.there field
  rw [Catalog.foundWith, Catalog.lookIn, kind w hw, thereOther] at looked
  obtain ⟨parts, _, tree, -⟩ := Catalog.exists_of_loaded_dict hg looked
  rw [signed] at tree
  obtain ⟨b, holding, rfl, hc, hv⟩ := reads.exists_cell
  have holds := hv name hname
  rw [tree] at holds
  obtain ⟨y, _, hy, hc', -⟩ := holds.exists_cell
  refine ⟨b, y, w, rfl, (Heap.field_of_cell hg hc hname).trans hy, hw, by rw [hc']; rfl, ?_⟩
  rw [Heap.field, Heap.objectAttribute?, hc']
  rfl

/-- **An eager field is found with the entity that it referred to.**  An entity is saved, and then
another that has it in an eager field, and nothing else is written to the one or to the record that
it has.  If the class of the first has the same kind as the class that the field refers to, and the
second is not saved over the first with another identifier, then, as long as nothing is written
afterwards, the second is found with an entity of that class in its field, which has the identifier
of the first. -/
theorem find_reference {s₀ s₁ s₂ s₃ s₄ s₅ : Session} {x : Address} {d : ClassId} {first : Value}
    (hg₀ : s₀.catalog.WellFormed) (uses₀ : s₀.Uses i d) {rs₀ : List Record}
    (keeps₀ : s₀.Keeps i rs₀)
    (ordinary₀ : Heap.Ordinary s₀.heap x d first)
    (lasts : (s₀.identifierOf first).Lasts (s₀.inFile i)) {v₀ : Value}
    (saved₀ : outcome (Persistence.save (.object x)) s₀ = (.ok v₀, s₁))
    (rests : s₁.Recorded i x d (s₀.identifierOf first) → s₂.Recorded i x d (s₀.identifierOf first))
    (hg : s₂.catalog.WellFormed) (uses : s₂.Uses i cls) (ordinary : Heap.Ordinary s₂.heap a cls id)
    (hid : id.Inert) {name : String} {target : Target} {eager : Value} {r : Bool}
    (hf : (name, .reference target eager r) ∈ s₂.catalog.schemaOf cls) (he : eager.truthy = true)
    (holds : Heap.field s₂.catalog s₂.heap a name = .object x)
    (kind : ∀ w, s₂.catalog.resolve target = .ok w → s₂.catalog.kindOf w = s₂.catalog.kindOf d)
    (apart : s₂.catalog.kindOf cls = s₂.catalog.kindOf d →
      (s₂.identifierOf id).toText = (s₀.identifierOf first).toText →
      s₂.identifierOf id = s₀.identifierOf first) {v : Value}
    (saved : outcome (Persistence.save (.object a)) s₂ = (.ok v, s₃)) (keeps : s₃.Keeps i rs)
    (catalog : s₄.catalog = s₂.catalog) (draws : s₄.DrawsOn cls i rs)
    (inert : ∀ r ∈ rs, (Value.dict r.data).Inert) {u : Value}
    (found : outcome (find cls (s₂.identifierOf id)) s₄ = (.ok u, s₅)) :
    ∃ b y w, u = .object b ∧ Heap.field s₂.catalog s₅.heap b name = .object y ∧
      s₂.catalog.resolve target = .ok w ∧ (Heap.get s₅.heap y).species = .entity w ∧
      Heap.field s₂.catalog s₅.heap y "id" = s₀.identifierOf first :=
  find_of_recorded hg uses ordinary hid
    (rests (Persistence.recorded_of_save hg₀ uses₀ keeps₀ ordinary₀ lasts saved₀)) hf he holds kind
    apart saved keeps catalog draws inert found

/-- A session with an empty store in memory, in which there is a reader without a friend, and an
author whose friend is the reader. -/
def acquainted : Session :=
  { befriended [] with
    heap := [Cell.ofFields 2 (.str "b") [] ["friend"] fun _ => .null,
      Cell.ofFields 1 (.str "a") [] ["friend"] fun _ => .object 0] }

/-- The session after the reader was saved. -/
def oneSaved : Session := (outcome (Persistence.save (.object 0)) acquainted).2

/-- The session after the author was saved, too. -/
def bothSaved : Session := (outcome (Persistence.save (.object 1)) oneSaved).2

/-- What was kept of the two. -/
def bothKept : List Record :=
  [⟨⟨.text "Reader", "b"⟩, [(.str "_id", .str "b"), (.str "friend", .null)]⟩,
    ⟨⟨.text "Author", "a"⟩, friendOf "a" "b"⟩]

/-- The author is found with a friend who has the identifier of the reader. -/
theorem find_reference_bothSaved : ∃ u s' b y w,
    outcome (find 1 (.str "a")) bothSaved = (.ok u, s') ∧ u = .object b ∧
      Heap.field friends s'.heap b "friend" = .object y ∧
      friends.resolve (.named "Reader") = .ok w ∧ (Heap.get s'.heap y).species = .entity w ∧
      Heap.field friends s'.heap y "id" = .str "b" := by
  have saved₀ : outcome (Persistence.save (.object 0)) acquainted = (.ok (.object 0), oneSaved) :=
    rfl
  have saved : outcome (Persistence.save (.object 1)) oneSaved = (.ok (.object 1), bothSaved) := rfl
  have keeps : bothSaved.Keeps 0 bothKept := .memory rfl
  have catalog : bothSaved.catalog = oneSaved.catalog := rfl
  have found : (outcome (find 1 (.str "a")) bothSaved).1.toBool = true := by decide +kernel
  obtain ⟨u, s', hu⟩ := exists_of_toBool found
  have reader : Heap.Ordinary acquainted.heap 0 2 (.str "b") := .of_cell wellFormed_friends (by rfl)
  have author : Heap.Ordinary oneSaved.heap 1 1 (.str "a") := .of_cell wellFormed_friends (by rfl)
  have lasts : (acquainted.identifierOf (.str "b")).Lasts (acquainted.inFile 0) :=
    Value.inert_str "b"
  have inert : ∀ r ∈ bothKept, (Value.dict r.data).Inert := fun r hr =>
    (Value.isData_of_isPlain _ (by revert r; decide)).inert
  obtain ⟨b, y, w, there⟩ := find_reference wellFormed_friends (.assigned rfl) (.memory rfl) reader
    lasts saved₀ id wellFormed_friends (.assigned rfl) author (Value.inert_str "a")
    (List.mem_singleton_self _) rfl rfl (fun w hw => by cases hw; rfl)
    (fun h => absurd h (by decide)) saved keeps catalog (drawsOn_friends rfl keeps) inert hu
  exact ⟨u, s', b, y, w, hu, there⟩

end Loading

end EntitySchema
