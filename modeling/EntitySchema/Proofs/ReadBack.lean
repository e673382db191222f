/-
**What is saved is what is found.**

A *world* is a session together with the entities that were constructed in it and the log of what
was saved and deleted.  In every run of constructions, savings, deletions and look-ups of classes
that share one store, a class finds under an identifier what was last saved under the text of the
identifier and not deleted since, and nothing else.

What is found is equal to what was saved if the store is in memory.  If it is in a file, that is so
exactly if the raw data that were saved are plain: keys of dictionaries that are no texts come back
as texts.

Main definitions:

* `Session.recordOf?` — what an entity is filed as;
* `World`, `Call`, `World.run` — **runs**;
* `Sharing` — classes that can share a store;
* `World.Sound` — the invariant of runs.

Main results:

* `World.Sound.save_cases`, `World.Sound.delete_cases` — what succeeds is in the log;
* `World.Sound.step` — **one call keeps the invariant**;
* `World.found_eq` — **what is found is what was saved, and equal to it just as far as the store
  keeps it.**
-/

import EntitySchema.Proofs.RoundTrip
import EntitySchema.Proofs.Saving

set_option autoImplicit false

namespace EntitySchema

/-- A construction without named arguments. -/
theorem Persistence.outcome_construct (s : Session) (cls : ClassId) (raw : Value) :
    Session.outcome (construct cls (some raw) []) s =
      Session.outcome (Session.build (Construction.ofRaw s.catalog cls raw)) s := by
  have given : Session.outcome (Session.ofExcept (arguments (some raw) [])) s =
      (.ok (raw, []), s) := rfl
  have plain : Construction.ofRawWith s.catalog cls raw [] =
      Construction.ofRaw s.catalog cls raw := rfl
  rw [construct, Session.outcome_bind_ok given]
  dsimp only
  rw [Session.outcome_get_bind, plain]

/-! ### Records of entities -/

/-- What an entity is filed as: its raw data, under its kind and the text of its identifier. -/
def Session.recordOf? (s : Session) (v : Value) : Option Record :=
  match v with
  | .object a =>
    match (Heap.get s.heap a).species, Method.toRaw s.catalog s.heap a with
    | .entity cls, .ok (.dict es) =>
      (Entries.getStr? es idField).bind fun id =>
        match Method.toText s.catalog s.heap id with
        | .ok name => some ⟨⟨.text (s.catalog.kindOf cls), name⟩, es⟩
        | .error _ => none
    | _, _ => none
  | _ => none

section

variable {g : Catalog} {parts : Heap} {s : Session} {cls : ClassId} {a : Address} {id : Value}
  {w : String → Value}

/-- What stands by itself is filed as its raw data, if it has an identifier. -/
theorem Session.recordOf?_eq (hg : g.WellFormed) (hcat : s.catalog = g)
    (undeferred : ∀ f ∈ g.schemaOf cls, f.2.deferred = false) (hp : parts.Within s.heap)
    (hs : Heap.Stands g parts s.heap cls a id w) (hid : id.isNull = false) {name : String}
    (hname : Method.toText g s.heap id = .ok name) :
    s.recordOf? (.object a) = some ⟨⟨.text (g.kindOf cls), name⟩, g.rawData cls id w⟩ := by
  have told : Method.toRaw g s.heap a = .ok (.dict (g.rawData cls id w)) :=
    (hs.shows hp undeferred).toRaw hg
  have entry : Entries.getStr? (g.rawData cls id w) idField = some id := getStr?_rawEntries_id hid
  simp only [recordOf?, hs.species, told, entry, Option.bind_some, hcat, hname]

/-- What stands by itself without an identifier is not filed. -/
theorem Session.recordOf?_of_null (hg : g.WellFormed) (hcat : s.catalog = g)
    (undeferred : ∀ f ∈ g.schemaOf cls, f.2.deferred = false) (hp : parts.Within s.heap)
    (hs : Heap.Stands g parts s.heap cls a id w) (hid : id.isNull = true) :
    s.recordOf? (.object a) = none := by
  have told : Method.toRaw g s.heap a = .ok (.dict (g.rawData cls id w)) :=
    (hs.shows hp undeferred).toRaw hg
  have entry : Entries.getStr? (g.rawData cls id w) idField = none :=
    getStr?_rawEntries_of_null (hg.id_not_mem cls) hid
  simp only [recordOf?, hs.species, hcat, told, entry, Option.bind_none]

end

/-! ### Runs -/

/-- A session, the entities that were constructed in it, and the log of what was saved and
deleted. -/
structure World where
  session : Session
  made : List Value
  log : Log

/-- A call: a construction, a saving or a deletion of what was constructed, or a look-up. -/
inductive Call where
  | construct (cls : ClassId) (raw : Entries)
  | save (k : Nat)
  | delete (k : Nat)
  | find (cls : ClassId) (id : Value)

namespace World

/-- The world after a construction. -/
def construct (w : World) (cls : ClassId) (raw : Entries) : World :=
  match Session.outcome (Persistence.construct cls (some (.dict raw)) []) w.session with
  | (.ok v, s) => { w with session := s, made := w.made ++ [v] }
  | (.error _, s) => { w with session := s }

/-- The world after an entity was saved.  If that succeeds the log has what it is filed as. -/
def save (w : World) (v : Value) : World :=
  match Session.outcome (Persistence.save v) w.session with
  | (.ok _, s) =>
    { w with
      session := s
      log := ((s.recordOf? v).map fun r => .put r.key r.data).toList ++ w.log }
  | (.error _, s) => { w with session := s }

/-- The world after an entity was deleted, or it was found that there is nothing to delete. -/
def delete (w : World) (v : Value) : World :=
  match Session.outcome (Persistence.delete v) w.session with
  | (.ok _, s) =>
    { w with
      session := s
      log := ((s.recordOf? v).map fun r => .delete r.key).toList ++ w.log }
  | (.error _, s) => { w with session := s }

/-- The world after a call. -/
def step (w : World) : Call → World
  | .construct cls raw => w.construct cls raw
  | .save k => (w.made[k]?).elim w w.save
  | .delete k => (w.made[k]?).elim w w.delete
  | .find cls id => { w with session := (Session.outcome (Loading.find cls id) w.session).2 }

/-- The world after calls made one after the other. -/
def run (w : World) (calls : List Call) : World := calls.foldl step w

end World

/-- A call of these classes, which constructs entities of plain data. -/
def Call.Plain (classes : ClassId → Prop) : Call → Prop
  | .construct cls raw => classes cls ∧ (Value.dict raw).isPlain = true
  | .find cls _ => classes cls
  | _ => True

/-- Classes that can share a store: their kinds are distinct, none of them has a lookup of its own,
and no eager reference can be reached from them. -/
structure Sharing (g : Catalog) (classes : ClassId → Prop) : Prop where
  wellFormed : g.WellFormed
  kinds : ∀ c d, classes c → classes d → g.kindOf c = g.kindOf d → c = d
  own : ∀ c, classes c → g.lookupOf? c = none
  free : ∀ c, classes c → g.EagerFree c

theorem Sharing.undeferred {g : Catalog} {classes : ClassId → Prop} (h : Sharing g classes)
    {cls : ClassId} (hcls : classes cls) : ∀ f ∈ g.schemaOf cls, f.2.deferred = false :=
  h.free cls hcls cls .refl

/-! ### The invariant of runs -/

/-- What was saved under a key are the raw data of an entity that still has them. -/
def Saved (g : Catalog) (classes : ClassId → Prop) (parts h : Heap) (made : List Value)
    (key : RecordKey) (es : Entries) : Prop :=
  ∃ cls a id w, classes cls ∧ key.kind = .text (g.kindOf cls) ∧ .object a ∈ made ∧
    Heap.Stands g parts h cls a id w ∧ id.isNull = false ∧ es = g.rawData cls id w

/-- The invariant of runs: the classes use the store, which keeps what is live of the log, and the
entities that were constructed stand by themselves, among them those that were saved. -/
structure World.Sound (g : Catalog) (classes : ClassId → Prop) (i : StoreId) (inFile : Bool)
    (parts : Heap) (w : World) : Prop where
  catalog : w.session.catalog = g
  uses : ∀ cls, classes cls → w.session.Uses i cls
  place : w.session.inFile i = inFile
  keeps : w.session.Keeps i (w.log.onData (Entries.keptIn inFile)).live.reverse
  beside : Heap.Beside g classes parts w.session.heap w.made
  saved : ∀ key es, .put key es ∈ w.log → Saved g classes parts w.session.heap w.made key es

/-! ### What calls keep -/

namespace Heap

variable {g : Catalog} {classes : ClassId → Prop} {parts h : Heap} {made : List Value}

/-- An identifier that is given to one entity leaves those as they are that have one. -/
theorem Stands.identified_other {s : Session} {cls cls' : ClassId} {a a' : Address} {id id' : Value}
    {w w' : String → Value} (hs : Stands g parts s.heap cls a id w)
    (hs' : Stands g parts s.heap cls' a' id' w') (hid : id'.isNull = false) :
    Stands g parts (s.identified a id).heap cls' a' id' w' := by
  unfold Session.identified
  cases hnull : id.isNull with
  | false => exact hs'
  | true =>
    have other : a ≠ a' := by
      rintro rfl
      have same : some id = some id' := hs.objectAttribute?_id.symm.trans hs'.objectAttribute?_id
      cases same
      rw [hnull] at hid
      cases hid
    exact hs'.mono (.refl parts) (by simpa using hs'.there) hs'.apart (get_put_of_ne _ other _ _)

end Heap

namespace World.Sound

open Session

variable {g : Catalog} {classes : ClassId → Prop} {i : StoreId} {inFile : Bool} {parts : Heap}
  {w : World}

/-- An entity that is constructed is one more. -/
theorem construct (hs : Sharing g classes) (h : Sound g classes i inFile parts w) {cls : ClassId}
    (hcls : classes cls) {raw : Entries} (hraw : (Value.dict raw).isPlain = true) :
    ∃ parts', Sound g classes i inFile parts' (w.construct cls raw) := by
  rw [World.construct, Persistence.outcome_construct, h.catalog, build, outcome_get_bind]
  cases hv : Construction.ofRaw g cls (.dict raw) w.session.heap with
  | error e => exact ⟨parts, h.catalog, h.uses, h.place, h.keeps, h.beside, h.saved⟩
  | ok p =>
    obtain ⟨v, h'⟩ := p
    obtain ⟨parts', beside, kept⟩ := h.beside.build hs.wellFormed hcls (hs.undeferred hcls) hraw hv
    have on : w.session.MovesOn { w.session with heap := h' } := ⟨rfl, rfl, rfl, .refl _⟩
    refine ⟨parts', h.catalog, fun c hc => (h.uses c hc).later on, h.place,
      h.keeps.of_stores rfl rfl fun ha => ha, beside, ?_⟩
    intro key es hput
    obtain ⟨c, a, id, x, hc, hkey, hmem, stands, hid, hes⟩ := h.saved key es hput
    exact ⟨c, a, id, x, hc, hkey, List.mem_append_left _ hmem, kept _ _ _ _ stands, hid, hes⟩

/-- An entity that is identified has the others beside it. -/
theorem identified (h : Sound g classes i inFile parts w) {cls : ClassId} (hcls : classes cls)
    {a : Address} {id : Value} {x : String → Value}
    (hs : Heap.Stands g parts w.session.heap cls a id x) :
    Sound g classes i inFile parts { w with session := w.session.identified a id } := by
  have on := w.session.identified_on a id
  refine ⟨on.catalog.trans h.catalog, fun c hc => (h.uses c hc).later on,
    (inFile_of_stores (identified_stores _ a id)).trans h.place,
    h.keeps.of_stores (identified_stores _ a id) (identified_disk _ a id) on.awaited,
    h.beside.identified hcls hs, ?_⟩
  intro key es hput
  obtain ⟨c, b, id', x', hc, hkey, hmem, hs', hid, hes⟩ := h.saved key es hput
  exact ⟨c, b, id', x', hc, hkey, hmem, hs.identified_other hs' hid, hid, hes⟩

/-- The store has come to keep what is live of another log. -/
theorem served (h : Sound g classes i inFile parts w) {s' : Session} {rs : List Record} {log : Log}
    (served : w.session.Served i rs s')
    (live : rs = (log.onData (Entries.keptIn inFile)).live.reverse)
    (saved : ∀ key es, .put key es ∈ log → .put key es ∈ w.log ∨
      Saved g classes parts w.session.heap w.made key es) :
    Sound g classes i inFile parts ⟨s', w.made, log⟩ := by
  refine ⟨served.on.catalog.trans h.catalog, fun c hc => (h.uses c hc).later served.on,
    served.place.trans h.place, live ▸ served.keeps, ?_, ?_⟩
  · show Heap.Beside g classes parts s'.heap w.made
    rw [served.heap]
    exact h.beside
  · intro key es hput
    show Saved g classes parts s'.heap w.made key es
    rw [served.heap]
    exact (saved key es hput).elim (h.saved key es) id

/-- Saving an entity fails and the log stays as it was, or it succeeds and the log has what the
entity is filed as. -/
theorem save_cases (hs : Sharing g classes) (h : Sound g classes i inFile parts w) {v : Value}
    (hv : v ∈ w.made) :
    (∃ e s', Session.outcome (Persistence.save v) w.session = (.error e, s') ∧
      Sound g classes i inFile parts { w with session := s' }) ∨
    ∃ r s', Session.outcome (Persistence.save v) w.session = (.ok v, s') ∧
      s'.recordOf? v = some r ∧
      Sound g classes i inFile parts ⟨s', w.made, .put r.key r.data :: w.log⟩ := by
  obtain ⟨a, cls, id, x, rfl, hcls, stands⟩ := h.beside.stands v hv
  have h₁ := h.identified hcls stands
  rcases Persistence.save_eq hs.wellFormed h.catalog (h.uses cls hcls) h.keeps (hs.undeferred hcls)
    h.beside hcls stands with ⟨e, he⟩ | ⟨name, s', hname, hsave, served⟩
  · exact .inl ⟨e, _, he, h₁⟩
  · have identified := stands.identified
    have known := identifierOf_not_null w.session id
    refine .inr ⟨⟨⟨.text (g.kindOf cls), name⟩, g.rawData cls (w.session.identifierOf id) x⟩, s',
      hsave, ?_, h₁.served served ?_ ?_⟩
    · have within : parts.Within s'.heap := served.heap ▸ h₁.beside.within
      exact recordOf?_eq hs.wellFormed (served.on.catalog.trans h₁.catalog) (hs.undeferred hcls)
        within (served.heap ▸ identified) known (served.heap ▸ hname)
    · rw [h.place, MemoryStore.put_live]
      rfl
    · intro key es hput
      rcases List.mem_cons.1 hput with hput | hput
      · cases hput
        exact .inr ⟨cls, a, _, x, hcls, rfl, hv, identified, known, rfl⟩
      · exact .inl hput

/-- Deleting an entity fails and the log stays as it was, or there is nothing that it is filed as,
or it succeeds and the log has the deletion. -/
theorem delete_cases (hs : Sharing g classes) (h : Sound g classes i inFile parts w) {v : Value}
    (hv : v ∈ w.made) :
    (∃ e, Session.outcome (Persistence.delete v) w.session = (.error e, w.session)) ∨
    (Session.outcome (Persistence.delete v) w.session = (.ok (.bool false), w.session) ∧
      w.session.recordOf? v = none) ∨
    ∃ r s', Session.outcome (Persistence.delete v) w.session =
        (.ok (.bool (w.log.last? r.key).isSome), s') ∧ s'.recordOf? v = some r ∧
      Sound g classes i inFile parts ⟨s', w.made, .delete r.key :: w.log⟩ := by
  obtain ⟨a, cls, id, x, rfl, hcls, stands⟩ := h.beside.stands v hv
  rcases Persistence.delete_eq hs.wellFormed h.catalog (h.uses cls hcls) h.keeps stands with
    ⟨hid, hdel⟩ | ⟨e, he⟩ | ⟨name, s', hid, hname, hdel, served⟩
  · exact .inr (.inl ⟨hdel, recordOf?_of_null hs.wellFormed h.catalog (hs.undeferred hcls)
      h.beside.within stands hid⟩)
  · exact .inl ⟨e, he⟩
  · rw [MemoryStore.delete_live, Log.last?_onData, Option.isSome_map] at hdel
    refine .inr (.inr ⟨⟨⟨.text (g.kindOf cls), name⟩, g.rawData cls id x⟩, s', hdel, ?_,
      h.served served ?_ ?_⟩)
    · have within : parts.Within s'.heap := served.heap ▸ h.beside.within
      exact recordOf?_eq hs.wellFormed (served.on.catalog.trans h.catalog) (hs.undeferred hcls)
        within (served.heap ▸ stands) hid (served.heap ▸ hname)
    · rw [MemoryStore.delete_live]
      rfl
    · intro key es hput
      rcases List.mem_cons.1 hput with hput | hput
      · cases hput
      · exact .inl hput

theorem save (hs : Sharing g classes) (h : Sound g classes i inFile parts w) {v : Value}
    (hv : v ∈ w.made) : Sound g classes i inFile parts (w.save v) := by
  rw [World.save]
  rcases h.save_cases hs hv with ⟨e, s', he, sound⟩ | ⟨r, s', hsave, filed, sound⟩
  · rw [he]
    exact sound
  · rw [hsave]
    simp only [filed, Option.map_some, Option.toList_some, List.singleton_append]
    exact sound

theorem delete (hs : Sharing g classes) (h : Sound g classes i inFile parts w) {v : Value}
    (hv : v ∈ w.made) : Sound g classes i inFile parts (w.delete v) := by
  rw [World.delete]
  rcases h.delete_cases hs hv with ⟨e, he⟩ | ⟨hdel, filed⟩ | ⟨r, s', hdel, filed, sound⟩
  · rw [he]
    exact h
  · rw [hdel]
    simp only [filed, Option.map_none, Option.toList_none, List.nil_append]
    exact h
  · rw [hdel]
    simp only [filed, Option.map_some, Option.toList_some, List.singleton_append]
    exact sound

/-- What the store keeps are data, in normal form for the class whose kind it is kept under. -/
theorem rows (hs : Sharing g classes) (h : Sound g classes i inFile parts w) {r : Record}
    (hr : r ∈ (w.log.onData (Entries.keptIn inFile)).live.reverse) :
    (Value.dict r.data).IsData ∧ ∀ cls, classes cls → r.key.kind = .text (g.kindOf cls) →
      g.Normal (.entity cls) (.dict r.data) (.dict r.data) := by
  obtain ⟨es, hput, heq⟩ := Log.exists_put_of_mem_live _ (List.mem_reverse.1 hr)
  obtain ⟨cls', a, id, x, hcls', hkind', -, stands, -, rfl⟩ := h.saved _ _ hput
  have data := stands.isData hs.wellFormed
  rw [heq]
  refine ⟨Entries.isData_keptIn data inFile, ?_⟩
  intro cls hcls hkind
  -- no other class has this kind
  obtain rfl : cls = cls' := hs.kinds cls cls' hcls hcls'
    (Kind.text.inj (hkind.symm.trans hkind'))
  exact Entries.normal_keptIn data hs.wellFormed (stands.normal_rawData hs.wellFormed) inFile

/-- What is found is what the store keeps of what was saved last. -/
theorem find (hs : Sharing g classes) (h : Sound g classes i inFile parts w) {cls : ClassId}
    (hcls : classes cls) {id : Value} {name : String}
    (hname : Method.toText g w.session.heap id = .ok name) :
    ∃ v s', Session.outcome (Loading.find cls id) w.session = (.ok v, s') ∧
      Sound g classes i inFile parts { w with session := s' } ∧
      match w.log.last? ⟨.text (g.kindOf cls), name⟩ with
      | none => v = .null
      | some es => Heap.Shows g s'.heap (.entity cls) v (.dict (es.keptIn inFile)) := by
  obtain ⟨v, s', hv, kept, shown⟩ := Loading.find_eq hs.wellFormed h.catalog (h.uses cls hcls)
    (hs.own cls hcls) (hs.free cls hcls) h.keeps (fun r hr => (h.rows hs hr).1)
    (fun r hr => (h.rows hs hr).2 cls hcls) hname
  refine ⟨v, s', hv, ⟨kept.on.catalog.trans h.catalog, fun c hc => (h.uses c hc).later kept.on,
    kept.place.trans h.place, kept.keeps, h.beside.grow kept.heap, ?_⟩, ?_⟩
  · intro key es hput
    obtain ⟨c, a, id', x, hc, hkey, hmem, stands, hid, hes⟩ := h.saved key es hput
    exact ⟨c, a, id', x, hc, hkey, hmem, stands.grow kept.heap, hid, hes⟩
  · rw [MemoryStore.get?_live, Log.last?_onData] at shown
    cases hlast : w.log.last? ⟨.text (g.kindOf cls), name⟩ with
    | none =>
      rw [hlast] at shown
      exact shown
    | some es =>
      rw [hlast] at shown
      exact shown

/-- **One call keeps the invariant.** -/
theorem step (hs : Sharing g classes) (h : Sound g classes i inFile parts w) {c : Call}
    (hc : c.Plain classes) : ∃ parts', Sound g classes i inFile parts' (w.step c) := by
  cases c with
  | construct cls raw => exact h.construct hs hc.1 hc.2
  | save k =>
    rw [World.step]
    cases hk : w.made[k]? with
    | none => exact ⟨parts, h⟩
    | some v => exact ⟨parts, h.save hs (List.mem_of_getElem? hk)⟩
  | delete k =>
    rw [World.step]
    cases hk : w.made[k]? with
    | none => exact ⟨parts, h⟩
    | some v => exact ⟨parts, h.delete hs (List.mem_of_getElem? hk)⟩
  | find cls id =>
    rw [World.step]
    cases hname : Method.toText g w.session.heap id with
    | error e =>
      have textless : Method.toText w.session.catalog w.session.heap id = .error e := by
        rw [h.catalog, hname]
      rw [Loading.find_of_text_error (h.uses cls hc) (h.catalog ▸ hs.own cls hc) textless]
      exact ⟨parts, h⟩
    | ok name =>
      obtain ⟨v, s', hv, sound, -⟩ := h.find hs hc hname
      rw [hv]
      exact ⟨parts, sound⟩

/-- Calls made one after the other keep the invariant. -/
theorem run (hs : Sharing g classes) (h : Sound g classes i inFile parts w) {calls : List Call}
    (hcalls : ∀ c ∈ calls, c.Plain classes) :
    ∃ parts', Sound g classes i inFile parts' (w.run calls) := by
  induction calls generalizing w parts with
  | nil => exact ⟨parts, h⟩
  | cons c calls ih =>
    obtain ⟨hc, hrest⟩ := List.forall_mem_cons.1 hcalls
    obtain ⟨parts', h'⟩ := h.step hs hc
    exact ih h' hrest

/-- At the start nothing was constructed and nothing is kept. -/
theorem start {s : Session} (hcat : s.catalog = g) (uses : ∀ cls, classes cls → s.Uses i cls)
    (empty : s.Keeps i []) : Sound g classes i (s.inFile i) [] ⟨s, [], []⟩ := by
  refine ⟨hcat, uses, rfl, empty, ⟨?_, ?_⟩, ?_⟩
  · exact fun _ hb => nomatch hb
  · exact fun _ hv => nomatch hv
  · exact fun _ _ hput => nomatch hput

end World.Sound

/-! ### What is found -/

/-- An entity of a class that tells raw data. -/
structure Session.Tells (s : Session) (cls : ClassId) (a : Address) (es : Entries) : Prop where
  species : (Heap.get s.heap a).species = .entity cls
  raw : Method.toRaw s.catalog s.heap a = .ok (.dict es)

/-- What tells what a store keeps of data equals what tells the data if the store is in memory, and
else exactly if the data are plain. -/
theorem Session.Tells.equal_eq {s : Session} {cls : ClassId} {a b : Address} {es : Entries}
    {inFile : Bool} (ha : s.Tells cls a (es.keptIn inFile)) (hb : s.Tells cls b es)
    (hes : (Value.dict es).IsData) : Method.equal s.catalog s.heap (.object a) (.object b) =
      .ok (!inFile || (Value.dict es).isPlain) := by
  refine Method.equal_eq_of_toRaw ha.species hb.species ha.raw hb.raw ?_
  intro ask
  cases inFile with
  | false => exact Value.sameWith_self_of_isData hes
  | true => exact Value.sameWith_written hes (Entries.written_keptIn hes)

namespace World

variable {g : Catalog} {classes : ClassId → Prop} {i : StoreId}

/-- **What is found is what was saved**: after every run of classes that share a store, a class
finds under an identifier nothing if nothing was saved under its kind and the text of the
identifier, or what was saved last is deleted, and else an entity of the class.  Changes under other
keys have no part in that.  An entity that was saved still tells what was saved, and what is found
equals every entity that tells it if the store is in memory, and exactly if the raw data are plain
if it is in a file. -/
theorem found_eq (hs : Sharing g classes) {s : Session} (hcat : s.catalog = g)
    (uses : ∀ cls, classes cls → s.Uses i cls) (empty : s.Keeps i []) {calls : List Call}
    (hcalls : ∀ c ∈ calls, c.Plain classes) {w : World} (hw : run ⟨s, [], []⟩ calls = w)
    {cls : ClassId} (hcls : classes cls) {id : Value} {name : String}
    (hname : Method.toText g w.session.heap id = .ok name) :
    ∃ v s', Session.outcome (Loading.find cls id) w.session = (.ok v, s') ∧
      match (w.log.under ⟨.text (g.kindOf cls), name⟩).last? ⟨.text (g.kindOf cls), name⟩ with
      | none => v = .null
      | some es => ∃ a, v = .object a ∧ (Heap.get s'.heap a).species = .entity cls ∧
          (∃ b, .object b ∈ w.made ∧ s'.Tells cls b es) ∧
          ∀ b, s'.Tells cls b es → Method.equal g s'.heap (.object a) (.object b) =
            .ok (!s.inFile i || (Value.dict es).isPlain) := by
  obtain ⟨parts, sound⟩ := (Sound.start hcat uses empty).run hs hcalls
  rw [hw] at sound
  obtain ⟨v, s', hv, sound', shown⟩ := sound.find hs hcls hname
  have catalog : s'.catalog = g := sound'.catalog
  refine ⟨v, s', hv, ?_⟩
  rw [Log.last?_under]
  cases hlast : w.log.last? ⟨.text (g.kindOf cls), name⟩ with
  | none =>
    rw [hlast] at shown
    exact shown
  | some es =>
    rw [hlast] at shown
    obtain ⟨a, rfl, species⟩ := shown.species
    have found : s'.Tells cls a (es.keptIn (s.inFile i)) :=
      ⟨species, catalog ▸ shown.toRaw hs.wellFormed⟩
    obtain ⟨cls', b, id', x, hcls', hkind, hmem, stands, -, rfl⟩ :=
      sound'.saved _ _ (Log.put_mem_of_last? hlast)
    obtain rfl : cls = cls' := hs.kinds cls cls' hcls hcls' (Kind.text.inj hkind)
    have told : s'.Tells cls b (g.rawData cls id' x) :=
      ⟨stands.species, catalog ▸ (stands.shows sound'.beside.within (hs.undeferred hcls)).toRaw
        hs.wellFormed⟩
    refine ⟨a, rfl, species, ⟨b, hmem, told⟩, ?_⟩
    intro c hc
    -- what is found tells what the store keeps, the other what was saved
    have equal := found.equal_eq hc (stands.isData hs.wellFormed)
    rwa [catalog] at equal

/-- A class of notes without fields, and a class of pages, which have notes under the numbers of
lines.  Both use the first store. -/
def pages : Catalog :=
  Catalog.assign
    { classes := (Catalog.initial.classes ++ [⟨"Note", "Note", [1, 0], [], none, none⟩]) ++
        [⟨"Page", "Page", [2, 0],
          [("notes", .dictOf (.reference (.named "Note") (.bool false) false) false)], none, none⟩]
      names := [("Note", 1), ("Page", 2)] }
    Catalog.base (some 0)

theorem sharing_pages : Sharing pages fun c => c = 1 ∨ c = 2 where
  wellFormed := by
    have notes : (⟨Catalog.initial.classes ++ [⟨"Note", "Note", [1, 0], [], none, none⟩],
        []⟩ : Catalog).WellFormed := Catalog.wellFormed_initial.append (by decide) (by decide)
    exact (notes.append (by decide) (by decide)).assign _ _
  kinds := by
    rintro c d (rfl | rfl) (rfl | rfl) h
    · rfl
    · exact absurd h (by decide)
    · exact absurd h (by decide)
    · rfl
  own := by
    rintro c (rfl | rfl)
    · rfl
    · rfl
  free := fun c _ => Catalog.eagerFree_of_classes (by decide) c

/-- A session with these classes and a store. -/
def pageSession (st : Store) : Session :=
  { Session.initial with catalog := pages, stores := [st] }

theorem uses_pageSession (st : Store) : ∀ c, c = 1 ∨ c = 2 → (pageSession st).Uses 0 c := by
  rintro c (rfl | rfl)
  · exact .assigned rfl
  · exact .assigned rfl

/-- A page with a note in its first line is constructed and saved. -/
def savingPage : List Call :=
  [.construct 2 [(.str "_id", .str "a"), (.str "notes", .list [.list [.int 1, .dict []]])], .save 0]

/-- The world after a page was constructed and saved in a store. -/
def savedPage (st : Store) : World := run ⟨pageSession st, [], []⟩ savingPage

/-- A store in a file of its own that has just been made. -/
def newFile : Store := .file ":memory:" (.own Database.blank.migrate)

/-- What is found in memory equals the page that was saved; what is found in a file does not, since
the number of the line has become a text. -/
theorem found_page :
    (∃ a s', Session.outcome (Loading.find 2 (.str "a")) (savedPage (.memory [])).session =
        (.ok (.object a), s') ∧
      Method.equal pages s'.heap (.object a) (.object 1) = .ok true) ∧
    ∃ a s', Session.outcome (Loading.find 2 (.str "a")) (savedPage newFile).session =
        (.ok (.object a), s') ∧
      Method.equal pages s'.heap (.object a) (.object 1) = .ok false := by
  have plain : ∀ c ∈ savingPage, c.Plain fun c => c = 1 ∨ c = 2 := by
    simp only [savingPage, List.forall_mem_cons, Call.Plain]
    exact ⟨⟨.inr trivial, rfl⟩, trivial, fun _ h => nomatch h⟩
  have run_page : ∀ st, run ⟨pageSession st, [], []⟩ savingPage = savedPage st := fun _ => rfl
  constructor
  · have text : Method.toText pages (savedPage (.memory [])).session.heap (.str "a") =
        .ok "a" := rfl
    have made : (savedPage (.memory [])).made = [.object 1] := rfl
    obtain ⟨v, s', hv, a, rfl, -, ⟨b, hb, told⟩, equal⟩ := found_eq sharing_pages rfl
      (uses_pageSession (.memory [])) (.memory rfl) plain (run_page _) (.inr rfl) text
    obtain rfl : b = 1 := by
      rw [made] at hb
      simpa using hb
    exact ⟨a, s', hv, equal 1 told⟩
  · have text : Method.toText pages (savedPage newFile).session.heap (.str "a") = .ok "a" := rfl
    have made : (savedPage newFile).made = [.object 1] := rfl
    obtain ⟨v, s', hv, a, rfl, -, ⟨b, hb, told⟩, equal⟩ := found_eq sharing_pages rfl
      (uses_pageSession newFile)
      (.file (.own rfl rfl Database.blank.records?_migrate)) plain (run_page _)
      (.inr rfl) text
    obtain rfl : b = 1 := by
      rw [made] at hb
      simpa using hb
    exact ⟨a, s', hv, equal 1 told⟩

end World

end EntitySchema
