/-
**Lookups that tell the same whenever they are asked.**

What is looked up side by side is asked at one instant or another, and entities may have been made
and lookups noted meanwhile.  A class *replies* if it has a lookup of its own, or uses a store that
is open and that nobody waits for any more.  If every class that can be reached from a class
replies, what is looked up of it does not depend on when it is asked: there is a tree that every
answer reads as, or the lookup fails whenever it is asked.

Where the shared store is still to be opened this is not so, since the first to ask for it is told
otherwise than those that ask while it is being connected.

Main definitions:

* `Session.Replies`, `Session.AtRest` — **a class that replies, and a target from which only such
  classes can be reached**;
* `Session.Steady` — **an action that tells the same whenever it is taken**;
* `Heap.Legible`, `Session.Askable` — an identifier whose text does not change, and a payload that
  carries one.

Main results:

* `Session.Steady.choose` — the trees of several steady actions;
* `Loading.steady_findWith`, `Loading.steady_loadWithin` — finding and loading;
* `Session.AtRest.outcome_arrange` — nothing is opened beforehand;
* `Loading.steady_fetchWith`, `Loading.steady_decode` — **what an eager reference finds.**
-/

import EntitySchema.Proofs.Copying
import EntitySchema.Proofs.Frames
import EntitySchema.Proofs.StoreWork
import EntitySchema.Proofs.StoredLookups

set_option autoImplicit false

namespace EntitySchema

/-- The written form and the text of a value stay what they are as objects are added. -/
def Heap.Legible (g : Catalog) (h : Heap) (v : Value) : Prop :=
  ∀ h', h <+: h' → Method.write g h' v = Method.write g h v ∧
    Method.toText g h' v = Method.toText g h v

theorem Heap.legible_of_inert (g : Catalog) (h : Heap) {v : Value} (hv : v.Inert) :
    h.Legible g v := by
  intro h' _
  rw [Method.write_of_inert g h' hv, Method.write_of_inert g h hv, Method.toText_of_inert g h' hv,
    Method.toText_of_inert g h hv]
  exact ⟨rfl, rfl⟩

/-- An answer that is the same whenever it is given: an entity that is there, or raw data that lead
to no object. -/
def Finding.Firm : Finding → Prop
  | .raw data => data.Inert
  | .entity _ => True

namespace Session

/-! ### Classes that reply -/

/-- A class replies: it has a lookup of its own, the answers of which tell the same whenever they
are given, or it uses a store that is open and that nobody waits for. -/
inductive Replies (s : Session) (cls : ClassId) : Prop
  | own {owner : ClassId} {f : Lookup} : s.catalog.lookupOf? cls = some (owner, f) →
      (∀ id found, f id = some found → found.Firm) → Replies s cls
  | stored {i : StoreId} : s.catalog.lookupOf? cls = none → s.Uses i cls → s.awaited i = false →
      Replies s cls

/-- Every class that can be reached from what a reference is to replies, and no record leads to an
object. -/
structure AtRest (s : Session) (t : Target) : Prop where
  inert : s.InertRecords
  replies : ∀ cls d, s.catalog.resolve t = .ok cls →
    Relation.ReflTransGen s.catalog.Embeds cls d → s.Replies d

/-- An action tells the same whenever it is taken: in every session ahead of this one what it tells
reads as the same tree, or it fails in all of them. -/
def Steady (s : Session) (a : Action Value) : Prop :=
  ∃ o, Refines s.Ahead a (Heap.Reads s.catalog) o Ahead

variable {s s' : Session}

theorem Ahead.on (h : s.Ahead s') : s.MovesOn s' := h.grows.on h.now

theorem Ahead.catalog (h : s.Ahead s') : s'.catalog = s.catalog := h.grows.catalog

/-- What is ahead of a session that is ahead is ahead. -/
theorem lasting_ahead (s : Session) : Lasting s.Ahead Ahead := fun _ _ h h' => Sequel.trans h h'

/-- The trees that several actions tell, where they are steady. -/
theorem Steady.choose {ι : Type} (s : Session) (a : ι → Action Value) :
    ∃ o : ι → Option Tree, ∀ i, s.Steady (a i) →
      Refines s.Ahead (a i) (Heap.Reads s.catalog) (o i) Ahead := by
  have each : ∀ i, ∃ o : Option Tree, s.Steady (a i) →
      Refines s.Ahead (a i) (Heap.Reads s.catalog) o Ahead := by
    intro i
    by_cases steady : s.Steady (a i)
    · obtain ⟨o, ho⟩ := steady
      exact ⟨o, fun _ => ho⟩
    · exact ⟨none, fun h => absurd h steady⟩
  exact Classical.skolem.1 each

/-- An action that runs as a steady one is steady. -/
theorem Steady.of_outcome {a b : Action Value} (hb : s.Steady b)
    (hab : ∀ s', s.Ahead s' → outcome a s' = outcome b s') : s.Steady a := by
  obtain ⟨o, ho⟩ := hb
  exact ⟨o, ho.of_outcome hab⟩

/-- An action that runs as a steady one somewhat ahead is steady. -/
theorem Steady.of_ahead {a b : Action Value} (hb : s.Steady b)
    (hab : ∀ s', s.Ahead s' → ∃ s'', s'.Ahead s'' ∧ s''.heap = s'.heap ∧
      outcome a s' = outcome b s'') : s.Steady a := by
  obtain ⟨o, ho⟩ := hb
  refine ⟨o, fun s' hs' => ?_⟩
  obtain ⟨s'', hs'', heap, run⟩ := hab s' hs'
  obtain ⟨ahead, told⟩ := ho s'' (Sequel.trans hs' hs'')
  rw [run, ← heap]
  exact ⟨Sequel.trans hs'' ahead, told⟩

theorem steady_pure (s : Session) (v : Value) : s.Steady (pure v) :=
  ⟨some (.leaf v), refines_pure fun _ => .leaf v⟩

theorem steady_error (s : Session) (e : Failure) : s.Steady (ofExcept (.error e)) :=
  ⟨none, refines_error e⟩

/-! ### Records -/

/-- The clock is ahead after some rounds. -/
theorem ahead_after (s : Session) (rounds : Nat) : s.Ahead { s with now := s.now.after rounds } :=
  Sequel.at_now (Sequel.refl s) (Instant.precedes_after s.now rounds)

theorem Ahead.store (h : s.Ahead s') (i : StoreId) : s'.store i = s.store i := by
  rw [Session.store, Session.store, h.grows.stores]

/-- The rows of a file that nobody waits for are the same whenever they are asked for, or are
refused each time. -/
theorem rows_cases {i : StoreId} {path : String} {link : Link} (hs : s.store i = .file path link)
    (ready : s.awaited i = false) :
    (∃ t, ∀ s', s.Ahead s' → outcome (rows i) s' = (.ok t, s')) ∨
      ∃ e rounds, ∀ s', s.Ahead s' →
        outcome (rows i) s' = (.error e, { s' with now := s'.now.after rounds }) := by
  have linked : ∀ s', s.Ahead s' → s'.linkOf i = link := by
    intro s' hs'
    rw [linkOf, hs'.store i, hs]
    dsimp only
    rw [hs'.on.awaited ready, if_neg Bool.false_ne_true]
  cases link with
  | closed =>
    refine .inr ⟨.notConnected, 0, fun s' hs' => ?_⟩
    rw [outcome_rows, linked s' hs']
    rfl
  | unusable =>
    refine .inr ⟨.blocked .cannotOpen, 1, fun s' hs' => ?_⟩
    rw [outcome_rows, linked s' hs']
  | own db =>
    have same : ∀ s' : Session, s'.database (.own db) = db := fun _ => rfl
    cases ht : db.records? with
    | some t =>
      refine .inl ⟨t, fun s' hs' => ?_⟩
      simp only [outcome_rows, linked s' hs', same, ht]
    | none =>
      refine .inr ⟨.blocked .cannotOpen, 1, fun s' hs' => ?_⟩
      simp only [outcome_rows, linked s' hs', same, ht]
  | file p =>
    have same : ∀ s', s.Ahead s' → s'.database (.file p) = s.disk.database p :=
      fun s' hs' => congrArg (Disk.database · p) hs'.grows.disk
    cases ht : (s.disk.database p).records? with
    | some t =>
      refine .inl ⟨t, fun s' hs' => ?_⟩
      simp only [outcome_rows, linked s' hs', same s' hs', ht]
    | none =>
      refine .inr ⟨.blocked .cannotOpen, 1, fun s' hs' => ?_⟩
      simp only [outcome_rows, linked s' hs', same s' hs', ht]

/-- A store that nobody waits for tells the same of a record whenever it is asked. -/
theorem exists_fetched (inert : s.InertRecords) {i : StoreId} (ready : s.awaited i = false)
    (kind name : String) :
    ∃ r : Except Failure (Option Entries), (∀ es, r = .ok (some es) → (Value.dict es).Inert) ∧
      ∀ s', s.Ahead s' → ∃ rounds, outcome (fetchRecord i (.str kind) (.str name)) s' =
        (r.map (Option.map Value.dict), { s' with now := s'.now.after rounds }) := by
  -- what leads to no object is read off the session itself, which is ahead of itself
  suffices fixed : ∃ r : Except Failure (Option Entries), ∀ s', s.Ahead s' → ∃ rounds,
      outcome (fetchRecord i (.str kind) (.str name)) s' =
        (r.map (Option.map Value.dict), { s' with now := s'.now.after rounds }) by
    obtain ⟨r, hr⟩ := fixed
    refine ⟨r, fun es hes => ?_, hr⟩
    obtain ⟨rounds, run⟩ := hr s (Sequel.refl s)
    rw [hes] at run
    obtain ⟨record, has, -, same⟩ := (apart_fetchRecord inert (Value.inert_str name)).2 (.dict es)
      (congrArg Prod.fst run)
    rw [same]
    exact inert record has
  have named : ∀ s', outcome (textOf (.str name)) s' = (.ok name, s') := fun _ => rfl
  cases hs : s.store i with
  | memory rs =>
    refine ⟨.ok (MemoryStore.get? rs ⟨.text kind, name⟩), fun s' hs' => ⟨0, ?_⟩⟩
    have run : outcome (fetchRecord i (.str kind) (.str name)) s' = _ :=
      outcome_fetchRecord_memory ((hs'.store i).trans hs) (named s')
    cases hget : MemoryStore.get? rs ⟨.text kind, name⟩ with
    | none =>
      rw [hget] at run
      exact run
    | some es =>
      rw [hget] at run
      obtain ⟨r, hr, same⟩ := Option.map_eq_some_iff.1 hget
      have still : (Value.dict es).Inert :=
        same ▸ inert r (has_of_store hs (List.mem_of_find?_eq_some hr))
      rw [run, outcome_bind_ok (outcome_copy still)]
      rfl
  | file path link =>
    have run : ∀ s', s.Ahead s' → outcome (fetchRecord i (.str kind) (.str name)) s' = outcome (do
        let t ← rows i
        wait 2
        pure ((FileTable.get? t (some (.text kind)) name).map Value.dict)) s' := by
      intro s' hs'
      rw [fetchRecord, outcome_bind_ok (named s'), outcome_get_bind, (hs'.store i).trans hs]
      rfl
    rcases rows_cases hs ready with ⟨t, table⟩ | ⟨e, rounds, refused⟩
    · refine ⟨.ok (FileTable.get? t (some (.text kind)) name), fun s' hs' => ⟨2, ?_⟩⟩
      rw [run s' hs', outcome_bind_ok (table s' hs')]
      rfl
    · refine ⟨.error e, fun s' hs' => ⟨rounds, ?_⟩⟩
      rw [run s' hs', outcome_bind_error (refused s' hs')]
      rfl

/-- A construction that does what is said without a heap is steady. -/
theorem steady_build {b : Build Value} {o : Option Tree} (hb : b.Refines (Heap.Reads s.catalog) o) :
    s.Steady (build b) := by
  refine ⟨o, fun s' _ => ?_⟩
  rcases hb s'.heap with ⟨x, h, t, hx, ht, grown, reads⟩ | ⟨⟨e, he⟩, none⟩
  · rw [outcome_build_ok hx]
    exact ⟨Sequel.heap (Sequel.refl s') grown, .inl ⟨x, t, rfl, ht, reads⟩⟩
  · rw [outcome_build_error he]
    exact ⟨Sequel.refl s', .inr ⟨⟨e, rfl⟩, none⟩⟩

/-- A lookup may be noted. -/
theorem ahead_noted (s : Session) (lookups : List Note) : s.Ahead { s with lookups := lookups } :=
  ⟨⟨List.prefix_rfl, rfl, rfl, rfl, rfl, rfl⟩, .refl _⟩

end Session

namespace Loading

variable {s : Session} {cls : ClassId}

/-! ### Finding and loading -/

/-- What a class with a lookup of its own finds is steady: the lookup is noted, and its answer is
made an entity. -/
theorem steady_findWith_own (hg : s.catalog.WellFormed) {owner : ClassId} {f : Lookup}
    (own : s.catalog.lookupOf? cls = some (owner, f))
    (answers : ∀ id found, f id = some found → found.Firm)
    (load : ClassId → Value → Action Value)
    (id : Value) : s.Steady (findWith load cls id) := by
  have run : ∀ s', s.Ahead s' → Session.outcome (findWith load cls id) s' =
      Session.outcome (answer cls (f id))
        { s' with lookups := s'.lookups ++ [⟨cls, id, s'.now⟩] } := by
    intro s' hs'
    have own' := (congrArg (Catalog.lookupOf? · cls) hs'.catalog).trans own
    rw [findWith, Session.outcome_get_bind]
    simp only [own']
    rw [Session.note, Session.outcome_modify_bind]
  have noted : s.Steady (answer cls (f id)) := by
    cases hfound : f id with
    | none => exact Session.steady_pure s .null
    | some found =>
      have told := answers id found hfound
      cases found with
      | raw data =>
        have tame : s.catalog.Tame (s.catalog.lookIn []) (s.catalog.DrawnInert cls) :=
          s.catalog.tame_drawnInert cls (List.forall_mem_nil _)
        have built := Session.steady_build
          (Construction.refines_ofRaw tame hg le_rfl ⟨told, .refl⟩)
        refine built.of_outcome fun s' hs' => ?_
        rw [answer, Session.outcome_get_bind, hs'.catalog]
      | entity a => exact Session.steady_pure s (.object a)
  exact noted.of_ahead fun s' hs' => ⟨{ s' with lookups := s'.lookups ++ [⟨cls, id, s'.now⟩] },
    Session.ahead_noted s' _, rfl, run s' hs'⟩

/-- What a class finds in a store is steady, if loading what is found is. -/
theorem steady_findWith_stored (inert : s.InertRecords) {i : StoreId}
    (own : s.catalog.lookupOf? cls = none) (uses : s.Uses i cls) (ready : s.awaited i = false)
    {load : ClassId → Value → Action Value} {id : Value} (legible : s.heap.Legible s.catalog id)
    (hload : ∀ es, (Value.dict es).Inert → s.Steady (load cls (.dict es))) :
    s.Steady (findWith load cls id) := by
  have own' : ∀ s', s.Ahead s' → s'.catalog.lookupOf? cls = none := fun s' hs' =>
    (congrArg (Catalog.lookupOf? · cls) hs'.catalog).trans own
  have text : ∀ s', s.Ahead s' → Session.outcome (Session.textOf id) s' =
      (Method.toText s.catalog s.heap id, s') := by
    intro s' hs'
    rw [Session.outcome_textOf, hs'.catalog, (legible s'.heap hs'.grows.heap).2]
  have store : ∀ s', s.Ahead s' → Session.outcome (Session.storeOf cls) s' = (.ok i, s') :=
    fun s' hs' => (uses.later hs'.on).storeOf
  cases hname : Method.toText s.catalog s.heap id with
  | error e =>
    refine (Session.steady_error s e).of_outcome fun s' hs' => ?_
    rw [findWith, Session.outcome_get_bind]
    simp only [own' s' hs', Session.outcome_bind_ok (store s' hs')]
    exact Session.outcome_bind_error ((text s' hs').trans (by rw [hname]))
  | ok name =>
    obtain ⟨r, hr, fetched⟩ := Session.exists_fetched inert ready (s.catalog.kindOf cls) name
    have run : ∀ s', s.Ahead s' → ∃ s'', s'.Ahead s'' ∧ s''.heap = s'.heap ∧
        Session.outcome (findWith load cls id) s' = Session.outcome
          (Session.ofExcept (r.map (Option.map Value.dict)) >>= fun record? =>
            record?.elim (pure .null) (load cls)) s'' := by
      intro s' hs'
      obtain ⟨rounds, hfetched⟩ := fetched s' hs'
      refine ⟨_, Session.ahead_after s' rounds, rfl, ?_⟩
      rw [findWith, Session.outcome_get_bind]
      simp only [own' s' hs', Session.outcome_bind_ok (store s' hs'),
        Session.outcome_bind_ok ((text s' hs').trans (by rw [hname])),
        congrArg (Catalog.kindOf · cls) hs'.catalog]
      rewrite [Session.outcome_bind, Session.outcome_bind, hfetched, Session.outcome_ofExcept]
      rcases r with e | _ | es <;> rfl
    refine Session.Steady.of_ahead ?_ run
    cases r with
    | error e => exact Session.steady_error s e
    | ok es? =>
      cases es? with
      | none => exact Session.steady_pure s .null
      | some es => exact hload es (hr es rfl)

/-- What a class that replies finds under an identifier is steady, if loading what is found is. -/
theorem steady_findWith (hg : s.catalog.WellFormed) (inert : s.InertRecords)
    (replies : s.Replies cls) {load : ClassId → Value → Action Value} {id : Value}
    (legible : s.heap.Legible s.catalog id)
    (hload : ∀ es, (Value.dict es).Inert → s.Steady (load cls (.dict es))) :
    s.Steady (findWith load cls id) := by
  cases replies with
  | own own answers => exact steady_findWith_own hg own answers load id
  | stored own uses ready => exact steady_findWith_stored inert own uses ready legible hload

/-- Loading is steady, for a given way to look entities up, if looking up is. -/
theorem steady_loadBy {look : Lookups} {kind : Subject → Value → Prop}
    (tame : s.catalog.Tame look kind) (hg : s.catalog.WellFormed)
    {seek : Nat → ClassId → Value → Action Value}
    (hseek : ∀ fuel, (∀ cls raw, kind (.entity cls) raw → s.Steady (loadBy seek fuel cls raw)) →
      ∀ t e r raw cls, kind (.decoded (.reference t e r)) raw → e.truthy = true →
        s.catalog.resolve t = .ok cls → s.Steady (seek fuel cls (Checker.identifierIn raw))) :
    ∀ (fuel : Nat) (cls : ClassId) (raw : Value), kind (.entity cls) raw →
      s.Steady (loadBy seek fuel cls raw)
  | 0, _, _, _ => Session.steady_error s .endless
  | fuel + 1, cls, raw, hraw => by
    have henter := steady_loadBy tame hg hseek fuel
    -- each entity that is entered or looked up has a tree of its own
    obtain ⟨enterTo, enters⟩ :=
      Session.Steady.choose s fun p : ClassId × Value => loadBy seek fuel p.1 p.2
    obtain ⟨seekTo, seeks⟩ := Session.Steady.choose s fun p : ClassId × Value => seek fuel p.1 p.2
    refine ⟨_, refines_loadBy_with tame (Session.lasting_ahead s) (fun _ hs' => hs'.catalog) hg
      (fun cls raw => enterTo (cls, raw)) (fun cls id => seekTo (cls, id)) ?_ ?_ hraw
      (Nat.le_succ raw.depth)⟩
    · exact fun cls raw hraw => enters (cls, raw) (henter cls raw hraw)
    · exact fun t e r raw cls hraw he hcls =>
        seeks (cls, Checker.identifierIn raw) (hseek fuel henter t e r raw cls hraw he hcls)

/-- Loading is steady, if every class that can be reached replies. -/
theorem steady_loadWithin (hg : s.catalog.WellFormed) {t : Target} (rest : s.AtRest t)
    (ht : s.catalog.resolve t = .ok cls) (fuel : Nat) {d : ClassId}
    (hd : Relation.ReflTransGen s.catalog.Embeds cls d) {raw : Value} (hraw : raw.Inert) :
    s.Steady (loadWithin fuel d raw) := by
  have tame : s.catalog.Tame (s.catalog.lookIn []) (s.catalog.DrawnInert cls) :=
    s.catalog.tame_drawnInert cls (List.forall_mem_nil _)
  rw [loadWithin_eq_loadBy]
  refine steady_loadBy tame hg ?_ fuel d raw ⟨hraw, hd⟩
  -- what is found is loaded with the bound that is left
  intro fuel ih u e r raw c hkind he hc
  have hc' : Relation.ReflTransGen s.catalog.Embeds cls c := hkind.2 u c rfl hc
  refine steady_findWith hg rest.inert (rest.replies cls c ht hc')
    (Heap.legible_of_inert _ _ (Checker.inert_identifierIn hkind.1)) fun es hes => ?_
  rw [loadWithin_eq_loadBy]
  exact ih c (.dict es) ⟨hes, hc'⟩

end Loading

/-! ### What is opened beforehand -/

namespace Session

variable {s s' : Session} {t : Target}

/-- A class that replies goes on to reply. -/
theorem Replies.ahead {cls : ClassId} (replies : s.Replies cls) (hs' : s.Ahead s') :
    s'.Replies cls := by
  have lookup := congrArg (Catalog.lookupOf? · cls) hs'.catalog
  cases replies with
  | own own answers => exact .own (lookup.trans own) answers
  | stored own uses ready =>
    exact .stored (lookup.trans own) (uses.later hs'.on) (hs'.on.awaited ready)

theorem AtRest.ahead (rest : s.AtRest t) (hs' : s.Ahead s') : s'.AtRest t where
  inert r hr := rest.inert r (hr.of_stores (fun _ _ hj => .inl (hs'.grows.stores ▸ hj))
    fun _ => by rw [hs'.grows.disk])
  replies cls d hcls hd := by
    rw [hs'.catalog] at hcls hd
    exact (rest.replies cls d hcls hd).ahead hs'

/-- **Nothing is opened beforehand** for an action that asks only classes that reply, if it does not
ask for the shared store where none of them uses it. -/
theorem AtRest.outcome_arrange {α : Type} (rest : s.AtRest t) (a : Action α)
    (quiet : AtRest { s with survey := some [] } t →
      (outcome a { s with survey := some [] }).2.survey = some []) :
    outcome (arrange a) s = outcome a s := by
  by_cases assigned : ∀ cls d, s.catalog.resolve t = .ok cls →
      Relation.ReflTransGen s.catalog.Embeds cls d → s.catalog.lookupOf? d = none →
        ∃ i, s.catalog.assignedStore? d = some i
  · have inert : InertRecords { s with survey := some [] } := fun r hr =>
      rest.inert r (hr.of_stores (fun _ _ hj => .inl hj) fun _ => rfl)
    refine outcome_arrange_of_quiet a (quiet ⟨inert, fun cls d hcls hd => ?_⟩)
    cases rest.replies cls d hcls hd with
    | own own answers => exact .own own answers
    | stored own uses ready =>
      obtain ⟨j, hj⟩ := assigned cls d hcls hd own
      cases uses with
      | assigned hi => exact .stored own (.assigned hi) ready
      | shared none => cases none.symm.trans hj
  · -- a class that is assigned no store uses the shared one, which is open
    simp only [not_forall] at assigned
    obtain ⟨cls, d, hcls, hd, own, unassigned⟩ := assigned
    cases rest.replies cls d hcls hd with
    | own own' _ => cases own.symm.trans own'
    | stored _ uses _ => exact uses.outcome_arrange a fun hi => absurd ⟨_, hi⟩ unassigned

end Session

/-! ### Eager references -/

/-- The identifier that a payload carries does not change as objects are added. -/
theorem Checker.payloadId_of_ahead {s s' : Session} {x : Value} (hs' : s.Ahead s')
    (covers : s.heap.Covers x) : payloadId s' x = payloadId s x := by
  have same : ∀ a, x.LeadsTo a → Heap.get s'.heap a = Heap.get s.heap a :=
    fun a ha => Heap.get_of_extended hs'.grows.heap (covers a ha)
  unfold payloadId
  rw [hs'.catalog]
  cases x with
  | object a =>
    have told := Heap.objectAttribute?_of_get (g := s.catalog) (same a (.object a)) idField
    simp only [Value.entries?, Heap.attribute?, told]
  | function a => simp only [Value.entries?, Heap.attribute?, same a (.function a)]
  | _ => rfl

namespace Session

/-- A payload that an eager reference can look up at any time: it leads to no object that is still
to come, and the text of its identifier does not change. -/
structure Askable (s : Session) (x : Value) : Prop where
  covers : s.heap.Covers x
  legible : s.heap.Legible s.catalog (Checker.payloadId s x)

variable {s s' : Session} {t : Target} {x : Value}

theorem Askable.ahead (askable : s.Askable x) (hs' : s.Ahead s') : s'.Askable x where
  covers := askable.covers.mono hs'.grows.heap.length_le
  legible := by
    intro h hle
    rw [Checker.payloadId_of_ahead hs' askable.covers, hs'.catalog]
    have here := askable.legible s'.heap hs'.grows.heap
    have there := askable.legible h (hs'.grows.heap.trans hle)
    exact ⟨there.1.trans here.1.symm, there.2.trans here.2.symm⟩

end Session

namespace Loading

variable {s : Session} {t : Target} {x : Value}

/-- **What an eager reference finds is steady**, if every class that can be reached from the one
referred to replies. -/
theorem steady_fetchWith (hg : s.catalog.WellFormed) (rest : s.AtRest t) (askable : s.Askable x)
    (fuel : Nat) : s.Steady (Checker.fetchWith (findWith (loadWithin fuel)) t x) := by
  cases ht : x.truthy with
  | false =>
    rw [Checker.fetchWith, ht]
    exact Session.steady_pure s .null
  | true =>
    have run : ∀ s', s.Ahead s' →
        Session.outcome (Checker.fetchWith (findWith (loadWithin fuel)) t x) s' = Session.outcome (
          if (Checker.payloadId s x).isNull then pure .null else do
            let cls ← Session.ofExcept (s.catalog.resolve t)
            discard (Session.ofExcept (Method.write s.catalog s.heap (Checker.payloadId s x)))
            findWith (loadWithin fuel) cls (Checker.payloadId s x)) s' := by
      intro s' hs'
      rw [Checker.fetchWith, ht, if_pos rfl, Session.outcome_get_bind,
        Checker.payloadId_of_ahead hs' askable.covers, hs'.catalog]
      dsimp only
      rw [(askable.legible s'.heap hs'.grows.heap).1]
    refine Session.Steady.of_outcome ?_ run
    cases (Checker.payloadId s x).isNull with
    | true => exact Session.steady_pure s .null
    | false =>
      rw [if_neg Bool.false_ne_true]
      cases hcls : s.catalog.resolve t with
      | error e => exact (Session.steady_error s e).of_outcome fun _ _ => rfl
      | ok cls =>
        cases Method.write s.catalog s.heap (Checker.payloadId s x) with
        | error e => exact (Session.steady_error s e).of_outcome fun _ _ => rfl
        | ok text =>
          have found := steady_findWith hg rest.inert (rest.replies cls cls hcls .refl)
            askable.legible fun es hes => steady_loadWithin hg rest hcls fuel .refl hes
          exact found.of_outcome fun _ _ => rfl

/-- The bound on loading does not change as objects are added. -/
theorem bound_of_ahead {s' : Session} (hs' : s.Ahead s') (raw : Value) :
    bound s' raw = bound s raw := by
  have extent : recordExtent s' = recordExtent s := by
    rw [recordExtent, hs'.grows.stores, hs'.grows.disk]
    rfl
  rw [bound, bound, extent, hs'.catalog]

variable {e : Value} {r : Bool}

/-- Decoding by an eager reference looks its payload up, and opens nothing beforehand. -/
theorem outcome_decode_reference (hg : s.catalog.WellFormed) (rest : s.AtRest t)
    (askable : s.Askable x) (he : e.truthy = true) {s' : Session} (hs' : s.Ahead s') :
    Session.outcome (decode (.reference t e r) x) s' =
      Session.outcome (Checker.fetchWith (findWith (loadWithin (bound s .null))) t x) s' := by
  have hg' : s'.catalog.WellFormed := hs'.catalog ▸ hg
  have waits : (Checker.reference t e r).deferred = true := he
  rw [decode, Session.outcome_get_bind, if_pos waits, ← bound_of_ahead hs']
  refine (rest.ahead hs').outcome_arrange (Checker.fetchWith (findWith
    (loadWithin (bound s' .null))) t x) fun rest' => ?_
  have askable' : Session.Askable { s' with survey := some [] } x :=
    ⟨(askable.ahead hs').covers, (askable.ahead hs').legible⟩
  obtain ⟨o, ho⟩ := steady_fetchWith (s := { s' with survey := some [] }) hg' rest' askable'
    (bound s' .null)
  exact (ho _ (Session.Sequel.refl _)).1.grows.survey

/-- **Decoding by an eager reference is steady.** -/
theorem steady_decode (hg : s.catalog.WellFormed) (rest : s.AtRest t) (askable : s.Askable x)
    (he : e.truthy = true) : s.Steady (decode (.reference t e r) x) :=
  (steady_fetchWith hg rest askable (bound s .null)).of_outcome fun _ hs' =>
    outcome_decode_reference hg rest askable he hs'

end Loading

end EntitySchema
