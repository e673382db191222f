/-
**Entities stay what they are.**

Whatever a loading does, be it opening stores, copying records, constructing entities or filling
their fields, the classes stay as they are and an entity of a class stays an entity of this class:
the session *persists*.  So what is known of the class of an object by the time it is found or
constructed is still so when the whole of it has been loaded.

Nothing is asked of the stores here: a record may lead to objects, which are copied when it is read,
and a class may answer with a lookup of its own.

Main definitions:

* `Heap.EntityOf` — an entity of a class;
* `Session.Onward` — a relation of sessions to those that they go on to;
* `Session.Yields` — **what an action has as its result, if it has one, in a session that goes
  on**;
* `Session.Persists` — sessions that go on with the same classes and the same entities;
* `Session.Gives` — what is fetched of a record: its data as they are, or a copy of them;
* `Loading.Keeps` — what is to hold of the values that a loading hands on, so that it holds of what
  it makes.

Main results:

* `Session.Yields.bind`, `Session.yields_gather` — one after the other and side by side;
* `Loading.fetchWith_cases`, `Loading.enterWith_cases`, `Loading.findWith_cases` — what was done, if
  there is a result;
* `Loading.Keeps.yields_loadWith` — what holds of the parts of a raw value holds of what is loaded
  of them;
* `Loading.yields_findWith` — to find is to have nothing, or an entity of the class;
* `Loading.yields_loadWithin` — **to load is to have an entity of the class**, whatever the stores
  hold.
-/

import EntitySchema.Proofs.StoreWork
import EntitySchema.Proofs.Constructed

set_option autoImplicit false

namespace EntitySchema

namespace Heap

variable {h h' : Heap}

/-- A value that is an entity of a class. -/
def EntityOf (cls : ClassId) (h : Heap) (v : Value) : Prop :=
  ∃ a, v = .object a ∧ (get h a).species = .entity cls

/-- Each entity of a heap is an entity of the same class in another. -/
def SameEntities (h h' : Heap) : Prop :=
  ∀ a cls, (get h a).species = .entity cls → (get h' a).species = .entity cls

theorem SameEntities.refl (h : Heap) : h.SameEntities h := fun _ _ => id

theorem SameEntities.trans {h'' : Heap} (same : h.SameEntities h') (same' : h'.SameEntities h'') :
    h.SameEntities h'' := fun a cls hs => same' a cls (same a cls hs)

theorem sameEntities_of_extended (grown : h <+: h') : h.SameEntities h' := by
  intro a cls hs
  have there : a < h.length := lt_of_isEntity (by rw [isEntity, hs])
  rw [get_of_extended grown there, hs]

theorem sameEntities_put (h : Heap) (a : Address) (name : String) (x : Value) :
    h.SameEntities (h.put a name x) := by
  intro b cls hs
  by_cases heq : a = b
  · subst heq
    have there : a < h.length := lt_of_isEntity (by rw [isEntity, hs])
    rw [put, get_write_self h there]
    exact hs
  · rw [put, get_write_of_ne h heq]
    exact hs

/-- An entity some field of which is filled stays an entity of its class, and so do all others. -/
theorem sameEntities_settle (h : Heap) (a : Address) (name : String) (x : Value) :
    h.SameEntities (h.settle a name x) := by
  unfold settle
  dsimp only
  split
  · exact (sameEntities_put h a name x).trans (sameEntities_put _ a pendingField _)
  · exact sameEntities_put h a name x

end Heap

namespace Session

/-! ### What actions yield -/

/-- A relation of sessions to those that they go on to: where nothing happens, or one thing after
the other, and whatever the clock shows. -/
class Onward (R : Session → Session → Prop) : Prop where
  refl (s : Session) : R s s
  trans {s s' s'' : Session} : R s s' → R s' s'' → R s s''
  clock (s : Session) (now : Instant) : R s { s with now := now }

section

variable {α β : Type} {R : Session → Session → Prop} [Onward R] {F : Heap → α → Prop}
  {G : Heap → β → Prop} {s s' : Session}

/-- Where an action has a result, the session goes on as `R` says and the result is as `F` says. -/
def Yields (R : Session → Session → Prop) (F : Heap → α → Prop) (a : Action α) (s : Session) :
    Prop :=
  ∀ x s', outcome a s = (.ok x, s') → R s s' ∧ F s'.heap x

/-- Nothing in particular. -/
abbrev Any (_ : Heap) (_ : α) : Prop := True

theorem yields_pure {x : α} (hx : F s.heap x) : Yields R F (pure x) s := by
  rintro _ _ ⟨⟩
  exact ⟨Onward.refl s, hx⟩

omit [Onward R] in
theorem yields_throw (e : Failure) (s : Session) : Yields R F (throw e) s := by
  rintro _ _ ⟨⟩

theorem yields_ofExcept {e : Except Failure α} (he : ∀ x, e = .ok x → F s.heap x) :
    Yields R F (ofExcept e) s := by
  intro x s' hx
  rw [outcome_ofExcept] at hx
  obtain ⟨rfl, rfl⟩ := Prod.mk.inj hx
  exact ⟨Onward.refl s, he x rfl⟩

theorem yields_any_ofExcept (e : Except Failure α) (s : Session) : Yields R Any (ofExcept e) s :=
  yields_ofExcept fun _ _ => trivial

omit [Onward R] in
theorem Yields.imp {F' : Heap → α → Prop} {a : Action α} (ha : Yields R F a s)
    (hF : ∀ h x, F h x → F' h x) : Yields R F' a s :=
  fun x s' hx => (ha x s' hx).imp id (hF s'.heap x)

theorem Yields.bind {a : Action α} {f : α → Action β} (ha : Yields R F a s)
    (hf : ∀ x s₁, R s s₁ → F s₁.heap x → Yields R G (f x) s₁) : Yields R G (a >>= f) s := by
  intro y s' hy
  obtain ⟨x, s₁, hx, hy⟩ := outcome_bind_eq_ok hy
  obtain ⟨onward, told⟩ := ha x s₁ hx
  obtain ⟨onward', told'⟩ := hf x s₁ onward told y s' hy
  exact ⟨Onward.trans onward onward', told'⟩

omit [Onward R] in
theorem yields_get_bind {f : Session → Action β} (hf : Yields R G (f s) s) :
    Yields R G (get >>= f) s :=
  hf

/-- Actions one after the other yield what each of them yields. -/
theorem Runs.yields (mono : ∀ s s' y, R s s' → G s.heap y → G s'.heap y) {f : α → Action β}
    {xs : List α} {ys : List β} (runs : Runs f s xs ys s')
    (hf : ∀ x ∈ xs, ∀ s₁, R s s₁ → Yields R G (f x) s₁) :
    R s s' ∧ ∀ y ∈ ys, G s'.heap y := by
  induction runs with
  | nil s => exact ⟨Onward.refl s, List.forall_mem_nil _⟩
  | @cons s s₁ s₂ now x y xs ys hx _ ih =>
    obtain ⟨first, rest⟩ := List.forall_mem_cons.1 hf
    have start : R s { s with now := now } := Onward.clock s now
    obtain ⟨onward, told⟩ := first _ start y s₁ hx
    have reached := Onward.trans start onward
    obtain ⟨onward', told'⟩ := ih fun x hx s₂ later => rest x hx s₂ (Onward.trans reached later)
    exact ⟨Onward.trans reached onward',
      List.forall_mem_cons.2 ⟨mono _ _ y onward' told, told'⟩⟩

/-- **Actions side by side** yield what each of them yields. -/
theorem yields_gather (mono : ∀ s s' y, R s s' → G s.heap y → G s'.heap y) {f : α → Action β}
    {xs : List α} (hf : ∀ x ∈ xs, ∀ s₁, R s s₁ → Yields R G (f x) s₁) :
    Yields R (fun h ys => ∀ y ∈ ys, G h y) (gather f xs) s := by
  intro ys s' hys
  obtain ⟨s₁, runs, heq⟩ := runs_of_gather hys
  rw [heq]
  obtain ⟨onward, told⟩ := runs.yields mono hf
  exact ⟨Onward.trans onward (Onward.clock s₁ s'.now), told⟩

end

/-! ### Sessions that persist -/

/-- A session goes on to another in which the classes are the same and every entity is an entity of
the same class. -/
structure Persists (s s' : Session) : Prop where
  catalog : s'.catalog = s.catalog
  entities : s.heap.SameEntities s'.heap

variable {s s' s'' : Session}

theorem Persists.refl (s : Session) : s.Persists s := ⟨rfl, .refl _⟩

theorem Persists.trans (h : s.Persists s') (h' : s'.Persists s'') : s.Persists s'' :=
  ⟨h'.catalog.trans h.catalog, h.entities.trans h'.entities⟩

theorem persists_at (s : Session) (now : Instant) : s.Persists { s with now := now } :=
  ⟨rfl, .refl _⟩

instance : Onward Persists := ⟨.refl, .trans, persists_at⟩

theorem Opens.persists (h : s.Opens s') : s.Persists s' :=
  ⟨h.catalog, by rw [h.heap]; exact .refl _⟩

theorem persists_of_grown {h : Heap} (grown : s.heap <+: h) : s.Persists { s with heap := h } :=
  ⟨rfl, Heap.sameEntities_of_extended grown⟩

/-! ### Records -/

/-- What a store gives of a record, and the session afterwards: the data, or a copy of them. -/
inductive Gives (s : Session) (r : Record) : Value → Session → Prop
  | data : Gives s r (.dict r.data) s
  | copy : Gives s r (s.heap.copy (.dict r.data)).1
      { s with heap := (s.heap.copy (.dict r.data)).2 }

/-- **A record that is read is one that was there**, and it is given where stores may have been
opened. -/
theorem exists_of_fetchRecord {i : StoreId} {kind name : String} {found? : Option Value}
    (read : outcome (fetchRecord i (.str kind) (.str name)) s = (.ok found?, s')) :
    ∃ s₁, s.Opens s₁ ∧ ((found? = none ∧ s' = s₁) ∨
      ∃ r d, s.Has r ∧ Gives s₁ r d s' ∧ found? = some d) := by
  obtain ⟨apart, filed⟩ := @apart_filedRecord s (.str name) i kind (Value.inert_str name)
  have here {d? : Option Value} {s₁ : Session}
      (run : outcome (filedRecord i (.str kind) (.str name)) s = (.ok d?, s₁)) :
      s.Opens s₁ ∧ ∀ d, d? = some d → ∃ r, s.Has r ∧ d = .dict r.data := by
    refine ⟨by have := apart.opens; rwa [run] at this, fun d hd => ?_⟩
    obtain ⟨r, hr, -, rfl⟩ := filed d (by rw [run, hd])
    exact ⟨r, hr, rfl⟩
  rw [outcome_fetchRecord] at read
  cases hs : s.store i with
  | memory rs =>
    rw [hs] at read
    obtain ⟨d?, s₁, run, read⟩ := outcome_bind_eq_ok read
    obtain ⟨opens, has⟩ := here run
    refine ⟨s₁, opens, ?_⟩
    cases d? with
    | none =>
      cases read
      exact .inl ⟨rfl, rfl⟩
    | some d =>
      obtain ⟨r, hr, rfl⟩ := has d rfl
      cases read
      exact .inr ⟨r, _, hr, .copy, rfl⟩
  | file path link =>
    rw [hs] at read
    obtain ⟨opens, has⟩ := here read
    refine ⟨s', opens, ?_⟩
    cases found? with
    | none => exact .inl ⟨rfl, rfl⟩
    | some d =>
      obtain ⟨r, hr, rfl⟩ := has d rfl
      exact .inr ⟨r, _, hr, .data, rfl⟩

end Session

/-! ### Entities -/

open Session

/-- Construction keeps whatever is asked to what nothing is asked of. -/
theorem Construction.kinds_any (g : Catalog) :
    Kinds g (fun _ => True) (fun _ _ => True) (fun _ => True) (fun _ _ => True) where
  monoRaw _ _ _ _ _ := trivial
  mono _ _ _ _ _ := trivial
  absent _ := trivial
  kept _ _ _ := trivial
  moment _ _ := trivial
  items _ _ _ _ _ _ _ := trivial
  entries _ _ _ _ _ _ _ _ := ⟨trivial, trivial⟩
  identifier _ _ _ _ _ _ := trivial
  noIdentifier := trivial
  list _ _ _ := trivial
  dict _ _ _ := trivial
  cell _ _ _ _ _ _ _ _ := ⟨trivial, trivial⟩

/-- What is constructed for a class is an entity of it, and the last cell of the heap. -/
theorem Construction.leaves_entity {g : Catalog} (hg : g.WellFormed) (cls : ClassId) (raw : Value)
    (h : Heap) : Build.Leaves (fun _ => True) (Heap.EntityOf cls) (ofRaw g cls raw) h := by
  intro v h' made
  obtain ⟨data, h₀, w, -, -, -, grown, -, rfl, rfl, -⟩ :=
    exists_of_ofRaw_eq_ok (kinds_any g) hg trivial trivial made
  refine ⟨grown.trans (List.prefix_append ..), trivial, h₀.length, rfl, ?_⟩
  have here : Heap.get (h₀ ++ [Cell.ofFields cls (Entries.getStr data idField)
      (asideEntries data (g.schemaOf cls)) (Table.names (g.schemaOf cls)) w]) h₀.length = _ :=
    Heap.get_alloc_self h₀ _
  rw [here]
  rfl

namespace Loading

variable {g : Catalog} {cls : ClassId} {raw : Value} {s : Session}

/-- What is constructed for a class is an entity of it. -/
theorem yields_ofRaw (hg : g.WellFormed) (cls : ClassId) (raw : Value) (s : Session) :
    Yields Persists (Heap.EntityOf cls) (Session.build (Construction.ofRaw g cls raw)) s := by
  intro v s' hv
  obtain ⟨h', made, rfl⟩ := Session.exists_of_outcome_build hv
  obtain ⟨grown, -, entity⟩ := Construction.leaves_entity hg cls raw s.heap v h' made
  exact ⟨Session.persists_of_grown grown, entity⟩

/-- What is found of a class: nothing, an entity of the class, or an entity that the class's own
lookup answers with. -/
inductive Found (g : Catalog) (cls : ClassId) (h : Heap) : Value → Prop
  | nothing : Found g cls h .null
  | made {v : Value} : Heap.EntityOf cls h v → Found g cls h v
  | answered {owner : ClassId} {f : Lookup} {id : Value} {a : Address} :
      g.lookupOf? cls = some (owner, f) → f id = some (.entity a) → Found g cls h (.object a)

/-! #### What loading can do -/

section

variable {enter seek load : ClassId → Value → Action Value} {t : Target} {id v : Value}
  {s' : Session}

/-- **To fetch is to have nothing, or to seek** under the class that the target is. -/
theorem fetchWith_cases (fetched : outcome (Checker.fetchWith seek t raw) s = (.ok v, s')) :
    (v = .null ∧ s' = s) ∨ ∃ cls, s.catalog.resolve t = .ok cls ∧
      outcome (seek cls (Checker.payloadId s raw)) s = (.ok v, s') := by
  rw [Checker.fetchWith] at fetched
  split at fetched
  · rw [outcome_get_bind] at fetched
    dsimp only at fetched
    split at fetched
    · cases fetched
      exact .inl ⟨rfl, rfl⟩
    · obtain ⟨cls, resolved, fetched⟩ := outcome_ofExcept_bind_eq_ok fetched
      obtain ⟨_, s₁, written, fetched⟩ := outcome_bind_eq_ok fetched
      obtain ⟨_, -, done⟩ := outcome_ofExcept_bind_eq_ok written
      cases done
      exact .inr ⟨cls, resolved, fetched⟩
  · cases fetched
    exact .inl ⟨rfl, rfl⟩

/-- **To enter a reference is to take the raw value as it is, or to enter** the class that the
target is. -/
theorem enterWith_cases (entered : outcome (Checker.enterWith enter t raw) s = (.ok v, s')) :
    (v = raw ∧ s' = s) ∨ ∃ cls, s.catalog.resolve t = .ok cls ∧
      outcome (enter cls raw) s = (.ok v, s') := by
  rw [Checker.enterWith] at entered
  split at entered
  · next null =>
    cases entered
    exact .inl ⟨(Value.eq_null_of_isNull null).symm, rfl⟩
  · rw [outcome_get_bind] at entered
    obtain ⟨cls, resolved, entered⟩ := outcome_ofExcept_bind_eq_ok entered
    split at entered
    · split at entered
      · cases entered
        exact .inl ⟨rfl, rfl⟩
      · exact .inr ⟨cls, resolved, entered⟩
    · exact .inr ⟨cls, resolved, entered⟩

/-- **To find is to answer, or to load the record that is there**, if there is one. -/
theorem findWith_cases (found : outcome (findWith load cls id) s = (.ok v, s')) :
    (∃ own, s.catalog.lookupOf? cls = some own ∧ outcome (answer cls (own.2 id))
      { s with lookups := s.lookups ++ [⟨cls, id, s.now⟩] } = (.ok v, s')) ∨
    ∃ s₁, s.Opens s₁ ∧ ((v = .null ∧ s' = s₁) ∨
      ∃ r d s₂, s.Has r ∧ s₁.Gives r d s₂ ∧ outcome (load cls d) s₂ = (.ok v, s')) := by
  rw [findWith, outcome_get_bind] at found
  dsimp only at found
  cases hown : s.catalog.lookupOf? cls with
  | some own =>
    rw [hown] at found
    exact .inl ⟨own, rfl, found⟩
  | none =>
    rw [hown] at found
    obtain ⟨st, s₁, hst, found⟩ := outcome_bind_eq_ok found
    obtain ⟨name, s₂, hname, found⟩ := outcome_bind_eq_ok found
    obtain ⟨record?, s₃, read, found⟩ := outcome_bind_eq_ok found
    have opens : s.Opens s₁ := by
      have := (apart_storeOf cls s).opens
      rwa [hst] at this
    rw [outcome_textOf] at hname
    obtain ⟨-, rfl⟩ := Prod.mk.inj hname
    obtain ⟨s₄, opens', given⟩ := exists_of_fetchRecord read
    refine .inr ⟨s₄, opens.trans opens', ?_⟩
    rcases given with ⟨rfl, rfl⟩ | ⟨r, d, hr, gives, rfl⟩
    · cases found
      exact .inl ⟨rfl, rfl⟩
    · exact .inr ⟨r, d, s₃, opens.has hr, gives, found⟩

end

/-! #### What loading keeps to -/

/-- Kinds of values that loading keeps to, in sessions as `S` says that go on as `R` says. -/
structure Keeps (R : Session → Session → Prop) (S : Session → Prop) (P : Heap → Value → Prop) :
    Prop where
  kept : ∀ s s', R s s' → S s → S s'
  mono : ∀ s s' v, R s s' → P s.heap v → P s'.heap v
  inert : ∀ h v, v.Inert → P h v
  items : ∀ h raw xs, P h raw → raw.items? = some xs → ∀ x ∈ xs, P h x
  entries : ∀ h raw es isEntity, P h raw → raw.toEntries isEntity = .ok es →
    ∀ e ∈ es, P h e.1 ∧ P h e.2
  list : ∀ h xs, (∀ x ∈ xs, P h x) → P h (.list xs)
  dict : ∀ h es, (∀ e ∈ es, P h e.1 ∧ P h e.2) → P h (.dict es)

namespace Keeps

variable {R : Session → Session → Prop} {S : Session → Prop} {P : Heap → Value → Prop}
  (keeps : Keeps R S P) {h h' : Heap}

include keeps

theorem itemsOf {xs : List Value} (hraw : P h raw) (hxs : Checker.itemsOf raw = .ok xs) :
    ∀ x ∈ xs, P h x := by
  rcases Checker.itemsOf_cases hxs with rfl | ⟨-, hitems⟩
  · exact List.forall_mem_nil _
  · exact keeps.items h raw xs hraw hitems

theorem entriesOf {es : Entries} (hraw : P h raw) (hes : Checker.entriesOf h' raw = .ok es) :
    ∀ e ∈ es, P h e.1 ∧ P h e.2 := by
  unfold Checker.entriesOf at hes
  split at hes
  · cases hes
    exact List.forall_mem_nil _
  · exact keeps.entries h raw es _ hraw hes

/-- The raw value of a field is as the raw data are. -/
theorem rawField {name : String} {x : Value} (hraw : P h raw)
    (hx : Loading.rawField raw name = .ok x) : P h x := by
  have null : P h .null := keeps.inert h _ Value.inert_null
  unfold Loading.rawField at hx
  split at hx
  · next es hes =>
    cases hx
    have mapping : raw.toEntries (fun _ => false) = .ok es := by rw [Value.toEntries, hes]
    exact Entries.getStr_of_forall null
      (fun e he => (keeps.entries h raw es _ hraw mapping e he).2) name
  · split at hx
    · cases hx
    · cases hx
      exact null

variable [Onward R] {enter seek : ClassId → Value → Action Value}
  (henter : ∀ cls raw s, S s → P s.heap raw → Yields R P (enter cls raw) s)
  (hseek : ∀ cls id s, S s → Yields R P (seek cls id) s)

include henter hseek in
/-- **What is loaded of a raw value is as the raw value is**, if what is entered and sought is. -/
theorem yields_loadWith : (c : Checker) → (raw : Value) → (s : Session) → S s → P s.heap raw →
    Yields R P (Checker.loadWith enter seek c raw) s
  | .arrayOf e _, raw, s, hs, hraw => by
    refine (yields_ofExcept (F := fun h xs => ∀ x ∈ xs, P h x) fun xs hxs =>
      keeps.itemsOf hraw hxs).bind fun xs s₁ later hxs => ?_
    refine (yields_gather keeps.mono fun x hx s₂ later' => ?_).bind fun vs s₂ _ hvs =>
      yields_pure (keeps.list s₂.heap vs hvs)
    exact yields_loadWith e x s₂ (keeps.kept _ _ (Onward.trans later later') hs)
      (keeps.mono _ _ x later' (hxs x hx))
  | .dictOf e _, raw, s, hs, hraw => by
    refine yields_get_bind ((yields_ofExcept (F := fun h (es : Entries) =>
      ∀ e ∈ es, P h e.1 ∧ P h e.2) fun es hes => keeps.entriesOf hraw hes).bind
        fun es s₁ later hes => ?_)
    refine (yields_gather keeps.mono fun p hp s₂ later' => ?_).bind fun vs s₂ later' hvs =>
      yields_pure (keeps.dict s₂.heap _ fun p hp => ?_)
    · exact yields_loadWith e p.2 s₂ (keeps.kept _ _ (Onward.trans later later') hs)
        (keeps.mono _ _ p.2 later' (hes p hp).2)
    · obtain ⟨hkey, hvalue⟩ := List.of_mem_zip hp
      obtain ⟨q, hq, heq⟩ := List.mem_map.1 hkey
      exact ⟨heq ▸ keeps.mono _ _ q.1 later' (hes q hq).1, hvs p.2 hvalue⟩
  | .reference t eager _, raw, s, hs, hraw => by
    rw [Checker.loadWith]
    split
    · intro v s' fetched
      rcases fetchWith_cases fetched with ⟨rfl, rfl⟩ | ⟨cls, -, sought⟩
      · exact ⟨Onward.refl s', keeps.inert _ _ Value.inert_null⟩
      · exact hseek cls _ s hs v s' sought
    · intro v s' loaded
      rcases enterWith_cases loaded with ⟨rfl, rfl⟩ | ⟨cls, -, entered⟩
      · exact ⟨Onward.refl s', hraw⟩
      · exact henter cls raw s hs hraw v s' entered
  | .date _, raw, s, _, hraw => by
    refine yields_get_bind (yields_ofExcept fun v hv => ?_)
    rcases Value.eq_or_exists_of_toMoment hv with rfl | ⟨m, rfl⟩
    · exact hraw
    · exact keeps.inert _ _ (Value.inert_moment m)
  | .scalar _ _ _, _, _, _, hraw | .shape _ _, _, _, _, hraw => yields_pure hraw

end Keeps

/-- Of what is loaded nothing is asked where a session persists. -/
theorem keeps_any (g : Catalog) : Keeps Persists (fun s => s.catalog = g) Any where
  kept _ _ later hs := later.catalog.trans hs
  mono _ _ _ _ _ := trivial
  inert _ _ _ := trivial
  items _ _ _ _ _ _ _ := trivial
  entries _ _ _ _ _ _ _ _ := ⟨trivial, trivial⟩
  list _ _ _ := trivial
  dict _ _ _ := trivial

/-! #### What is found and loaded -/

/-- **To find is to have nothing, or an entity of the class**, or one that the class's own lookup
answers with. -/
theorem yields_findWith (hg : g.WellFormed) {load : ClassId → Value → Action Value}
    (hload : ∀ cls raw s, s.catalog = g → Yields Persists (Heap.EntityOf cls) (load cls raw) s)
    (cls : ClassId) (id : Value) (hs : s.catalog = g) :
    Yields Persists (Found g cls) (findWith load cls id) s := by
  have made {a : Action Value} {s₁ : Session} (ha : Yields Persists (Heap.EntityOf cls) a s₁) :
      Yields Persists (Found g cls) a s₁ := ha.imp fun _ _ => .made
  intro v s' found
  rcases findWith_cases found with
    ⟨own, hown, answered⟩ | ⟨s₁, opens, ⟨rfl, rfl⟩ | ⟨r, d, s₂, -, gives, loaded⟩⟩
  · unfold answer at answered
    rw [hs] at hown
    have noted : s.Persists { s with lookups := s.lookups ++ [⟨cls, id, s.now⟩] } := ⟨rfl, .refl _⟩
    cases hid : own.2 id with
    | none =>
      rw [hid] at answered
      cases answered
      exact ⟨noted, .nothing⟩
    | some told =>
      rw [hid] at answered
      cases told with
      | raw data =>
        dsimp only at answered
        rw [outcome_get_bind] at answered
        obtain ⟨later, found⟩ := made (yields_ofRaw (hs ▸ hg) cls data _) v s' answered
        exact ⟨noted.trans later, hs ▸ found⟩
      | entity a =>
        cases answered
        exact ⟨noted, .answered hown hid⟩
  · exact ⟨opens.persists, .nothing⟩
  · have given : s₁.Persists s₂ := by
      cases gives with
      | data => exact .refl _
      | copy => exact persists_of_grown (List.prefix_append ..)
    have reached := opens.persists.trans given
    obtain ⟨later, found⟩ := made (hload cls d s₂ (reached.catalog.trans hs)) v s' loaded
    exact ⟨reached.trans later, found⟩

/-- A field is filled. -/
theorem yields_settle (a : Address) (name : String) (x : Value) (s : Session) :
    Yields Persists Any (settle a name x) s := by
  intro _ s' hset
  rw [outcome_settle] at hset
  cases hset
  exact ⟨⟨rfl, Heap.sameEntities_settle s.heap a name x⟩, trivial⟩

/-- Whatever is loaded for the fields of an entity, the session persists. -/
theorem yields_loadFields {value : Checker → Value → Action Value}
    (hvalue : ∀ c raw s, s.catalog = g → Yields Persists Any (value c raw) s) (a : Address)
    (raw : Value) :
    ∀ (fs : Schema) {s : Session}, s.catalog = g → Yields Persists Any (loadFields value a raw fs) s
  | [], _, _ => yields_pure trivial
  | (name, c) :: fs, s, hs => by
    have rest := fun (s₁ : Session) (later : s.Persists s₁) =>
      yields_loadFields hvalue a raw fs (later.catalog.trans hs)
    rw [loadFields]
    split
    · refine (yields_any_ofExcept _ s).bind fun x s₁ later _ => ?_
      refine (hvalue c x s₁ (later.catalog.trans hs)).bind fun y s₂ later' _ => ?_
      refine (yields_settle a name y s₂).bind fun _ s₃ later'' _ => ?_
      exact rest s₃ ((later.trans later').trans later'')
    · exact rest s (.refl s)

/-- **To load is to have an entity of the class**, whatever the stores hold and whatever the
bound. -/
theorem yields_loadWithin (hg : g.WellFormed) : ∀ (fuel : Nat) (cls : ClassId) (raw : Value)
    (s : Session), s.catalog = g → Yields Persists (Heap.EntityOf cls) (loadWithin fuel cls raw) s
  | 0, _, _, s, _ => yields_throw _ s
  | fuel + 1, cls, raw, s, hs => by
    have within := yields_loadWithin hg fuel
    rw [loadWithin]
    refine yields_get_bind ?_
    rw [hs]
    refine (yields_ofRaw hg cls raw s).bind ?_
    rintro _ s₁ later ⟨a, rfl, species⟩
    have parts := fun c raw s hs => (keeps_any g).yields_loadWith
      (fun cls raw s hs _ => (within cls raw s hs).imp fun _ _ _ => trivial)
      (fun cls id s hs => (yields_findWith hg within cls id hs).imp fun _ _ _ => trivial) c raw s hs
      trivial
    have filled := yields_loadFields parts a raw (g.schemaOf cls) (later.catalog.trans hs)
    refine filled.bind fun _ s₂ later' _ => ?_
    exact yields_pure ⟨a, rfl, later'.entities a cls species⟩

end Loading

end EntitySchema
