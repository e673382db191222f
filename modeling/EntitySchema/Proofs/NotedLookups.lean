/-
**One lookup for each reference.**

A class may have a lookup of its own, which answers instead of the store and is noted.  If all
classes that eager references are to have one, then loading makes just the lookups that the raw data
ask for:  one for each payload of an eager reference that carries an identifier, in the order in
which the payloads stand there.  No payload is looked up twice, although an embedded entity is
constructed with the one around it and then again when it is loaded; and what is found is not loaded
in turn.

Main definitions:

* `Checker.eagerRefs`, `Catalog.eagerRefs` — **the references to look up, read off the raw data**;
* `Catalog.Answers` — a class whose eager references are all answered by lookups of classes;
* `Session.noted` — the lookups noted in a session;
* `Loading.Asks` — an action that makes these lookups.

Main results:

* `Loading.Asks.gather`, `Loading.asks_loadWith` — containers and raw values;
* `Loading.asks_loadWithin` — entities, whatever the bound;
* `Loading.noted_of_load` — **a loading makes one lookup for each reference, and a construction
  makes none.**
-/

import EntitySchema.Proofs.StoredLookups
import EntitySchema.Proofs.StoreWork

set_option autoImplicit false

namespace EntitySchema

/-! ### The references to look up -/

namespace Checker

section

variable (g : Catalog) (enter : ClassId → Value → List (ClassId × Value))

/-- The references to look up that a checker meets in a raw value, in order: the class and the
identifier of each payload of an eager reference that is a mapping with an identifier.  For embedded
entities they are what `enter` tells. -/
def eagerRefs : Checker → Value → List (ClassId × Value)
  | .arrayOf e _, raw => ((itemsOf raw).toOption.getD []).flatMap fun x => eagerRefs e x
  | .dictOf e _, raw =>
    ((entriesOf [] raw).toOption.getD []).flatMap fun p => eagerRefs e p.2
  | .reference t eager _, raw =>
    match g.resolve t with
    | .error _ => []
    | .ok cls =>
      if eager.truthy then
        if (identifierIn raw).isNull then [] else [(cls, identifierIn raw)]
      else if raw.isNull then [] else enter cls raw
  | _, _ => []

end

/-- What does not produce entities meets no references. -/
theorem eagerRefs_of_plain {g : Catalog} {enter : ClassId → Value → List (ClassId × Value)} :
    (c : Checker) → c.producesEntity = false → (raw : Value) → eagerRefs g enter c raw = []
  | .scalar _ _ _, _, _ => rfl
  | .date _, _, _ => rfl
  | .shape _ _, _, _ => rfl
  | .arrayOf e _, hp, _ => List.flatMap_eq_nil_iff.2 fun x _ => eagerRefs_of_plain e hp x
  | .dictOf e _, hp, _ => List.flatMap_eq_nil_iff.2 fun p _ => eagerRefs_of_plain e hp p.2

end Checker

namespace Catalog

variable (g : Catalog)

/-- The references to look up that stand in the raw data of an entity, through at most `fuel`
entities one inside the other. -/
def eagerRefs : Nat → ClassId → Value → List (ClassId × Value)
  | 0, _, _ => []
  | fuel + 1, cls, raw => (g.schemaOf cls).flatMap fun f =>
      Checker.eagerRefs g (eagerRefs fuel) f.2 (Entries.getStr (raw.entries?.getD []) f.1)

/-- Entities of one class have entities of another embedded in them. -/
def Encloses (c d : ClassId) : Prop :=
  ∃ f ∈ g.schemaOf c, f.2.deferred = false ∧ ∃ t, f.2.target? = some t ∧ g.resolve t = .ok d

/-- For a class, and for all whose entities are embedded in its own at any depth, the classes that
eager references are to have lookups. -/
def Answers (cls : ClassId) : Prop :=
  ∀ c, Relation.ReflTransGen g.Encloses cls c → ∀ f ∈ g.schemaOf c, f.2.deferred = true →
    ∀ t d, f.2.target? = some t → g.resolve t = .ok d → (g.lookupOf? d).isSome = true

/-- A checker whose references are answered: an eager one is to a class that has a lookup, and what
another embeds is answered in turn. -/
def CheckerAnswers (c : Checker) : Prop :=
  ∀ t d, c.target? = some t → g.resolve t = .ok d →
    if c.deferred then (g.lookupOf? d).isSome = true else g.Answers d

variable {g}

/-- The references of the fields of a class are answered if those of the class are. -/
theorem Answers.field {cls : ClassId} (h : g.Answers cls) {f : String × Checker}
    (hf : f ∈ g.schemaOf cls) : g.CheckerAnswers f.2 := by
  intro t d ht hd
  cases hdef : f.2.deferred with
  | true => exact h cls .refl f hf hdef t d ht hd
  | false =>
    have step : g.Encloses cls d := ⟨f, hf, hdef, t, ht, hd⟩
    exact fun c hc => h c (.head step hc)

/-- Where all references of all classes are answered, so are those that can be met. -/
theorem answers_of_classes (h : ∀ cls ∈ g.classes, ∀ f ∈ cls.schema, f.2.deferred = true →
    ∀ t ∈ f.2.target?, ((g.resolve t).toOption.all fun d => (g.lookupOf? d).isSome) = true)
    (cls : ClassId) : g.Answers cls := by
  intro c _ f hf hdef t d ht hd
  rw [schemaOf] at hf
  cases hc : g.classes[c]? with
  | none =>
    rw [hc] at hf
    cases hf
  | some cls' =>
    rw [hc] at hf
    have answered := h cls' (List.mem_of_getElem? hc) f hf hdef t ht
    rwa [hd] at answered

end Catalog

/-! ### Noted lookups -/

/-- The lookups noted in a session, in the order in which they were made: which class was asked, and
for which identifier. -/
def Session.noted (s : Session) : List (ClassId × Value) := s.lookups.map fun n => (n.cls, n.id)

namespace Loading

variable {g : Catalog}

/-- Where an action has a result, it has made the lookups of these references, in order, and no
others. -/
def Asks {α : Type} (g : Catalog) (a : Action α) (refs : List (ClassId × Value)) : Prop :=
  ∀ s v s', s.catalog = g → Session.outcome a s = (.ok v, s') →
    s'.catalog = g ∧ s'.noted = s.noted ++ refs

section

variable {α β : Type}

theorem asks_pure (x : α) : Asks g (pure x : Action α) [] := by
  intro s v s' hs h
  cases h
  exact ⟨hs, (List.append_nil _).symm⟩

/-- Of two actions the second makes its lookups after those of the first. -/
theorem Asks.bind {a : Action α} {f : α → Action β} {refs refs' : List (ClassId × Value)}
    (ha : Asks g a refs) (hf : ∀ x, Asks g (f x) refs') : Asks g (a >>= f) (refs ++ refs') := by
  intro s v s' hs h
  obtain ⟨x, s₁, hx, h⟩ := Session.outcome_bind_eq_ok h
  obtain ⟨hs₁, first⟩ := ha s x s₁ hs hx
  obtain ⟨hs', second⟩ := hf x s₁ v s' hs₁ h
  exact ⟨hs', by rw [second, first, List.append_assoc]⟩

/-- What has no effect makes no lookup; what is done after it may depend on its result. -/
theorem asks_ofExcept_bind {e : Except Failure α} {f : α → Action β}
    {refs : List (ClassId × Value)} (hf : ∀ x, e = .ok x → Asks g (f x) refs) :
    Asks g (Session.ofExcept e >>= f) refs := by
  intro s v s' hs h
  obtain ⟨x, hx, h⟩ := Session.outcome_ofExcept_bind_eq_ok h
  exact hf x hx s v s' hs h

/-- What is done may depend on the session. -/
theorem asks_get {f : Session → Action α} {refs : List (ClassId × Value)}
    (hf : ∀ s, s.catalog = g → Asks g (f s) refs) : Asks g (get >>= f) refs :=
  fun s v s' hs h => hf s hs s v s' hs h

/-- A computation on the heap makes no lookup. -/
theorem asks_build (b : Build α) : Asks g (Session.build b) [] := by
  intro s v s' hs h
  obtain ⟨h', -, rfl⟩ := Session.exists_of_outcome_build h
  exact ⟨hs, (List.append_nil _).symm⟩

/-- Actions one after the other make their lookups one after the other. -/
theorem Asks.runs {f : α → Action β} {refs : α → List (ClassId × Value)} {xs : List α}
    (hf : ∀ x ∈ xs, Asks g (f x) (refs x)) {s s' : Session} {ys : List β} (hs : s.catalog = g)
    (h : Session.Runs f s xs ys s') :
    s'.catalog = g ∧ s'.noted = s.noted ++ xs.flatMap refs := by
  induction h with
  | nil s => exact ⟨hs, (List.append_nil _).symm⟩
  | @cons s s₁ s₂ now x y xs ys hx _ ih =>
    obtain ⟨hfx, hfxs⟩ := List.forall_mem_cons.1 hf
    obtain ⟨hs₁, first⟩ := hfx { s with now := now } _ _ hs hx
    obtain ⟨hs₂, rest⟩ := ih hfxs hs₁
    refine ⟨hs₂, ?_⟩
    have start : Session.noted { s with now := now } = s.noted := rfl
    rw [rest, first, start, List.flatMap_cons, List.append_assoc]

/-- **Actions side by side** make the lookups of all of them. -/
theorem Asks.gather {f : α → Action β} {refs : α → List (ClassId × Value)} {xs : List α}
    (hf : ∀ x ∈ xs, Asks g (f x) (refs x)) :
    Asks g (Session.gather f xs) (xs.flatMap refs) := by
  intro s ys s' hs h
  obtain ⟨s₁, runs, hs'⟩ := Session.runs_of_gather h
  obtain ⟨hs₁, noted⟩ := Asks.runs hf hs runs
  rw [hs']
  exact ⟨hs₁, noted⟩

end

/-! ### Loading of raw values -/

section

variable {enter seek : ClassId → Value → Action Value}
  {enterRefs : ClassId → Value → List (ClassId × Value)}

/-- An eager reference looks up the identifier in its payload, if there is one. -/
theorem asks_fetchWith {t : Target} {e : Value} (he : e.truthy = true) (r : Bool)
    (hseek : ∀ cls id, g.resolve t = .ok cls → Asks g (seek cls id) [(cls, id)]) {raw : Value}
    (hraw : raw.Inert) : Asks g (Checker.fetchWith seek t raw)
      (Checker.eagerRefs g enterRefs (.reference t e r) raw) := by
  intro s v s' hs h
  have absent : (Checker.identifierIn raw).isNull = true →
      Checker.eagerRefs g enterRefs (.reference t e r) raw = [] := by
    intro hn
    rw [Checker.eagerRefs]
    cases g.resolve t with
    | error f => rfl
    | ok cls => simp only [he, hn, if_true]
  rw [Checker.outcome_fetchWith hs hraw] at h
  cases hn : (Checker.identifierIn raw).isNull with
  | true =>
    rw [hn, if_pos rfl] at h
    rw [absent hn]
    exact asks_pure _ s v s' hs h
  | false =>
    rw [hn, if_neg Bool.false_ne_true] at h
    obtain ⟨cls, hcls, h⟩ := Session.outcome_ofExcept_bind_eq_ok h
    have one : Checker.eagerRefs g enterRefs (.reference t e r) raw =
        [(cls, Checker.identifierIn raw)] := by
      rw [Checker.eagerRefs, hcls]
      simp only [he, hn, if_true, Bool.false_eq_true, if_false]
    rw [one]
    exact hseek cls _ hcls s v s' hs h

/-- An embedded reference makes the lookups of the entity that it embeds. -/
theorem asks_enterWith {t : Target} {e : Value} (he : e.truthy = false) (r : Bool)
    {raw : Value} (henter : ∀ cls, g.resolve t = .ok cls → raw.isNull = false →
      Asks g (enter cls raw) (enterRefs cls raw)) (hraw : raw.Inert) :
    Asks g (Checker.enterWith enter t raw)
      (Checker.eagerRefs g enterRefs (.reference t e r) raw) := by
  intro s v s' hs h
  rw [Checker.outcome_enterWith hs hraw.ne_object] at h
  cases hn : raw.isNull with
  | true =>
    have none : Checker.eagerRefs g enterRefs (.reference t e r) raw = [] := by
      rw [Checker.eagerRefs]
      cases g.resolve t with
      | error f => rfl
      | ok cls => simp only [he, hn, if_true, Bool.false_eq_true, if_false]
    rw [hn, if_pos rfl] at h
    rw [none]
    exact asks_pure _ s v s' hs h
  | false =>
    rw [hn, if_neg Bool.false_ne_true] at h
    obtain ⟨cls, hcls, h⟩ := Session.outcome_ofExcept_bind_eq_ok h
    have inside : Checker.eagerRefs g enterRefs (.reference t e r) raw = enterRefs cls raw := by
      rw [Checker.eagerRefs, hcls]
      simp only [he, hn, Bool.false_eq_true, if_false]
    rw [inside]
    exact henter cls hcls hn s v s' hs h

/-- **Loading of a raw value makes the lookups that stand there**, if loading of entities does. -/
theorem asks_loadWith (hseek : ∀ cls id, (g.lookupOf? cls).isSome = true →
      Asks g (seek cls id) [(cls, id)]) : (c : Checker) → c.producesEntity = true →
    g.CheckerAnswers c → (raw : Value) → raw.Inert →
    (∀ cls x, g.Answers cls → x.Inert → raw.isNull = false → x.depth ≤ raw.depth →
      Asks g (enter cls x) (enterRefs cls x)) →
    Asks g (Checker.loadWith enter seek c raw) (Checker.eagerRefs g enterRefs c raw)
  | .reference t e r, _, answers, raw, hraw, henter => by
    rw [Checker.loadWith]
    cases he : e.truthy with
    | true =>
      rw [if_pos rfl]
      refine asks_fetchWith he r (fun cls id hcls => hseek cls id ?_) hraw
      simpa only [Checker.deferred, he, if_true] using answers t cls rfl hcls
    | false =>
      rw [if_neg Bool.false_ne_true]
      refine asks_enterWith he r (fun cls hcls hn => henter cls raw ?_ hraw hn le_rfl) hraw
      simpa only [Checker.deferred, he, Bool.false_eq_true, if_false] using answers t cls rfl hcls
  | .arrayOf e r, hprod, answers, raw, hraw, henter => by
    have hp : e.producesEntity = true := hprod
    rw [Checker.loadWith, Checker.eagerRefs]
    refine asks_ofExcept_bind fun items hitems => ?_
    rw [hitems, Except.toOption, Option.getD_some, ← List.append_nil (items.flatMap _)]
    refine (Asks.gather fun x hx => ?_).bind fun _ => asks_pure _
    obtain ⟨there, deep⟩ := Checker.depth_of_itemsOf hitems hx
    exact asks_loadWith hseek e hp answers x (Checker.inert_of_itemsOf hraw hitems x hx)
      fun cls y hy inert _ hle => henter cls y hy inert there (hle.trans deep)
  | .dictOf e r, hprod, answers, raw, hraw, henter => by
    have hp : e.producesEntity = true := hprod
    rw [Checker.loadWith, Checker.eagerRefs]
    refine asks_get fun s _ => asks_ofExcept_bind fun es hes => ?_
    rw [Checker.entriesOf_of_inert hraw [] s.heap, hes, Except.toOption, Option.getD_some,
      ← List.append_nil (es.flatMap _)]
    refine (Asks.gather fun p hmem => ?_).bind fun _ => asks_pure _
    obtain ⟨there, deep⟩ := Checker.depth_of_entriesOf hes hmem
    exact asks_loadWith hseek e hp answers p.2
      (Value.inert_dict_iff.1 (Checker.inert_of_entriesOf hraw hes) p hmem).2
      fun cls y hy inert _ hle => henter cls y hy inert there (hle.trans deep.le)

end

/-! ### Loading of entities -/

/-- A class that has a lookup is asked once, and nothing is looked up for what it answers. -/
theorem asks_findWith (load : ClassId → Value → Action Value) {cls : ClassId}
    (own : (g.lookupOf? cls).isSome = true) (id : Value) :
    Asks g (findWith load cls id) [(cls, id)] := by
  obtain ⟨⟨owner, f⟩, hf⟩ := Option.isSome_iff_exists.1 own
  have noted : Asks g (Session.note cls id) [(cls, id)] := by
    intro s v s' hs h
    cases h
    refine ⟨hs, ?_⟩
    simp [Session.noted]
  have answered : Asks g (answer cls (f id)) [] := by
    unfold answer
    cases f id with
    | none => exact asks_pure _
    | some found =>
      cases found with
      | raw data => exact asks_get fun s _ => asks_build _
      | entity a => exact asks_pure _
  have both := noted.bind fun _ => answered
  refine asks_get fun s hs => ?_
  dsimp only
  rw [hs, hf]
  exact both

/-- A field is settled without a lookup. -/
theorem asks_settle (a : Address) (name : String) (x : Value) : Asks g (settle a name x) [] := by
  intro s v s' hs h
  rw [outcome_settle] at h
  cases h
  exact ⟨hs, (List.append_nil _).symm⟩

/-- The fields of an entity make the lookups that stand in its raw data, one field after the
other. -/
theorem asks_loadFields {value : Checker → Value → Action Value} {raw : Value} (a : Address)
    {refs : Checker → Value → List (ClassId × Value)} {fs : Schema}
    (plain : ∀ f ∈ fs, f.2.producesEntity = false → ∀ x, refs f.2 x = [])
    (hvalue : ∀ f ∈ fs, f.2.producesEntity = true → ∀ x, rawField raw f.1 = .ok x →
      Asks g (value f.2 x) (refs f.2 (Entries.getStr (raw.entries?.getD []) f.1))) :
    Asks g (loadFields value a raw fs)
      (fs.flatMap fun f => refs f.2 (Entries.getStr (raw.entries?.getD []) f.1)) := by
  induction fs with
  | nil => exact asks_pure _
  | cons f fs ih =>
    obtain ⟨hf, hfs⟩ := List.forall_mem_cons.1 hvalue
    obtain ⟨hplain, plain⟩ := List.forall_mem_cons.1 plain
    have rest := ih plain hfs
    rw [loadFields, List.flatMap_cons]
    cases hp : f.2.producesEntity with
    | false =>
      rw [hplain hp, List.nil_append, if_neg Bool.false_ne_true]
      exact rest
    | true =>
      rw [if_pos rfl]
      refine asks_ofExcept_bind fun x hx => (hf hp x hx).bind fun y => ?_
      exact (asks_settle a f.1 y).bind fun _ => rest


/-- The raw value of a field is the one in the entries, and absent where there are none. -/
theorem eq_of_rawField {raw : Value} {name : String} {x : Value} (h : rawField raw name = .ok x) :
    x = Entries.getStr (raw.entries?.getD []) name := by
  unfold rawField at h
  cases hes : raw.entries? with
  | some es =>
    rw [hes] at h
    exact (Except.ok.inj h).symm
  | none =>
    rw [hes] at h
    dsimp only at h
    split at h
    · cases h
    · exact (Except.ok.inj h).symm

/-- **Loading of an entity makes the lookups that stand in its raw data**, whatever the bound. -/
theorem asks_loadWithin : ∀ (fuel : Nat) (cls : ClassId) (raw : Value), g.Answers cls → raw.Inert →
    ∀ m, raw.depth ≤ m → Asks g (loadWithin fuel cls raw) (g.eagerRefs m cls raw)
  | 0, _, _, _, _, _, _ => fun _ _ _ _ h => nomatch h
  | fuel + 1, cls, raw, answers, hraw, m, hm => by
    obtain ⟨m, rfl⟩ : ∃ k, m = k + 1 := ⟨m - 1, by have := raw.depth_pos; omega⟩
    have inert : (Value.dict (raw.entries?.getD [])).Inert := by
      cases hes : raw.entries? with
      | none => exact Value.inert_dict_iff.2 (List.forall_mem_nil _)
      | some es => exact hraw.entries hes
    have within : ∀ {name : String}, (Entries.getStr (raw.entries?.getD []) name).isNull = false →
        (Entries.getStr (raw.entries?.getD []) name).depth ≤ m := by
      intro name hn
      have deep := Entries.depth_getStr_le hn
      cases hes : raw.entries? with
      | none =>
        rw [hes] at hn
        cases hn
      | some es =>
        rw [hes] at deep
        have made : raw.toEntries (fun _ => false) = .ok es := by rw [Value.toEntries, hes]
        have less := Value.depthEntries_lt_of_toEntries made
        simp only [Option.getD_some] at deep ⊢
        omega
    have fields : ∀ a, Asks g
        (loadFields (Checker.loadWith (loadWithin fuel) (findWith (loadWithin fuel))) a raw
          (g.schemaOf cls))
        ((g.schemaOf cls).flatMap fun f => Checker.eagerRefs g (g.eagerRefs m) f.2
          (Entries.getStr (raw.entries?.getD []) f.1)) := by
      intro a
      refine asks_loadFields a (fun f _ hp x => Checker.eagerRefs_of_plain f.2 hp x) ?_
      intro f hf hp x hx
      rw [eq_of_rawField hx]
      exact asks_loadWith (fun d id own => asks_findWith _ own id) f.2 hp (answers.field hf) _
        (Value.inert_getStr inert f.1) fun d y hd hy hn hle =>
          asks_loadWithin fuel d y hd hy m (hle.trans (within hn))
    intro s v s' hs h
    rw [loadWithin, Session.outcome_get_bind, hs] at h
    obtain ⟨w, s₁, hw, h⟩ := Session.outcome_bind_eq_ok h
    obtain ⟨h₁, hbuilt, rfl⟩ := Session.exists_of_outcome_build hw
    obtain ⟨a, rfl⟩ := Construction.exists_of_ofRaw hbuilt
    rw [← List.append_nil (g.eagerRefs (m + 1) cls raw)]
    exact ((fields a).bind fun _ => asks_pure (.object a)) { s with heap := h₁ } v s' hs h

/-- **A loading makes one lookup for each reference, and a construction makes none.**  Where the
classes that eager references are to have lookups, and a loading has a result, the lookups that it
has made are those of the classes and identifiers of the payloads of eager references that carry an
identifier, at any depth, each once and in order. -/
theorem noted_of_load {cls : ClassId} {raw : Value} {s : Session} (answers : g.Answers cls)
    (hs : s.catalog = g) (hraw : raw.Inert) :
    (∀ v s', Session.outcome (load cls raw) s = (.ok v, s') →
      s'.noted = s.noted ++ g.eagerRefs raw.depth cls raw) ∧
    (Session.outcome (Session.build (Construction.ofRaw g cls raw)) s).2.lookups = s.lookups := by
  refine ⟨fun v s' h => ?_, ?_⟩
  · rw [load, Session.outcome_get_bind, Session.outcome_arrange] at h
    have opens := (Session.opens_arranged s (Session.firstRequest?
      (loadWithin (bound s .null + made s cls raw) cls raw) s)).1
    obtain ⟨-, noted⟩ := asks_loadWithin _ cls raw answers hraw raw.depth le_rfl _ _ _
      (opens.catalog.trans hs) h
    rw [noted, Session.noted, Session.noted, opens.lookups]
  · rw [Session.build, Session.outcome_get_bind]
    cases Construction.ofRaw g cls raw s.heap <;> rfl

/-- A class of people, who are looked up by the class itself; a class of rooms, which have a keeper;
and a class of teams, which have a lead, members, and rooms under names. -/
def offices : Catalog where
  classes := Catalog.initial.classes ++
    [⟨"Person", "Person", [1, 0], [("name", Checker.string)],
        some (Lookup.ofRecords [(.str "a", .dict [(.str "name", .str "ann")])]), none⟩,
      ⟨"Room", "Room", [2, 0], [("keeper", .reference (.cls 1) (.bool true) false)], none, none⟩,
      ⟨"Team", "Team", [3, 0],
        [("lead", .reference (.named "Person") (.bool true) false),
          ("members", .arrayOf (.reference (.cls 1) (.bool true) false) false),
          ("rooms", .dictOf (.reference (.cls 2) (.bool false) false) false)], none, none⟩]
  names := [("Person", 1)]

/-- A team with a lead, with three members one of whom is nobody and one of whom is not told, and
with a room the keeper of which is somebody else. -/
def rawTeam : Value :=
  .dict [(.str "lead", .dict [(.str "_id", .str "a"), (.str "name", .str "x")]),
    (.str "members", .list [.dict [(.str "_id", .str "a")], .null, .dict []]),
    (.str "rooms", .dict [(.str "one", .dict [(.str "keeper", .dict [(.str "_id", .str "b")])])])]

theorem answers_offices : offices.Answers 3 := Catalog.answers_of_classes (by decide) 3

/-- The lead, a member and the keeper of a room are looked up, each once. -/
theorem noted_of_load_team : ∃ v s',
    Session.outcome (load 3 rawTeam) { Session.initial with catalog := offices } = (.ok v, s') ∧
      s'.noted = [(1, .str "a"), (1, .str "a"), (1, .str "b")] := by
  have made : (Session.outcome (load 3 rawTeam)
      { Session.initial with catalog := offices }).1.toBool = true := by decide +kernel
  obtain ⟨v, s', hv⟩ := Session.exists_of_toBool made
  have raw : rawTeam.Inert := (Value.isData_of_isPlain rawTeam (by decide)).inert
  exact ⟨v, s', hv, (noted_of_load answers_offices rfl raw).1 v s' hv⟩

end Loading

end EntitySchema
