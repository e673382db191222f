/-
**Drawing on a store in two runs.**

Two runs that draw on the same store find the same records in it, which are there in both of them
and are loaded alike, be they copied before or not.  So eager references are loaded alike where both
runs look the same up; and if failures may differ, where an identifier of one run finds what another
finds in the other run, or nothing is looked up in the second run where nothing is found in the
first.

What is known of what an eager reference makes is known of the record that is found, or of nothing.

Main definitions:

* `Catalog.FindsAlike` — **payloads under whose identifiers the same is found**;
* `Pairing.drawn` — runs that draw on a store;
* `Pairing.Recounts` — what is known of what eager references make.

Main results:

* `Session.outcome_findWith_of_draws` — finding in a session that draws on a store;
* `Pairing.fetches_drawn` — eager references;
* `Pairing.enters_drawn` — **loading keeps pace in runs that draw on the same store.**
-/

import EntitySchema.Proofs.HeldForms
import EntitySchema.Proofs.PairedLoading

set_option autoImplicit false

namespace EntitySchema

/-! ### Finding -/

namespace Session

variable {s : Session} {i : StoreId} {rs : List Record} {cls d : ClassId}

/-- The session after a store was asked for a record: a file takes two rounds. -/
def asked (s : Session) (i : StoreId) : Session :=
  { s with now := s.now.after (if s.inFile i then 2 else 0) }

/-- What is filed is found as it is kept. -/
theorem filedRecord_eq (h : s.Keeps i rs) (kind name : String) :
    outcome (filedRecord i (.str kind) (.str name)) s =
      (.ok ((MemoryStore.get? rs ⟨.text kind, name⟩).map .dict), s.asked i) := by
  have named : outcome (textOf (.str name)) s = (.ok name, s) := rfl
  rw [filedRecord, outcome_bind_ok named, outcome_get_bind, asked]
  cases h with
  | memory hm =>
    rw [store_eq hm, inFile_memory hm]
    rfl
  | file hf =>
    obtain ⟨path, link, hs⟩ := hf.store_file
    rw [hs, hf.inFile]
    simp only [outcome_bind_ok hf.rows]
    rw [Kind.bind, outcome_bind_ok (outcome_bound_ok _ _), outcome_wait_bind, FileTable.get?_some]
    rfl

/-- Loads what is kept under a key, if anything is: from memory a copy of it. -/
def loadKept (load : ClassId → Value → Action Value) (d : ClassId) (inFile : Bool)
    (kept? : Option Entries) : Action Value :=
  match kept? with
  | none => pure .null
  | some es => (if inFile then pure (.dict es) else copy (.dict es)) >>= load d

/-- **A class that draws on a store loads what the store keeps** under the kind of the class and the
text of the identifier. -/
theorem outcome_findWith_of_draws (load : ClassId → Value → Action Value)
    (draws : s.DrawsOn cls i rs)
    (hd : Relation.ReflTransGen s.catalog.Embeds cls d) (id : Value) :
    outcome (Loading.findWith load d id) s =
      match Method.toText s.catalog s.heap id with
      | .error e => (.error e, s)
      | .ok name => outcome (loadKept load d (s.inFile i)
          (MemoryStore.get? rs ⟨.text (s.catalog.kindOf d), name⟩)) (s.asked i) := by
  rw [Loading.findWith, outcome_get_bind]
  simp only [draws.own d hd, outcome_bind_ok (draws.uses d hd).storeOf]
  cases hname : Method.toText s.catalog s.heap id with
  | error e =>
    have text : outcome (textOf id) s = (.error e, s) := by rw [outcome_textOf, hname]
    exact outcome_bind_error text
  | ok name =>
    have text : outcome (textOf id) s = (.ok name, s) := by rw [outcome_textOf, hname]
    rw [outcome_bind_ok text, outcome_fetchRecord_bind,
      outcome_bind_ok (filedRecord_eq draws.keeps _ name)]
    dsimp only
    cases MemoryStore.get? rs ⟨.text (s.catalog.kindOf d), name⟩ <;> rfl

end Session

namespace Checker

/-- What counts as false carries no identifier. -/
theorem isNull_identifierOf_of_falsy (g : Catalog) (h : Heap) {raw : Value}
    (falsy : raw.truthy = false) : (identifierOf g h raw).isNull = true := by
  cases raw with
  | dict es | ordered es =>
    cases es with
    | nil => rfl
    | cons e es => cases falsy
  | object a | function a | cls c | method o n => cases falsy
  | _ => rfl

/-- An eager reference looks up the identifier that the payload carries, if there is one and it has
a written form. -/
theorem outcome_fetchWith_eq {g : Catalog} {s : Session} (hs : s.catalog = g)
    (seek : ClassId → Value → Action Value) (t : Target) (raw : Value) :
    Session.outcome (fetchWith seek t raw) s = Session.outcome (
      if (identifierOf g s.heap raw).isNull then pure .null else do
        let cls ← Session.ofExcept (g.resolve t)
        discard (Session.ofExcept (Method.write g s.heap (identifierOf g s.heap raw)))
        seek cls (identifierOf g s.heap raw)) s := by
  subst hs
  rw [fetchWith]
  cases ht : raw.truthy with
  | false => rw [if_neg Bool.false_ne_true, if_pos (isNull_identifierOf_of_falsy _ _ ht)]
  | true =>
    rw [if_pos rfl, Session.outcome_get_bind]
    dsimp only
    rw [payloadId_eq]

end Checker

/-- Where failures may differ, payloads for a target under whose identifiers the same is found among
records: neither carries one; or the first does, and nothing is found under it if the second does
not, and else the same as under that of the second. -/
def Catalog.FindsAlike (g : Catalog) (rs : List Record) (strict : Prop) (t : Target)
    (raw raw' : Value) : Prop :=
  ¬ strict ∧ ((Checker.identifierIn raw).isNull = true ∧ (Checker.identifierIn raw').isNull = true ∨
    (Checker.identifierIn raw).isNull = false ∧ ∀ cls, g.resolve t = .ok cls →
      g.lookIn rs cls (Checker.identifierIn raw) =
        if (Checker.identifierIn raw').isNull then none
        else g.lookIn rs cls (Checker.identifierIn raw'))

namespace Pairing

open Session

/-! ### Runs that draw on a store -/

/-- Two runs that draw on a store with these records, for a class that they start with.  If failures
may differ, payloads may be different ones under whose identifiers the same is found. -/
def drawn (strict : Prop) (told : Subject → Value → Heap → Value → Prop) (cls : ClassId)
    (rs : List Record) (s s' : Session) : Pairing where
  catalog := s.catalog
  known := Relation.ReflTransGen s.catalog.Embeds cls
  base := List.length s.heap
  shift := List.length s'.heap - List.length s.heap
  strict := strict
  together s₁ s₁' := s.Follows (s₁.withHeap s.heap) ∧ s'.Follows (s₁'.withHeap s'.heap) ∧
    (strict → s₁' = s₁.withHeap s₁'.heap)
  passes := Instant.Precedes
  given v := ∃ r ∈ rs, v = .dict r.data
  sought := s.catalog.FindsAlike rs strict
  told := told

/-- What is known of what eager references make: of nothing, where nothing is looked up or found,
and of what is made of a record that is found.  If failures may differ, all is known anyway. -/
structure Recounts (told : Subject → Value → Heap → Value → Prop) (g : Catalog) (rs : List Record)
    (strict : Prop) : Prop where
  lax : ¬ strict → ∀ subject raw h v, told subject raw h v
  absent : ∀ t e r raw h, e.truthy = true → (Checker.identifierOf g h raw).isNull = true →
    told (.decoded (.reference t e r)) raw h .null
  nothing : ∀ t e r raw h cls name k, e.truthy = true → g.resolve t = .ok cls →
    Method.toText g h (Checker.identifierOf g h raw) = .ok name →
    MemoryStore.get? rs ⟨.text (g.kindOf cls), name⟩ = none →
    told (.decoded (.reference t e r)) raw k .null
  found : ∀ t e r raw h cls name es f k v, e.truthy = true →
    (Checker.identifierOf g h raw).isNull = false → g.resolve t = .ok cls →
    Method.toText g h (Checker.identifierOf g h raw) = .ok name →
    MemoryStore.get? rs ⟨.text (g.kindOf cls), name⟩ = some es →
    told (.entity cls) (Heap.rename f (.dict es)) k v → told (.decoded (.reference t e r)) raw k v

section

variable {strict : Prop} {told : Subject → Value → Heap → Value → Prop} {cls : ClassId}
  {i : StoreId}
  {rs : List Record} {s s' : Session}

theorem pacing_drawn (same : strict → s' = s) : (drawn strict told cls rs s s').Pacing where
  rigid hs := by
    show List.length s'.heap - List.length s.heap = 0
    rw [same hs, Nat.sub_self]
  alike _ _ hs together := together.2.2 hs
  heaps s₁ s₁' k k' together := by
    refine ⟨together.1, together.2.1, fun hs => ?_⟩
    rw [together.2.2 hs]
    rfl
  precedes _ _ := id
  trans _ _ _ := Instant.Precedes.trans
  clock s₀ s₀' s₁ s₁' now now' begun together passes passes' alike := by
    refine ⟨together.1.at_now (begun.1.now.trans passes),
      together.2.1.at_now (begun.2.1.now.trans passes'),
      fun hs => ?_⟩
    rw [alike hs, together.2.2 hs]
    rfl

/-- The two runs begin where the second session has more objects at most, if the records are there
and no identifier in them leads to an object. -/
theorem paced_drawn (grown : s.heap <+: s'.heap) (catalog : s'.catalog = s.catalog)
    (same : strict → s' = s)
    (there : ∀ r ∈ rs, ∀ a : Nat, s.heap.Holds (.dict r.data) a → a < List.length s.heap)
    (named : ¬ strict → ∀ r ∈ rs, s.heap.Named s.catalog (List.length s.heap) (.dict r.data)) :
    (drawn strict told cls rs s s').Paced (fun _ => False) s s' where
  catalog := rfl
  catalog' := catalog
  fit := by
    refine ⟨?_, le_rfl, fun _ => False.elim⟩
    show List.length s'.heap = List.length s.heap + (List.length s'.heap - List.length s.heap)
    have := grown.length_le
    omega
  together := ⟨.refl s, .refl s', fun hs => by rw [same hs]; rfl⟩
  given v hv := by
    obtain ⟨r, hr, rfl⟩ := hv
    refine ⟨fun a ha => ?_, there r hr, fun lax => named lax r hr⟩
    have old : a < List.length s.heap := there r hr a ha
    refine ⟨old, id, ?_⟩
    rw [move_of_lt old, Heap.get_of_extended grown old]
    exact (Heap.renameCell_of_same fun p hp => rename_of_old fun b hb =>
      there r hr b (.through ha hp hb)).symm

variable {U : Address → Prop} {s₁ s₁' : Session}

/-- Time may pass in both runs, as long if failures are to be alike. -/
theorem Paced.wait (same : strict → s' = s) (paced : (drawn strict told cls rs s s').Paced U s₁ s₁')
    (n n' : Nat) (alike : strict → n' = n) :
    (drawn strict told cls rs s s').Paced U { s₁ with now := s₁.now.after n }
      { s₁' with now := s₁'.now.after n' } := by
  refine paced.change rfl rfl rfl rfl ((pacing_drawn same).clock _ _ _ _ _ _ paced.together
    paced.together (Instant.precedes_after _ _) (Instant.precedes_after _ _) fun hs => ?_)
  rw [alike hs, paced.together.2.2 hs]
  rfl

theorem later_asked {L : Pairing} (pacing : L.Pacing) (s : Session) (i : StoreId) :
    L.Later s (s.asked i) :=
  ⟨List.prefix_rfl, pacing.precedes _ _ (Instant.precedes_after _ _)⟩

/-- A session of a run draws on the store as the first session of the run does. -/
theorem draws_of_follows (draws : s.DrawsOn cls i rs) (follows : s.Follows (s₁.withHeap s.heap)) :
    s₁.DrawsOn cls i rs ∧ s₁.inFile i = s.inFile i := by
  have draws₁ := draws.follows follows
  exact ⟨⟨draws₁.keeps.of_stores rfl rfl fun awaited => awaited,
    fun d hd => (draws₁.uses d hd).later ⟨rfl, rfl, rfl, .refl _⟩, draws₁.own⟩,
    inFile_of_stores follows.grows.stores⟩

end

/-! ### Looking up in both runs -/

section

variable {strict : Prop} {told : Subject → Value → Heap → Value → Prop} {cls : ClassId}
  {i : StoreId}
  {rs : List Record} {s s' : Session} {U : Address → Prop} {s₁ s₁' : Session}
  (same : strict → s' = s) (draws : s.DrawsOn cls i rs) (draws' : s'.DrawsOn cls i rs)
  (place : s'.inFile i = s.inFile i)
  {load : ClassId → Value → Action Value} (henter : (drawn strict told cls rs s s').Enters load)

include same henter

/-- **What is kept is loaded alike** in both runs. -/
theorem concur_loadKept (paced : (drawn strict told cls rs s s').Paced U s₁ s₁') {d : ClassId}
    (hd : Relation.ReflTransGen s.catalog.Embeds cls d) (inFile : Bool) {kept? : Option Entries}
    (known : ∀ es, kept? = some es → ∃ r ∈ rs, Value.dict es = .dict r.data) :
    (drawn strict told cls rs s s').Concur U
      (fun h h' v v' => kept? = none ∧ v = .null ∧ v' = .null ∨ ∃ es f, kept? = some es ∧
        (drawn strict told cls rs s s').Made U (.entity d) (Heap.rename f (.dict es)) h h' v v')
      s₁ s₁' (outcome (loadKept load d inFile kept?) s₁)
      (outcome (loadKept load d inFile kept?) s₁') := by
  have pacing : (drawn strict told cls rs s s').Pacing := pacing_drawn same
  cases kept? with
  | none => exact concur_pure pacing paced (.inl ⟨rfl, rfl, rfl⟩)
  | some es =>
    refine (concur_loadGiven pacing paced (known es rfl) inFile henter d hd).imp ?_
    rintro k k' v v' - ⟨f, made⟩
    exact .inr ⟨es, f, rfl, made⟩

include draws draws' place

/-- **Eager references are loaded alike** if both runs look up the same. -/
theorem concur_fetchWith_same (recounts : Recounts told s.catalog rs strict)
    (paced : (drawn strict told cls rs s s').Paced U s₁ s₁') {t : Target} {e : Value} {r : Bool}
    (eager : e.truthy = true)
    (known : ∀ d, s.catalog.resolve t = .ok d → Relation.ReflTransGen s.catalog.Embeds cls d)
    {raw raw' : Value}
    (null : (Checker.identifierOf s.catalog s₁'.heap raw').isNull =
      (Checker.identifierOf s.catalog s₁.heap raw).isNull)
    (write : Method.write s.catalog s₁'.heap (Checker.identifierOf s.catalog s₁'.heap raw') =
      Method.write s.catalog s₁.heap (Checker.identifierOf s.catalog s₁.heap raw))
    (text : Method.toText s.catalog s₁'.heap (Checker.identifierOf s.catalog s₁'.heap raw') =
      Method.toText s.catalog s₁.heap (Checker.identifierOf s.catalog s₁.heap raw)) :
    (drawn strict told cls rs s s').Concur U
      ((drawn strict told cls rs s s').Made U (.decoded (.reference t e r)) raw) s₁ s₁'
      (outcome (Checker.fetchWith (Loading.findWith load) t raw) s₁)
      (outcome (Checker.fetchWith (Loading.findWith load) t raw') s₁') := by
  have pacing : (drawn strict told cls rs s s').Pacing := pacing_drawn same
  have catalog₁ : s₁.catalog = s.catalog := paced.catalog
  have catalog₁' : s₁'.catalog = s.catalog := paced.catalog'
  rw [Checker.outcome_fetchWith_eq catalog₁, Checker.outcome_fetchWith_eq catalog₁', null, write]
  split
  · next absent =>
    exact concur_pure pacing paced
      ⟨moved_of_inert Value.inert_null, recounts.absent t e r raw s₁.heap eager absent⟩
  · next there =>
    refine concur_ofExcept_bind pacing paced ?_
    cases hd : s.catalog.resolve t with
    | error f => exact .inr ⟨f, rfl, fun _ => rfl⟩
    | ok d =>
      refine .inl ⟨d, d, rfl, rfl, ?_⟩
      cases Method.write s.catalog s₁.heap (Checker.identifierOf s.catalog s₁.heap raw) with
      | error f => exact concur_throw pacing paced f
      | ok _ =>
        obtain ⟨draws₁, place₁⟩ := draws_of_follows draws paced.together.1
        obtain ⟨draws₁', place₁'⟩ := draws_of_follows draws' paced.together.2.1
        have hd₁ : Relation.ReflTransGen s₁.catalog.Embeds cls d := catalog₁ ▸ known d hd
        have hd₁' : Relation.ReflTransGen s₁'.catalog.Embeds cls d := catalog₁' ▸ known d hd
        -- both runs ask for one text, and of one list of records
        have sought := outcome_findWith_of_draws load draws₁ hd₁
          (Checker.identifierOf s.catalog s₁.heap raw)
        have sought' := outcome_findWith_of_draws load draws₁' hd₁'
          (Checker.identifierOf s.catalog s₁'.heap raw')
        rw [catalog₁] at sought
        rw [catalog₁', text, place₁', place, ← place₁] at sought'
        show (drawn strict told cls rs s s').Concur U _ s₁ s₁'
          (outcome (Loading.findWith load d _) s₁) (outcome (Loading.findWith load d _) s₁')
        rw [sought, sought']
        cases hname :
          Method.toText s.catalog s₁.heap (Checker.identifierOf s.catalog s₁.heap raw) with
        | error f => exact concur_throw pacing paced f
        | ok name =>
          dsimp only
          have asked : (drawn strict told cls rs s s').Paced U (s₁.asked i) (s₁'.asked i) :=
            paced.wait same _ _ fun _ => by rw [place₁', place, ← place₁]
          refine ((concur_loadKept same henter asked (known d hd) (s₁.inFile i)
            fun es hes => ?_).after pacing (later_asked pacing s₁ i) (later_asked pacing s₁' i)).imp
              ?_
          · obtain ⟨r, hr, rfl⟩ := Option.map_eq_some_iff.1 hes
            exact ⟨r, List.mem_of_find?_eq_some hr, rfl⟩
          · rintro k k' v v' - (⟨gone, rfl, rfl⟩ | ⟨es, f, hes, made⟩)
            · exact ⟨moved_of_inert Value.inert_null,
                recounts.nothing t e r raw s₁.heap d name k eager hd hname gone⟩
            · exact ⟨made.toMoved, recounts.found t e r raw s₁.heap d name es f k v eager
                (Bool.eq_false_iff.2 there) hd hname hes made.told⟩

/-- **Eager references are loaded alike** if failures may differ and the same is found under the
identifiers of their payloads. -/
theorem concur_fetchWith_sought (recounts : Recounts told s.catalog rs strict)
    (paced : (drawn strict told cls rs s s').Paced U s₁ s₁') {t : Target} {e : Value} {r : Bool}
    (known : ∀ d, s.catalog.resolve t = .ok d → Relation.ReflTransGen s.catalog.Embeds cls d)
    {raw raw' : Value} (inert : raw.Inert) (inert' : raw'.Inert)
    (alike : s.catalog.FindsAlike rs strict t raw raw') :
    (drawn strict told cls rs s s').Concur U
      ((drawn strict told cls rs s s').Made U (.decoded (.reference t e r)) raw) s₁ s₁'
      (outcome (Checker.fetchWith (Loading.findWith load) t raw) s₁)
      (outcome (Checker.fetchWith (Loading.findWith load) t raw') s₁') := by
  have pacing : (drawn strict told cls rs s s').Pacing := pacing_drawn same
  have catalog₁ : s₁.catalog = s.catalog := paced.catalog
  have catalog₁' : s₁'.catalog = s.catalog := paced.catalog'
  obtain ⟨lax, alike⟩ := alike
  have nothing {k k' : Heap} :
    (drawn strict told cls rs s s').Made U (.decoded (.reference t e r)) raw
      k k' .null .null := ⟨moved_of_inert Value.inert_null, recounts.lax lax _ _ _ _⟩
  rw [Checker.outcome_fetchWith catalog₁ inert, Checker.outcome_fetchWith catalog₁' inert']
  rcases alike with ⟨absent, absent'⟩ | ⟨there, alike⟩
  · rw [if_pos absent, if_pos absent']
    exact concur_pure pacing paced nothing
  · rw [if_neg (by simp [there])]
    cases hd : s.catalog.resolve t with
    | error f => exact .lax lax
    | ok d =>
      obtain ⟨draws₁, place₁⟩ := draws_of_follows draws paced.together.1
      obtain ⟨draws₁', place₁'⟩ := draws_of_follows draws' paced.together.2.1
      have kept {es : Entries} {id : Value} (hes : s.catalog.lookIn rs d id = some es) :
          ∃ r ∈ rs, Value.dict es = .dict r.data := by
        obtain ⟨r, hr, rfl, -⟩ := Catalog.exists_of_lookIn hes
        exact ⟨r, hr, rfl⟩
      have first := outcome_findWith_of_draws load draws₁ (catalog₁ ▸ known d hd)
        (Checker.identifierIn raw)
      have second := outcome_findWith_of_draws load draws₁' (catalog₁' ▸ known d hd)
        (Checker.identifierIn raw')
      rw [catalog₁, Method.toText_of_inert _ _ (Checker.inert_identifierIn inert)] at first
      rw [catalog₁', Method.toText_of_inert _ _ (Checker.inert_identifierIn inert'), place₁', place,
        ← place₁] at second
      have found := alike d hd
      unfold Catalog.lookIn at found kept
      show (drawn strict told cls rs s s').Concur U _ s₁ s₁'
        (outcome (Loading.findWith load d (Checker.identifierIn raw)) s₁) _
      rw [first]
      dsimp only
      rw [found]
      split
      · next absent' =>
        exact .ok (later_asked pacing s₁ i) (pacing.refl s₁')
          (paced.wait same _ 0 fun hs => absurd hs lax) nothing
      · next there' =>
        show (drawn strict told cls rs s s').Concur U _ s₁ s₁' _
          (outcome (Loading.findWith load d (Checker.identifierIn raw')) s₁')
        rw [second]
        have asked : (drawn strict told cls rs s s').Paced U (s₁.asked i) (s₁'.asked i) :=
          paced.wait same _ _ fun hs => absurd hs lax
        refine ((concur_loadKept same henter asked (known d hd) (s₁.inFile i) fun es => kept).after
          pacing
          (later_asked pacing s₁ i) (later_asked pacing s₁' i)).imp ?_
        rintro k k' v v' - (⟨-, rfl, rfl⟩ | ⟨es, f, -, made⟩)
        · exact nothing
        · exact ⟨made.toMoved, recounts.lax lax _ _ _ _⟩

/-- **Eager references are loaded alike** in runs that draw on the same store. -/
theorem fetches_drawn (recounts : Recounts told s.catalog rs strict) :
    (drawn strict told cls rs s s').Fetches (Loading.findWith load) := by
  intro U t e r raw raw' s₁ s₁' eager known paced like
  have pacing : (drawn strict told cls rs s s').Pacing := pacing_drawn same
  rcases like with like | ⟨inert, inert', alike⟩
  · obtain ⟨moved, label⟩ := like.identifier pacing.rigid
    have null : (Checker.identifierOf s.catalog s₁'.heap raw').isNull =
        (Checker.identifierOf s.catalog s₁.heap raw).isNull :=
      (congrArg Value.isNull moved.value).trans (Value.isNull_rename _)
    by_cases hs : strict
    · -- objects are where they were, and their cells are the same
      have rigid := pacing.rigid hs
      have agrees := moved.steady.agrees rigid
      have value : Checker.identifierOf s.catalog s₁'.heap raw' =
          Checker.identifierOf s.catalog s₁.heap raw := by
        refine moved.value.trans ?_
        rw [move_of_rigid rigid, Heap.rename_id]
        rfl
      have size : List.length s₁'.heap = List.length s₁.heap := by
        rw [paced.fit.size, rigid, Nat.add_zero]
      refine concur_fetchWith_same same draws draws' place henter recounts paced eager known null
        ?_ ?_ <;> rw [value]
      · exact Method.write_of_agrees size agrees
      · exact Method.toText_of_agrees size agrees
    · have label : (Checker.identifierOf s.catalog s₁.heap raw).Inert := label hs
      have value : Checker.identifierOf s.catalog s₁'.heap raw' =
          Checker.identifierOf s.catalog s₁.heap raw :=
        moved.value.trans (Heap.rename_of_inert _ _ label)
      refine concur_fetchWith_same same draws draws' place henter recounts paced eager known null
        ?_ ?_ <;> rw [value]
      · rw [Method.write_of_inert _ _ label, Method.write_of_inert _ _ label]
      · rw [Method.toText_of_inert _ _ label, Method.toText_of_inert _ _ label]
  · exact concur_fetchWith_sought same draws draws' place henter recounts paced known inert
      inert' alike

end

/-- **Loading keeps pace** in runs that draw on the same store. -/
theorem enters_drawn {strict : Prop} {told : Subject → Value → Heap → Value → Prop} {cls : ClassId}
    {i : StoreId} {rs : List Record} {s s' : Session} (hg : s.catalog.WellFormed)
    (same : strict → s' = s) (draws : s.DrawsOn cls i rs) (draws' : s'.DrawsOn cls i rs)
    (place : s'.inFile i = s.inFile i) (tells : (drawn strict told cls rs s s').Tells)
    (recounts : Recounts told s.catalog rs strict) (fuel : Nat) :
    (drawn strict told cls rs s s').Enters (Loading.loadWithin fuel) := by
  rw [Loading.loadWithin_eq_loadBy]
  refine enters_loadBy hg (pacing_drawn same) tells (fun _ _ hd step => hd.tail step)
    (fun fuel henter => ?_) fuel
  rw [← Loading.loadWithin_eq_loadBy] at henter
  exact fetches_drawn same draws draws' place henter recounts

end Pairing

end EntitySchema
