/-
**Loading is stable under telling.**

In a store that is filled only by saving the records carry identifiers, and are kept under the texts
of these.  So an entity that is loaded tells raw data that load to an equal entity: the identifier
of an entity that was looked up is told, and the same record is found under it again.

The records may lead to objects.  Then what is found is loaded from copies of them, which are new
each time.  So the two loadings run side by side, and the second makes what the first makes, further
on in the heap (`Pairing.drawn`); and that the second goes the same way as the first is known from
the first alone (`Catalog.Foretells`).

Main results:

* `Loading.outcome_load_of_stored` — loading that draws on a store opens nothing beforehand;
* `Loading.foretold_of_load` — what is known of an entity that is loaded;
* `Loading.reload_of_filled` — **what is loaded tells raw data that load to the same.**
-/

import EntitySchema.Proofs.FilledStores
import EntitySchema.Proofs.Persisting
import EntitySchema.Proofs.ReferenceChains
import EntitySchema.Proofs.SteadyLookups
import EntitySchema.Proofs.ToldForms

set_option autoImplicit false

namespace EntitySchema

namespace Pairing

open Session

section

variable {strict : Prop} {cls : ClassId} {rs : List Record} {s s' : Session}

/-- Nothing need be known of what is made. -/
theorem tells_trivial : (drawn strict (fun _ _ _ _ => True) cls rs s s').Tells := by
  constructor <;> intros <;> trivial

theorem recounts_trivial {g : Catalog} : Recounts (fun _ _ _ _ => True) g rs strict := by
  constructor <;> intros <;> trivial

end

section

variable {L : Pairing} {U : Address → Prop} {h k k' : Heap} {v w : Value}

/-- The cells of what was moved, where it still is what it was. -/
theorem Moved.cells (moved : L.Moved U h k v w) (agrees : Heap.Agrees h k v) :
    ∀ a, k.Holds v a → Heap.get k (L.move a) = Heap.renameCell L.move (Heap.get k a) := by
  intro a ha
  rw [agrees a (agrees.holds ha)]
  exact (moved.steady a (agrees.holds ha)).2.2

/-- What was moved is a copy. -/
theorem Moved.copied (moved : L.Moved U h k v w) (agrees : Heap.Agrees h k v) :
    Heap.Copied k v k w :=
  ⟨L.move, moved.value, fun a ha => moved.cells agrees a ha.holds,
    fun _ _ _ _ same => L.move_injective same⟩

end

/-- A loading keeps pace with itself. -/
theorem concur_itself {told : Subject → Value → Heap → Value → Prop} {cls : ClassId} {i : StoreId}
    {rs : List Record} {s : Session} {raw : Value} (hg : s.catalog.WellFormed)
    (there : ∀ r ∈ rs, ∀ a : Nat, s.heap.Holds (.dict r.data) a → a < List.length s.heap)
    (draws : s.DrawsOn cls i rs) (hraw : raw.Inert) (tells : (drawn True told cls rs s s).Tells)
    (recounts : Recounts told s.catalog rs True) (fuel : Nat) :
    (drawn True told cls rs s s).Concur (fun _ => False)
      ((drawn True told cls rs s s).Made (fun _ => False) (.entity cls) raw) s s
      (outcome (Loading.loadWithin fuel cls raw) s) (outcome (Loading.loadWithin fuel cls raw) s) :=
  enters_drawn hg (fun _ => rfl) draws draws rfl tells recounts fuel (fun _ => False) cls
    raw raw s s
    .refl (paced_drawn List.prefix_rfl rfl (fun _ => rfl) there fun lax => absurd trivial lax)
    (.same (same_of_inert hraw))

end Pairing

namespace Heap

variable {g : Catalog} {h h' : Heap} {a b : Address} {cls : ClassId} {form : Value}

/-- An entity whose raw form is known wherever its objects are tells it as raw data. -/
theorem FormedAs.toRaw (formed : h.FormedAs g false (.object a) form) {f : Address → Address}
    (cells : ∀ b, h.Holds (.object a) b → get h' (f b) = renameCell f (get h b))
    (species : (get h a).species = .entity cls) : Method.toRaw g h' (f a) = .ok form := by
  have told := formed f h' cells
  have entity : isEntity h' (f a) = true := by
    have moved : (get h' (f a)).species = .entity cls := by
      rw [cells a (.direct (.object a))]
      exact species
    simp [isEntity, moved]
  rwa [rename, Encoding.encodeWith, if_pos entity, if_neg Bool.false_ne_true] at told

/-- Entities of one class that tell the same data are equal. -/
theorem equal_of_toRaw (isData : form.IsData) (ha : (get h a).species = .entity cls)
    (hb : (get h b).species = .entity cls) (told : Method.toRaw g h a = .ok form)
    (told' : Method.toRaw g h b = .ok form) :
    Method.equal g h (.object a) (.object b) = .ok true := by
  rw [Method.equal, if_pos (by simp [isEntity, ha])]
  show Method.sameObjects g h (3 * List.length h + 1 + 1) a b = .ok true
  rw [Method.sameObjects, ha, hb, told, told']
  simp only [if_true, ok_bind]
  exact Value.sameWith_self_of_isData isData

end Heap

/-! ### Loading again -/

namespace Loading

open Session

variable {g : Catalog} {s s₁ : Session} {cls : ClassId} {i : StoreId} {rs : List Record}
  {raw v : Value}

/-- Loading that draws on a store opens nothing beforehand. -/
theorem outcome_load_of_stored (hg : s.catalog.WellFormed)
    (there : ∀ r ∈ rs, ∀ a : Nat, s.heap.Holds (.dict r.data) a → a < List.length s.heap)
    (hraw : raw.Inert) (draws : s.DrawsOn cls i rs) :
    outcome (load cls raw) s =
      outcome (loadWithin (bound s .null + made s cls raw) cls raw) s := by
  rw [load, outcome_get_bind]
  refine outcome_arrange_of_draws draws _ fun draws' => ?_
  have runs := Pairing.concur_itself (s := { s with survey := some [] }) hg there draws' hraw
    Pairing.tells_trivial Pairing.recounts_trivial (bound s .null + made s cls raw)
  exact (runs.paced trivial).together.1.grows.survey

/-- **What is known of an entity that is loaded**: the session has gone on, and of what the entity
tells it is known all that loading foretells. -/
theorem foretold_of_load (hg : s.catalog.WellFormed)
    (there : ∀ r ∈ rs, ∀ a : Nat, s.heap.Holds (.dict r.data) a → a < List.length s.heap)
    (identified : Catalog.Identified (s.catalog.lookIn rs)) (hraw : raw.Inert)
    (draws : s.DrawsOn cls i rs) (hv : outcome (load cls raw) s = (.ok v, s₁)) :
    s.Follows s₁ ∧ (∃ a, v = .object a ∧ (Heap.get s₁.heap a).species = .entity cls) ∧
      s.catalog.Foretells rs (.entity cls) raw s₁.heap v := by
  rw [outcome_load_of_stored hg there hraw draws] at hv
  have entity := (yields_loadWithin hg _ cls raw s rfl v s₁ hv).2
  have runs := Pairing.concur_itself hg there draws hraw (Pairing.tells_foretold hg)
    (Pairing.recounts_foretold identified) (bound s .null + made s cls raw)
  rw [hv] at runs
  cases runs with
  | ok later _ paced made =>
    have follows := paced.together.1
    exact ⟨⟨⟨later.heap, follows.grows.catalog, follows.grows.stores, follows.grows.disk,
      follows.grows.shared, follows.grows.survey⟩, follows.lookups, follows.now⟩, entity, made.told⟩

/-- What is loaded was constructed. -/
theorem exists_built {fuel : Nat} (hv : outcome (loadWithin fuel cls raw) s = (.ok v, s₁)) :
    ∃ w k, Construction.ofRaw s.catalog cls raw s.heap = .ok (w, k) := by
  cases fuel with
  | zero => cases hv
  | succ fuel =>
    cases built : Construction.ofRaw s.catalog cls raw s.heap with
    | ok r => exact ⟨r.1, r.2, rfl⟩
    | error e =>
      rw [loadWithin, outcome_get_bind, outcome_bind_error (outcome_build_error built)] at hv
      cases hv

section

variable {form : Value} (hg : s.catalog.WellFormed)
  (rephrased : s.catalog.Rephrased False (s.catalog.FindsAlike rs False) (.entity cls) raw form)
  (hraw : raw.Inert) (hform : form.Inert)

include hg rephrased hraw hform

/-- As many objects are made of data that say the same. -/
theorem made_of_rephrased (follows : s.Follows s₁) {k : Heap}
    (hv : Construction.ofRaw s.catalog cls raw s.heap = .ok (v, k)) :
    made s₁ cls form = made s cls raw := by
  have grown := follows.grows.heap.length_le
  have fit : (Pairing.drawn False (fun _ _ _ _ => True) cls rs s s₁).Fit (fun _ => False) s.heap
      s₁.heap := by
    refine ⟨?_, le_rfl, fun _ => False.elim⟩
    show List.length s₁.heap = List.length s.heap + (List.length s₁.heap - List.length s.heap)
    omega
  rcases Construction.abreast_ofRaw False hg Pairing.tells_trivial fit
    (.rephrased id hraw hform rephrased) with ⟨e, he, -⟩ | ⟨v', k', w, l, hv', hw, -, -, fit', -⟩
  · cases hv.symm.trans he
  · obtain ⟨rfl, rfl⟩ := Prod.mk.inj (Except.ok.inj (hv.symm.trans hv'))
    replace hw : Construction.ofRaw s₁.catalog cls form s₁.heap = .ok (w, l) := by
      rw [follows.grows.catalog]
      exact hw
    unfold made
    rw [hv, hw]
    have size := fit.size
    have size' := fit'.size
    dsimp only at size size' ⊢
    omega

/-- **What is loaded of data that say the same is the same, further on in the heap.** -/
theorem moved_of_rephrased (stored : ∀ r ∈ rs, s.heap.Storable (.dict r.data))
    (draws : s.DrawsOn cls i rs) (follows : s.Follows s₁)
    (hv : outcome (load cls raw) s = (.ok v, s₁)) :
    ∃ w s₂, outcome (load cls form) s₁ = (.ok w, s₂) ∧ s₁.heap <+: s₂.heap ∧
      (Pairing.drawn False (fun _ _ _ _ => True) cls rs s s₁).Moved (fun _ => False) s₁.heap s₂.heap
        v w := by
  have there : ∀ r ∈ rs, ∀ a : Nat, s.heap.Holds (.dict r.data) a → a < List.length s.heap :=
    fun r hr => (stored r hr).there
  have draws₁ := draws.follows follows
  have stored₁ : ∀ r ∈ rs, s₁.heap.Storable (.dict r.data) := fun r hr =>
    (stored r hr).of_agrees (fun a ha => Heap.get_of_extended follows.grows.heap (there r hr a ha))
      follows.grows.heap.length_le
  have hg₁ : s₁.catalog.WellFormed := by rwa [follows.grows.catalog]
  rw [outcome_load_of_stored hg there hraw draws] at hv
  rw [outcome_load_of_stored hg₁ (fun r hr => (stored₁ r hr).there) hform draws₁,
    bound_of_ahead ⟨follows.grows, follows.now⟩]
  obtain ⟨a, k, hk⟩ := exists_built hv
  rw [made_of_rephrased hg rephrased hraw hform follows hk]
  have enters : (Pairing.drawn False (fun _ _ _ _ => True) cls rs s s₁).Enters
      (loadWithin (bound s .null + made s cls raw)) :=
    Pairing.enters_drawn hg False.elim draws draws₁ (inFile_of_stores follows.grows.stores)
      Pairing.tells_trivial Pairing.recounts_trivial _
  have runs := enters (fun _ => False) cls raw form s s₁ .refl
    (Pairing.paced_drawn follows.grows.heap follows.grows.catalog False.elim there fun _ r hr =>
      (stored r hr).named s.catalog) (.rephrased id hraw hform rephrased)
  rw [hv] at runs
  generalize outcome (loadWithin _ cls form) s₁ = result at runs ⊢
  cases runs with
  | ok _ later _ made => exact ⟨_, _, rfl, later.heap, made.toMoved⟩

end

/-- **What is loaded tells raw data that load to the same**, if the store was filled only by
saving.  Its records carry an identifier whose text is the one that they are kept under; and
whatever a class loads of data, with all that is looked up, tells raw data of which the class loads
an equal entity.  That is a copy of the first: the objects that it holds are as many, of the same
classes, with the same identifiers and values, and hold each other alike. -/
theorem reload_of_filled (hg : s.catalog.WellFormed) (stocked : Stocked i rs s) :
    (∀ r ∈ rs, (Entries.getStr r.data idField).isNull = false ∧
      Method.toText s.catalog s.heap (Entries.getStr r.data idField) = .ok r.key.id) ∧
    ∀ cls, s.DrawsOn cls i rs → ∀ raw : Value, raw.IsData → ∀ v s₁,
      outcome (load cls raw) s = (.ok v, s₁) → ∃ a form w s₂, v = .object a ∧
        Method.toRaw s.catalog s₁.heap a = .ok form ∧ outcome (load cls form) s₁ = (.ok w, s₂) ∧
        Method.equal s.catalog s₂.heap w v = .ok true ∧ Heap.Copied s₂.heap v s₂.heap w := by
  have signed := stocked.filled.signed
  refine ⟨fun r hr => ?_, fun cls draws raw hraw v s₁ hv => ?_⟩
  · obtain ⟨there, plain, key⟩ := (signed r hr).1
    rw [Method.toText_of_inert _ _ (Value.isData_of_isPlain _ plain).inert, key]
    exact ⟨there, rfl⟩
  · have stored := stocked.storable
    obtain ⟨follows, ⟨a, rfl, species⟩, -, told⟩ := foretold_of_load hg
      (fun r hr => (stored r hr).there) (s.catalog.identified_lookIn fun r hr => (signed r hr).1)
      hraw.inert draws hv
    obtain ⟨form, data, -, rephrased, formed⟩ := told hraw
    obtain ⟨w, s₂, hw, grown, moved⟩ := moved_of_rephrased hg rephrased hraw.inert data.inert stored
      draws follows hv
    have agrees : Heap.Agrees s₁.heap s₂.heap (.object a) := fun b hb =>
      Heap.get_of_extended grown (moved.steady b hb).1
    have formed₂ := formed.of_agrees agrees
    have cells := moved.cells agrees
    have still (h : Heap) : ∀ b, h.Holds (.object a) b →
        Heap.get h (id b) = Heap.renameCell id (Heap.get h b) :=
      fun b _ => (Heap.renameCell_id _).symm
    have species₂ : (Heap.get s₂.heap a).species = .entity cls := by
      rw [agrees a (.direct (.object a))]
      exact species
    refine ⟨a, form, w, s₂, rfl, formed.toRaw (still _) species, hw, ?_, moved.copied agrees⟩
    rw [moved.value]
    refine Heap.equal_of_toRaw data ?_ species₂ (formed₂.toRaw cells species₂)
      (formed₂.toRaw (still _) species₂)
    rw [cells a (.direct (.object a))]
    exact species₂

/-- Authors draw on the first store, as their friends do. -/
theorem drawsOn_friends {s : Session} {rs : List Record} (catalog : s.catalog = friends)
    (keeps : s.Keeps 0 rs) : s.DrawsOn 1 0 rs := by
  refine ⟨keeps, fun d hd => .assigned ?_, fun d _ => ?_⟩ <;> rw [catalog] at *
  · have reached : d = 1 ∨ d = 2 := by
      induction hd with
      | refl => exact .inl rfl
      | tail _ step ih =>
        obtain ⟨f, hf, t, ht, hd⟩ := step
        rcases ih with rfl | rfl <;>
        · obtain rfl := List.mem_singleton.1 hf
          cases ht
          cases hd
          first | exact .inl rfl | exact .inr rfl
    rcases reached with rfl | rfl <;> rfl
  · exact Catalog.lookupOf?_eq_none (by decide) d

/-- What was kept of the reader. -/
def readerKept : List Record :=
  [⟨⟨.text "Reader", "b"⟩, [(.str "_id", .str "b"), (.str "friend", .null)]⟩]

/-- A session with an empty store in memory, with a reader without a friend, and with an author who
was given the reader as a friend and has not loaded it. -/
def introduced : Session :=
  { befriended [] with
    heap := [Cell.ofFields 2 (.str "b") [] ["friend"] fun _ => .null,
      Cell.ofFields 1 (.str "a") [(.str "friend", .object 0)] ["friend"] fun _ => .null] }

/-- The session after the author was saved. -/
def oneIntroduced : Session := (outcome (Persistence.save (.object 1)) introduced).2

/-- The session after the reader was saved as well. -/
def bothIntroduced : Session := (outcome (Persistence.save (.object 0)) oneIntroduced).2

/-- What was kept of the author: the friend is a copy of the reader. -/
def authorKept : List Record :=
  [⟨⟨.text "Author", "a"⟩, [(.str "_id", .str "a"), (.str "friend", .object 2)]⟩]

/-- What the author tells can be stored. -/
theorem storable_introduced {d : Value} (told : Method.toRaw friends introduced.heap 1 = .ok d) :
    introduced.heap.Storable d := by
  have computed : Method.toRaw friends introduced.heap 1 =
      .ok (.dict [(.str "_id", .str "a"), (.str "friend", .object 0)]) := rfl
  obtain rfl := Except.ok.inj (told.symm.trans computed)
  have reader : introduced.heap.Storable (.object 0) :=
    Heap.storable_object (fun b hb => hb.lt (Heap.sound_of_forall (by decide))
      (Heap.covers_of_forall (by decide))) fun id hid => by
        obtain rfl := Option.some.inj (hid.symm.trans rfl)
        exact Value.inert_str "b"
  refine Heap.storable_dict (List.forall_mem_cons.2 ⟨Value.inert_str _, ?_⟩) (Value.inert_str "a")
    (List.forall_mem_cons.2 ⟨Heap.storable_of_inert (Value.inert_str "a"), ?_⟩)
  · exact List.forall_mem_singleton.2 (Value.inert_str _)
  · exact List.forall_mem_singleton.2 reader

/-- What the reader tells can be stored. -/
theorem storable_oneIntroduced {d : Value}
    (told : Method.toRaw friends oneIntroduced.heap 0 = .ok d) : oneIntroduced.heap.Storable d := by
  have computed : Method.toRaw friends oneIntroduced.heap 0 =
      .ok (.dict [(.str "_id", .str "b"), (.str "friend", .null)]) := rfl
  obtain rfl := Except.ok.inj (told.symm.trans computed)
  exact Heap.storable_of_inert (Value.isData_of_isPlain _ rfl).inert

/-- Somebody whose friend is the author is loaded, and again from what was told then: the author is
looked up among the records, with a copy of the reader, who is looked up in turn. -/
theorem reload_of_authorKept : ∃ a s₁ form w s₂,
    outcome (load 2 (.dict (friendOf "c" "a"))) bothIntroduced = (.ok (.object a), s₁) ∧
      Method.toRaw friends s₁.heap a = .ok form ∧ outcome (load 2 form) s₁ = (.ok w, s₂) ∧
      Method.equal friends s₂.heap w (.object a) = .ok true ∧
      Heap.Copied s₂.heap (.object a) s₂.heap w := by
  have author : Heap.Ordinary introduced.heap 1 1 (.str "a") :=
    .of_cell wellFormed_friends (by rfl)
  have reader : Heap.Ordinary oneIntroduced.heap 0 2 (.str "b") :=
    .of_cell wellFormed_friends (by rfl)
  have stocked : Stocked 0 (authorKept ++ readerKept) bothIntroduced :=
    .save (.save (.empty (s := introduced) (.memory rfl)) wellFormed_friends (.assigned rfl)
      author rfl
      (fun _ told => storable_introduced told) rfl (.memory rfl)) wellFormed_friends (.assigned rfl)
      reader rfl (fun _ told => storable_oneIntroduced told) rfl (.memory rfl)
  have made : (outcome (load 2 (.dict (friendOf "c" "a"))) bothIntroduced).1.toBool = true := by
    decide +kernel
  obtain ⟨v, s₁, hv⟩ := exists_of_toBool made
  have step : friends.Embeds 1 2 := ⟨_, List.mem_singleton_self _, _, rfl, rfl⟩
  have draws : bothIntroduced.DrawsOn 2 0 (authorKept ++ readerKept) :=
    (drawsOn_friends rfl (.memory rfl)).of_embeds step
  obtain ⟨-, again⟩ := reload_of_filled wellFormed_friends stocked
  obtain ⟨a, form, w, s₂, rfl, told, hw, equal, copied⟩ := again 2 draws (.dict (friendOf "c" "a"))
    (Value.isData_of_isPlain _ rfl) v s₁ hv
  exact ⟨a, s₁, form, w, s₂, hv, told, hw, equal, copied⟩

end Loading

end EntitySchema
