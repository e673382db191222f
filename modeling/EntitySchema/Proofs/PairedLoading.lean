/-
**Loading in two runs.**

From raw values that are alike two runs load the same, provided that eager references do: the entity
is begun in both, its fields are loaded one after the other, and each fills the same field with the
same value; so in the end nothing is left that may differ.  An entity is under way while its fields
are loaded, and no value that is kept leads to it then.

Main definitions:

* `Pairing.Made` — **what both runs make of a raw value**;
* `Pairing.Enters`, `Pairing.Fetches` — loading of entities and of eager references that keeps pace.

Main results:

* `Pairing.concur_loadWith` — raw values of checkers;
* `Pairing.concur_loadFields` — **the fields of an entity that is begun**;
* `Pairing.enters_loadBy` — **loading of entities keeps pace if eager references do.**
-/

import EntitySchema.Proofs.LoadingTrees
import EntitySchema.Proofs.PairedActions

set_option autoImplicit false

namespace EntitySchema

namespace Pairing

open Session

/-! ### What both runs make -/

/-- What both runs make of a raw value: the same, with all that is to be known of it. -/
structure Made (L : Pairing) (underway : Address → Prop) (subject : Subject) (raw : Value)
    (h h' : Heap) (v v' : Value) : Prop extends L.Moved underway h h' v v' where
  told : L.told subject raw h v

variable {L : Pairing} {U : Address → Prop} {h h' k k' : Heap} {subject : Subject} {c : Checker}
  {raw raw' v v' : Value}

theorem Made.mono (tells : L.Tells) (fit : L.Fit U h h') (grown : h <+: k) (grown' : h' <+: k')
    (made : L.Made U subject raw h h' v v') : L.Made U subject raw k k' v v' where
  toMoved := made.toMoved.mono fit grown grown'
  told := tells.move _ _ _ _ _
    (fun a ha => Heap.get_of_extended grown (made.steady a ha).1) made.told

/-- What both runs make of the items of an array makes a list. -/
theorem made_list (tells : L.Tells) {r : Bool} (hp : c.producesEntity = true) {xs : List Value}
    (hxs : Checker.itemsOf raw = .ok xs) {vs vs' : List Value}
    (all : Forall₃ (fun x => L.Made U (.decoded c) x h h') xs vs vs') :
    L.Made U (.decoded (.arrayOf c r)) raw h h' (.list vs) (.list vs') := by
  have parts : List.Forall₂ (L.Shifted True U h h') vs vs' :=
    all.right fun _ _ _ made => made.toMoved.shifted
  have list := shifted_list parts
  exact ⟨⟨list.value, list.steady trivial⟩,
    tells.array c r raw xs h vs hp hxs (all.left fun _ _ _ made => made.told)⟩

/-- What both runs make of the values of a dictionary makes a dictionary under the same keys. -/
theorem made_dict (tells : L.Tells) {r : Bool} (hp : c.producesEntity = true) {es : Entries}
    {h₀ : Heap} (hes : Checker.entriesOf h₀ raw = .ok es)
    (known : ∀ key ∈ es.map Prod.fst, L.Steady U h h' key) {vs vs' : List Value}
    (all : Forall₃ (fun p => L.Made U (.decoded c) p.2 h h') es vs vs') :
    L.Made U (.decoded (.dictOf c r)) raw h h' (.dict ((es.map Prod.fst).zip vs))
      (.dict (((es.map Prod.fst).map (Heap.rename L.move)).zip vs')) := by
  have parts : List.Forall₂ (L.Shifted True U h h') vs vs' :=
    all.right fun _ _ _ made => made.toMoved.shifted
  have dict := shifted_dict known parts
  refine ⟨⟨dict.value, dict.steady trivial⟩, tells.dictionary c r raw h₀ es h vs hp hes ?_⟩
  exact List.forall₂_map_left_iff.2 (all.left fun _ _ _ made => made.told)

/-! ### Raw values of checkers -/

/-- Loading of entities of the classes that are met keeps pace on raw values that are alike. -/
def Enters (L : Pairing) (enter : ClassId → Value → Action Value) : Prop :=
  ∀ (U : Address → Prop) cls raw raw' s s', L.known cls → L.Paced U s s' →
    L.Like False U s.heap s'.heap (.entity cls) raw raw' →
    L.Concur U (L.Made U (.entity cls) raw) s s' (outcome (enter cls raw) s)
      (outcome (enter cls raw') s')

/-- Loading of eager references to classes that are met keeps pace on the same payload, and on
payloads that are for the same entity. -/
def Fetches (L : Pairing) (seek : ClassId → Value → Action Value) : Prop :=
  ∀ (U : Address → Prop) t e r raw raw' s s', e.truthy = true →
    (∀ cls, L.catalog.resolve t = .ok cls → L.known cls) → L.Paced U s s' →
    L.Same U s.heap s'.heap raw raw' ∨ raw.Inert ∧ raw'.Inert ∧ L.sought t raw raw' →
    L.Concur U (L.Made U (.decoded (.reference t e r)) raw) s s'
      (outcome (Checker.fetchWith seek t raw) s) (outcome (Checker.fetchWith seek t raw') s')

section

variable (pacing : L.Pacing) (tells : L.Tells) {enter seek : ClassId → Value → Action Value}
  (henter : L.Enters enter) {s s' : Session}

include pacing tells henter

/-- **An embedded reference** is loaded alike in both runs. -/
theorem concur_enterWith {t : Target} {e : Value} {r : Bool} (lazy : e.truthy = false)
    (known : ∀ cls, L.catalog.resolve t = .ok cls → L.known cls) (paced : L.Paced U s s')
    (like : L.Like False U s.heap s'.heap (.decoded (.reference t e r)) raw raw') :
    L.Concur U (L.Made U (.decoded (.reference t e r)) raw) s s'
      (outcome (Checker.enterWith enter t raw) s)
        (outcome (Checker.enterWith enter t raw') s') := by
  obtain ⟨there, entity⟩ := like.entered lazy
  cases hn : raw.isNull with
  | true =>
    rw [Checker.enterWith, Checker.enterWith, ← there, hn, if_pos rfl, if_pos rfl]
    obtain rfl := Value.eq_null_of_isNull hn
    exact concur_pure pacing paced
      ⟨moved_of_inert Value.inert_null, tells.absent t e r s.heap lazy⟩
  | false =>
    have entered (cls : ClassId) (hcls : L.catalog.resolve t = .ok cls) :
        L.Concur U (L.Made U (.decoded (.reference t e r)) raw) s s' (outcome (enter cls raw) s)
          (outcome (enter cls raw') s') :=
      (henter U cls raw raw' s s' (known cls hcls) paced (entity cls hcls)).imp
        fun k _ v _ _ made =>
        ⟨made.toMoved, tells.embedded t e r cls raw k v lazy hcls hn made.told⟩
    have resolved {f f' : ClassId → Action Value} (hf : ∀ cls, L.catalog.resolve t = .ok cls →
        L.Concur U (L.Made U (.decoded (.reference t e r)) raw) s s' (outcome (f cls) s)
          (outcome (f' cls) s')) : L.Concur U (L.Made U (.decoded (.reference t e r)) raw) s s'
        (outcome (Session.ofExcept (L.catalog.resolve t) >>= f) s)
        (outcome (Session.ofExcept (L.catalog.resolve t) >>= f') s') := by
      refine concur_ofExcept_bind pacing paced ?_
      cases hcls : L.catalog.resolve t with
      | error f => exact .inr ⟨f, rfl, fun _ => rfl⟩
      | ok cls => exact .inl ⟨cls, cls, rfl, rfl, hf cls hcls⟩
    rcases like.object_cases with ⟨a, rfl, rfl, same⟩ | ⟨plain, plain'⟩
    · rw [Checker.outcome_enterWith_object paced.catalog,
        Checker.outcome_enterWith_object paced.catalog']
      refine resolved fun cls hcls => ?_
      rw [same.isInstance (.object a) cls]
      split
      · exact concur_pure pacing paced ⟨same.toMoved, tells.present t e r s.heap a lazy⟩
      · exact entered cls hcls
    · rw [Checker.outcome_enterWith paced.catalog plain,
        Checker.outcome_enterWith paced.catalog' plain', ← there, hn, if_neg Bool.false_ne_true,
        if_neg Bool.false_ne_true]
      exact resolved entered

/-- **Raw values of a checker that produces entities** are loaded alike in both runs. -/
theorem concur_loadWith (hfetch : L.Fetches seek) :
    (c : Checker) → c.producesEntity = true →
      (∀ t cls, c.target? = some t → L.catalog.resolve t = .ok cls → L.known cls) →
      (raw raw' : Value) → (s s' : Session) → L.Paced U s s' →
      L.Like False U s.heap s'.heap (.decoded c) raw raw' →
      L.Concur U (L.Made U (.decoded c) raw) s s' (outcome (Checker.loadWith enter seek c raw) s)
        (outcome (Checker.loadWith enter seek c raw') s')
  | .reference t e r, _, known, raw, raw', s, s', paced, like => by
    rw [Checker.loadWith, Checker.loadWith]
    cases he : e.truthy with
    | true =>
      exact hfetch U t e r raw raw' s s' he (fun cls => known t cls rfl) paced (like.fetched he)
    | false =>
      exact concur_enterWith pacing tells henter he (fun cls => known t cls rfl) paced like
  | .arrayOf c r, hp, known, raw, raw', s, s', paced, like => by
    rw [Checker.loadWith, Checker.loadWith]
    refine concur_ofExcept_bind pacing paced ?_
    rcases like.items with ⟨f, hf, hf'⟩ | ⟨xs, xs', hxs, hxs', likes⟩
    · exact .inr ⟨f, hf, fun _ => hf'⟩
    · refine .inl ⟨xs, xs', hxs, hxs', ?_⟩
      -- the items are loaded side by side in either run, at instants that match
      have parts := concur_gather pacing (G := fun h h' => L.Like False U h h' (.decoded c))
        (Q := fun x => L.Made U (.decoded c) x)
        (fun _ _ _ _ _ _ fit grown grown' like => like.mono fit grown grown')
        (fun _ _ _ _ _ _ _ fit grown grown' made => made.mono tells fit grown grown')
        (fun x x' s s' paced like => concur_loadWith hfetch c hp known x x' s s' paced like)
        paced likes
      exact parts.bind pacing fun vs vs' s₁ s₁' _ _ paced₁ all =>
        concur_pure pacing paced₁ (made_list (c := c) tells hp hxs all)
  | .dictOf c r, hp, known, raw, raw', s, s', paced, like => by
    rw [Checker.loadWith, Checker.loadWith, outcome_get_bind, outcome_get_bind]
    refine concur_ofExcept_bind pacing paced ?_
    rcases like.mapping with ⟨f, hf, hf'⟩ | ⟨es, es', hes, hes', keys, steady, likes⟩
    · exact .inr ⟨f, hf, fun _ => hf'⟩
    · refine .inl ⟨es, es', hes, hes', ?_⟩
      have parts := concur_gather pacing
        (G := fun h h' (p p' : Value × Value) => L.Like False U h h' (.decoded c) p.2 p'.2)
        (Q := fun (p : Value × Value) => L.Made U (.decoded c) p.2)
        (fun _ _ _ _ _ _ fit grown grown' like => like.mono fit grown grown')
        (fun _ _ _ _ _ _ _ fit grown grown' made => made.mono tells fit grown grown')
        (fun p p' s s' paced like => concur_loadWith hfetch c hp known p.2 p'.2 s s' paced like)
        paced (List.forall₂_map_right_iff.1 (List.forall₂_map_left_iff.1 likes))
      refine parts.bind pacing fun vs vs' s₁ s₁' later later' paced₁ all =>
        concur_pure pacing paced₁ ?_
      rw [keys]
      exact made_dict (c := c) tells hp hes
        (fun key hkey => (steady key hkey).mono paced.fit later.heap later'.heap) all

end

/-! ### Fields that are filled -/

section

variable {a : Nat} (underway : U a) (name : String) (x x' : Value)

include underway

/-- What is kept does not lead to an entity that is under way, so it stays when the entity is
filled. -/
theorem Steady.settle (steady : L.Steady U h h' v) :
    Heap.Agrees h (h.settle a name x) v ∧
      L.Steady U (h.settle a name x) (h'.settle (L.move a) name x') v := by
  have other : ∀ b, h.Holds v b → a ≠ b := fun b hb heq => (steady b hb).2.1 (heq ▸ underway)
  have agrees : Heap.Agrees h (h.settle a name x) v := fun b hb =>
    Heap.get_settle_of_ne h (other b hb) name x
  refine ⟨agrees, steady.move agrees (fun b hb => ?_) (Heap.length_settle h a name x).ge
    fun _ _ => id⟩
  exact Heap.get_settle_of_ne h' (fun heq => other b hb (L.move_injective heq)) name x'

theorem Same.settle (same : L.Same U h h' raw raw') :
    L.Same U (h.settle a name x) (h'.settle (L.move a) name x') raw raw' := by
  obtain ⟨agrees, steady⟩ := same.steady.settle underway name x x'
  exact ⟨⟨same.value, steady⟩, fun lax => (same.named lax).of_agrees agrees⟩

theorem Like.settle {full : Prop} (like : L.Like full U h h' subject raw raw') :
    L.Like full U (h.settle a name x) (h'.settle (L.move a) name x') subject raw raw' := by
  cases like with
  | same same => exact .same (same.settle underway name x x')
  | rephrased part inert inert' re => exact .rephrased part inert inert' re

theorem Given.settle (given : L.Given U h h' v) :
    L.Given U (h.settle a name x) (h'.settle (L.move a) name x') v := by
  obtain ⟨agrees, steady⟩ := given.steady.settle underway name x x'
  exact ⟨steady, fun b hb => given.old b (agrees.holds hb),
    fun lax => (given.named lax).of_agrees agrees⟩

/-- Sessions of the two runs stay so when an entity that is under way is filled. -/
theorem Paced.settle (pacing : L.Pacing) {s s' : Session} (paced : L.Paced U s s') :
    L.Paced U (s.withHeap (s.heap.settle a name x))
      (s'.withHeap (s'.heap.settle (L.move a) name x')) where
  catalog := paced.catalog
  catalog' := paced.catalog'
  fit := by
    have size := paced.fit.size
    have started := paced.fit.started
    refine ⟨?_, ?_, fun b hb => ?_⟩
    · show (s'.heap.settle (L.move a) name x').length = (s.heap.settle a name x).length + L.shift
      rwa [Heap.length_settle, Heap.length_settle]
    · show L.base ≤ (s.heap.settle a name x).length
      rwa [Heap.length_settle]
    · show b < (s.heap.settle a name x).length
      rw [Heap.length_settle]
      exact paced.fit.bounded b hb
  together := pacing.heaps _ _ _ _ paced.together
  given v hv := (paced.given v hv).settle underway name x x'

end

/-- What was there before an entity was added is not under way with it. -/
theorem apart_of_added {a : Nat} (added : List.length h ≤ a) :
    ∀ b : Nat, b < List.length h → U b ∨ b = a → U b :=
  fun _ lt hU => hU.resolve_right fun heq => (heq ▸ lt).not_ge added

/-- Sessions of the two runs, once an entity that was added is under way. -/
theorem Paced.enter {s s' s₁ s₁' : Session} {a : Nat} (paced : L.Paced U s s')
    (paced₁ : L.Paced U s₁ s₁') (grown : s.heap <+: s₁.heap) (grown' : s'.heap <+: s₁'.heap)
    (added : List.length s.heap ≤ a) (there : a < List.length s₁.heap) :
    L.Paced (fun b => U b ∨ b = a) s₁ s₁' where
  catalog := paced₁.catalog
  catalog' := paced₁.catalog'
  fit := paced₁.fit.enter there
  together := paced₁.together
  given v hv := (paced.given v hv).grow paced.fit grown grown' (apart_of_added added)

/-! ### Entities that are begun -/

section

variable {cls : ClassId} {data : Entries} {f : String × Checker} {fs : Schema} {a : Nat}

/-- An entity that is begun stays so when the heaps grow. -/
theorem Begun.mono (tells : L.Tells) (begun : L.Begun U cls data fs h h' a)
    (fit : L.Fit (fun b => U b ∨ b = a) h h') (grown : h <+: k) (grown' : h' <+: k') :
    L.Begun U cls data fs k k' a := by
  obtain ⟨there, id, pending, pending', v, v', cell, cell', aside, fields⟩ := begun
  refine ⟨there.trans_le grown.length_le, id.mono fit grown grown', pending, pending', v,
    v', ?_, ?_,
    aside, fun f hf hnot => ?_⟩
  · rw [Heap.get_of_extended grown there, cell]
  · rw [Heap.get_of_extended grown' (fit.move_lt there), cell']
  · obtain ⟨moved, told⟩ := fields f hf hnot
    exact ⟨moved.mono fit grown grown', tells.move _ _ _ _ _
      (fun b hb => Heap.get_of_extended grown (moved.steady b hb).1) told⟩

/-- A field that produces no entities is not to be filled. -/
theorem Begun.skip (begun : L.Begun U cls data (f :: fs) h h' a)
    (plain : f.2.producesEntity = false) : L.Begun U cls data fs h h' a := by
  obtain ⟨there, id, pending, pending', v, v', cell, cell', aside, fields⟩ := begun
  refine ⟨there, id, pending, pending', v, v', cell, cell', fun e he => ?_, fun p hp hnot => ?_⟩
  · obtain ⟨p, hp, producing, hkey⟩ := aside e he
    rcases List.mem_cons.1 hp with rfl | hp
    · cases plain.symm.trans producing
    · exact ⟨p, hp, producing, hkey⟩
  · refine fields p hp fun producing hmem => ?_
    rcases List.mem_cons.1 hmem with rfl | hmem
    · cases plain.symm.trans producing
    · exact hnot producing hmem

/-- **An entity that is begun has come further once a field is filled** in both runs. -/
theorem Begun.fill (hg : L.catalog.WellFormed) (tells : L.Tells) (hf : f ∈ L.catalog.schemaOf cls)
    (begun : L.Begun U cls data (f :: fs) h h' a) (fit : L.Fit (fun b => U b ∨ b = a) h h')
    {x x' : Value} (made : L.Made (fun b => U b ∨ b = a) (.decoded f.2) (Entries.getStr data f.1)
      h h' x x') : L.Begun U cls data fs (h.settle a f.1 x) (h'.settle (L.move a) f.1 x') a := by
  obtain ⟨there, id, pending, pending', v, v', cell, cell', aside, fields⟩ := begun
  have hname := List.mem_map_of_mem (f := Prod.fst) hf
  have stays {y : Value} (steady : L.Steady (fun b => U b ∨ b = a) h h' y) :=
    steady.settle (.inr rfl) f.1 x x'
  refine ⟨?_, (stays id).2, _, _, _, _, Heap.get_settle_self hg there cell hname x,
    Heap.get_settle_self hg (fit.move_lt there) cell' hname x', fun e he => ?_, fun p hp hnot => ?_⟩
  · show a < (h.settle a f.1 x).length
    rwa [Heap.length_settle]
  · -- nothing is put aside for the field any more
    have kept : (e ∈ pending ∨ e ∈ pending') ∧ Value.isText f.1 e.1 = false := by
      rcases he with he | he <;> obtain ⟨he, other⟩ := List.mem_filter.1 he <;>
        simp only [Bool.not_eq_true'] at other
      · exact ⟨.inl he, other⟩
      · exact ⟨.inr he, other⟩
    obtain ⟨p, hp, producing, hkey⟩ := aside e kept.1
    rcases List.mem_cons.1 hp with rfl | hp
    · have other := kept.2
      rw [hkey, Value.isText] at other
      simp at other
    · exact ⟨p, hp, producing, hkey⟩
  · by_cases same : p = f
    · subst same
      rw [if_pos rfl, if_pos rfl]
      obtain ⟨agrees, steady⟩ := stays made.steady
      exact ⟨⟨made.value, steady⟩, tells.move _ _ _ _ _ agrees made.told⟩
    · have hne : p.1 ≠ f.1 := fun heq => same (List.inj_on_of_nodup_map (hg.nodup cls) hp hf heq)
      rw [if_neg hne, if_neg hne]
      obtain ⟨moved, told⟩ := fields p hp fun producing hmem =>
        (List.mem_cons.1 hmem).elim same (hnot producing)
      obtain ⟨agrees, steady⟩ := stays moved.steady
      exact ⟨⟨moved.value, steady⟩, tells.move _ _ _ _ _ agrees told⟩

/-- **An entity of which nothing is left to do is the same in both runs.** -/
theorem Begun.made (tells : L.Tells) (begun : L.Begun U cls data [] h h' a) (apart : ¬ U a)
    {h₀ : Heap} (hdata : Construction.entriesOf h₀ raw = .ok data) :
    L.Made U (.entity cls) raw h h' (.object a) (.object (L.move a)) := by
  obtain ⟨there, id, pending, pending', v, v', cell, cell', aside, fields⟩ := begun
  have none : ∀ e, ¬ (e ∈ pending ∨ e ∈ pending') := by
    intro e he
    obtain ⟨_, ⟨⟩, -⟩ := aside e he
  obtain rfl := List.eq_nil_iff_forall_not_mem.2 fun e he => none e (.inl he)
  obtain rfl := List.eq_nil_iff_forall_not_mem.2 fun e he => none e (.inr he)
  have all := fun f hf => fields f hf fun _ => List.not_mem_nil
  refine ⟨⟨rfl, ?_⟩, tells.entity cls raw h₀ data h a v hdata cell fun f hf => (all f hf).2⟩
  refine steady_of_fields there apart cell cell' (fun f hf => (all f hf).1.value) id
    (steady_of_inert (Value.inert_dict_iff.2 (List.forall_mem_nil _)))
    fun f hf => (all f hf).1.steady

end

/-! ### Loading of entities -/

section

variable (hg : L.catalog.WellFormed) (pacing : L.Pacing) (tells : L.Tells)

include hg pacing tells

/-- **The fields of an entity that is begun** are loaded alike in both runs, and fill it alike. -/
theorem concur_loadFields {cls : ClassId} {data data' : Entries} {a : Nat}
    {value : Checker → Value → Action Value} (fs : Schema)
    (hfs : ∀ f ∈ fs, f ∈ L.catalog.schemaOf cls)
    (hvalue : ∀ f ∈ fs, f.2.producesEntity = true → ∀ x x' s s',
      L.Paced (fun b => U b ∨ b = a) s s' →
      L.Like False (fun b => U b ∨ b = a) s.heap s'.heap (.decoded f.2) x x' →
      L.Concur (fun b => U b ∨ b = a) (L.Made (fun b => U b ∨ b = a) (.decoded f.2) x) s s'
        (outcome (value f.2 x) s) (outcome (value f.2 x') s'))
    (hraw : ∀ f ∈ fs, (∃ e, Loading.rawField raw f.1 = .error e ∧
        (L.strict → Loading.rawField raw' f.1 = .error e)) ∨
      Loading.rawField raw f.1 = .ok (Entries.getStr data f.1) ∧
        Loading.rawField raw' f.1 = .ok (Entries.getStr data' f.1))
    {s s' s₁ s₁' : Session} (later : L.Later s s₁) (later' : L.Later s' s₁')
    (added : List.length s.heap ≤ a) (added' : List.length s'.heap ≤ L.move a)
    (paced : L.Paced (fun b => U b ∨ b = a) s₁ s₁')
    (begun : L.Begun U cls data fs s₁.heap s₁'.heap a)
    (likes : ∀ f ∈ fs, L.Like False (fun b => U b ∨ b = a) s₁.heap s₁'.heap (.decoded f.2)
      (Entries.getStr data f.1) (Entries.getStr data' f.1)) :
    L.Concur (fun b => U b ∨ b = a) (fun h h' _ _ => L.Begun U cls data [] h h' a) s s'
      (outcome (Loading.loadFields value a raw fs) s₁)
      (outcome (Loading.loadFields value (L.move a) raw' fs) s₁') := by
  induction fs generalizing s₁ s₁' with
  | nil => exact .ok later later' paced begun
  | cons f fs ih =>
    obtain ⟨hf, hfs⟩ := List.forall_mem_cons.1 hfs
    obtain ⟨here, hvalue⟩ := List.forall_mem_cons.1 hvalue
    obtain ⟨field, hraw⟩ := List.forall_mem_cons.1 hraw
    obtain ⟨like, likes⟩ := List.forall_mem_cons.1 likes
    rw [Loading.loadFields, Loading.loadFields]
    cases hp : f.2.producesEntity with
    | false => exact ih hfs hvalue hraw later later' paced (begun.skip hp) likes
    | true =>
      rw [if_pos rfl, if_pos rfl]
      rcases field with ⟨e, he, he'⟩ | ⟨hx, hx'⟩
      · refine (concur_ofExcept_bind pacing paced ?_).after pacing later later'
        exact .inr ⟨e, he, he'⟩
      · rw [hx, hx']
        refine (here hp _ _ s₁ s₁' paced like).next pacing later later' ?_
        intro x x' s₂ s₂' more more' paced₂ made
        rw [outcome_bind_ok (Loading.outcome_settle a f.1 x s₂),
          outcome_bind_ok (Loading.outcome_settle (L.move a) f.1 x' s₂')]
        -- the field is filled in both runs, which are as they were but for the entity
        have reached := pacing.later_trans later more
        have reached' := pacing.later_trans later' more'
        refine ih hfs hvalue hraw ⟨Heap.prefix_settle reached.heap added f.1 x, reached.now⟩
          ⟨Heap.prefix_settle reached'.heap added' f.1 x', reached'.now⟩
          (paced₂.settle (.inr rfl) f.1 x x' pacing)
          ((begun.mono tells paced.fit more.heap more'.heap).fill hg tells hf paced₂.fit made) ?_
        intro p hmem
        exact ((likes p hmem).mono paced.fit more.heap more'.heap).settle (.inr rfl) f.1 x x'

/-- **Loading of entities keeps pace** if the loading of eager references does. -/
theorem enters_loadBy (targets : ∀ cls d, L.known cls → L.catalog.Embeds cls d → L.known d)
    {seek : Nat → ClassId → Value → Action Value}
    (hfetch : ∀ fuel, L.Enters (Loading.loadBy seek fuel) → L.Fetches (seek fuel)) :
    ∀ fuel, L.Enters (Loading.loadBy seek fuel)
  | 0 => fun _ _ _ _ _ _ _ paced _ => concur_throw pacing paced .endless
  | fuel + 1 => by
    intro U cls raw raw' s s' known paced like
    have enter := enters_loadBy targets hfetch fuel
    rw [Loading.loadBy, Loading.loadBy, outcome_get_bind, outcome_get_bind, paced.catalog,
      paced.catalog']
    have built := concur_build pacing paced
      (Construction.abreast_ofRaw False hg tells paced.fit like)
    refine built.next pacing (pacing.refl s) (pacing.refl s') ?_
    rintro _ _ s₁ s₁' later later' paced₁ ⟨a, data, rfl, rfl, added, hdata, begun, -⟩
    rcases like.data with ⟨f, hf, -⟩ | ⟨_, data', hdata', -, -, -, fields⟩
    · cases hf.symm.trans hdata
    obtain rfl := Except.ok.inj (hdata'.symm.trans hdata)
    have added' : List.length s'.heap ≤ L.move a := by
      have size := paced.fit.size
      rw [move_of_ge (paced.fit.started.trans added)]
      omega
    have loaded := concur_loadFields hg pacing tells (L.catalog.schemaOf cls) (fun f hf => hf)
      (fun f hf hp x x' s s' paced like => concur_loadWith pacing tells enter
        (hfetch fuel enter) f.2 hp (fun t d ht hd => targets cls d known ⟨f, hf, t, ht, hd⟩)
        x x' s s' paced like)
      (fun f hf => (fields f hf).2) later later' added added'
      (paced.enter paced₁ later.heap later'.heap added begun.there) begun fun f hf =>
        (fields f hf).1.grow paced.fit later.heap later'.heap (apart_of_added added)
    have apart : ¬ U a := fun hU => (paced.fit.bounded a hU).not_ge added
    exact (loaded.map fun _ _ _ _ _ begun => begun.made tells apart hdata).weaken fun _ => .inl

end

/-! ### What both runs are given -/

/-- A store that is in a file in both runs or in none gives out a value that both runs are given, as
it is or as a copy: the same at any rate. -/
theorem concur_giveOut (pacing : L.Pacing) {s s' : Session} (paced : L.Paced U s s') {d : Value}
    (hd : L.given d) (inFile : Bool) :
    L.Concur U (fun h h' w w' => ∃ f, w = Heap.rename f d ∧ L.Same U h h' w w') s s'
      (outcome (if inFile then pure d else copy d) s)
      (outcome (if inFile then pure d else copy d) s') := by
  have given := paced.given d hd
  cases inFile with
  | true => exact concur_pure pacing paced ⟨id, (Heap.rename_id d).symm, given.same⟩
  | false =>
    obtain ⟨grown, grown', fit, same⟩ := given.copy paced.fit rfl rfl
    exact .ok ⟨grown, pacing.precedes _ _ (.refl _)⟩ ⟨grown', pacing.precedes _ _ (.refl _)⟩
      (paced.grow pacing grown grown' fit fun _ _ => id) ⟨_, rfl, same⟩

/-- **A record that both runs are given** is loaded alike, be it copied before or not. -/
theorem concur_loadGiven (pacing : L.Pacing) {s s' : Session} (paced : L.Paced U s s') {d : Value}
    (hd : L.given d) (inFile : Bool) {load : ClassId → Value → Action Value}
    (henter : L.Enters load)
    (cls : ClassId) (known : L.known cls) :
    L.Concur U (fun h h' v v' => ∃ f, L.Made U (.entity cls) (Heap.rename f d) h h' v v') s s'
      (outcome ((if inFile then pure d else copy d) >>= load cls) s)
      (outcome ((if inFile then pure d else copy d) >>= load cls) s') := by
  refine (concur_giveOut pacing paced hd inFile).bind pacing ?_
  rintro _ w' s₁ s₁' - - paced₁ ⟨f, rfl, same⟩
  exact (henter U cls _ w' s₁ s₁' known paced₁ (.same same)).imp fun _ _ _ _ _ made => ⟨f, made⟩

end Pairing

end EntitySchema
