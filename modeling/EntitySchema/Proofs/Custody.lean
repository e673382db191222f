/-
**A store in memory shares nothing with those who use it.**

Those who use a store have values in hand, and whatever these hold is within their reach: they can
change it, make more, and hand it to the store.  A store in memory takes copies in and gives copies
out, so nothing that it keeps is ever within their reach.  Whatever they do, its answers are copies
of the records as they were when they were put, with the same objects shared in them, and of cells
that are new.  Only to put, to remove and to disconnect changes what is answered, and nothing that
is asked of the store changes an object that was there.

Functions are not copied, so those in a record are the functions that were put.

Main definitions:

* `Deposit` — a record as it was put, with the heap as it was then;
* `Custody` — a session, what the users of a store have in hand, and the deposits that the store
  keeps;
* `Custody.Acts` — **what the users of a store can do by themselves**;
* `Custody.Asks` — what they can ask of it;
* `Custody.Apart` — some cells belong to the store, and none of them is within reach.

Main results:

* `Custody.Apart.of_acts`, `Custody.Apart.of_asks` — what belongs to the store stays apart;
* `Custody.acts_of_assign` — giving an attribute a value is what users can do by themselves;
* `Custody.copies_of_run` — **in every run a store in memory answers with copies of what was put.**
-/

import EntitySchema.Proofs.Copying
import EntitySchema.Proofs.Inspection
import EntitySchema.Proofs.Refinement
import Mathlib.Data.List.Forall2

set_option autoImplicit false

namespace EntitySchema

/-! ### Deposits -/

/-- A record as it was put, and the heap as it was then. -/
structure Deposit where
  key : RecordKey
  data : Entries
  heap : Heap

namespace Deposit

/-- The deposits without that under a key. -/
def without (ds : List Deposit) (key : RecordKey) : List Deposit := ds.filter fun d => d.key != key

/-- The deposits with a new one as the newest. -/
def put (ds : List Deposit) (d : Deposit) : List Deposit := without ds d.key ++ [d]

/-- The deposit under a key. -/
def get? (ds : List Deposit) (key : RecordKey) : Option Deposit := ds.find? fun d => d.key == key

/-- The deposits of a kind, the newest first. -/
def ofKind (ds : List Deposit) (kind : Kind) : List Deposit :=
  ds.reverse.filter fun d => d.key.kind == kind

end Deposit

/-- A session, what the users of one of its stores have in hand, and the deposits that the store
keeps. -/
structure Custody where
  session : Session
  held : List Value
  deposits : List Deposit

namespace Custody

open Session

/-- The objects and functions within reach of those who use the store. -/
def Has (w : Custody) (a : Address) : Prop := ∃ v ∈ w.held, w.session.heap.Holds v a

/-- What can be made of what is within reach. -/
def AtHand (w : Custody) (v : Value) : Prop := ∀ a, v.LeadsTo a → w.Has a

/-- What those who use a store can do by themselves, without asking it.  They change only cells
within their reach and make new ones, and what they write and what they have in hand then leads only
to these. -/
structure Acts (i : StoreId) (w w' : Custody) : Prop where
  grown : w.session.heap.length ≤ w'.session.heap.length
  kept : ∀ a < w.session.heap.length, ¬ w.Has a →
    w'.session.heap.get a = w.session.heap.get a
  written : ∀ a, w.Has a ∨ w.session.heap.length ≤ a → ∀ p ∈ (w'.session.heap.get a).attributes,
    ∀ b, p.2.LeadsTo b → w.Has b ∨ w.session.heap.length ≤ b ∧ b < w'.session.heap.length
  held : ∀ v ∈ w'.held, ∀ b, v.LeadsTo b →
    w.Has b ∨ w.session.heap.length ≤ b ∧ b < w'.session.heap.length
  store : w'.session.stores[i]? = w.session.stores[i]?
  deposits : w'.deposits = w.deposits

/-! ### What is asked of a store -/

/-- What is offered as a record. -/
def offered (w : Custody) (kind id data : Value) : Except Failure Record := do
  let name ← Method.toText w.session.catalog w.session.heap id
  Record.examine kind name data

/-- What a record is searched under, if it is anything that a record can be filed under. -/
def keyOf (w : Custody) (kind id : Value) : Except Failure (Option RecordKey) := do
  let name ← Method.toText w.session.catalog w.session.heap id
  let kind ← searchedKind w.session.heap kind
  .ok (kind.map fun kind => ⟨kind, name⟩)

/-- The deposit that is asked for, if there is one. -/
def sought (w : Custody) (kind id : Value) : Except Failure (Option Deposit) := do
  let key ← w.keyOf kind id
  .ok (key.bind (Deposit.get? w.deposits))

/-- The deposits that a listing asks for. -/
def listed (w : Custody) (kind limit offset : Value) : Except Failure (List Deposit) := do
  let limit ← indexOf limit
  let offset ← indexOf offset
  .ok (((Kind.ofValue? kind).map fun kind =>
    window (Deposit.ofKind w.deposits kind) offset (offset + limit)).getD [])

/-- The deposits after a record was kept.  What cannot be copied takes the place of what was there
before, and is not there itself. -/
def afterKeep (w : Custody) (r : Record) : List Deposit :=
  if w.session.heap.copyable (.dict r.data) then
    Deposit.put w.deposits ⟨r.key, r.data, w.session.heap⟩
  else Deposit.without w.deposits r.key

/-- The deposits after one was put. -/
def afterPut (w : Custody) (kind id data : Value) : List Deposit :=
  match w.offered kind id data with
  | .ok r => w.afterKeep r
  | .error _ => w.deposits

/-- The deposits after one was removed. -/
def afterRemove (w : Custody) (kind id : Value) : List Deposit :=
  match w.keyOf kind id with
  | .ok (some key) => Deposit.without w.deposits key
  | _ => w.deposits

/-- What those who asked have in hand then, if they got an answer. -/
def withAnswers (held : List Value) : Except Failure (List Value) → List Value
  | .ok vs => vs ++ held
  | .error _ => held

/-- What is asked of a store.  What it puts is to be at hand; what it answers is in hand then. -/
inductive Asks (i : StoreId) (w : Custody) : Custody → Prop
  | put (kind id : Value) {data : Value} : w.AtHand data → Asks i w
      ⟨(outcome (putRecord i kind id data) w.session).2, w.held, w.afterPut kind id data⟩
  | fetch (kind id : Value) : Asks i w
      ⟨(outcome (fetchRecord i kind id) w.session).2,
        withAnswers w.held ((outcome (fetchRecord i kind id) w.session).1.map Option.toList),
        w.deposits⟩
  | list (kind limit offset : Value) : Asks i w
      ⟨(outcome (listRecords i kind limit offset) w.session).2,
        withAnswers w.held (outcome (listRecords i kind limit offset) w.session).1, w.deposits⟩
  | remove (kind id : Value) : Asks i w
      ⟨(outcome (removeRecord i kind id) w.session).2, w.held, w.afterRemove kind id⟩
  | count (kind : Value) : Asks i w
      ⟨(outcome (countRecords i kind) w.session).2, w.held, w.deposits⟩
  | connect : Asks i w ⟨(outcome (connect i) w.session).2, w.held, w.deposits⟩
  | disconnect : Asks i w ⟨(outcome (disconnect i) w.session).2, w.held, []⟩

/-- One step of a run: those who use the store do something by themselves, or ask it. -/
def Step (i : StoreId) (w w' : Custody) : Prop := Acts i w w' ∨ Asks i w w'

/-- How a run begins: the store is in memory and empty, and nothing leads to cells that are not
there. -/
structure Begins (i : StoreId) (w : Custody) : Prop where
  store : w.session.stores[i]? = some (.memory [])
  deposits : w.deposits = []
  sound : w.session.heap.Sound
  covers : ∀ v ∈ w.held, w.session.heap.Covers v

/-! ### Giving attributes -/

section

variable {i : StoreId} {w : Custody} {a : Address} {target v : Value} {name : String} {h : Heap}

/-- What the cells within reach lead to is within reach. -/
theorem has_of_attributes {b : Address} (ha : w.Has a ∨ w.session.heap.length ≤ a)
    {p : String × Value} (hp : p ∈ (w.session.heap.get a).attributes) (hb : p.2.LeadsTo b) :
    w.Has b := by
  rcases ha with ⟨u, hu, ha⟩ | beyond
  · exact ⟨u, hu, .through ha hp hb⟩
  · rw [Heap.attributes_of_ge beyond] at hp
    cases hp

/-- To write a cell within reach with what is at hand is what the users of a store can do. -/
theorem acts_of_write (has : w.Has a) {c : Cell} (atHand : ∀ p ∈ c.attributes, w.AtHand p.2) :
    Acts i w ⟨{ w.session with heap := w.session.heap.write a c }, w.held, w.deposits⟩ where
  grown := by simp [Heap.write]
  kept b _ other := Heap.get_write_of_ne _ (fun heq : a = b => other (heq ▸ has)) c
  written b hb p hp d hd := by
    by_cases here : a = b ∧ a < w.session.heap.length
    · obtain ⟨rfl, lt⟩ := here
      rw [Heap.get_write_self _ lt] at hp
      exact .inl (atHand p hp d hd)
    · have same : (w.session.heap.write a c).get b = w.session.heap.get b := by
        by_cases heq : a = b
        · subst heq
          rw [Heap.write, List.set_eq_of_length_le (Nat.le_of_not_lt fun lt => here ⟨rfl, lt⟩)]
        · exact Heap.get_write_of_ne _ heq c
      rw [same] at hp
      exact .inl (has_of_attributes hb hp hd)
  held u hu b hb := .inl ⟨u, hu, .direct hb⟩
  store := rfl
  deposits := rfl

theorem atHand_of_attributes (has : w.Has a) {p : String × Value}
    (hp : p ∈ (w.session.heap.get a).attributes) : w.AtHand p.2 := by
  obtain ⟨u, hu, ha⟩ := has
  exact fun b hb => ⟨u, hu, .through ha hp hb⟩

/-- The attributes that a mapping holds under names lead to what it leads to. -/
theorem leadsTo_of_namedAttributes {t : Table Value} (ht : Heap.namedAttributes v = .ok t)
    {p : String × Value} (hp : p ∈ t) {b : Address} (hb : p.2.LeadsTo b) : v.LeadsTo b := by
  unfold Heap.namedAttributes at ht
  split at ht
  · next es hes =>
    cases ht
    obtain ⟨e, he, heq⟩ := List.mem_filterMap.1 hp
    split at heq
    · cases heq
      exact (Value.leadsTo_of_entries hes he).2 b hb
    · cases heq
  · cases ht

theorem acts_of_put (has : w.Has a) (atHand : w.AtHand v) :
    Acts i w ⟨{ w.session with heap := w.session.heap.put a name v }, w.held, w.deposits⟩ := by
  refine acts_of_write has fun p hp => ?_
  rcases Table.mem_put hp with hp | rfl
  · exact atHand_of_attributes has hp
  · exact atHand

/-- **To give something at hand an attribute is what the users of a store can do by themselves**, be
it a field, the class or all attributes. -/
theorem acts_of_assign (ht : w.AtHand target) (hv : w.AtHand v)
    (hh : w.session.heap.setAttribute target name v = .ok h) :
    Acts i w ⟨{ w.session with heap := h }, w.held, w.deposits⟩ := by
  cases target with
  | object a =>
    have has : w.Has a := ht a (.object a)
    rw [Heap.setAttribute, Heap.assign] at hh
    split at hh
    · unfold Heap.assignClass at hh
      split at hh
      · cases hh
        exact acts_of_write has fun p hp => atHand_of_attributes has hp
      · cases hh
        exact acts_of_write has fun p hp => atHand_of_attributes has hp
      · cases hh
    split at hh
    · obtain ⟨t, ht, hh⟩ := bind_eq_ok.1 hh
      cases hh
      exact acts_of_write has fun p hp b hb => hv b (leadsTo_of_namedAttributes ht hp hb)
    split at hh
    · cases hh
    split at hh
    · cases hh
    · cases hh
      exact acts_of_put has hv
  | function a =>
    cases hh
    exact acts_of_put (ht a (.function a)) hv
  | _ => cases hh

end

/-! ### What belongs to the store -/

/-- A value in the custody of a store: the objects that it refers to belong to the store, and the
functions that it is made of do not. -/
structure Kept (own : Address → Prop) (v : Value) : Prop where
  refs : ∀ a ∈ Heap.refs v, own a
  functions : ∀ a ∈ v.functions, ¬ own a

/-- A value that leads to nothing that belongs to a store. -/
def Free (own : Address → Prop) (v : Value) : Prop := ∀ a, v.LeadsTo a → ¬ own a

/-- The data that a store keeps of a deposit: a copy of them as they were when they were put, in the
custody of the store. -/
structure Keeps (h : Heap) (own : Address → Prop) (d : Deposit) (es : Entries) : Prop where
  copied : Heap.Copied d.heap (.dict d.data) h (.dict es)
  covers : h.Covers (.dict es)
  kept : Kept own (.dict es)

/-- A record under the key of a deposit, the data of which are related to it. -/
def Files (K : Deposit → Entries → Prop) (d : Deposit) (r : Record) : Prop :=
  d.key = r.key ∧ K d r.data

/-- A record that a store keeps of a deposit. -/
def Records (h : Heap) (own : Address → Prop) : Deposit → Record → Prop := Files (Keeps h own)

/-- Some cells belong to a store in memory, and the others lead to none of these, nor does anything
that the users of the store have in hand. -/
structure Apart (i : StoreId) (w : Custody) (own : Address → Prop) : Prop where
  sound : w.session.heap.Sound
  bounded : ∀ a, own a → a < w.session.heap.length
  inside : ∀ a, own a → ∀ p ∈ (w.session.heap.get a).attributes, Kept own p.2
  outside : ∀ a, ¬ own a → ∀ p ∈ (w.session.heap.get a).attributes, Free own p.2
  covers : ∀ v ∈ w.held, w.session.heap.Covers v
  free : ∀ v ∈ w.held, Free own v
  records : ∃ rs, w.session.stores[i]? = some (.memory rs) ∧
    List.Forall₂ (Records w.session.heap own) w.deposits rs

variable {i : StoreId} {w w' : Custody} {own : Address → Prop} {v : Value} {a : Address}

/-- At the beginning nothing belongs to the store. -/
theorem Begins.apart (begins : Begins i w) : Apart i w fun _ => False where
  sound := begins.sound
  bounded := nofun
  inside := nofun
  outside _ _ _ _ _ _ := id
  covers := begins.covers
  free _ _ _ _ := id
  records := ⟨[], begins.store, begins.deposits ▸ .nil⟩

namespace Apart

/-- What is within reach of the users of a store is there, and does not belong to the store. -/
theorem of_has (apart : Apart i w own) (ha : w.Has a) :
    a < w.session.heap.length ∧ ¬ own a := by
  obtain ⟨v, hv, ha⟩ := ha
  induction ha with
  | direct ha => exact ⟨apart.covers v hv _ ha, apart.free v hv _ ha⟩
  | through _ hp hb ih => exact ⟨apart.sound _ _ hp _ hb, apart.outside _ ih.2 _ hp _ hb⟩

/-- What is comprised by a value in the custody of a store belongs to the store. -/
theorem own_of_comprises (apart : Apart i w own) (kept : Kept own v)
    (ha : w.session.heap.Comprises v a) : own a := by
  refine ha.induction (P := own) kept.refs fun a ha b hb => ?_
  obtain ⟨p, hp, hb⟩ := Heap.mem_cellRefs.1 hb
  exact (apart.inside a ha p hp).refs b hb

/-- What is kept is kept where nothing that belongs to the store is changed. -/
theorem keeps_of_same (apart : Apart i w own) {h : Heap} {own' : Address → Prop}
    (grown : w.session.heap.length ≤ h.length) (more : ∀ a, own a → own' a)
    (fresh : ∀ a < w.session.heap.length, own' a → own a)
    (same : ∀ a, own a → h.get a = w.session.heap.get a) {d : Deposit} {es : Entries}
    (keeps : Keeps w.session.heap own d es) : Keeps h own' d es where
  copied := keeps.copied.congr fun b hb => same b (apart.own_of_comprises keeps.kept hb)
  covers a ha := (keeps.covers a ha).trans_le grown
  kept := ⟨fun a ha => more a (keeps.kept.refs a ha), fun a ha hown =>
    keeps.kept.functions a ha (fresh a (keeps.covers a (.of_functions ha)) hown)⟩

/-- **What belongs to the store stays apart from its users whatever they do by themselves.** -/
theorem of_acts (apart : Apart i w own) (acts : Acts i w w') : Apart i w' own := by
  have untouched : ∀ a, own a → w'.session.heap.get a = w.session.heap.get a := fun a ha =>
    acts.kept a (apart.bounded a ha) fun has => (apart.of_has has).2 ha
  have allowed : ∀ b, (w.Has b ∨ w.session.heap.length ≤ b ∧ b < w'.session.heap.length) →
      b < w'.session.heap.length ∧ ¬ own b := by
    rintro b (has | ⟨above, below⟩)
    · obtain ⟨lt, free⟩ := apart.of_has has
      exact ⟨lt.trans_le acts.grown, free⟩
    · exact ⟨below, fun hb => absurd (apart.bounded b hb) above.not_gt⟩
  -- a cell is the old one, or one that they wrote
  have cell : ∀ a, w'.session.heap.get a = w.session.heap.get a ∨
      ∀ p ∈ (w'.session.heap.get a).attributes, ∀ b, p.2.LeadsTo b →
        b < w'.session.heap.length ∧ ¬ own b := by
    intro a
    by_cases written : w.Has a ∨ w.session.heap.length ≤ a
    · exact .inr fun p hp b hb => allowed b (acts.written a written p hp b hb)
    · rw [not_or] at written
      exact .inl (acts.kept a (Nat.lt_of_not_le written.2) written.1)
  refine ⟨fun a p hp b hb => ?_, fun a ha => (apart.bounded a ha).trans_le acts.grown,
    fun a ha => untouched a ha ▸ apart.inside a ha, fun a ha p hp b hb => ?_,
    fun v hv b hb => (allowed b (acts.held v hv b hb)).1,
    fun v hv b hb => (allowed b (acts.held v hv b hb)).2, ?_⟩
  · rcases cell a with same | new
    · exact (apart.sound a p (same ▸ hp) b hb).trans_le acts.grown
    · exact (new p hp b hb).1
  · rcases cell a with same | new
    · exact apart.outside a ha p (same ▸ hp) b hb
    · exact (new p hp b hb).2
  · obtain ⟨rs, store, keeps⟩ := apart.records
    refine ⟨rs, acts.store.trans store, acts.deposits ▸ keeps.imp fun d r keeps => ?_⟩
    exact keeps.imp_right <| apart.keeps_of_same acts.grown (fun _ => id) (fun _ _ => id) untouched

/-- More cells leave what belongs to the store apart, if those that belong to it are in its custody
and the others lead to nothing that does. -/
theorem grow (apart : Apart i w own) {h : Heap} (grown : w.session.heap <+: h)
    {own' : Address → Prop} (same : ∀ a < w.session.heap.length, (own' a ↔ own a))
    (bounded : ∀ a, own' a → a < h.length)
    (new : ∀ a, w.session.heap.length ≤ a → ∀ p ∈ (h.get a).attributes,
      h.Covers p.2 ∧ (own' a → Kept own' p.2) ∧ (¬ own' a → Free own' p.2)) :
    Apart i ⟨{ w.session with heap := h }, w.held, w.deposits⟩ own' := by
  have longer : w.session.heap.length ≤ h.length := grown.length_le
  have cell : ∀ a < w.session.heap.length, h.get a = w.session.heap.get a :=
    fun a ha => Heap.get_of_extended grown ha
  have free : ∀ v, w.session.heap.Covers v → Free own v → Free own' v :=
    fun v covers free b hb hown => free b hb ((same b (covers b hb)).1 hown)
  refine ⟨fun a p hp => ?_, bounded, fun a ha p hp => ?_, fun a ha p hp => ?_,
    fun u hu b hb => (apart.covers u hu b hb).trans_le longer,
    fun u hu => free u (apart.covers u hu) (apart.free u hu), ?_⟩
  · rcases Nat.lt_or_ge a w.session.heap.length with old | new'
    · exact fun b hb => (apart.sound a p (cell a old ▸ hp) b hb).trans_le longer
    · exact (new a new' p hp).1
  · rcases Nat.lt_or_ge a w.session.heap.length with old | new'
    · have hp := cell a old ▸ hp
      have kept := apart.inside a ((same a old).1 ha) p hp
      have covers := apart.sound a p hp
      exact ⟨fun b hb => (same b (covers b (.of_refs hb))).2 (kept.refs b hb), fun b hb hown =>
        kept.functions b hb ((same b (covers b (.of_functions hb))).1 hown)⟩
    · exact (new a new' p hp).2.1 ha
  · rcases Nat.lt_or_ge a w.session.heap.length with old | new'
    · have hp := cell a old ▸ hp
      exact free p.2 (apart.sound a p hp) (apart.outside a (fun h => ha ((same a old).2 h)) p hp)
    · exact (new a new' p hp).2.2 ha
  · obtain ⟨rs, store, keeps⟩ := apart.records
    exact ⟨rs, store, keeps.imp fun d r => And.imp_right <| apart.keeps_of_same longer
      (fun a ha => (same a (apart.bounded a ha)).2 ha) (fun a ha => (same a ha).1)
      fun a ha => cell a (apart.bounded a ha)⟩

/-- **A copy that is given out is within reach, and what belongs to the store is not.** -/
theorem of_copy_out (apart : Apart i w own) (kept : Kept own v) (covers : w.session.heap.Covers v)
    {r : Value × Heap} (hr : w.session.heap.copy v = r) :
    Apart i ⟨{ w.session with heap := r.2 }, r.1 :: w.held, w.deposits⟩ own ∧
      Heap.Copied w.session.heap v r.2 r.1 ∧
      (∀ b, r.2.Comprises r.1 b → w.session.heap.length ≤ b) ∧ w.session.heap <+: r.2 := by
  obtain ⟨f, mirrors, grown, placed, added⟩ :=
    Heap.copied_copy (fun _ ha => ha.lt apart.sound covers) hr
  -- what a copied value leads to is new, or a function
  have copied : ∀ u, (∀ a ∈ Heap.refs u, w.session.heap.Comprises v a) → w.session.heap.Covers u →
      Kept own u → r.2.Covers (Heap.rename f u) ∧ Free own (Heap.rename f u) := by
    intro u comprised covers kept
    refine forall₂_and.1 fun b hb => ?_
    rcases Heap.exists_of_leadsTo_rename hb with ⟨a, ha, rfl⟩ | hb
    · obtain ⟨above, below⟩ := placed a (comprised a ha)
      exact ⟨below, fun hown => absurd (apart.bounded _ hown) above.not_gt⟩
    · exact ⟨(covers b (.of_functions hb)).trans_le grown.length_le, kept.functions b hb⟩
  have cell : ∀ a, w.session.heap.length ≤ a → ∀ p ∈ (r.2.get a).attributes,
      r.2.Covers p.2 ∧ Free own p.2 := by
    intro a above p hp
    obtain ⟨c, q, hc, hq, heq⟩ := Heap.exists_of_added added above hp
    rw [heq]
    exact copied q.2 (fun d hd => .through hc (Heap.mem_cellRefs.2 ⟨q, hq, hd⟩))
      (apart.sound c q hq) (apart.inside c (apart.own_of_comprises kept hc) q hq)
  have answer := copied v (fun a ha => .direct ha) covers kept
  rw [← mirrors.value] at answer
  have others := apart.grow grown (fun _ _ => Iff.rfl)
    (fun a ha => (apart.bounded a ha).trans_le grown.length_le) fun a above p hp =>
      ⟨(cell a above p hp).1, fun ha => absurd (apart.bounded a ha) above.not_gt,
        fun _ => (cell a above p hp).2⟩
  refine ⟨{ others with
    covers := List.forall_mem_cons.2 ⟨answer.1, others.covers⟩
    free := List.forall_mem_cons.2 ⟨answer.2, others.free⟩ }, ⟨f, mirrors⟩, fun b hb => ?_, grown⟩
  obtain ⟨a, ha, rfl⟩ := mirrors.comprises_iff.1 hb
  exact (placed a ha).1

/-- **A copy that is taken in belongs to the store, and is out of reach.** -/
theorem of_copy_in (apart : Apart i w own) (free : Free own v) (covers : w.session.heap.Covers v)
    {r : Value × Heap} (hr : w.session.heap.copy v = r) :
    ∃ own', Apart i ⟨{ w.session with heap := r.2 }, w.held, w.deposits⟩ own' ∧
      Heap.Copied w.session.heap v r.2 r.1 ∧ r.2.Covers r.1 ∧ Kept own' r.1 ∧
      w.session.heap <+: r.2 := by
  obtain ⟨f, mirrors, grown, placed, added⟩ :=
    Heap.copied_copy (fun _ ha => ha.lt apart.sound covers) hr
  generalize hown' : (fun a => own a ∨ w.session.heap.length ≤ a ∧ a < r.2.length) = own'
  have same : ∀ a < w.session.heap.length, (own' a ↔ own a) := by
    intro a ha
    rw [← hown']
    exact ⟨fun h => h.resolve_right fun new => absurd ha new.1.not_gt, .inl⟩
  have bounded : ∀ a, own' a → a < r.2.length := by
    rw [← hown']
    rintro a (ha | ha)
    · exact (apart.bounded a ha).trans_le grown.length_le
    · exact ha.2
  -- what is comprised was not the store's
  have freed : ∀ a, w.session.heap.Comprises v a → ¬ own a := fun a ha =>
    ha.induction (P := fun a => ¬ own a) (fun a ha => free a (.of_refs ha)) fun a ha b hb => by
      obtain ⟨p, hp, hb⟩ := Heap.mem_cellRefs.1 hb
      exact apart.outside a ha p hp b (.of_refs hb)
  have copied : ∀ u, (∀ a ∈ Heap.refs u, w.session.heap.Comprises v a) → w.session.heap.Covers u →
      Free own u → r.2.Covers (Heap.rename f u) ∧ Kept own' (Heap.rename f u) := by
    intro u comprised covers free
    refine ⟨fun b hb => ?_, fun b hb => ?_, fun b hb hown => ?_⟩
    · rcases Heap.exists_of_leadsTo_rename hb with ⟨a, ha, rfl⟩ | hb
      · exact (placed a (comprised a ha)).2
      · exact (covers b (.of_functions hb)).trans_le grown.length_le
    · rw [Heap.refs_rename] at hb
      obtain ⟨a, ha, rfl⟩ := List.mem_map.1 hb
      exact hown' ▸ .inr (placed a (comprised a ha))
    · rw [Heap.functions_rename] at hb
      exact free b (.of_functions hb) ((same b (covers b (.of_functions hb))).1 hown)
  have others := apart.grow grown same bounded fun a above p hp => by
    obtain ⟨c, q, hc, hq, heq⟩ := Heap.exists_of_added added above hp
    obtain ⟨covers, kept⟩ := copied q.2 (fun d hd => .through hc (Heap.mem_cellRefs.2 ⟨q, hq, hd⟩))
      (apart.sound c q hq) (apart.outside c (freed c hc) q hq)
    have below : a < r.2.length := by
      by_contra beyond
      rw [Heap.attributes_of_ge (Nat.le_of_not_lt beyond)] at hp
      cases hp
    rw [heq]
    exact ⟨covers, fun _ => kept, fun ha => absurd (hown' ▸ .inr ⟨above, below⟩) ha⟩
  have answer := copied v (fun a ha => .direct ha) covers free
  rw [← mirrors.value] at answer
  exact ⟨own', others, ⟨f, mirrors⟩, answer.1, answer.2, grown⟩

/-- What the users of a store put aside they can have in hand again. -/
theorem of_held (apart : Apart i w own) {held : List Value} (less : ∀ v ∈ held, v ∈ w.held) :
    Apart i ⟨w.session, held, w.deposits⟩ own :=
  { apart with
    covers := fun v hv => apart.covers v (less v hv)
    free := fun v hv => apart.free v (less v hv) }

end Apart

/-! ### Answers -/

/-- Outcomes that fail by the same, or have results that are related. -/
inductive Answers {α β : Type} (R : α → β → Prop) : Except Failure α → Except Failure β → Prop
  | failed (e : Failure) : Answers R (.error e) (.error e)
  | made {x : α} {y : β} : R x y → Answers R (.ok x) (.ok y)

/-- What is given out of a deposit: a copy of it as it was put, of cells that are new. -/
structure GivenOut (h h' : Heap) (d : Deposit) (v : Value) : Prop where
  copied : Heap.Copied d.heap (.dict d.data) h' v
  fresh : ∀ b, h'.Comprises v b → h.length ≤ b

/-- What is given out stays a copy as more is given out. -/
theorem GivenOut.grow {h h₁ h₂ : Heap} {d : Deposit} (given : GivenOut h h₁ d v) (sound : h₁.Sound)
    (covers : h₁.Covers v) (grown : h₁ <+: h₂) : GivenOut h h₂ d v where
  copied := given.copied.congr fun _ hb => Heap.get_of_extended grown (hb.lt sound covers)
  fresh b hb := given.fresh b (hb.of_extended sound covers grown)

namespace Apart

/-- **Copies of kept data are given out one after the other.** -/
theorem of_copies (apart : Apart i w own) {ds : List Deposit} {ess : List Entries}
    (keeps : List.Forall₂ (Keeps w.session.heap own) ds ess) : ∃ vs h,
      outcome (ess.mapM fun es => copy (.dict es)) w.session =
        (.ok vs, { w.session with heap := h }) ∧
      w.session.heap <+: h ∧ List.Forall₂ (GivenOut w.session.heap h) ds vs ∧
      Apart i ⟨{ w.session with heap := h }, vs ++ w.held, w.deposits⟩ own := by
  induction ess generalizing w ds with
  | nil =>
    cases keeps
    exact ⟨[], w.session.heap, rfl, List.prefix_rfl, .nil, apart⟩
  | cons es ess ih =>
    cases keeps with | cons kept rest
    obtain ⟨apart₁, copied, fresh, grown₁⟩ := apart.of_copy_out kept.kept kept.covers rfl
    generalize hr : w.session.heap.copy (.dict es) = r at *
    obtain ⟨v, h₁⟩ := r
    have run : outcome (copy (.dict es)) w.session = (.ok v, { w.session with heap := h₁ }) := by
      rw [copy, outcome_get_bind, hr]
      rfl
    have keeps₁ := rest.imp fun d es => apart.keeps_of_same grown₁.length_le (fun _ => id)
      (fun _ _ => id) fun a ha => Heap.get_of_extended grown₁ (apart.bounded a ha)
    obtain ⟨vs, h₂, runs, grown₂, given, apart₂⟩ := ih apart₁ keeps₁
    refine ⟨v :: vs, h₂, ?_, grown₁.trans grown₂, .cons ?_ ?_, apart₂.of_held fun u hu => ?_⟩
    · rw [List.mapM_cons, outcome_bind_ok run, outcome_bind_ok runs]
      rfl
    · exact GivenOut.grow ⟨kept.copied.trans copied, fresh⟩ apart₁.sound
        (apart₁.covers v (List.mem_cons_self ..)) grown₂
    · exact given.imp fun d u given =>
        ⟨given.copied, fun b hb => grown₁.length_le.trans (given.fresh b hb)⟩
    · rcases List.mem_append.1 hu with hu | hu
      · rcases List.mem_cons.1 hu with rfl | hu
        · exact List.mem_append_right _ (List.mem_cons_self ..)
        · exact List.mem_append_left _ hu
      · exact List.mem_append_right _ (List.mem_cons_of_mem _ hu)

end Apart

/-! ### The records of the deposits -/

section

variable {K : Deposit → Entries → Prop} {ds : List Deposit} {rs : List Record}

theorem rel_find? {α β : Type} {R : α → β → Prop} {p : α → Bool} {q : β → Bool} {xs : List α}
    {ys : List β} (hxy : List.Forall₂ R xs ys) (same : ∀ x y, R x y → p x = q y) :
    Option.Rel R (xs.find? p) (ys.find? q) := by
  induction hxy with
  | nil => exact .none
  | @cons x y xs ys hR _ ih =>
    rw [List.find?_cons, List.find?_cons, same x y hR]
    split
    · exact .some hR
    · exact ih

/-- The record under a key is that of the deposit. -/
theorem rel_get? (records : List.Forall₂ (Files K) ds rs) (key : RecordKey) :
    Option.Rel K (Deposit.get? ds key) (MemoryStore.get? rs key) := by
  have found : Option.Rel (Files K) (ds.find? fun d => d.key == key)
      (rs.find? fun r => r.key == key) := rel_find? records fun d r hr => by rw [hr.1]
  rw [Deposit.get?, MemoryStore.get?]
  generalize (ds.find? fun d => d.key == key) = d? at found ⊢
  generalize (rs.find? fun r => r.key == key) = r? at found ⊢
  cases found with
  | none => exact .none
  | some hr => exact .some hr.2

/-- Taking away what is under a key takes away the record of the deposit. -/
theorem rel_without (records : List.Forall₂ (Files K) ds rs) (key : RecordKey) :
    List.Forall₂ (Files K) (Deposit.without ds key) (MemoryStore.without rs key) :=
  List.rel_filter (fun d r hr => by dsimp only; rw [hr.1]) records

/-- A window of a listing of a kind has the records of the deposits in it. -/
theorem rel_list (records : List.Forall₂ (Files K) ds rs) (kind : Kind) (limit offset : Int) :
    List.Forall₂ K (window (Deposit.ofKind ds kind) offset (offset + limit))
      (MemoryStore.list rs kind limit offset) := by
  have ofKind : List.Forall₂ K (Deposit.ofKind ds kind) (MemoryStore.ofKind rs kind) := by
    rw [MemoryStore.ofKind, List.forall₂_map_right_iff]
    have filtered : List.Forall₂ (Files K) (Deposit.ofKind ds kind)
        (rs.reverse.filter fun r => r.key.kind == kind) :=
      List.rel_filter (fun d r hr => by dsimp only; rw [hr.1]) (List.rel_reverse records)
    exact filtered.imp fun _ _ hr => hr.2
  rw [MemoryStore.list, window, window, ofKind.length_eq]
  exact List.forall₂_drop _ (List.forall₂_take _ ofKind)

end

namespace Apart

/-- The records of a store are other ones, if what is kept of them is. -/
theorem of_records (apart : Apart i w own) {ds : List Deposit} {rs : List Record}
    (records : List.Forall₂ (Records w.session.heap own) ds rs) :
    Apart i ⟨w.session.setStore i (.memory rs), w.held, ds⟩ own := by
  obtain ⟨rs', store, -⟩ := apart.records
  exact { apart with records := ⟨rs, store_setStore store, records⟩ }

/-! ### What is asked of a store -/

/-- **What is fetched is a copy of what was put.** -/
theorem of_fetch (apart : Apart i w own) (kind id : Value) : ∃ h r,
    outcome (fetchRecord i kind id) w.session = (r, { w.session with heap := h }) ∧
    w.session.heap <+: h ∧ Answers (Option.Rel (GivenOut w.session.heap h)) (w.sought kind id) r ∧
    Apart i ⟨{ w.session with heap := h }, withAnswers w.held (r.map Option.toList), w.deposits⟩
      own := by
  obtain ⟨rs, store, records⟩ := apart.records
  cases hname : Method.toText w.session.catalog w.session.heap id with
  | error e =>
    have none : w.sought kind id = .error e := by rw [sought, keyOf, hname]; rfl
    rw [none]
    exact ⟨w.session.heap, .error e, fetchRecord_of_text_error hname, List.prefix_rfl,
      .failed e, apart⟩
  | ok name =>
    have text : outcome (textOf id) w.session = (.ok name, w.session) := by
      rw [outcome_textOf, hname]
    rw [fetchRecord, outcome_bind_ok text, outcome_get_bind, store_eq store]
    dsimp only
    rw [outcome_bind, outcome_ofExcept]
    cases hkind : searchedKind w.session.heap kind with
    | error e =>
      have none : w.sought kind id = .error e := by rw [sought, keyOf, hname, ok_bind, hkind]; rfl
      rw [none]
      exact ⟨w.session.heap, .error e, rfl, List.prefix_rfl, .failed e, apart⟩
    | ok kind? =>
      have asked : w.sought kind id =
          .ok (kind?.bind fun kind => Deposit.get? w.deposits ⟨kind, name⟩) := by
        rw [sought, keyOf, hname, ok_bind, hkind]
        cases kind? <;> rfl
      have found : Option.Rel (Keeps w.session.heap own)
          (kind?.bind fun kind => Deposit.get? w.deposits ⟨kind, name⟩)
          (kind?.bind fun kind => MemoryStore.get? rs ⟨kind, name⟩) := by
        cases kind? with
        | none => exact .none
        | some kind => exact rel_get? records ⟨kind, name⟩
      rw [asked]
      dsimp only
      generalize kind?.bind (fun kind => MemoryStore.get? rs ⟨kind, name⟩) = es? at found ⊢
      generalize kind?.bind (fun kind => Deposit.get? w.deposits ⟨kind, name⟩) = d? at found ⊢
      cases found with
      | none => exact ⟨w.session.heap, .ok none, rfl, List.prefix_rfl, .made .none, apart⟩
      | some keeps =>
        obtain ⟨apart', copied, fresh, grown⟩ := apart.of_copy_out keeps.kept keeps.covers rfl
        exact ⟨_, _, rfl, grown, .made (.some ⟨keeps.copied.trans copied, fresh⟩), apart'⟩

/-- **What is listed are copies of what was put.** -/
theorem of_list (apart : Apart i w own) (kind limit offset : Value) : ∃ h r,
    outcome (listRecords i kind limit offset) w.session = (r, { w.session with heap := h }) ∧
    w.session.heap <+: h ∧
    Answers (List.Forall₂ (GivenOut w.session.heap h)) (w.listed kind limit offset) r ∧
    Apart i ⟨{ w.session with heap := h }, withAnswers w.held r, w.deposits⟩ own := by
  obtain ⟨rs, store, records⟩ := apart.records
  rw [listRecords, listed, outcome_get_bind, store_eq store]
  dsimp only
  rw [outcome_bind, outcome_ofExcept]
  cases indexOf limit with
  | error e => exact ⟨w.session.heap, .error e, rfl, List.prefix_rfl, .failed e, apart⟩
  | ok limit =>
    dsimp only
    rw [outcome_bind, outcome_ofExcept]
    cases indexOf offset with
    | error e => exact ⟨w.session.heap, .error e, rfl, List.prefix_rfl, .failed e, apart⟩
    | ok offset =>
      cases Kind.ofValue? kind with
      | none => exact ⟨w.session.heap, .ok [], rfl, List.prefix_rfl, .made .nil, apart⟩
      | some kind =>
        obtain ⟨vs, h, runs, grown, given, apart'⟩ :=
          apart.of_copies (rel_list records kind limit offset)
        exact ⟨h, .ok vs, runs, grown, .made given, apart'⟩

/-- What is found to be a record leads to nothing but what was offered. -/
theorem leadsTo_of_examine {kind data : Value} {name : String} {r : Record}
    (hr : Record.examine kind name data = .ok r) (ha : (Value.dict r.data).LeadsTo a) :
    data.LeadsTo a := by
  obtain ⟨es, hes, kept⟩ := Record.exists_of_examine hr
  rw [kept] at ha
  have parts : ∀ e ∈ Record.withTextKeys es, (∀ a, e.1.LeadsTo a → data.LeadsTo a) ∧
      ∀ a, e.2.LeadsTo a → data.LeadsTo a := by
    refine Entries.forall_mem_ofPairs (P := fun k => ∀ a, k.LeadsTo a → data.LeadsTo a)
      (Q := fun u => ∀ a, u.LeadsTo a → data.LeadsTo a) (List.forall_mem_map.2 fun e he => ?_)
    split
    · exact ⟨fun a ha => (Value.inert_str _ a ha).elim, (Value.leadsTo_of_entries hes he).2⟩
    · exact Value.leadsTo_of_entries hes he
  cases ha with
  | dictKey he ha => exact (parts _ he).1 a ha
  | dict he ha => exact (parts _ he).2 a ha

/-- **What is kept is copied**, so it belongs to the store whatever becomes of what was offered. -/
theorem of_keep (apart : Apart i w own) {r : Record} (atHand : w.AtHand (.dict r.data)) :
    ∃ own' s result, outcome (keepRecord i r) w.session = (result, s) ∧ w.session.heap <+: s.heap ∧
      Apart i ⟨s, w.held, w.afterKeep r⟩ own' := by
  obtain ⟨rs, store, records⟩ := apart.records
  unfold afterKeep
  cases hc : w.session.heap.copyable (.dict r.data) with
  | false =>
    exact ⟨own, _, _, outcome_keepRecord_of_uncopyable (store_eq store) hc, List.prefix_rfl,
      apart.of_records (rel_without records r.key)⟩
  | true =>
    have reach : ∀ a, (Value.dict r.data).LeadsTo a → a < w.session.heap.length ∧ ¬ own a :=
      fun a ha => apart.of_has (atHand a ha)
    obtain ⟨es, h, hcopy⟩ : ∃ es h, w.session.heap.copy (.dict r.data) = (.dict es, h) :=
      ⟨_, _, rfl⟩
    obtain ⟨own', apart', copied, covers, kept, grown⟩ :=
      apart.of_copy_in (fun a ha => (reach a ha).2) (fun a ha => (reach a ha).1) hcopy
    obtain ⟨rs', store', records⟩ := apart'.records
    obtain rfl : rs = rs' := by
      cases store.symm.trans store'
      rfl
    have new : Records h own' ⟨r.key, r.data, w.session.heap⟩ { r with data := es } :=
      ⟨rfl, copied, covers, kept⟩
    exact ⟨own', _, _, outcome_keepRecord (store_eq store) hc hcopy, grown,
      apart'.of_records (List.rel_append (rel_without records r.key) (.cons new .nil))⟩

/-- What is put is kept, if it can be a record. -/
theorem of_put (apart : Apart i w own) (kind id : Value) {data : Value} (atHand : w.AtHand data) :
    ∃ own' s r, outcome (putRecord i kind id data) w.session = (r, s) ∧
      w.session.heap <+: s.heap ∧ Apart i ⟨s, w.held, w.afterPut kind id data⟩ own' := by
  obtain ⟨rs, store, -⟩ := apart.records
  cases hname : Method.toText w.session.catalog w.session.heap id with
  | error e =>
    have none : w.offered kind id data = .error e := by rw [offered, hname]; rfl
    rw [afterPut, none]
    exact ⟨own, w.session, .error e, putRecord_of_text_error hname data, List.prefix_rfl, apart⟩
  | ok name =>
    have text : outcome (textOf id) w.session = (.ok name, w.session) := by
      rw [outcome_textOf, hname]
    have offered : w.offered kind id data = Record.examine kind name data := by
      rw [offered, hname, ok_bind]
    rw [putRecord, outcome_bind_ok text, outcome_bind, outcome_ofExcept, afterPut, offered]
    cases hr : Record.examine kind name data with
    | error e => exact ⟨own, w.session, .error e, rfl, List.prefix_rfl, apart⟩
    | ok r =>
      dsimp only
      rw [outcome_get_bind, store_eq store]
      exact apart.of_keep fun a ha => atHand a (leadsTo_of_examine hr ha)

/-- What is removed is removed, and the rest stays. -/
theorem of_remove (apart : Apart i w own) (kind id : Value) : ∃ s r,
    outcome (removeRecord i kind id) w.session = (r, s) ∧ s.heap = w.session.heap ∧
    Apart i ⟨s, w.held, w.afterRemove kind id⟩ own := by
  obtain ⟨rs, store, records⟩ := apart.records
  rw [removeRecord, outcome_get_bind, store_eq store]
  dsimp only
  rw [outcome_bind, outcome_textOf]
  cases hname : Method.toText w.session.catalog w.session.heap id with
  | error e =>
    have none : w.afterRemove kind id = w.deposits := by rw [afterRemove, keyOf, hname]; rfl
    rw [none]
    exact ⟨w.session, .error e, rfl, rfl, apart⟩
  | ok name =>
    dsimp only
    rw [outcome_bind, outcome_ofExcept]
    cases hempty : rs.isEmpty with
    | true =>
      -- nothing is filed, so nothing is taken away
      have none : w.afterRemove kind id = w.deposits := by
        have empty : w.deposits = [] := by
          rw [List.isEmpty_iff.1 hempty] at records
          exact List.forall₂_nil_right_iff.1 records
        rw [afterRemove, empty]
        split <;> rfl
      rw [none]
      exact ⟨w.session, .ok false, rfl, rfl, apart⟩
    | false =>
      rw [if_neg Bool.false_ne_true]
      cases hkind : searchedKind w.session.heap kind with
      | error e =>
        have none : w.afterRemove kind id = w.deposits := by
          rw [afterRemove, keyOf, hname, ok_bind, hkind]
          rfl
        rw [none]
        exact ⟨w.session, .error e, rfl, rfl, apart⟩
      | ok kind? =>
        have key : w.keyOf kind id = .ok (kind?.map fun kind => ⟨kind, name⟩) := by
          rw [keyOf, hname, ok_bind, hkind]
          rfl
        rw [afterRemove, key]
        cases kind? with
        | none => exact ⟨w.session, .ok false, rfl, rfl, apart⟩
        | some kind =>
          exact ⟨_, _, rfl, rfl, apart.of_records (rel_without records ⟨kind, name⟩)⟩

/-- **What belongs to the store stays apart from its users whatever they ask of it**, and nothing
that was there is changed. -/
theorem of_asks (apart : Apart i w own) (asks : Asks i w w') :
    (∃ own', Apart i w' own') ∧ w.session.heap <+: w'.session.heap := by
  obtain ⟨rs, store, -⟩ := apart.records
  cases asks with
  | put kind id atHand =>
    obtain ⟨own', s, r, run, grown, apart'⟩ := apart.of_put kind id atHand
    rw [run]
    exact ⟨⟨own', apart'⟩, grown⟩
  | fetch kind id =>
    obtain ⟨h, r, run, grown, -, apart'⟩ := apart.of_fetch kind id
    rw [run]
    exact ⟨⟨own, apart'⟩, grown⟩
  | list kind limit offset =>
    obtain ⟨h, r, run, grown, -, apart'⟩ := apart.of_list kind limit offset
    rw [run]
    exact ⟨⟨own, apart'⟩, grown⟩
  | remove kind id =>
    obtain ⟨s, r, run, heap, apart'⟩ := apart.of_remove kind id
    rw [run]
    exact ⟨⟨own, apart'⟩, heap ▸ List.prefix_rfl⟩
  | count kind =>
    have run : (outcome (countRecords i kind) w.session).2 = w.session := by
      rw [countRecords, outcome_get_bind, store_eq store]
      rfl
    rw [run]
    exact ⟨⟨own, apart⟩, List.prefix_rfl⟩
  | connect =>
    have run : (outcome (connect i) w.session).2 = w.session := by
      rw [connect, outcome_get_bind, store_eq store]
      rfl
    rw [run]
    exact ⟨⟨own, apart⟩, List.prefix_rfl⟩
  | disconnect =>
    have run : (outcome (disconnect i) w.session).2 = w.session.setStore i (.memory []) := by
      rw [disconnect, outcome_get_bind, store_eq store]
      rfl
    rw [run]
    exact ⟨⟨own, apart.of_records .nil⟩, List.prefix_rfl⟩

end Apart

/-! ### Runs -/

/-- **What belongs to the store stays apart from its users in every run.** -/
theorem Begins.apart_of_run {w₀ : Custody} (begins : Begins i w₀)
    (run : Relation.ReflTransGen (Step i) w₀ w) : ∃ own, Apart i w own := by
  induction run with
  | refl => exact ⟨_, begins.apart⟩
  | tail _ step ih =>
    obtain ⟨own, apart⟩ := ih
    rcases step with acts | asks
    · exact ⟨own, apart.of_acts acts⟩
    · exact (apart.of_asks asks).1

/-- **A store in memory shares nothing with those who use it.**  In every run in which they do what
they can by themselves and ask what they want of the store, what it fetches and what it lists are
copies of the records as they were when they were put, of cells that are new; and nothing that is
asked of it changes an object that was there. -/
theorem copies_of_run {w₀ : Custody} (begins : Begins i w₀)
    (run : Relation.ReflTransGen (Step i) w₀ w) :
    (∀ kind id, ∃ h r,
      outcome (fetchRecord i kind id) w.session = (r, { w.session with heap := h }) ∧
      Answers (Option.Rel (GivenOut w.session.heap h)) (w.sought kind id) r) ∧
    (∀ kind limit offset, ∃ h r,
      outcome (listRecords i kind limit offset) w.session = (r, { w.session with heap := h }) ∧
      Answers (List.Forall₂ (GivenOut w.session.heap h)) (w.listed kind limit offset) r) ∧
    ∀ w', Asks i w w' → ∀ a < w.session.heap.length,
      w'.session.heap.get a = w.session.heap.get a := by
  obtain ⟨own, apart⟩ := begins.apart_of_run run
  refine ⟨fun kind id => ?_, fun kind limit offset => ?_, fun w' asks a ha => ?_⟩
  · obtain ⟨h, r, run, -, given, -⟩ := apart.of_fetch kind id
    exact ⟨h, r, run, given⟩
  · obtain ⟨h, r, run, -, given, -⟩ := apart.of_list kind limit offset
    exact ⟨h, r, run, given⟩
  · exact Heap.get_of_extended (apart.of_asks asks).2 ha

/-! ### Two friends of each other -/

/-- Two users who are friends of each other. -/
def twins : Heap :=
  [.entity 1 .null [] [("name", .str "Ann"), ("friend", .object 1)],
   .entity 1 .null [] [("name", .str "Bob"), ("friend", .object 0)]]

/-- Data with one of the two in them twice. -/
def pair : Entries := [(.str "x", .object 0), (.str "y", .object 0)]

/-- A store in memory, and somebody who has the pair in hand. -/
def opened : Custody :=
  ⟨{ Session.initial with catalog := Inspection.users, heap := twins, stores := [.memory []] },
    [.dict pair], []⟩

/-- The pair is put. -/
def filed : Custody :=
  ⟨(outcome (putRecord 0 (.str "K") (.str "1") (.dict pair)) opened.session).2, opened.held,
    opened.afterPut (.str "K") (.str "1") (.dict pair)⟩

/-- Ann is given another name. -/
def changed : Custody :=
  ⟨{ filed.session with heap := filed.session.heap.put 0 "name" (.str "Zoe") }, filed.held,
    filed.deposits⟩

/-- The pair is fetched. -/
def fetched : Custody :=
  ⟨(outcome (fetchRecord 0 (.str "K") (.str "1")) changed.session).2,
    withAnswers changed.held
      ((outcome (fetchRecord 0 (.str "K") (.str "1")) changed.session).1.map Option.toList),
    changed.deposits⟩

/-- What was fetched is given another name as well. -/
def changedAgain : Custody :=
  ⟨{ fetched.session with heap := fetched.session.heap.put 4 "name" (.str "Eve") }, fetched.held,
    fetched.deposits⟩

theorem begins_opened : Begins 0 opened where
  store := rfl
  deposits := rfl
  sound := Heap.sound_of_forall (by decide +kernel)
  covers := List.forall_mem_singleton.2 (Heap.covers_of_forall (by decide +kernel))

/-- **What is fetched are two friends of each other as they were when they were put**, though both
they and what was fetched before have been changed. -/
theorem copies_of_run_twins : ∃ h v,
    outcome (fetchRecord 0 (.str "K") (.str "1")) changedAgain.session =
      (.ok (some v), { changedAgain.session with heap := h }) ∧
    GivenOut changedAgain.session.heap h ⟨⟨.text "K", "1"⟩, pair, twins⟩ v := by
  have put : Asks 0 opened filed := .put _ _ fun a ha => ⟨_, List.mem_singleton.2 rfl, .direct ha⟩
  have change : Acts 0 filed changed := by
    have has : filed.Has 0 :=
      ⟨_, List.mem_singleton.2 rfl, .direct (.dict (List.mem_cons_self ..) (.object 0))⟩
    exact acts_of_put has fun a ha => (Value.inert_str _ a ha).elim
  have fetch : Asks 0 changed fetched := .fetch _ _
  have changeAgain : Acts 0 fetched changedAgain := by
    have answer : fetched.held =
        [.dict [(.str "x", .object 4), (.str "y", .object 4)], .dict pair] := by
      rfl
    have has : fetched.Has 4 := ⟨_, answer ▸ List.mem_cons_self ..,
      .direct (.dict (List.mem_cons_self ..) (.object 4))⟩
    exact acts_of_put has fun a ha => (Value.inert_str _ a ha).elim
  have run : Relation.ReflTransGen (Step 0) opened changedAgain :=
    .tail (.tail (.tail (.tail .refl (.inr put)) (.inl change)) (.inr fetch)) (.inl changeAgain)
  obtain ⟨h, r, outcome, answers⟩ := (copies_of_run begins_opened run).1 (.str "K") (.str "1")
  have sought : changedAgain.sought (.str "K") (.str "1") =
      .ok (some ⟨⟨.text "K", "1"⟩, pair, twins⟩) := by rfl
  rw [sought] at answers
  cases answers with | made given
  cases given with | some given
  exact ⟨h, _, outcome, given⟩

end Custody

end EntitySchema
