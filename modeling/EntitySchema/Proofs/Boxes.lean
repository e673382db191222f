/-
**Lists and dictionaries that a store in memory does not share.**

A list or a dictionary has an identity: whoever has it in hand sees what becomes of it.  So where it
matters who changes what, it is a box, an object that has nothing but its content; and what has an
identity in turn is in the content as an object.  To append to a list, or to set or delete an entry
of a dictionary, is to give the box another content.

Data that are put into a store in memory are a box or are read off one.  The store makes a record of
them, which has the data as a box of its own under a name, and keeps a copy of the record; and it
gives out the data of copies of what it keeps.  So the boxes of what is put, of what is kept and of
what is given out are all different, and whatever users do to boxes or to other objects within their
reach, an answer has the content that was put.  With all boxes opened the answers are those of a
store that has never seen a box, which is shown in `EntitySchema/Proofs/OpenedBoxes.lean`.

Main definitions:

* `Heap.boxOf`, `Heap.Opens` — boxes, and what a value is when all boxes in it are opened;
* `Session.putBox`, `Session.fetchBox`, `Session.listBoxes` — records whose data are boxes;
* `Custody.Orders` — what the users of a store ask of it.

Main results:

* `Heap.Opens.move` — a copy opens to the same;
* `Custody.acts_of_refill` — giving a box another content is what users can do by themselves;
* `Custody.Apart.of_orders` — what belongs to the store stays apart from its users;
* `Custody.kept_apart` — **a store in memory shares neither objects nor lists nor dictionaries with
  those who use it.**
-/

import EntitySchema.Proofs.Custody
import EntitySchema.Proofs.PlainRaw
import EntitySchema.Proofs.RenamedValues

set_option autoImplicit false

namespace EntitySchema

/-! ### Boxes -/

namespace Heap

/-- The name under which a box has its content.  No attribute can be asked for under it. -/
def contentField : String := "[]"

/-- A list, a set or a dictionary with an identity. -/
def boxOf (content : Value) : Cell := ⟨.plain, [(contentField, content)]⟩

/-- The content of a box; what is no box is its own content. -/
def contentOf (h : Heap) : Value → Value
  | .object a => ((get h a).own? contentField).getD (.object a)
  | v => v

/-- What a value is when all boxes in it are opened: data that lead to no object. -/
inductive Opens (h : Heap) : Value → Value → Prop
  | inert {v : Value} : v.Inert → Opens h v v
  | box {a : Address} {c u : Value} : get h a = boxOf c → Opens h c u → Opens h (.object a) u
  | list {vs us : List Value} : vs.length = us.length → (∀ p ∈ vs.zip us, Opens h p.1 p.2) →
      Opens h (.list vs) (.list us)
  | tuple {vs us : List Value} : vs.length = us.length → (∀ p ∈ vs.zip us, Opens h p.1 p.2) →
      Opens h (.tuple vs) (.tuple us)
  | dict {es ds : Entries} : es.length = ds.length →
      (∀ p ∈ es.zip ds, p.1.1 = p.2.1 ∧ p.1.1.Inert) →
      (∀ p ∈ es.zip ds, Opens h p.1.2 p.2.2) → Opens h (.dict es) (.dict ds)
  | ordered {es ds : Entries} : es.length = ds.length →
      (∀ p ∈ es.zip ds, p.1.1 = p.2.1 ∧ p.1.1.Inert) →
      (∀ p ∈ es.zip ds, Opens h p.1.2 p.2.2) → Opens h (.ordered es) (.ordered ds)

variable {h h' : Heap} {u v w : Value} {a : Address} {f : Address → Address}

/-- What refers to nothing but what a value comprises, comprises nothing else. -/
theorem Comprises.of_refs (within : ∀ b ∈ refs w, h.Comprises v b) (ha : h.Comprises w a) :
    h.Comprises v a :=
  ha.induction within fun _ hb _ hc => .through hb hc

theorem comprises_item {xs : List Value} (hxs : refs v = refsItems xs) {x : Value} (hx : x ∈ xs)
    (ha : h.Comprises x a) : h.Comprises v a := by
  refine ha.of_refs fun b hb => .direct ?_
  rw [hxs, refsItems_eq_flatMap]
  exact List.mem_flatMap.2 ⟨x, hx, hb⟩

theorem comprises_value {es : Entries} (hes : refs v = refsEntries es) {e : Value × Value}
    (he : e ∈ es) (ha : h.Comprises e.2 a) : h.Comprises v a := by
  refine ha.of_refs fun b hb => .direct ?_
  rw [hes, refsEntries_eq_flatMap]
  exact List.mem_flatMap.2 ⟨e, he, List.mem_append_right _ hb⟩

theorem comprises_getStr {es : Entries} {name : String}
    (ha : h.Comprises (Entries.getStr es name) a) : h.Comprises (.dict es) a := by
  refine ha.of_refs fun b hb => .direct ?_
  exact Entries.getStr_of_forall (P := fun w => ∀ b ∈ refs w, b ∈ refs (.dict es))
    (fun _ hb => by cases hb) (fun e he b hb => by
      rw [refs, refsEntries_eq_flatMap]
      exact List.mem_flatMap.2 ⟨e, he, List.mem_append_right _ hb⟩) name b hb

/-- The items of a copy of a list open to what the items open to. -/
theorem opens_items {vs us : List Value} (all : ∀ p ∈ vs.zip us, h'.Opens (rename f p.1) p.2) :
    ∀ p ∈ (vs.map (rename f)).zip us, h'.Opens p.1 p.2 := by
  rw [List.zip_map_left]
  exact List.forall_mem_map.2 all

/-- The entries of a copy of a dictionary open to what the entries open to. -/
theorem opens_entries {es ds : Entries} (keys : ∀ p ∈ es.zip ds, p.1.1 = p.2.1 ∧ p.1.1.Inert)
    (all : ∀ p ∈ es.zip ds, h'.Opens (rename f p.1.2) p.2.2) :
    (∀ p ∈ (renameEntries f es).zip ds, p.1.1 = p.2.1 ∧ p.1.1.Inert) ∧
      ∀ p ∈ (renameEntries f es).zip ds, h'.Opens p.1.2 p.2.2 := by
  rw [renameEntries_eq_map, List.zip_map_left]
  refine ⟨List.forall_mem_map.2 fun p hp => ?_, List.forall_mem_map.2 all⟩
  obtain ⟨same, inert⟩ := keys p hp
  dsimp only [Prod.map]
  rw [rename_of_inert f _ inert]
  exact ⟨same, inert⟩

/-- **A copy opens to the same.** -/
theorem Opens.move (opens : h.Opens v u)
    (cells : ∀ a, h.Comprises v a → get h' (f a) = renameCell f (get h a)) :
    h'.Opens (rename f v) u := by
  induction opens with
  | inert inert =>
    rw [rename_of_inert f _ inert]
    exact .inert inert
  | @box a c u cell _ ih =>
    refine .box (c := rename f c) ?_ (ih fun b hb => cells b (hb.of_refs fun d hd => ?_))
    · rw [cells a (.direct (List.mem_singleton_self a)), cell]
      rfl
    · refine .through (.direct (List.mem_singleton_self a)) (mem_cellRefs.2 ?_)
      rw [cell]
      exact ⟨_, List.mem_singleton_self _, hd⟩
  | list length _ ih =>
    rw [rename, renameItems_eq_map]
    exact .list (by rw [List.length_map, length]) (opens_items fun p hp =>
      ih p hp fun a ha => cells a (comprises_item rfl (List.of_mem_zip hp).1 ha))
  | tuple length _ ih =>
    rw [rename, renameItems_eq_map]
    exact .tuple (by rw [List.length_map, length]) (opens_items fun p hp =>
      ih p hp fun a ha => cells a (comprises_item rfl (List.of_mem_zip hp).1 ha))
  | @dict es ds length keys _ ih =>
    obtain ⟨keys', all⟩ := opens_entries (f := f) keys fun p hp =>
      ih p hp fun a ha => cells a (comprises_value rfl (List.of_mem_zip hp).1 ha)
    exact .dict (by rw [renameEntries_eq_map, List.length_map, length]) keys' all
  | @ordered es ds length keys _ ih =>
    obtain ⟨keys', all⟩ := opens_entries (f := f) keys fun p hp =>
      ih p hp fun a ha => cells a (comprises_value rfl (List.of_mem_zip hp).1 ha)
    exact .ordered (by rw [renameEntries_eq_map, List.length_map, length]) keys' all

/-- A box is there. -/
theorem lt_of_boxOf (cell : get h a = boxOf v) : a < h.length := by
  by_contra beyond
  have none := attributes_of_ge (Nat.le_of_not_lt beyond)
  rw [cell] at none
  cases none

/-- What opens to something goes on to do so as objects are added. -/
theorem Opens.mono (grown : h <+: h') (opens : h.Opens v u) : h'.Opens v u := by
  induction opens with
  | inert inert => exact .inert inert
  | @box a c u cell _ ih =>
    exact .box ((get_of_extended grown (lt_of_boxOf cell)).trans cell) ih
  | list length _ ih => exact .list length ih
  | tuple length _ ih => exact .tuple length ih
  | dict length keys _ ih => exact .dict length keys ih
  | ordered length keys _ ih => exact .ordered length keys ih

end Heap

/-! ### Records whose data are boxes -/

namespace Session

/-- The data of a record as it is kept in memory or given out. -/
def dataOf : Value → Value
  | .dict es => Entries.getStr es "data"
  | _ => .null

/-- The record that is made of data, with the heap in which it has them as a box of its own. -/
def pack (s : Session) (kind id data : Value) : Except Failure (Record × Heap) := do
  let name ← Method.toText s.catalog s.heap id
  let r ← Record.examine kind name (s.heap.contentOf data)
  let (box, h) := s.heap.alloc (Heap.boxOf (.dict r.data))
  .ok (⟨r.key, [(.str "data", .object box)]⟩, h)

/-- Puts data into a store in memory.  The record is examined and kept as any other. -/
def putBox (i : StoreId) (kind id data : Value) : Action Unit := do
  let s ← get
  let (r, h) ← ofExcept (s.pack kind id data)
  set { s with heap := h }
  keepRecord i r

/-- Fetches the data of a record, if there is one. -/
def fetchBox (i : StoreId) (kind id : Value) : Action (Option Value) := do
  let found ← fetchRecord i kind id
  pure (found.map dataOf)

/-- Lists the data of the records of a kind: the list is a box as well. -/
def listBoxes (i : StoreId) (kind limit offset : Value) : Action Value := do
  let found ← listRecords i kind limit offset
  let s ← get
  let (box, h) := s.heap.alloc (Heap.boxOf (.list (found.map dataOf)))
  set { s with heap := h }
  pure (.object box)

end Session

/-- The data of a deposit, as they were when they were put. -/
def Deposit.box (d : Deposit) : Value := Entries.getStr d.data "data"

namespace Custody

open Session

/-- The deposits after data were put. -/
def afterPutBox (w : Custody) (kind id data : Value) : List Deposit :=
  match w.session.pack kind id data with
  | .ok (r, h) => afterKeep ⟨{ w.session with heap := h }, w.held, w.deposits⟩ r
  | .error _ => w.deposits

/-- What is asked of a store by those whose data are boxes.  What they put is to be at hand; what is
answered is in hand then. -/
inductive Orders (i : StoreId) (w : Custody) : Custody → Prop
  | put (kind id : Value) {data : Value} : w.AtHand data → Orders i w
      ⟨(outcome (putBox i kind id data) w.session).2, w.held, w.afterPutBox kind id data⟩
  | fetch (kind id : Value) : Orders i w
      ⟨(outcome (fetchBox i kind id) w.session).2,
        withAnswers w.held ((outcome (fetchBox i kind id) w.session).1.map Option.toList),
        w.deposits⟩
  | list (kind limit offset : Value) : Orders i w
      ⟨(outcome (listBoxes i kind limit offset) w.session).2,
        withAnswers w.held ((outcome (listBoxes i kind limit offset) w.session).1.map fun v => [v]),
        w.deposits⟩
  | remove (kind id : Value) : Orders i w
      ⟨(outcome (removeRecord i kind id) w.session).2, w.held, w.afterRemove kind id⟩
  | count (kind : Value) : Orders i w
      ⟨(outcome (countRecords i kind) w.session).2, w.held, w.deposits⟩
  | connect : Orders i w ⟨(outcome (connect i) w.session).2, w.held, w.deposits⟩
  | disconnect : Orders i w ⟨(outcome (disconnect i) w.session).2, w.held, []⟩

/-- One step of a run with boxes: those who use the store do something by themselves, be it to boxes
or to other objects, or ask the store. -/
def Handles (i : StoreId) (w w' : Custody) : Prop := Acts i w w' ∨ Orders i w w'

variable {i : StoreId} {w w' : Custody} {own : Address → Prop} {v data : Value} {a : Address}

/-! ### What users do to boxes -/

/-- **To give a box another content is what the users of a store can do by themselves.** -/
theorem acts_of_refill (has : w.Has a) {content : Value} (atHand : w.AtHand content) :
    Acts i w ⟨{ w.session with heap := w.session.heap.write a (Heap.boxOf content) }, w.held,
      w.deposits⟩ :=
  acts_of_write has fun p hp => by
    obtain rfl := List.mem_singleton.1 hp
    exact atHand

/-- To have in hand what is at hand is what they can do by themselves. -/
theorem acts_of_held {held : List Value} (atHand : ∀ v ∈ held, w.AtHand v) :
    Acts i w ⟨w.session, held, w.deposits⟩ where
  grown := le_rfl
  kept _ _ _ := rfl
  written _ ha _ hp _ hb := .inl (has_of_attributes ha hp hb)
  held v hv b hb := .inl (atHand v hv b hb)
  store := rfl
  deposits := rfl

/-- To make a box of what is at hand is what they can do by themselves. -/
theorem acts_of_box {content : Value} (atHand : w.AtHand content) : Acts i w
    ⟨{ w.session with heap := w.session.heap ++ [Heap.boxOf content] },
      .object w.session.heap.length :: w.held, w.deposits⟩ where
  grown := by simp
  kept a ha _ := Heap.get_of_extended (List.prefix_append _ _) ha
  written a ha p hp b hb := by
    rcases lt_trichotomy a w.session.heap.length with old | rfl | beyond
    · rw [Heap.get_of_extended (List.prefix_append _ _) old] at hp
      exact .inl (has_of_attributes ha hp hb)
    · rw [show Heap.get (w.session.heap ++ [_]) w.session.heap.length = Heap.boxOf content from
        Heap.get_alloc_self _ _] at hp
      obtain rfl := List.mem_singleton.1 hp
      exact .inl (atHand b hb)
    · rw [Heap.attributes_of_ge (by rw [List.length_append]; exact beyond)] at hp
      cases hp
  held v hv b hb := by
    rcases List.mem_cons.1 hv with rfl | hv
    · cases hb
      exact .inr ⟨le_rfl, by simp⟩
    · exact .inl ⟨v, hv, .direct hb⟩
  store := rfl
  deposits := rfl

/-! ### Answers -/

/-- What is given out of a deposit: a copy of its data as they were put, whose objects and boxes are
all new, and which opens to what the data opened to. -/
structure HandedOut (h h' : Heap) (d : Deposit) (v : Value) : Prop where
  copied : Heap.Copied d.heap d.box h' v
  fresh : ∀ b, h'.Comprises v b → h.length ≤ b
  reads : ∀ u, d.heap.Opens d.box u → h'.Opens v u

/-- The data of a copy of a record are a copy of its data. -/
theorem GivenOut.handedOut {h h' : Heap} {d : Deposit} (given : GivenOut h h' d v) :
    HandedOut h h' d (dataOf v) := by
  obtain ⟨f, mirrors⟩ := given.copied
  obtain rfl := mirrors.value
  have comprised {a : Address} (ha : d.heap.Comprises d.box a) :
      d.heap.Comprises (.dict d.data) a := Heap.comprises_getStr ha
  have value : dataOf (Heap.rename f (.dict d.data)) = Heap.rename f d.box :=
    Entries.getStr_renameEntries d.data "data"
  refine ⟨⟨f, value, fun a ha => mirrors.cells a (comprised ha), fun a b ha hb =>
    mirrors.injective a b (comprised ha) (comprised hb)⟩, fun b hb => given.fresh b ?_,
      fun u hu => ?_⟩
  · show h'.Comprises (.dict (Heap.renameEntries f d.data)) b
    exact Heap.comprises_getStr hb
  · rw [value]
    exact hu.move fun a ha => mirrors.cells a (comprised ha)

/-- The content of what is at hand is at hand. -/
theorem atHand_contentOf (atHand : w.AtHand data) :
    w.AtHand (w.session.heap.contentOf data) := by
  cases data with
  | object b =>
    show w.AtHand (((w.session.heap.get b).own? Heap.contentField).getD (.object b))
    cases hc : (w.session.heap.get b).own? Heap.contentField with
    | none => exact atHand
    | some c => exact atHand_of_attributes (atHand b (.object b)) (Heap.mem_of_own? hc)
  | _ => exact atHand

/-- The data of a record lead to nothing but what the record leads to. -/
theorem leadsTo_of_dataOf (ha : (dataOf v).LeadsTo a) : v.LeadsTo a := by
  cases v with
  | dict es =>
    exact Entries.getStr_of_forall (P := fun w => ∀ b, w.LeadsTo b → (Value.dict es).LeadsTo b)
      (fun _ hb => absurd hb (Value.inert_null _)) (fun e he b hb => .dict he hb) "data" a ha
  | _ => exact absurd ha (Value.inert_null a)

/-- The data of what is answered are at hand. -/
theorem atHand_of_answers {s : Session} {ds : List Deposit} {r : Except Failure (List Value)} :
    ∀ v ∈ withAnswers w.held (r.map (List.map dataOf)),
      AtHand ⟨s, withAnswers w.held r, ds⟩ v := by
  intro v hv a ha
  cases r with
  | error e => exact ⟨v, hv, .direct ha⟩
  | ok vs =>
    rcases List.mem_append.1 hv with hv | hv
    · obtain ⟨u, hu, rfl⟩ := List.mem_map.1 hv
      exact ⟨u, List.mem_append_left _ hu, .direct (leadsTo_of_dataOf ha)⟩
    · exact ⟨v, List.mem_append_right _ hv, .direct ha⟩

namespace Apart

variable (apart : Apart i w own)

include apart

/-- **What is fetched are copies of the data that were put.** -/
theorem of_fetchBox (kind id : Value) : ∃ h r,
    outcome (fetchBox i kind id) w.session = (r, { w.session with heap := h }) ∧
    w.session.heap <+: h ∧
    Answers (Option.Rel (HandedOut w.session.heap h)) (w.sought kind id) r ∧
    Apart i ⟨{ w.session with heap := h }, withAnswers w.held (r.map Option.toList), w.deposits⟩
      own := by
  obtain ⟨h, r, run, grown, answers, apart'⟩ := apart.of_fetch kind id
  refine ⟨h, r.map (Option.map dataOf), ?_, grown, ?_, ?_⟩
  · rw [fetchBox, outcome_bind, run]
    cases r <;> rfl
  · generalize w.sought kind id = d? at answers
    cases answers with
    | failed e => exact .failed e
    | made given =>
      cases given with
      | none => exact .made .none
      | some given => exact .made (.some given.handedOut)
  · have told := apart'.of_acts (acts_of_held atHand_of_answers)
    rcases r with e | (_ | v) <;> exact told

/-- **What is listed are copies of the data that were put**, in a list that is new. -/
theorem of_listBoxes (kind limit offset : Value) : ∃ h r,
    outcome (listBoxes i kind limit offset) w.session = (r, { w.session with heap := h }) ∧
    w.session.heap <+: h ∧
    Answers (fun ds v => ∃ b vs, v = .object b ∧ w.session.heap.length ≤ b ∧
      h.get b = Heap.boxOf (.list vs) ∧ List.Forall₂ (HandedOut w.session.heap h) ds vs)
      (w.listed kind limit offset) r ∧
    Apart i ⟨{ w.session with heap := h }, withAnswers w.held (r.map fun v => [v]), w.deposits⟩
      own := by
  obtain ⟨h, r, run, grown, answers, apart'⟩ := apart.of_list kind limit offset
  rw [listBoxes, outcome_bind, run]
  generalize w.listed kind limit offset = ds? at answers
  cases answers with
  | failed e => exact ⟨h, .error e, rfl, grown, .failed e, apart'⟩
  | @made ds vs given =>
    generalize hb : h.length = b
    generalize hh : h ++ [Heap.boxOf (.list (vs.map dataOf))] = h₂
    have grown₂ : h <+: h₂ := hh ▸ List.prefix_append _ _
    have content : AtHand ⟨{ w.session with heap := h }, vs ++ w.held, w.deposits⟩
        (.list (vs.map dataOf)) := by
      intro a ha
      cases ha with
      | list hv ha =>
        obtain ⟨u, hu, rfl⟩ := List.mem_map.1 hv
        exact ⟨u, List.mem_append_left _ hu, .direct (leadsTo_of_dataOf ha)⟩
    -- the list is a box that is made of what has been given out
    have boxed := apart'.of_acts (acts_of_box content)
    have told : Apart i ⟨{ w.session with heap := h₂ }, [.object b] ++ w.held, w.deposits⟩ own := by
      rw [← hh, ← hb]
      refine boxed.of_held fun v hv => ?_
      rcases List.mem_cons.1 hv with rfl | hv
      · exact List.mem_cons_self ..
      · exact List.mem_cons_of_mem _ (List.mem_append_right _ hv)
    have cell : h₂.get b = Heap.boxOf (.list (vs.map dataOf)) := by
      rw [← hh, ← hb]
      exact Heap.get_alloc_self _ _
    have each : List.Forall₂ (HandedOut w.session.heap h₂) ds (vs.map dataOf) := by
      refine List.forall₂_map_right_iff.2 (List.forall₂_iff_zip.2 ⟨given.length_eq, fun hp => ?_⟩)
      refine ((List.forall₂_iff_zip.1 given).2 hp).grow apart'.sound ?_ grown₂ |>.handedOut
      exact apart'.covers _ (List.mem_append_left _ (List.of_mem_zip hp).2)
    refine ⟨h₂, .ok (.object b), ?_, grown.trans grown₂,
      .made ⟨b, _, rfl, hb ▸ grown.length_le, cell, each⟩, told⟩
    rw [← hh, ← hb]
    rfl

/-- **What is put is copied**, box by box. -/
theorem of_putBox (kind id : Value) (atHand : w.AtHand data) : ∃ own' s r,
    outcome (putBox i kind id data) w.session = (r, s) ∧ w.session.heap <+: s.heap ∧
    Apart i ⟨s, w.held, w.afterPutBox kind id data⟩ own' := by
  rw [putBox, outcome_get_bind, outcome_bind, outcome_ofExcept, afterPutBox]
  cases hp : w.session.pack kind id data with
  | error e => exact ⟨own, w.session, .error e, rfl, List.prefix_rfl, apart⟩
  | ok p =>
    obtain ⟨name, -, hp⟩ := bind_eq_ok.1 hp
    obtain ⟨r, hr, hp⟩ := bind_eq_ok.1 hp
    cases hp
    have leads : ∀ a, (Value.dict [(.str "data", .object w.session.heap.length)]).LeadsTo a →
        (Value.object w.session.heap.length).LeadsTo a := by
      intro a ha
      cases ha with
      | dictKey he ha =>
        cases List.mem_singleton.1 he
        exact absurd ha (Value.inert_str _ a)
      | dict he ha =>
        cases List.mem_singleton.1 he
        exact ha
    -- to make the box of the data is nothing but what users can do by themselves
    have boxed := apart.of_acts (acts_of_box fun a ha =>
      atHand_contentOf atHand a (leadsTo_of_examine hr ha))
    obtain ⟨own', s, result, run, grown, apart'⟩ := boxed.of_keep
      (r := ⟨r.key, [(.str "data", .object w.session.heap.length)]⟩) fun a ha =>
        ⟨_, List.mem_cons_self .., .direct (leads a ha)⟩
    exact ⟨own', s, result, run, (List.prefix_append _ _).trans grown,
      apart'.of_held fun v hv => List.mem_cons_of_mem _ hv⟩

/-- **What belongs to the store stays apart from its users whatever they ask of it**, and nothing
that was there is changed. -/
theorem of_orders (orders : Orders i w w') :
    (∃ own', Apart i w' own') ∧ w.session.heap <+: w'.session.heap := by
  cases orders with
  | put kind id atHand =>
    obtain ⟨own', s, r, run, grown, apart'⟩ := apart.of_putBox kind id atHand
    rw [run]
    exact ⟨⟨own', apart'⟩, grown⟩
  | fetch kind id =>
    obtain ⟨h, r, run, grown, -, apart'⟩ := apart.of_fetchBox kind id
    rw [run]
    exact ⟨⟨own, apart'⟩, grown⟩
  | list kind limit offset =>
    obtain ⟨h, r, run, grown, -, apart'⟩ := apart.of_listBoxes kind limit offset
    rw [run]
    exact ⟨⟨own, apart'⟩, grown⟩
  | remove kind id => exact apart.of_asks (.remove kind id)
  | count kind => exact apart.of_asks (.count kind)
  | connect => exact apart.of_asks .connect
  | disconnect => exact apart.of_asks .disconnect

end Apart

/-- **What belongs to the store stays apart from its users in every run with boxes.** -/
theorem Begins.apart_of_handles {w₀ : Custody} (begins : Begins i w₀)
    (run : Relation.ReflTransGen (Handles i) w₀ w) : ∃ own, Apart i w own := by
  induction run with
  | refl => exact ⟨_, begins.apart⟩
  | tail _ step ih =>
    obtain ⟨own, apart⟩ := ih
    rcases step with acts | orders
    · exact ⟨own, apart.of_acts acts⟩
    · exact (apart.of_orders orders).1

/-- **A store in memory shares neither objects nor lists nor dictionaries with those who use it.**
In every run in which they do what they can to boxes and other objects within their reach, and ask
what they want of the store, what it fetches and what it lists are copies of the data as they were
when they were put: all objects and boxes in them are new, and they open to what the data opened to
then.  And nothing that is asked of the store changes an object or a box that was there. -/
theorem kept_apart {w₀ : Custody} (begins : Begins i w₀)
    (run : Relation.ReflTransGen (Handles i) w₀ w) :
    (∀ kind id, ∃ h r, outcome (fetchBox i kind id) w.session = (r, { w.session with heap := h }) ∧
      Answers (Option.Rel (HandedOut w.session.heap h)) (w.sought kind id) r) ∧
    (∀ kind limit offset, ∃ h r,
      outcome (listBoxes i kind limit offset) w.session = (r, { w.session with heap := h }) ∧
      Answers (fun ds v => ∃ b vs, v = .object b ∧ w.session.heap.length ≤ b ∧
        h.get b = Heap.boxOf (.list vs) ∧ List.Forall₂ (HandedOut w.session.heap h) ds vs)
        (w.listed kind limit offset) r) ∧
    ∀ w', Orders i w w' → ∀ a < w.session.heap.length,
      w'.session.heap.get a = w.session.heap.get a := by
  obtain ⟨own, apart⟩ := begins.apart_of_handles run
  refine ⟨fun kind id => ?_, fun kind limit offset => ?_, fun w' orders a ha => ?_⟩
  · obtain ⟨h, r, run, -, given, -⟩ := apart.of_fetchBox kind id
    exact ⟨h, r, run, given⟩
  · obtain ⟨h, r, run, -, given, -⟩ := apart.of_listBoxes kind limit offset
    exact ⟨h, r, run, given⟩
  · exact Heap.get_of_extended (apart.of_orders orders).2 ha

/-! ### A list that is appended to -/

/-- A list with one item, and a dictionary with the list in it. -/
def tags : Heap :=
  [Heap.boxOf (.list [.str "x"]), Heap.boxOf (.dict [(.str "tags", .object 0)])]

/-- A store in memory, and somebody who has the dictionary in hand. -/
def unfiled : Custody :=
  ⟨{ Session.initial with heap := tags, stores := [.memory []] }, [.object 1], []⟩

/-- The dictionary is put. -/
def boxed : Custody :=
  ⟨(outcome (putBox 0 (.str "K") (.str "1") (.object 1)) unfiled.session).2, unfiled.held,
    unfiled.afterPutBox (.str "K") (.str "1") (.object 1)⟩

/-- Another content is given to a box. -/
def refilled (w : Custody) (a : Address) (content : Value) : Custody :=
  ⟨{ w.session with heap := w.session.heap.write a (Heap.boxOf content) }, w.held, w.deposits⟩

/-- The list that was put is appended to, and the dictionary is fetched. -/
def taken : Custody :=
  let w := refilled boxed 0 (.list [.str "x", .str "y"])
  ⟨(outcome (fetchBox 0 (.str "K") (.str "1")) w.session).2,
    withAnswers w.held ((outcome (fetchBox 0 (.str "K") (.str "1")) w.session).1.map Option.toList),
    w.deposits⟩

/-- The list that was fetched is appended to as well. -/
def appended : Custody := refilled taken 6 (.list [.str "x", .str "z"])

/-- **What is fetched is the list as it was when it was put**, though both the list that was put and
the one that was fetched before have been appended to. -/
theorem kept_apart_appended : ∃ h v,
    outcome (fetchBox 0 (.str "K") (.str "1")) appended.session =
      (.ok (some v), { appended.session with heap := h }) ∧
    (∀ b, h.Comprises v b → appended.session.heap.length ≤ b) ∧
    h.Opens v (.dict [(.str "tags", .list [.str "x"])]) := by
  have begins : Begins 0 unfiled := ⟨rfl, rfl, Heap.sound_of_forall (by decide +kernel),
    List.forall_mem_singleton.2 (Heap.covers_of_forall (by decide +kernel))⟩
  have plain (x y : String) : (Value.list [.str x, .str y]).Inert :=
    Value.inert_list_iff.2 (by simp [Value.inert_str])
  have put : Orders 0 unfiled boxed :=
    .put _ _ fun a ha => ⟨_, List.mem_singleton.2 rfl, .direct ha⟩
  have change : Acts 0 boxed (refilled boxed 0 (.list [.str "x", .str "y"])) := by
    have dictionary : boxed.Has 1 := ⟨_, List.mem_singleton.2 rfl, .direct (.object 1)⟩
    obtain ⟨u, hu, has⟩ := dictionary
    exact acts_of_refill ⟨u, hu, .through has (List.mem_singleton.2 rfl)
      (.dict (List.mem_singleton.2 rfl) (.object 0))⟩ fun a ha => (plain _ _ a ha).elim
  have fetch : Orders 0 (refilled boxed 0 (.list [.str "x", .str "y"])) taken := .fetch _ _
  have changeAgain : Acts 0 taken appended := by
    have answer : taken.held = [.object 5, .object 1] := by rfl
    have has : taken.session.heap.Holds (.object 5) 5 := .direct (.object 5)
    exact acts_of_refill ⟨_, answer ▸ List.mem_cons_self .., .through has (List.mem_singleton.2 rfl)
      (.dict (List.mem_singleton.2 rfl) (.object 6))⟩ fun a ha => (plain _ _ a ha).elim
  have run : Relation.ReflTransGen (Handles 0) unfiled appended :=
    .tail (.tail (.tail (.tail .refl (.inr put)) (.inl change)) (.inr fetch)) (.inl changeAgain)
  obtain ⟨h, r, outcome, answers⟩ := (kept_apart begins run).1 (.str "K") (.str "1")
  have sought : appended.sought (.str "K") (.str "1") = .ok (some ⟨⟨.text "K", "1"⟩,
      [(.str "data", .object 2)],
      tags ++ [Heap.boxOf (.dict [(.str "tags", .object 0)])]⟩) := by rfl
  rw [sought] at answers
  cases answers with | made given
  cases given with | some given
  refine ⟨h, _, outcome, given.fresh, given.reads _ ?_⟩
  have list : (tags ++ [Heap.boxOf (.dict [(.str "tags", .object 0)])]).Opens (.object 0)
      (.list [.str "x"]) :=
    .box rfl (.inert (Value.inert_list_iff.2 (List.forall_mem_singleton.2 (Value.inert_str "x"))))
  exact .box rfl (.dict rfl (List.forall_mem_singleton.2 ⟨rfl, Value.inert_str _⟩)
    (List.forall_mem_singleton.2 list))

end Custody

end EntitySchema
