/-
**A store answers the same with boxes and without.**

Where it does not matter who changes a list or a dictionary later, data have no boxes in them and a
store takes them and gives them out as they are.  Boxes change nothing in this.  If two runs go side
by side, one with boxes and one in which the data that are put are what the boxes open to by then,
the stores keep the same: what the one gives out opens to what the other gives out, a record is
removed from the one if it is from the other, and what one of them refuses is refused by the other
for the same fault.  What the users of the one do to their boxes is nothing in the other.

Main definitions:

* `Heap.OpensEntries` — entries and what they are with all boxes opened;
* `Custody.Unboxed` — a store that keeps deposits with all boxes opened;
* `Custody.Beside`, `Custody.Besides` — two runs side by side.

Main results:

* `Heap.Opens.copyable_eq` — data can be copied with boxes just if they can be without;
* `Record.examine_opens` — what is offered as a record is examined alike;
* `Custody.Apart.of_beside` — a step side by side leaves the stores with the same;
* `Custody.answers_of_besides` — **a store answers the same with boxes and without.**
-/

import EntitySchema.Proofs.Boxes
import EntitySchema.Proofs.NormalForm

set_option autoImplicit false

namespace EntitySchema

namespace Heap

variable {h h' : Heap} {u v c : Value} {a : Address} {es ds : Entries}

/-! ### What is open -/

/-- Entries under the same keys, of which the ones are the others with all boxes opened. -/
def OpensEntries (h : Heap) : Entries → Entries → Prop :=
  List.Forall₂ fun e d => e.1 = d.1 ∧ e.1.Inert ∧ h.Opens e.2 d.2

theorem OpensEntries.dict (opens : h.OpensEntries es ds) : h.Opens (.dict es) (.dict ds) := by
  obtain ⟨size, all⟩ := List.forall₂_iff_zip.1 opens
  exact .dict size (fun p hp => ⟨(all hp).1, (all hp).2.1⟩) fun p hp => (all hp).2.2

theorem opensEntries_of_zip (size : es.length = ds.length)
    (keys : ∀ p ∈ es.zip ds, p.1.1 = p.2.1 ∧ p.1.1.Inert)
    (values : ∀ p ∈ es.zip ds, h.Opens p.1.2 p.2.2) : h.OpensEntries es ds :=
  List.forall₂_iff_zip.2 ⟨size, fun hp => ⟨(keys _ hp).1, (keys _ hp).2, values _ hp⟩⟩

/-- A mapping that is no box opens to a mapping with the same keys, and nothing else does. -/
theorem Opens.toEntries (opens : h.Opens v u) (content : ∀ a, v ≠ .object a) :
    Option.Rel h.OpensEntries v.entries? u.entries? := by
  cases opens with
  | inert inert =>
    cases hes : u.entries? with
    | none => exact .none
    | some es =>
      refine .some (List.forall₂_same.2 fun e he => ?_)
      obtain ⟨key, value⟩ := Value.leadsTo_of_entries hes he
      exact ⟨rfl, fun a ha => inert a (key a ha), .inert fun a ha => inert a (value a ha)⟩
  | @box a => exact absurd rfl (content a)
  | list => exact .none
  | tuple => exact .none
  | dict size keys values => exact .some (opensEntries_of_zip size keys values)
  | ordered size keys values => exact .some (opensEntries_of_zip size keys values)

/-- What is open leads to nothing. -/
theorem Opens.inert_right (opens : h.Opens v u) : u.Inert := by
  have items {vs us : List Value} (size : vs.length = us.length)
      (all : ∀ p ∈ vs.zip us, p.2.Inert) : ∀ y ∈ us, y.Inert := fun y hy => by
    obtain ⟨x, hp⟩ := exists_mem_zip_of_mem_right size hy
    exact all _ hp
  have entries {es ds : Entries} (size : es.length = ds.length)
      (keys : ∀ p ∈ es.zip ds, p.1.1 = p.2.1 ∧ p.1.1.Inert)
      (all : ∀ p ∈ es.zip ds, p.2.2.Inert) : ∀ d ∈ ds, d.1.Inert ∧ d.2.Inert := fun d hd => by
    obtain ⟨e, hp⟩ := exists_mem_zip_of_mem_right size hd
    exact ⟨(keys _ hp).1 ▸ (keys _ hp).2, all _ hp⟩
  induction opens with
  | inert inert => exact inert
  | box _ _ ih => exact ih
  | list size _ ih => exact Value.inert_list_iff.2 (items size ih)
  | tuple size _ ih => exact Value.inert_tuple_iff.2 (items size ih)
  | dict size keys _ ih => exact Value.inert_dict_iff.2 (entries size keys ih)
  | ordered size keys _ ih => exact Value.inert_ordered_iff.2 (entries size keys ih)

/-! ### Whether data can be copied -/

theorem mem_cellRefs_boxOf : a ∈ cellRefs (boxOf c) ↔ a ∈ refs c := by
  rw [mem_cellRefs]
  refine ⟨fun ⟨p, hp, ha⟩ => ?_, fun ha => ⟨_, List.mem_singleton_self _, ha⟩⟩
  rwa [List.mem_singleton.1 hp] at ha

theorem mem_refsItems {xs : List Value} : a ∈ refsItems xs ↔ ∃ x ∈ xs, a ∈ refs x := by
  rw [refsItems_eq_flatMap, List.mem_flatMap]

/-- What opens to something refers to boxes only, which open to something. -/
theorem Opens.box_of_refs (opens : h.Opens v u) :
    ∀ a ∈ refs v, ∃ c u, h.get a = boxOf c ∧ h.Opens c u := by
  have items {vs us : List Value} (size : vs.length = us.length)
      (all : ∀ p ∈ vs.zip us, ∀ a ∈ refs p.1, ∃ c u, h.get a = boxOf c ∧ h.Opens c u) :
      ∀ a ∈ refsItems vs, ∃ c u, h.get a = boxOf c ∧ h.Opens c u := fun a ha => by
    obtain ⟨x, hx, ha⟩ := mem_refsItems.1 ha
    obtain ⟨y, hp⟩ := exists_mem_zip_of_mem_left size hx
    exact all _ hp a ha
  have entries {es ds : Entries} (size : es.length = ds.length)
      (keys : ∀ p ∈ es.zip ds, p.1.1 = p.2.1 ∧ p.1.1.Inert)
      (all : ∀ p ∈ es.zip ds, ∀ a ∈ refs p.1.2, ∃ c u, h.get a = boxOf c ∧ h.Opens c u) :
      ∀ a ∈ refsEntries es, ∃ c u, h.get a = boxOf c ∧ h.Opens c u := fun a ha => by
    rw [refsEntries_eq_flatMap] at ha
    obtain ⟨e, he, ha⟩ := List.mem_flatMap.1 ha
    obtain ⟨d, hp⟩ := exists_mem_zip_of_mem_left size he
    rcases List.mem_append.1 ha with ha | ha
    · exact absurd (.of_refs ha) ((keys _ hp).2 a)
    · exact all _ hp a ha
  induction opens with
  | inert inert => exact fun a ha => absurd (.of_refs ha) (inert a)
  | box cell opens _ =>
    intro a ha
    obtain rfl := List.mem_singleton.1 ha
    exact ⟨_, _, cell, opens⟩
  | list size _ ih => exact items size ih
  | tuple size _ ih => exact items size ih
  | dict size keys _ ih => exact entries size keys ih
  | ordered size keys _ ih => exact entries size keys ih

/-- What opens to something comprises boxes only. -/
theorem Opens.box_of_comprises (opens : h.Opens v u) (ha : h.Comprises v a) :
    ∃ c u, h.get a = boxOf c ∧ h.Opens c u :=
  ha.induction (P := fun a => ∃ c u, h.get a = boxOf c ∧ h.Opens c u) opens.box_of_refs
    fun _ ⟨_, _, cell, opens⟩ b hb => opens.box_of_refs b (mem_cellRefs_boxOf.1 (cell ▸ hb))

theorem copyableCell_boxOf (c : Value) : copyableCell (boxOf c) = copyableValue c :=
  Bool.and_true _

/-- A value can be copied in itself, and so can every object that it comprises. -/
def Copies (h : Heap) (v : Value) : Prop :=
  copyableValue v = true ∧ ∀ a, h.Comprises v a → copyableCell (h.get a) = true

theorem Opens.copyable_iff (opens : h.Opens v u) : h.copyable v = true ↔ h.Copies v := by
  rw [copyable, Bool.and_eq_true, List.all_eq_true]
  refine and_congr_right fun _ => forall_congr' fun a => imp_congr_left (mem_reach_iff ?_)
  intro b hb
  obtain ⟨_, _, cell, -⟩ := opens.box_of_comprises hb
  exact lt_of_boxOf cell

theorem copies_of_inert (inert : v.Inert) : h.Copies v ↔ copyableValue v = true :=
  and_iff_left fun _ ha => (ha.induction (P := fun _ => False)
    (fun a ha => inert a (.of_refs ha)) fun _ none => none.elim).elim

/-- A box can be copied just if its content can. -/
theorem copies_box (cell : h.get a = boxOf c) : h.Copies (.object a) ↔ h.Copies c := by
  have self : h.Comprises (.object a) a := .direct (List.mem_singleton_self a)
  refine ⟨fun ⟨_, cells⟩ => ⟨?_, fun b hb => cells b (hb.of_refs fun d hd => ?_)⟩,
    fun ⟨value, cells⟩ => ⟨rfl, fun b hb => ?_⟩⟩
  · rw [← copyableCell_boxOf, ← cell]
    exact cells a self
  · exact .through self (cell ▸ mem_cellRefs_boxOf.2 hd)
  -- what the box comprises is itself and what its content comprises
  · have parts : b = a ∨ h.Comprises c b := by
      have root : ∀ d ∈ refs (.object a), d = a ∨ h.Comprises c d := fun d hd =>
        .inl (List.mem_singleton.1 hd)
      refine hb.induction root ?_
      rintro d (rfl | hd) e he
      · exact .inr (.direct (mem_cellRefs_boxOf.1 (cell ▸ he)))
      · exact .inr (.through hd he)
    rcases parts with rfl | hb
    · rw [cell, copyableCell_boxOf, value]
    · exact cells b hb

/-- What refers to what its parts refer to can be copied just if they can. -/
theorem copies_iff (parts : List Value) (refs_iff : ∀ a, a ∈ refs v ↔ ∃ x ∈ parts, a ∈ refs x)
    (value : copyableValue v = true ↔ ∀ x ∈ parts, copyableValue x = true) :
    h.Copies v ↔ ∀ x ∈ parts, h.Copies x := by
  unfold Copies
  rw [value]
  refine ⟨fun ⟨values, cells⟩ x hx => ⟨values x hx, fun a ha => cells a ?_⟩,
    fun all => ⟨fun x hx => (all x hx).1, fun a ha => ?_⟩⟩
  · exact ha.of_refs fun b hb => .direct ((refs_iff b).2 ⟨x, hx, hb⟩)
  · obtain ⟨x, hx, ha⟩ := ha.induction (P := fun a => ∃ x ∈ parts, h.Comprises x a)
      (fun a ha => (refs_iff a).1 ha |>.imp fun x hx => ⟨hx.1, .direct hx.2⟩)
      fun a ⟨x, hx, ha⟩ b hb => ⟨x, hx, .through ha hb⟩
    exact (all x hx).2 a ha

theorem copies_items {xs : List Value} (hxs : refs v = refsItems xs)
    (value : copyableValue v = copyableItems xs) : h.Copies v ↔ ∀ x ∈ xs, h.Copies x :=
  copies_iff xs (fun a => by rw [hxs, mem_refsItems]) (by rw [value, copyableItems_iff])

theorem copies_entries (hes : refs v = refsEntries es)
    (value : copyableValue v = copyableEntries es) :
    h.Copies v ↔ ∀ e ∈ es, h.Copies e.1 ∧ h.Copies e.2 := by
  rw [copies_iff (es.map Prod.fst ++ es.map Prod.snd)]
  · rw [List.forall_mem_append, List.forall_mem_map, List.forall_mem_map, ← forall₂_and]
  · intro a
    rw [hes, refsEntries_eq_flatMap, List.mem_flatMap]
    simp only [List.mem_append, List.mem_map, or_and_right, exists_or, and_or_left,
      exists_exists_and_eq_and]
  · rw [value, copyableEntries_iff, List.forall_mem_append, List.forall_mem_map,
      List.forall_mem_map, ← forall₂_and]

theorem forall_mem_iff_of_zip {α β : Type} {P : α → Prop} {Q : β → Prop} {xs : List α}
    {ys : List β} (size : xs.length = ys.length) (same : ∀ p ∈ xs.zip ys, P p.1 ↔ Q p.2) :
    (∀ x ∈ xs, P x) ↔ ∀ y ∈ ys, Q y := by
  refine ⟨fun all y hy => ?_, fun all x hx => ?_⟩
  · obtain ⟨x, hp⟩ := exists_mem_zip_of_mem_right size hy
    exact (same _ hp).1 (all x (List.of_mem_zip hp).1)
  · obtain ⟨y, hp⟩ := exists_mem_zip_of_mem_left size hx
    exact (same _ hp).2 (all y (List.of_mem_zip hp).2)

/-- **What opens to something can be copied just if that can.** -/
theorem Opens.copyable_eq (opens : h.Opens v u) : h.copyable v = copyableValue u := by
  refine Bool.eq_iff_iff.2 (opens.copyable_iff.trans ?_)
  -- keys are no boxes, so they are copied alike
  have entry {es ds : Entries} (keys : ∀ p ∈ es.zip ds, p.1.1 = p.2.1 ∧ p.1.1.Inert)
      (all : ∀ p ∈ es.zip ds, h.Copies p.1.2 ↔ copyableValue p.2.2 = true) :
      ∀ p ∈ es.zip ds, h.Copies p.1.1 ∧ h.Copies p.1.2 ↔
        copyableValue p.2.1 = true ∧ copyableValue p.2.2 = true := by
    intro p hp
    obtain ⟨same, inert⟩ := keys p hp
    rw [copies_of_inert inert, all p hp, same]
  induction opens with
  | inert inert => exact copies_of_inert inert
  | box cell _ ih => exact (copies_box cell).trans ih
  | list size _ ih =>
    exact (copies_items rfl rfl).trans
      ((forall_mem_iff_of_zip size ih).trans copyableItems_iff.symm)
  | tuple size _ ih =>
    exact (copies_items rfl rfl).trans
      ((forall_mem_iff_of_zip size ih).trans copyableItems_iff.symm)
  | dict size keys _ ih =>
    exact (copies_entries rfl rfl).trans
      ((forall_mem_iff_of_zip size (entry keys ih)).trans copyableEntries_iff.symm)
  | ordered size keys _ ih =>
    exact (copies_entries rfl rfl).trans
      ((forall_mem_iff_of_zip size (entry keys ih)).trans copyableEntries_iff.symm)

end Heap

/-! ### Records without boxes -/

namespace Entries

open Heap

variable {h : Heap} {es ds : Entries}

theorem insert_opens (opens : h.OpensEntries es ds) {k v u : Value} (key : k.Inert)
    (value : h.Opens v u) : h.OpensEntries (insert es k v) (insert ds k u) := by
  induction opens with
  | nil => exact .cons ⟨rfl, key, value⟩ .nil
  | @cons e d es ds first rest ih =>
    obtain ⟨k', w⟩ := e
    obtain ⟨k'', w'⟩ := d
    obtain ⟨rfl, key', value'⟩ := first
    rw [insert, insert]
    split
    · exact .cons ⟨rfl, key', value⟩ rest
    · exact .cons ⟨rfl, key', value'⟩ ih

theorem ofPairs_opens (opens : h.OpensEntries es ds) :
    h.OpensEntries (ofPairs es) (ofPairs ds) := by
  have from_any : ∀ es' ds' : Entries, h.OpensEntries es' ds' →
      h.OpensEntries (insertAll es' es) (insertAll ds' ds) := by
    induction opens with
    | nil => exact fun _ _ opens' => opens'
    | @cons e d es ds first _ ih =>
      intro es' ds' opens'
      have same : d.1 = e.1 := first.1.symm
      refine ih (insert es' e.1 e.2) (insert ds' d.1 d.2) ?_
      rw [same]
      exact insert_opens opens' first.2.1 first.2.2
  exact from_any [] [] .nil

end Entries

namespace Record

open Heap

variable {h : Heap} {es ds : Entries} {kind c u : Value}

/-- The faults of keys are those of the keys of what is opened. -/
theorem keyProblems_opens (opens : h.OpensEntries es ds) : keyProblems es = keyProblems ds := by
  unfold keyProblems
  induction opens with
  | nil => rfl
  | @cons e d es ds first _ ih => rw [List.filterMap_cons, List.filterMap_cons, first.1, ih]

theorem withTextKeys_opens (opens : h.OpensEntries es ds) :
    h.OpensEntries (withTextKeys es) (withTextKeys ds) := by
  refine Entries.ofPairs_opens (List.rel_map (fun e d first => ?_) opens)
  rw [first.1]
  cases d.1.asText with
  | ok s => exact ⟨rfl, Value.inert_str s, first.2.2⟩
  | error _ => exact first

/-- **What is offered as a record is examined alike with boxes and without.** -/
theorem examine_opens (opens : h.Opens c u) (content : ∀ a, c ≠ .object a) (kind : Value)
    (name : String) : Custody.Answers (fun r q => r.key = q.key ∧ h.OpensEntries r.data q.data)
      (examine kind name c) (examine kind name u) := by
  have entries := opens.toEntries content
  rw [examine, examine, problems, problems]
  generalize c.entries? = es? at entries ⊢
  generalize u.entries? = ds? at entries ⊢
  cases entries with
  | none => cases Kind.ofValue kind <;> exact .failed _
  | @some es ds opens =>
    dsimp only
    rw [keyProblems_opens opens]
    cases Kind.ofValue kind with
    | error fault => exact .failed _
    | ok k =>
      cases keyProblems ds with
      | nil => exact .made ⟨rfl, withTextKeys_opens opens⟩
      | cons _ _ => exact .failed _

end Record

/-! ### The same answers -/

namespace Custody

open Session

/-- A store in memory that keeps the data of deposits with all boxes opened. -/
def Unboxed (i : StoreId) (ds : List Deposit) (t : Session) : Prop :=
  ∃ qs, t.stores[i]? = some (.memory qs) ∧
    List.Forall₂ (Files fun d es => d.heap.Opens d.box (.dict es)) ds qs

variable {i : StoreId} {w w' : Custody} {t t' : Session} {own : Address → Prop}
  {kind id data u : Value}

theorem searchedKind_of_inert (hkind : kind.Inert) (h h' : Heap) :
    searchedKind h kind = searchedKind h' kind := by
  rw [searchedKind, searchedKind, Value.hashable_congr kind fun a ha => absurd ha (hkind a)]

/-- What is searched under does not depend on the session. -/
theorem keyOf_of_inert (hkind : kind.Inert) (hid : id.Inert) (h : Heap) :
    w.keyOf kind id = (searchedKind h kind).map fun kind? =>
      kind?.map fun kind => ⟨kind, id.toText⟩ := by
  rw [keyOf, Method.toText_of_inert _ _ hid, ok_bind, searchedKind_of_inert hkind _ h]
  cases searchedKind h kind <;> rfl

theorem outcome_textOf_of_inert (hid : id.Inert) (t : Session) :
    outcome (textOf id) t = (.ok id.toText, t) := by
  rw [outcome_textOf, Method.toText_of_inert _ _ hid]

theorem isSome_eq_of_rel {α β : Type} {R : α → β → Prop} {x : Option α} {y : Option β}
    (h : Option.Rel R x y) : x.isSome = y.isSome := by
  cases h <;> rfl

/-- As many records are counted as there are deposits. -/
theorem rel_count {K : Deposit → Entries → Prop} {ds : List Deposit} {rs : List Record}
    (records : List.Forall₂ (Files K) ds rs) (kind : Kind) :
    (ds.filter fun d => d.key.kind == kind).length = MemoryStore.count rs kind :=
  (List.rel_filter (fun d r hr => by dsimp only; rw [hr.1]) records).length_eq

/-- What is given out of deposits opens to what they open to. -/
theorem opens_given {h₀ h : Heap} {ds : List Deposit} {ess : List Entries} {vs : List Value}
    (found : List.Forall₂ (fun d es => d.heap.Opens d.box (.dict es)) ds ess)
    (given : List.Forall₂ (HandedOut h₀ h) ds vs) : h.Opens (.list vs) (.list (ess.map .dict)) := by
  have each : List.Forall₂ h.Opens vs (ess.map .dict) := by
    rw [List.forall₂_map_right_iff]
    induction found generalizing vs with
    | nil =>
      cases given
      exact .nil
    | cons opens _ ih =>
      cases given with | cons first rest
      exact .cons (first.reads _ opens) (ih rest)
  obtain ⟨size, all⟩ := List.forall₂_iff_zip.1 each
  exact .list size fun p hp => all hp

/-- **The data of a record open to the data of the record that is made of opened data.** -/
theorem pack_opens {s : Session} (hid : id.Inert)
    (content : ∀ a, s.heap.contentOf data ≠ .object a)
    (opens : s.heap.Opens (s.heap.contentOf data) u) (kind : Value) :
    Answers (fun p q => p.1.key = q.key ∧ ∃ box, p.1.data = [(.str "data", .object box)] ∧
      p.2.Opens (.object box) (.dict q.data)) (s.pack kind id data)
      (Record.examine kind id.toText u) := by
  rw [pack, Method.toText_of_inert _ _ hid, ok_bind]
  have examined := Record.examine_opens opens content kind id.toText
  generalize Record.examine kind id.toText (s.heap.contentOf data) = r at examined ⊢
  generalize Record.examine kind id.toText u = q at examined ⊢
  cases examined with
  | failed e => exact .failed e
  | @made r q same =>
    refine .made ⟨same.1, s.heap.length, rfl, .box (c := .dict r.data) ?_ ?_⟩
    · exact Heap.get_alloc_self _ _
    · exact same.2.dict.mono (List.prefix_append _ _)

namespace Apart

variable (apart : Apart i w own) (unboxed : Unboxed i w.deposits t)

include apart unboxed

/-- **What is fetched is the same with all boxes opened.** -/
theorem fetch_opens (hkind : kind.Inert) (hid : id.Inert) : ∃ h r r',
    outcome (fetchBox i kind id) w.session = (r, { w.session with heap := h }) ∧
    outcome (fetchRecord i kind id) t = (r', t) ∧ Answers (Option.Rel h.Opens) r r' := by
  obtain ⟨qs, store, files⟩ := unboxed
  obtain ⟨h, r, run, -, answers, -⟩ := apart.of_fetchBox kind id
  rw [sought, keyOf_of_inert hkind hid t.heap] at answers
  rw [fetchRecord, outcome_bind_ok (outcome_textOf_of_inert hid t), outcome_get_bind,
    store_eq store]
  dsimp only
  rw [outcome_bind, outcome_ofExcept]
  cases hk : searchedKind t.heap kind with
  | error e =>
    rw [hk] at answers
    cases answers
    exact ⟨h, _, _, run, rfl, .failed e⟩
  | ok kind? =>
    rw [hk] at answers
    have found : Option.Rel (fun d es => d.heap.Opens d.box (.dict es))
        ((kind?.map fun kind => ⟨kind, id.toText⟩).bind (Deposit.get? w.deposits))
        (kind?.bind fun kind => MemoryStore.get? qs ⟨kind, id.toText⟩) := by
      cases kind? with
      | none => exact .none
      | some kind => exact rel_get? files ⟨kind, id.toText⟩
    cases answers with | made given
    dsimp only
    generalize (kind?.map fun kind => ⟨kind, id.toText⟩).bind (Deposit.get? w.deposits) = d?
      at found given
    generalize (kind?.bind fun kind => MemoryStore.get? qs ⟨kind, id.toText⟩) = es? at found ⊢
    cases found with
    | none =>
      cases given
      exact ⟨h, _, _, run, rfl, .made .none⟩
    | @some d es opens =>
      cases given with | some given
      refine ⟨h, _, _, run, ?_, .made (.some (given.reads _ opens))⟩
      dsimp only
      rw [outcome_bind_ok (outcome_copy opens.inert_right)]
      rfl

/-- **What is listed is the same with all boxes opened.** -/
theorem list_opens (kind limit offset : Value) : ∃ h r r',
    outcome (listBoxes i kind limit offset) w.session = (r, { w.session with heap := h }) ∧
    outcome (listRecords i kind limit offset) t = (r', t) ∧
    Answers (fun v us => h.Opens v (.list us)) r r' := by
  obtain ⟨qs, store, files⟩ := unboxed
  obtain ⟨h, r, run, -, answers, -⟩ := apart.of_listBoxes kind limit offset
  rw [listed] at answers
  rw [listRecords, outcome_get_bind, store_eq store]
  dsimp only
  rw [outcome_bind, outcome_ofExcept]
  cases hl : indexOf limit with
  | error e =>
    rw [hl] at answers
    cases answers
    exact ⟨h, _, _, run, rfl, .failed e⟩
  | ok limit =>
    rw [hl, ok_bind] at answers
    dsimp only
    rw [outcome_bind, outcome_ofExcept]
    cases ho : indexOf offset with
    | error e =>
      rw [ho] at answers
      cases answers
      exact ⟨h, _, _, run, rfl, .failed e⟩
    | ok offset =>
      rw [ho, ok_bind] at answers
      cases answers with | made given
      obtain ⟨b, vs, rfl, -, cell, given⟩ := given
      cases hk : Kind.ofValue? kind with
      | none =>
        rw [hk] at given
        cases given
        exact ⟨h, _, _, run, rfl, .made (.box cell (.list rfl (List.forall_mem_nil _)))⟩
      | some kind =>
        rw [hk] at given
        have found := rel_list files kind limit offset
        have copies := outcome_mapM_copy (s := t) fun es hes => by
          obtain ⟨d, hd⟩ := exists_mem_zip_of_mem_right found.length_eq hes
          exact ((List.forall₂_iff_zip.1 found).2 hd).inert_right
        exact ⟨h, _, _, run, copies, .made (.box cell (opens_given found given))⟩

/-- **What is put is kept the same with all boxes opened**, and the outcome is the same. -/
theorem put_opens (hid : id.Inert) (content : ∀ a, w.session.heap.contentOf data ≠ .object a)
    (opens : w.session.heap.Opens (w.session.heap.contentOf data) u) (kind : Value) :
    (outcome (putBox i kind id data) w.session).1 = (outcome (putRecord i kind id u) t).1 ∧
    Unboxed i (w.afterPutBox kind id data) (outcome (putRecord i kind id u) t).2 := by
  obtain ⟨rs, there, -⟩ := apart.records
  obtain ⟨qs, store, files⟩ := unboxed
  rw [putBox, outcome_get_bind, outcome_bind, outcome_ofExcept, afterPutBox, putRecord,
    outcome_bind_ok (outcome_textOf_of_inert hid t), outcome_bind, outcome_ofExcept]
  have packed := pack_opens hid content opens kind
  generalize w.session.pack kind id data = p at packed ⊢
  generalize Record.examine kind id.toText u = q at packed ⊢
  cases packed with
  | failed e => exact ⟨rfl, qs, store, files⟩
  | @made p q same =>
    obtain ⟨⟨key, es⟩, h⟩ := p
    obtain ⟨rfl, box, rfl, opens⟩ := same
    dsimp only
    rw [outcome_bind_ok (outcome_set _ _), outcome_get_bind, store_eq store]
    have inert := opens.inert_right
    have record : h.Opens (.dict [(.str "data", .object box)])
        (.dict [(.str "data", .dict q.data)]) :=
      Heap.OpensEntries.dict (.cons ⟨rfl, Value.inert_str _, opens⟩ .nil)
    -- either both stores can copy what they are to keep or neither can
    have copyable : h.copyable (.dict [(.str "data", .object box)]) =
        t.heap.copyable (.dict q.data) := by
      rw [record.copyable_eq, (Heap.Opens.inert inert).copyable_eq]
      exact Bool.and_true _
    rw [afterKeep, copyable]
    have there' : ({ w.session with heap := h } : Session).store i = .memory rs := store_eq there
    cases hc : t.heap.copyable (.dict q.data) with
    | false =>
      rw [outcome_keepRecord_of_uncopyable there' (copyable.trans hc),
        outcome_keepRecord_of_uncopyable (store_eq store) hc]
      exact ⟨rfl, _, store_setStore store, rel_without files q.key⟩
    | true =>
      rw [outcome_keepRecord there' (copyable.trans hc) rfl,
        outcome_keepRecord (store_eq store) hc (Heap.copy_of_inert _ inert)]
      exact ⟨rfl, _, store_setStore store,
        List.rel_append (rel_without files q.key) (.cons ⟨rfl, opens⟩ .nil)⟩

/-- **What is removed is removed with all boxes opened**, and the outcome is the same. -/
theorem remove_opens (hkind : kind.Inert) (hid : id.Inert) :
    (outcome (removeRecord i kind id) w.session).1 = (outcome (removeRecord i kind id) t).1 ∧
    Unboxed i (w.afterRemove kind id) (outcome (removeRecord i kind id) t).2 := by
  obtain ⟨rs, there, records⟩ := apart.records
  obtain ⟨qs, store, files⟩ := unboxed
  have empty : rs.isEmpty = qs.isEmpty := by
    rw [Bool.eq_iff_iff, List.isEmpty_iff_length_eq_zero, List.isEmpty_iff_length_eq_zero,
      ← records.length_eq, files.length_eq]
  rw [removeRecord, outcome_get_bind, outcome_get_bind, store_eq there, store_eq store]
  dsimp only
  rw [outcome_bind_ok (outcome_textOf_of_inert hid _),
    outcome_bind_ok (outcome_textOf_of_inert hid _),
    outcome_bind, outcome_bind, outcome_ofExcept, outcome_ofExcept, afterRemove,
    keyOf_of_inert hkind hid t.heap, searchedKind_of_inert hkind w.session.heap t.heap, empty]
  -- a kind that cannot be searched for is not noticed where nothing is filed
  cases hq : qs.isEmpty with
  | true =>
    have none : w.deposits = [] := by
      rw [List.isEmpty_iff.1 hq] at files
      exact List.forall₂_nil_right_iff.1 files
    refine ⟨rfl, qs, store, ?_⟩
    rw [none] at files ⊢
    split <;> exact files
  | false =>
    rw [if_neg Bool.false_ne_true]
    cases searchedKind t.heap kind with
    | error e => exact ⟨rfl, qs, store, files⟩
    | ok kind? =>
      cases kind? with
      | none => exact ⟨rfl, qs, store, files⟩
      | some kind =>
        refine ⟨?_, _, store_setStore store, rel_without files ⟨kind, id.toText⟩⟩
        have there := isSome_eq_of_rel (rel_get? records ⟨kind, id.toText⟩)
        have opened := isSome_eq_of_rel (rel_get? files ⟨kind, id.toText⟩)
        exact congrArg Except.ok (there.symm.trans opened)

/-- As many records are counted with all boxes opened. -/
theorem count_opens (kind : Value) : (outcome (countRecords i kind) w.session).1 =
    (outcome (countRecords i kind) t).1 := by
  obtain ⟨rs, there, records⟩ := apart.records
  obtain ⟨qs, store, files⟩ := unboxed
  rw [countRecords, outcome_get_bind, outcome_get_bind, store_eq there, store_eq store]
  cases Kind.ofValue? kind with
  | none => rfl
  | some kind =>
    exact congrArg Except.ok ((rel_count records kind).symm.trans (rel_count files kind))

end Apart

/-! ### Runs side by side -/

/-- One step of a run with boxes beside one without.  What the users do to boxes is nothing in the
other run, in which what is put is what the boxes open to by then. -/
inductive Beside (i : StoreId) (w : Custody) (t : Session) : Custody → Session → Prop
  | acts {w' : Custody} : Acts i w w' → Beside i w t w' t
  | put {kind id data u : Value} : id.Inert → w.AtHand data →
      (∀ a, w.session.heap.contentOf data ≠ .object a) →
      w.session.heap.Opens (w.session.heap.contentOf data) u → Beside i w t
        ⟨(outcome (putBox i kind id data) w.session).2, w.held, w.afterPutBox kind id data⟩
        (outcome (putRecord i kind id u) t).2
  | remove {kind id : Value} : kind.Inert → id.Inert → Beside i w t
      ⟨(outcome (removeRecord i kind id) w.session).2, w.held, w.afterRemove kind id⟩
      (outcome (removeRecord i kind id) t).2
  | asks {w' : Custody} : Orders i w w' → w'.deposits = w.deposits → Beside i w t w' t
  | disconnect : Beside i w t ⟨(outcome (disconnect i) w.session).2, w.held, []⟩
      (outcome (disconnect i) t).2

/-- Two runs side by side. -/
inductive Besides (i : StoreId) (w : Custody) (t : Session) : Custody → Session → Prop
  | refl : Besides i w t w t
  | tail {w₁ w₂ : Custody} {t₁ t₂ : Session} : Besides i w t w₁ t₁ → Beside i w₁ t₁ w₂ t₂ →
      Besides i w t w₂ t₂

/-- **Side by side the stores keep the same, with all boxes opened in the one.** -/
theorem Apart.of_beside (apart : Apart i w own) (unboxed : Unboxed i w.deposits t)
    (step : Beside i w t w' t') : (∃ own', Apart i w' own') ∧ Unboxed i w'.deposits t' := by
  cases step with
  | acts acts =>
    refine ⟨⟨own, apart.of_acts acts⟩, ?_⟩
    rwa [acts.deposits]
  | put hid atHand content opens =>
    exact ⟨(apart.of_orders (.put _ _ atHand)).1, (apart.put_opens unboxed hid content opens _).2⟩
  | remove hkind hid =>
    exact ⟨(apart.of_orders (.remove _ _)).1, (apart.remove_opens unboxed hkind hid).2⟩
  | asks orders same =>
    refine ⟨(apart.of_orders orders).1, ?_⟩
    rwa [same]
  | disconnect =>
    obtain ⟨qs, store, -⟩ := unboxed
    refine ⟨(apart.of_orders .disconnect).1, [], ?_, .nil⟩
    rw [disconnect, outcome_get_bind, store_eq store]
    exact store_setStore store

theorem Begins.of_besides {w₀ : Custody} {t₀ : Session} (begins : Begins i w₀)
    (empty : t₀.stores[i]? = some (.memory [])) (run : Besides i w₀ t₀ w t) :
    (∃ own, Apart i w own) ∧ Unboxed i w.deposits t := by
  induction run with
  | refl => exact ⟨⟨_, begins.apart⟩, [], empty, begins.deposits ▸ .nil⟩
  | tail _ step ih =>
    obtain ⟨⟨own, apart⟩, unboxed⟩ := ih
    exact apart.of_beside unboxed step

/-- **A store answers the same with boxes and without.**  In every run beside one without boxes,
what is fetched and listed opens to what is fetched and listed there, and what else is asked has the
same outcome. -/
theorem answers_of_besides {w₀ : Custody} {t₀ : Session} (begins : Begins i w₀)
    (empty : t₀.stores[i]? = some (.memory [])) (run : Besides i w₀ t₀ w t) :
    (∀ kind id, kind.Inert → id.Inert → ∃ h r r',
      outcome (fetchBox i kind id) w.session = (r, { w.session with heap := h }) ∧
      outcome (fetchRecord i kind id) t = (r', t) ∧ Answers (Option.Rel h.Opens) r r') ∧
    (∀ kind limit offset, ∃ h r r',
      outcome (listBoxes i kind limit offset) w.session = (r, { w.session with heap := h }) ∧
      outcome (listRecords i kind limit offset) t = (r', t) ∧
      Answers (fun v us => h.Opens v (.list us)) r r') ∧
    (∀ kind id data u, id.Inert → (∀ a, w.session.heap.contentOf data ≠ .object a) →
      w.session.heap.Opens (w.session.heap.contentOf data) u →
      (outcome (putBox i kind id data) w.session).1 = (outcome (putRecord i kind id u) t).1) ∧
    (∀ kind id, kind.Inert → id.Inert → (outcome (removeRecord i kind id) w.session).1 =
      (outcome (removeRecord i kind id) t).1) ∧
    ∀ kind, (outcome (countRecords i kind) w.session).1 = (outcome (countRecords i kind) t).1 := by
  obtain ⟨⟨own, apart⟩, unboxed⟩ := begins.of_besides empty run
  exact ⟨fun _ _ => apart.fetch_opens unboxed, apart.list_opens unboxed,
    fun kind _ _ _ hid content opens => (apart.put_opens unboxed hid content opens kind).1,
    fun _ _ hkind hid => (apart.remove_opens unboxed hkind hid).1, apart.count_opens unboxed⟩

end Custody

end EntitySchema
