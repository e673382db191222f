/-
**The written form of data.**

Data have a written form, which is plain: each key is written as a text, and of entries whose keys
are written alike the last counts.  So what is read back from a file is what was written exactly if
the keys of all dictionaries in it are texts: otherwise the two are not even equal.

Main results:

* `Value.exists_written` — data have a written form, which is plain;
* `Value.isPlain_of_written` — whatever has a written form, that is plain;
* `Value.isPlain_dict_iff` — dictionaries of plain data have texts as keys, no two of them equal;
* `Value.sameWith_written` — **the written form of data equals them exactly if they are plain.**
-/

import EntitySchema.Proofs.Building
import EntitySchema.Store.Written
import Mathlib.Data.List.Perm.Subperm

set_option autoImplicit false

namespace EntitySchema

/-! ### Plain data by their parts -/

namespace Entries

/-- The keys of a dictionary are texts, each once, exactly if they are texts and no two of them are
equal. -/
theorem textKeyed_iff {es : Entries} :
    textKeyed es = true ↔ (∀ e ∈ es, ∃ name, e.1 = .str name) ∧ es.Distinct := by
  constructor
  · exact fun h => ⟨exists_text_of_textKeyed h, (distinct_of_textKeyed h).2⟩
  · rintro ⟨texts, distinct⟩
    induction es with
    | nil => rfl
    | cons e es ih =>
      obtain ⟨k, v⟩ := e
      obtain ⟨⟨name, hname⟩, others⟩ := List.forall_mem_cons.1 texts
      obtain ⟨later, rest⟩ := List.pairwise_cons.1 distinct
      dsimp only at hname
      subst hname
      have fresh : getStr? es name = none := by
        simp only [getStr?, Option.map_eq_none_iff, List.find?_eq_none, Value.isText_iff]
        intro e he heq
        have other := later e he
        simp [heq, Value.isText] at other
      simp [textKeyed, fresh, ih others rest]

/-- Under a text there is one entry at most. -/
theorem Distinct.eq_of_text {es : Entries} (hd : es.Distinct) {e e' : Value × Value} {name : String}
    (he : e ∈ es) (he' : e' ∈ es) (hk : e.1 = .str name) (hk' : e'.1 = .str name) : e = e' := by
  induction es with
  | nil => cases he
  | cons f es ih =>
    obtain ⟨later, rest⟩ := List.pairwise_cons.1 hd
    rcases List.mem_cons.1 he with rfl | hmem <;> rcases List.mem_cons.1 he' with rfl | hmem'
    · rfl
    · have other := later e' hmem'
      simp [hk, hk', Value.isText] at other
    · have other := later e hmem
      simp [hk, hk', Value.isText] at other
    · exact ih rest hmem hmem'

end Entries

namespace Value

theorem plainItems_iff {xs : List Value} : plainItems xs = true ↔ ∀ x ∈ xs, x.isPlain = true := by
  induction xs with
  | nil => simp [plainItems]
  | cons x xs ih => simp [plainItems, ih]

theorem plainEntries_iff {es : Entries} :
    plainEntries es = true ↔ ∀ e ∈ es, e.2.isPlain = true := by
  induction es with
  | nil => simp [plainEntries]
  | cons e es ih => simp [plainEntries, ih]

/-- A dictionary is plain exactly if its keys are texts, no two of them equal, and its values are
plain. -/
theorem isPlain_dict_iff {es : Entries} : (Value.dict es).isPlain = true ↔
    (∀ e ∈ es, ∃ name, e.1 = .str name) ∧ es.Distinct ∧ ∀ e ∈ es, e.2.isPlain = true := by
  rw [isPlain, Bool.and_eq_true, Entries.textKeyed_iff, plainEntries_iff, and_assoc]

theorem isPlain_getStr {es : Entries} (h : (Value.dict es).isPlain = true) (name : String) :
    (Entries.getStr es name).isPlain = true :=
  Entries.getStr_of_forall (P := fun v => v.isPlain = true) rfl (isPlain_dict_iff.1 h).2.2 name

theorem isPlain_of_isAtom {v : Value} (h : v.isAtom = true) : v.isPlain = true := by
  cases v <;> simp_all [isAtom, isPlain]

/-! ### Data have a written form -/

theorem exists_writtenKey {v : Value} (h : v.isAtom = true) : ∃ t, v.writtenKey = .ok t := by
  cases v <;> first | exact ⟨_, rfl⟩ | cases h

theorem exists_writtenItems {xs : List Value}
    (h : ∀ x ∈ xs, ∃ w, x.written = .ok w ∧ w.isPlain = true) :
    ∃ ws, writtenItems xs = .ok ws ∧ ∀ w ∈ ws, w.isPlain = true := by
  induction xs with
  | nil => exact ⟨[], rfl, List.forall_mem_nil _⟩
  | cons x xs ih =>
    obtain ⟨⟨w, hw, plain⟩, hrest⟩ := List.forall_mem_cons.1 h
    obtain ⟨ws, hws, rest⟩ := ih hrest
    refine ⟨w :: ws, ?_, List.forall_mem_cons.2 ⟨plain, rest⟩⟩
    rw [writtenItems, hw, hws]
    rfl

theorem exists_writtenEntries {es : Entries} (hk : ∀ e ∈ es, e.1.isAtom = true)
    (h : ∀ e ∈ es, ∃ w, e.2.written = .ok w ∧ w.isPlain = true) :
    ∃ ws, writtenEntries es = .ok ws ∧
      ∀ e ∈ ws, (∃ name, e.1 = .str name) ∧ e.2.isPlain = true := by
  induction es with
  | nil => exact ⟨[], rfl, List.forall_mem_nil _⟩
  | cons e es ih =>
    obtain ⟨hkey, hkeys⟩ := List.forall_mem_cons.1 hk
    obtain ⟨⟨w, hw, plain⟩, hrest⟩ := List.forall_mem_cons.1 h
    obtain ⟨t, ht⟩ := exists_writtenKey hkey
    obtain ⟨ws, hws, rest⟩ := ih hkeys hrest
    refine ⟨(.str t, w) :: ws, ?_, List.forall_mem_cons.2 ⟨⟨⟨t, rfl⟩, plain⟩, rest⟩⟩
    rw [writtenEntries, ht, hw, hws]
    rfl

/-- Texts and plain values written one after the other make a plain dictionary. -/
theorem isPlain_ofPairs {ps : Entries}
    (h : ∀ p ∈ ps, (∃ name, p.1 = .str name) ∧ p.2.isPlain = true) :
    (Value.dict (Entries.ofPairs ps)).isPlain = true := by
  have parts := Entries.forall_mem_ofPairs (P := fun k => ∃ name, k = .str name)
    (Q := fun w => w.isPlain = true) h
  exact isPlain_dict_iff.2 ⟨fun e he => (parts e he).1,
    Entries.distinct_insertAll ps .nil, fun e he => (parts e he).2⟩

/-- Data have a written form, which is plain. -/
theorem exists_written {v : Value} (hv : v.IsData) : ∃ w, v.written = .ok w ∧ w.isPlain = true := by
  induction hv with
  | @atom v h =>
    have plain := isPlain_of_isAtom h
    exact ⟨v, written_of_plain v plain, plain⟩
  | list _ ih =>
    obtain ⟨ws, hws, plain⟩ := exists_writtenItems ih
    exact ⟨.list ws, by rw [written, hws]; rfl, plainItems_iff.2 plain⟩
  | dict hk _ _ ih =>
    obtain ⟨ws, hws, plain⟩ := exists_writtenEntries hk ih
    exact ⟨.dict (Entries.ofPairs ws), by rw [written, hws]; rfl, isPlain_ofPairs plain⟩

mutual

/-- What is written is plain. -/
theorem isPlain_of_written : (v : Value) → ∀ {w : Value}, v.written = .ok w → w.isPlain = true
  | .float x, w, h => by
    cases h
    by_cases hx : x.isFinite = true
    · rw [if_pos hx]
      exact hx
    · rw [if_neg hx]
      rfl
  | .bytes bs, w, h => by
    obtain ⟨t, -, h⟩ := bind_eq_ok.1 h
    cases h
    rfl
  | .list xs, w, h | .tuple xs, w, h | .set xs, w, h => by
    obtain ⟨ws, hws, h⟩ := bind_eq_ok.1 h
    cases h
    exact plainItems_iff.2 (plain_of_writtenItems xs hws)
  | .dict es, w, h | .ordered es, w, h => by
    obtain ⟨ws, hws, h⟩ := bind_eq_ok.1 h
    cases h
    exact isPlain_ofPairs (plain_of_writtenEntries es hws)
  | .null, _, h | .bool _, _, h | .int _, _, h | .nan _, _, h | .str _, _, h | .date _, _, h
  | .moment _, _, h | .stamp _, _, h => by
    cases h
    rfl
  | .zone _, _, h | .object _, _, h | .function _, _, h | .method _ _, _, h | .cls _, _, h
  | .checker _ _, _, h | .store _, _, h | .thing _, _, h => nomatch h
termination_by structural v => v

theorem plain_of_writtenItems : (xs : List Value) → ∀ {ws : List Value},
    writtenItems xs = .ok ws → ∀ w ∈ ws, w.isPlain = true
  | [], _, h => by
    cases h
    exact List.forall_mem_nil _
  | x :: xs, _, h => by
    obtain ⟨w, hw, h⟩ := bind_eq_ok.1 h
    obtain ⟨ws, hws, h⟩ := bind_eq_ok.1 h
    cases h
    exact List.forall_mem_cons.2 ⟨isPlain_of_written x hw, plain_of_writtenItems xs hws⟩
termination_by structural xs => xs

theorem plain_of_writtenEntries : (es : Entries) → ∀ {ws : Entries}, writtenEntries es = .ok ws →
    ∀ e ∈ ws, (∃ name, e.1 = .str name) ∧ e.2.isPlain = true
  | [], _, h => by
    cases h
    exact List.forall_mem_nil _
  | (k, v) :: es, _, h => by
    obtain ⟨t, -, h⟩ := bind_eq_ok.1 h
    obtain ⟨w, hw, h⟩ := bind_eq_ok.1 h
    obtain ⟨ws, hws, h⟩ := bind_eq_ok.1 h
    cases h
    exact List.forall_mem_cons.2
      ⟨⟨⟨t, rfl⟩, isPlain_of_written v hw⟩, plain_of_writtenEntries es hws⟩
termination_by structural es => es

end

/-! ### Equality with the written form -/

variable {ask : Address → Address → Except Failure Bool}

theorem exists_sameItems {xs : List Value} (h : ∀ x ∈ xs, ∀ y, ∃ b, sameWith ask x y = .ok b)
    (ys : List Value) : ∃ b, sameItems ask xs ys = .ok b := by
  induction xs generalizing ys with
  | nil => cases ys <;> exact ⟨_, rfl⟩
  | cons x xs ih =>
    obtain ⟨hx, hrest⟩ := List.forall_mem_cons.1 h
    cases ys with
    | nil => exact ⟨false, rfl⟩
    | cons y ys =>
      obtain ⟨b, hb⟩ := hx y
      rw [sameItems, hb]
      cases b with
      | true => exact ih hrest ys
      | false => exact ⟨false, rfl⟩

theorem exists_findM? {k : Value} (hk : k.isAtom = true) (ys : Entries) :
    ∃ e?, (ys.findM? fun e => sameWith ask k e.1) = .ok e? := by
  induction ys with
  | nil => exact ⟨none, rfl⟩
  | cons y ys ih =>
    obtain ⟨b, hb⟩ : ∃ b, sameWith ask k y.1 = .ok b := by
      cases k <;> simp [isAtom] at hk <;> cases y.1 <;> exact ⟨_, rfl⟩
    rw [List.findM?, hb]
    cases b with
    | true => exact ⟨some y, rfl⟩
    | false => exact ih

theorem exists_sameEntries {xs : Entries} (hk : ∀ e ∈ xs, e.1.isAtom = true)
    (h : ∀ e ∈ xs, ∀ y, ∃ b, sameWith ask e.2 y = .ok b) (ys : Entries) :
    ∃ b, sameEntries ask xs ys = .ok b := by
  induction xs with
  | nil => exact ⟨true, rfl⟩
  | cons e xs ih =>
    obtain ⟨k, v⟩ := e
    obtain ⟨hkey, hkeys⟩ := List.forall_mem_cons.1 hk
    obtain ⟨hv, hrest⟩ := List.forall_mem_cons.1 h
    obtain ⟨e?, he⟩ : ∃ e?, (ys.findM? fun e => sameWith ask k e.1) = .ok e? :=
      exists_findM? hkey ys
    rw [sameEntries, he]
    cases e? with
    | none => exact ⟨false, rfl⟩
    | some e =>
      obtain ⟨b, hb⟩ := hv e.2
      simp only [bind, Except.bind, hb]
      cases b with
      | true => exact ih hkeys hrest
      | false => exact ⟨false, rfl⟩

/-- Whether data equal a value is found out without comparing objects. -/
theorem exists_sameWith {v : Value} (hv : v.IsData) (w : Value) :
    ∃ b, sameWith ask v w = .ok b := by
  induction hv generalizing w with
  | @atom v h => cases v <;> simp [isAtom] at h <;> cases w <;> exact ⟨_, rfl⟩
  | list _ ih =>
    cases w with
    | list ys => exact exists_sameItems ih ys
    | _ => exact ⟨false, rfl⟩
  | @dict es hk _ _ ih =>
    rw [sameWith]
    cases w.entries? with
    | none => exact ⟨false, rfl⟩
    | some ys =>
      dsimp only
      split
      · exact exists_sameEntries hk ih ys
      · exact ⟨false, rfl⟩

theorem mem_of_findM? {p : Value × Value → Except Failure Bool} {ys : Entries} {e : Value × Value}
    (h : ys.findM? p = .ok (some e)) : e ∈ ys ∧ p e = .ok true := by
  induction ys with
  | nil => cases h
  | cons y ys ih =>
    rw [List.findM?] at h
    cases hy : p y with
    | error f => rw [hy] at h; cases h
    | ok b =>
      rw [hy] at h
      cases b with
      | true =>
        cases h
        exact ⟨List.mem_cons_self .., hy⟩
      | false =>
        obtain ⟨hmem, he⟩ := ih h
        exact ⟨List.mem_cons_of_mem y hmem, he⟩

/-- Of a dictionary that equals another each entry has one there that equals it. -/
theorem exists_of_sameEntries {xs ys : Entries} (h : sameEntries ask xs ys = .ok true) :
    ∀ d ∈ xs, ∃ e ∈ ys, sameWith ask d.1 e.1 = .ok true ∧ sameWith ask d.2 e.2 = .ok true := by
  induction xs with
  | nil => exact List.forall_mem_nil _
  | cons d xs ih =>
    obtain ⟨k, v⟩ := d
    rw [sameEntries] at h
    obtain ⟨e?, hf, h⟩ := bind_eq_ok.1 h
    cases e? with
    | none => cases h
    | some e =>
      obtain ⟨hmem, hkey⟩ := mem_of_findM? hf
      obtain ⟨b, hv, h⟩ := bind_eq_ok.1 h
      cases b with
      | false => cases h
      | true => exact List.forall_mem_cons.2 ⟨⟨e, hmem, hkey, hv⟩, ih h⟩

theorem exists_of_writtenEntries_cons {k v : Value} {es ws : Entries}
    (h : writtenEntries ((k, v) :: es) = .ok ws) : ∃ t w ws', k.writtenKey = .ok t ∧
      v.written = .ok w ∧ writtenEntries es = .ok ws' ∧ ws = (.str t, w) :: ws' := by
  rw [writtenEntries] at h
  obtain ⟨t, ht, h⟩ := bind_eq_ok.1 h
  obtain ⟨w, hw, h⟩ := bind_eq_ok.1 h
  obtain ⟨ws', hws, h⟩ := bind_eq_ok.1 h
  cases h
  exact ⟨t, w, ws', ht, hw, hws, rfl⟩

/-- The written form of each entry is among those of a dictionary. -/
theorem exists_of_writtenEntries {es ws : Entries} (h : writtenEntries es = .ok ws) :
    ∀ e ∈ es, ∃ t w, e.1.writtenKey = .ok t ∧ e.2.written = .ok w ∧ (.str t, w) ∈ ws := by
  induction es generalizing ws with
  | nil => exact List.forall_mem_nil _
  | cons e es ih =>
    obtain ⟨t, w, ws', ht, hw, hws, rfl⟩ := exists_of_writtenEntries_cons h
    refine List.forall_mem_cons.2 ⟨⟨t, w, ht, hw, List.mem_cons_self ..⟩, ?_⟩
    intro e he
    obtain ⟨t', w', ht', hw', hmem⟩ := ih hws e he
    exact ⟨t', w', ht', hw', List.mem_cons_of_mem _ hmem⟩

/-- Keys that are texts are written as they are. -/
theorem map_fst_of_writtenEntries {es ws : Entries} (h : writtenEntries es = .ok ws)
    (texts : ∀ e ∈ es, ∃ name, e.1 = .str name) : ws.map Prod.fst = es.map Prod.fst := by
  induction es generalizing ws with
  | nil =>
    cases h
    rfl
  | cons e es ih =>
    obtain ⟨k, v⟩ := e
    obtain ⟨⟨name, hname⟩, rest⟩ := List.forall_mem_cons.1 texts
    obtain ⟨t, w, ws', ht, -, hws, rfl⟩ := exists_of_writtenEntries_cons h
    dsimp only at hname
    subst hname
    cases ht
    rw [List.map_cons, List.map_cons, ih hws rest]

theorem forall_plain_of_sameItems {xs ws : List Value} (hw : writtenItems xs = .ok ws)
    (hs : sameItems ask ws xs = .ok true)
    (ih : ∀ x ∈ xs, ∀ w, x.written = .ok w → sameWith ask w x = .ok true → x.isPlain = true) :
    ∀ x ∈ xs, x.isPlain = true := by
  induction xs generalizing ws with
  | nil => exact List.forall_mem_nil _
  | cons x xs rest =>
    obtain ⟨hx, hxs⟩ := List.forall_mem_cons.1 ih
    rw [writtenItems] at hw
    obtain ⟨y, hy, hw⟩ := bind_eq_ok.1 hw
    obtain ⟨ys, hys, hw⟩ := bind_eq_ok.1 hw
    cases hw
    rw [sameItems] at hs
    obtain ⟨b, hb, hs⟩ := bind_eq_ok.1 hs
    cases b with
    | false => cases hs
    | true => exact List.forall_mem_cons.2 ⟨hx y hy hb, rest hys hs hxs⟩

/-- A text equals only itself. -/
theorem eq_of_sameWith_str {name : String} {v : Value} (h : sameWith ask (.str name) v = .ok true) :
    v = .str name := by
  cases v with
  | str t =>
    have same : (name == t) = true := by simpa [sameWith, pure, Except.pure] using h
    rw [beq_iff_eq.1 same]
  | _ => cases h

/-- If each key of a dictionary of texts is one of another dictionary of the same length, the keys
of that are texts, too. -/
theorem forall_text_of_length {ds es : Entries} (texts : ∀ d ∈ ds, ∃ name, d.1 = .str name)
    (distinct : ds.Distinct) (length : ds.length = es.length)
    (found : ∀ d ∈ ds, ∃ e ∈ es, e.1 = d.1) : ∀ e ∈ es, ∃ d ∈ ds, e.1 = d.1 := by
  have nodup : (ds.map Prod.fst).Nodup := by
    refine List.pairwise_map.2 (distinct.imp_of_mem ?_)
    intro d d' hd hd' other heq
    obtain ⟨name, hname⟩ := texts d' hd'
    rw [heq, hname] at other
    simp [isText] at other
  -- as many keys on both sides, and all of the one among the other: they are the same keys
  have subset : ds.map Prod.fst ⊆ es.map Prod.fst := by
    intro k hk
    obtain ⟨d, hd, rfl⟩ := List.mem_map.1 hk
    obtain ⟨e, he, heq⟩ := found d hd
    exact heq ▸ List.mem_map_of_mem he
  have same : (ds.map Prod.fst).Perm (es.map Prod.fst) :=
    (List.subperm_of_subset nodup subset).perm_of_length_le (by simp [length])
  intro e he
  obtain ⟨d, hd, heq⟩ := List.mem_map.1 (same.symm.subset (List.mem_map_of_mem he))
  exact ⟨d, hd, heq.symm⟩

/-- Data that equal their written form are plain. -/
theorem isPlain_of_sameWith_written {v w : Value} (hv : v.IsData) (hw : v.written = .ok w)
    (h : sameWith ask w v = .ok true) : v.isPlain = true := by
  induction hv generalizing w with
  | atom hatom => exact isPlain_of_isAtom hatom
  | @list xs _ ih =>
    rw [written] at hw
    obtain ⟨ws, hws, hw⟩ := bind_eq_ok.1 hw
    cases hw
    exact plainItems_iff.2 (forall_plain_of_sameItems hws h fun x hx w hw hs => ih x hx hw hs)
  | @dict es hk hdata distinct ih =>
    rw [written] at hw
    obtain ⟨ws, hws, hw⟩ := bind_eq_ok.1 hw
    cases hw
    obtain ⟨ws', hws', parts⟩ := exists_writtenEntries hk fun e he => exists_written (hdata e he)
    obtain rfl : ws = ws' := Except.ok.inj (hws.symm.trans hws')
    obtain ⟨texts, distinct', -⟩ := isPlain_dict_iff.1 (isPlain_ofPairs parts)
    simp only [sameWith, entries?] at h
    split at h
    · next length =>
      have found := exists_of_sameEntries h
      -- a key of the written form is a text, and equals only the same text
      have keys : ∀ e ∈ es, ∃ d ∈ Entries.ofPairs ws, e.1 = d.1 := by
        refine forall_text_of_length texts distinct' length ?_
        intro d hd
        obtain ⟨e, he, hkey, -⟩ := found d hd
        obtain ⟨name, hname⟩ := texts d hd
        rw [hname] at hkey ⊢
        exact ⟨e, he, eq_of_sameWith_str hkey⟩
      have texts' : ∀ e ∈ es, ∃ name, e.1 = .str name := by
        intro e he
        obtain ⟨d, hd, heq⟩ := keys e he
        exact heq ▸ texts d hd
      -- all keys are texts, so the entries as written are the dictionary as written
      have same : Entries.ofPairs ws = ws := by
        refine Entries.ofPairs_of_textKeyed
          (Entries.textKeyed_iff.2 ⟨fun e he => (parts e he).1, ?_⟩)
        have pairwise : (es.map Prod.fst).Pairwise fun k k' => sameKey k k' = false :=
          List.pairwise_map.2 distinct
        rw [← map_fst_of_writtenEntries hws texts'] at pairwise
        exact List.pairwise_map.1 pairwise
      refine isPlain_dict_iff.2 ⟨texts', distinct, ?_⟩
      intro e he
      obtain ⟨name, hname⟩ := texts' e he
      obtain ⟨t, w, ht, hw, hmem⟩ := exists_of_writtenEntries hws e he
      rw [hname] at ht
      cases ht
      rw [← same] at hmem
      -- the value found under the same text is that of `e`, since no key is there twice
      obtain ⟨e', he', hkey, hvalue⟩ := found (.str name, w) hmem
      obtain rfl : e' = e := distinct.eq_of_text he' he (eq_of_sameWith_str hkey) hname
      exact ih e' he hw hvalue
    · cases h

/-- **The written form of data equals them exactly if they are plain**, that is, if the keys of all
dictionaries in them are texts. -/
theorem sameWith_written {v w : Value} (hv : v.IsData) (hw : v.written = .ok w) :
    sameWith ask w v = .ok v.isPlain := by
  obtain ⟨w', hw', plain⟩ := exists_written hv
  obtain rfl : w = w' := Except.ok.inj (hw.symm.trans hw')
  obtain ⟨b, hb⟩ : ∃ b, sameWith ask w v = .ok b := exists_sameWith (isData_of_isPlain w plain) v
  cases hp : v.isPlain with
  | true =>
    obtain rfl : w = v := Except.ok.inj (hw.symm.trans (written_of_plain v hp))
    exact sameWith_self_of_isData hv
  | false =>
    cases b with
    | false => exact hb
    | true => exact absurd (isPlain_of_sameWith_written hv hw hb) (by simp [hp])

end Value

end EntitySchema
