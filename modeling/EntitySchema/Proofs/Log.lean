/-
**The log of a store.**

What a store has to answer follows from its *log*, the changes made of it so far.  Under a key there
is what was last put there, unless it was deleted since.  The *live* records of a log are these, the
one put last in front.

A list of records that has the live records of the log in the order in which they were put is what
both kinds of stores keep, and both look up, change, count and list it in the same way.

Main definitions:

* `Change`, `Log` — the changes of a store, the last first;
* `Log.last?` — **what was last put under a key and not deleted since**;
* `Log.live` — **the live records, that put last in front**;
* `Log.onData` — the log in which something else is put wherever data are.

Main results:

* `Log.mem_live`, `Log.nodup_live`, `Log.live_sorted` — the live records are what is under the keys,
  each once, in the order of the changes;
* `MemoryStore.get?_live`, `MemoryStore.put_live`, `MemoryStore.delete_live` — a store in memory
  follows its log;
* `FileTable.get?_some`, `FileTable.deleting_some`, `FileTable.ofKind_some` — a file does as a store
  in memory does.
-/

import EntitySchema.Store.File
import EntitySchema.Store.Memory
import Mathlib.Data.List.Basic

set_option autoImplicit false

namespace EntitySchema

/-! ### Logs -/

/-- A change of a store. -/
inductive Change where
  | put (key : RecordKey) (data : Entries)
  | delete (key : RecordKey)

/-- The key that a change is made under. -/
def Change.key : Change → RecordKey
  | .put key _ => key
  | .delete key => key

/-- The change with something else in place of data. -/
def Change.onData (f : Entries → Entries) : Change → Change
  | .put key data => .put key (f data)
  | .delete key => .delete key

/-- The changes of a store so far, the last first. -/
abbrev Log := List Change

namespace Log

/-- What was last put under a key and not deleted since. -/
def last? : Log → RecordKey → Option Entries
  | [], _ => none
  | .put k data :: log, key => if k = key then some data else last? log key
  | .delete k :: log, key => if k = key then none else last? log key

/-- The live records, that put last in front. -/
def live : Log → List Record
  | [] => []
  | .put key data :: log => ⟨key, data⟩ :: (live log).filter fun r => r.key != key
  | .delete key :: log => (live log).filter fun r => r.key != key

/-- The changes that were made under a key. -/
def under (log : Log) (key : RecordKey) : Log := log.filter fun c => c.key == key

/-- The data of the live records of a kind, those put last in front. -/
def ofKind (log : Log) (kind : Kind) : List Entries :=
  ((live log).filter fun r => r.key.kind == kind).map Record.data

/-- How many changes came after the last one under a key. -/
def age : Log → RecordKey → Nat
  | [], _ => 0
  | c :: log, key => if c.key = key then 0 else age log key + 1

theorem key_ne_of_mem {rs : List Record} {key : RecordKey} {r : Record}
    (h : r ∈ rs.filter fun r => r.key != key) : key ≠ r.key := by
  intro heq
  have other := (List.mem_filter.1 h).2
  simp [heq] at other

/-- A record is live exactly if its data are what is under its key. -/
theorem mem_live {log : Log} {r : Record} : r ∈ live log ↔ last? log r.key = some r.data := by
  induction log with
  | nil => simp [live, last?]
  | cons c log ih =>
    cases c with
    | put key data =>
      simp only [live, last?, List.mem_cons, List.mem_filter, ih, bne_iff_ne]
      by_cases hk : key = r.key
      · subst hk
        rw [if_pos rfl]
        constructor
        · rintro (heq | ⟨-, hne⟩)
          · rw [heq]
          · exact absurd rfl hne
        · intro hdata
          exact .inl (by cases r; cases hdata; rfl)
      · rw [if_neg hk]
        constructor
        · rintro (heq | ⟨hlast, -⟩)
          · exact absurd (by rw [heq]) hk
          · exact hlast
        · exact fun hlast => .inr ⟨hlast, Ne.symm hk⟩
    | delete key =>
      simp only [live, last?, List.mem_filter, ih, bne_iff_ne]
      by_cases hk : key = r.key
      · simp [hk]
      · simp [hk, Ne.symm hk]

/-- Under each key there is one live record at most. -/
theorem nodup_live (log : Log) : ((live log).map Record.key).Nodup := by
  induction log with
  | nil => exact List.nodup_nil
  | cons c log ih =>
    have rest : ∀ key, (((live log).filter fun r => r.key != key).map Record.key).Nodup :=
      fun key => ih.sublist (List.filter_sublist.map _)
    cases c with
    | put key data =>
      rw [live, List.map_cons, List.nodup_cons]
      refine ⟨?_, rest key⟩
      intro hmem
      obtain ⟨r, hr, heq⟩ := List.mem_map.1 hmem
      simp [heq] at hr
    | delete key => exact rest key

/-- The live records stand in the order of the changes, the last in front. -/
theorem live_sorted (log : Log) :
    (live log).Pairwise fun r r' => age log r.key < age log r'.key := by
  induction log with
  | nil => exact .nil
  | cons c log ih =>
    have rest : ((live log).filter fun r => r.key != c.key).Pairwise
        fun r r' => age (c :: log) r.key < age (c :: log) r'.key := by
      have kept := (ih.filter fun r => r.key != c.key)
      refine kept.imp_of_mem ?_
      intro r r' hr hr' hlt
      rw [age, age, if_neg (key_ne_of_mem hr), if_neg (key_ne_of_mem hr')]
      exact Nat.succ_lt_succ hlt
    cases c with
    | put key data =>
      rw [live]
      refine .cons ?_ rest
      intro r hr
      have hne : (Change.put key data).key ≠ r.key := key_ne_of_mem hr
      have first : age (.put key data :: log) key = 0 := if_pos rfl
      rw [first, age, if_neg hne]
      exact Nat.succ_pos _
    | delete key => exact rest

/-- The changes under other keys have no part in what is under a key. -/
theorem last?_under (log : Log) (key : RecordKey) : last? (log.under key) key = last? log key := by
  induction log with
  | nil => rfl
  | cons c log ih =>
    rw [under, List.filter_cons]
    by_cases hk : c.key = key
    · rw [if_pos (by simpa using hk)]
      cases c with
      | put k data =>
        have same : k = key := hk
        rw [last?, last?, if_pos same, if_pos same]
      | delete k =>
        have same : k = key := hk
        rw [last?, last?, if_pos same, if_pos same]
    · rw [if_neg (by simpa using hk)]
      cases c with
      | put k data =>
        have other : k ≠ key := hk
        rw [last?, if_neg other]
        exact ih
      | delete k =>
        have other : k ≠ key := hk
        rw [last?, if_neg other]
        exact ih

/-- What is under a key was put there. -/
theorem put_mem_of_last? {log : Log} {key : RecordKey} {data : Entries}
    (h : last? log key = some data) : .put key data ∈ log := by
  induction log with
  | nil => cases h
  | cons c log ih =>
    cases c with
    | put k d =>
      rw [last?] at h
      split at h
      · next hk =>
        cases h
        rw [hk]
        exact List.mem_cons_self ..
      · exact List.mem_cons_of_mem _ (ih h)
    | delete k =>
      rw [last?] at h
      split at h
      · cases h
      · exact List.mem_cons_of_mem _ (ih h)

/-! ### Logs of what is made of data -/

section

variable (f : Entries → Entries)

/-- The log in which something else is put wherever data are. -/
def onData (log : Log) : Log := log.map (Change.onData f)

theorem last?_onData (log : Log) (key : RecordKey) :
    last? (log.onData f) key = (last? log key).map f := by
  induction log with
  | nil => rfl
  | cons c log ih =>
    cases c with
    | put k d =>
      show (if k = key then some (f d) else last? (onData f log) key) = _
      rw [ih, last?]
      split <;> rfl
    | delete k =>
      show (if k = key then none else last? (onData f log) key) = _
      rw [ih, last?]
      split <;> rfl

/-- What is live was made of data that were put. -/
theorem exists_put_of_mem_live {log : Log} {r : Record} (h : r ∈ live (log.onData f)) :
    ∃ data, .put r.key data ∈ log ∧ r.data = f data := by
  have last := mem_live.1 h
  rw [last?_onData] at last
  obtain ⟨data, hdata, heq⟩ := Option.map_eq_some_iff.1 last
  exact ⟨data, put_mem_of_last? hdata, heq.symm⟩

end

end Log

/-! ### Stores in memory -/

namespace MemoryStore

open Log

theorem find?_of_unique {α : Type} {p : α → Bool} {xs : List α} {x : α} (hx : x ∈ xs)
    (hp : p x = true) (unique : ∀ y ∈ xs, p y = true → y = x) : xs.find? p = some x := by
  cases hf : xs.find? p with
  | none => exact absurd hp (by simpa using List.find?_eq_none.1 hf x hx)
  | some y => rw [unique y (List.mem_of_find?_eq_some hf) (List.find?_some hf)]

/-- A look-up finds what was last put under the key and not deleted since. -/
theorem get?_live (log : Log) (key : RecordKey) :
    get? (live log).reverse key = last? log key := by
  cases hl : last? log key with
  | none =>
    simp only [get?, Option.map_eq_none_iff, List.find?_eq_none, List.mem_reverse, beq_iff_eq]
    rintro r hr rfl
    rw [mem_live.1 hr] at hl
    cases hl
  | some data =>
    -- the order has no part in it, since under a key there is one live record only
    have found : (live log).reverse.find? (fun r => r.key == key) = some ⟨key, data⟩ := by
      refine find?_of_unique (List.mem_reverse.2 (mem_live.2 hl)) (by simp) ?_
      intro r hr heq
      obtain rfl : r.key = key := by simpa using heq
      have same := mem_live.1 (List.mem_reverse.1 hr)
      rw [hl] at same
      cases same
      rfl
    rw [get?, found]
    rfl

/-- A write makes of the live records those of the log with the write. -/
theorem put_live (log : Log) (r : Record) :
    put (live log).reverse r = (live (.put r.key r.data :: log)).reverse := by
  rw [put, without, List.filter_reverse, live, List.reverse_cons]

theorem without_live (log : Log) (key : RecordKey) :
    without (live log).reverse key = (live (.delete key :: log)).reverse := by
  rw [without, List.filter_reverse, live]

/-- A deletion tells whether there was a record, and makes of the live records those of the log with
the deletion. -/
theorem delete_live (log : Log) (key : RecordKey) : delete (live log).reverse key =
    ((last? log key).isSome, (live (.delete key :: log)).reverse) := by
  rw [delete, get?_live, without_live]

theorem ofKind_live (log : Log) (kind : Kind) :
    ofKind (live log).reverse kind = Log.ofKind log kind := by
  rw [ofKind, List.reverse_reverse, Log.ofKind]

theorem list_live (log : Log) (kind : Kind) (limit offset : Nat) :
    list (live log).reverse kind limit offset =
      ((Log.ofKind log kind).drop offset).take limit := by
  rw [list, ofKind_live]
  exact window_nat _ offset limit

theorem count_live (log : Log) (kind : Kind) :
    count (live log).reverse kind = (Log.ofKind log kind).length := by
  rw [count, List.filter_reverse, List.length_reverse, Log.ofKind, List.length_map]

end MemoryStore

/-! ### Files -/

namespace FileTable

theorem key_beq (r : Record) (kind : Kind) (id : String) :
    (some r.key.kind == some kind && r.key.id == id) = (r.key == ⟨kind, id⟩) := by
  obtain ⟨⟨k, i⟩, data⟩ := r
  rw [Bool.eq_iff_iff]
  simp

/-- A look-up in a file is one in memory. -/
theorem get?_some (t : FileTable) (kind : Kind) (id : String) :
    get? t (some kind) id = MemoryStore.get? t ⟨kind, id⟩ := by
  simp only [get?, row?, MemoryStore.get?, key_beq]

/-- A deletion in a file is one in memory. -/
theorem deleting_some (t : FileTable) (kind : Kind) (id : String) :
    deleting t (some kind) id = MemoryStore.without t ⟨kind, id⟩ := by
  simp only [deleting, MemoryStore.without, key_beq]
  rfl

theorem delete_some (t : FileTable) (kind : Kind) (id : String) :
    delete t (some kind) id = MemoryStore.delete t ⟨kind, id⟩ := by
  rw [delete, MemoryStore.delete, deleting_some, ← get?_some, get?, Option.isSome_map]

/-- The rows of a kind are the records of the kind in memory. -/
theorem ofKind_some (t : FileTable) (kind : Kind) :
    (ofKind t (some kind)).map Record.data = MemoryStore.ofKind t kind := by
  rw [ofKind, MemoryStore.ofKind, ← List.filter_reverse]
  rfl

theorem list_some (t : FileTable) (kind : Kind) (limit offset : Nat) :
    list t (some kind) limit offset = MemoryStore.list t kind limit offset := by
  have bound : ¬ ((limit : Int) < 0) := by omega
  rw [list, MemoryStore.list, ← ofKind_some, if_neg bound, List.map_take, List.map_drop]
  exact (window_nat _ offset limit).symm

theorem count_some (t : FileTable) (kind : Kind) :
    count t (some kind) = MemoryStore.count t kind := rfl

/-- A write in a file is one in memory, of the record as it is written. -/
theorem put_of_written (t : FileTable) {r r' : Record} (h : r.written = .ok r') :
    put t r = (.ok (), MemoryStore.put t r') := by
  have key : r'.key = r.key := by
    unfold Record.written at h
    cases hw : Value.writtenEntries r.data with
    | error e => rw [hw] at h; cases h
    | ok es => rw [hw] at h; cases h; rfl
  rw [put, transaction, h, deleting_some, MemoryStore.put, key]
  rfl

end FileTable

end EntitySchema
