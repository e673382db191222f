/-
**Who is handed the shared store, and in what state.**

Several tasks ask for the shared store, each at an instant of its own, before there is one.  The
first in time opens it and waits until it is connected; the others are handed it at once.  All are
handed the same store.  One in memory is connected at once.  One in a file is connected when it is
handed to the task that opened it and to those that ask later than that; a task that asks in the
round in which another opened it is handed a store that refuses to get or put a record.

The instants are any instants, so the tasks take their turns in any order.

Main definitions:

* `Session.Serving`, `Session.Refusing` — stores that get and put records, and stores that refuse
  to, for want of a connection;
* `Disk.Connects` — a store that can be connected, and the rounds that it takes;
* `Asker`, `Session.askAll` — tasks that ask for the shared store;
* `Session.Handed` — the state in which a task is handed it.

Main results:

* `Session.serving`, `Session.refusing_of_closed` — **a store serves if it is in memory or
  connected, and a file that is not connected refuses**;
* `Session.outcome_openShared` — the shared store as it is opened;
* `Session.askAll_handed` — **who is handed the shared store, and in what state.**
-/

import EntitySchema.Proofs.Building
import EntitySchema.Proofs.Refinement
import EntitySchema.Session.Gather
import EntitySchema.Session.Shared
import Mathlib.Data.String.Basic

set_option autoImplicit false

namespace EntitySchema

/-! ### Texts that are split -/

/-- Characters other than the first of a separator are skipped. -/
theorem splitOnAux_skip {sep : String} (l m r : List Char)
    (absent : ∀ c ∈ m, c ≠ String.Pos.Raw.get sep 0) (b : String.Pos.Raw) (acc : List String) :
    String.splitOnAux (String.ofList (l ++ (m ++ r))) sep b ⟨String.utf8Len l⟩ 0 acc =
      String.splitOnAux (String.ofList (l ++ (m ++ r))) sep b ⟨String.utf8Len (l ++ m)⟩ 0 acc := by
  induction m generalizing l with
  | nil => rw [List.append_nil]
  | cons c m ih =>
    obtain ⟨hc, hm⟩ := List.forall_mem_cons.1 absent
    have more : ¬ String.Pos.Raw.atEnd (String.ofList (l ++ (c :: m ++ r)))
        ⟨String.utf8Len l⟩ = true := by
      rw [String.atEnd_of_valid]
      simp
    have same : String.Pos.Raw.unoffsetBy ⟨String.utf8Len l⟩ 0 = ⟨String.utf8Len l⟩ := by
      simp [String.Pos.Raw.unoffsetBy]
    rw [String.splitOnAux, if_neg more, List.cons_append, String.get_of_valid l (c :: (m ++ r)),
      List.headD_cons, if_neg (by simpa using hc), same, String.next_of_valid l c (m ++ r)]
    simpa using ih (l ++ [c]) hm

/-- What is left has no separator. -/
theorem splitOnAux_of_absent {sep : String} (l r : List Char)
    (absent : ∀ c ∈ r, c ≠ String.Pos.Raw.get sep 0) (acc : List String) :
    String.splitOnAux (String.ofList (l ++ r)) sep ⟨String.utf8Len l⟩ ⟨String.utf8Len l⟩ 0 acc =
      acc.reverse ++ [String.ofList r] := by
  have skipped := splitOnAux_skip l r [] absent ⟨String.utf8Len l⟩ acc
  have fin := (String.atEnd_of_valid (l ++ r) []).2 rfl
  have rest := String.extract_of_valid l r []
  simp only [List.append_nil, String.utf8Len_append] at skipped fin rest
  rw [skipped, String.splitOnAux, if_pos fin, rest]
  exact List.reverse_cons

/-- A text that does not have the first character of a separator is not split. -/
theorem splitOn_of_absent {s sep : String} (hsep : sep ≠ "")
    (absent : (s.toList.all fun c => c != String.Pos.Raw.get sep 0) = true) :
    s.splitOn sep = [s] := by
  rw [String.splitOn, if_neg (by simpa using hsep)]
  have whole := splitOnAux_of_absent [] s.toList (by simpa using absent) []
  simpa using whole

/-- A separator that has been matched in part is matched. -/
theorem splitOnAux_match (l p q r : List Char) (hq : q ≠ []) (b : String.Pos.Raw)
    (acc : List String) :
    String.splitOnAux (String.ofList (l ++ (p ++ q) ++ r)) (String.ofList (p ++ q)) b
        ⟨String.utf8Len (l ++ p)⟩ ⟨String.utf8Len p⟩ acc =
      String.splitOnAux (String.ofList (l ++ (p ++ q) ++ r)) (String.ofList (p ++ q))
        ⟨String.utf8Len (l ++ (p ++ q))⟩ ⟨String.utf8Len (l ++ (p ++ q))⟩ 0
        (String.Pos.Raw.extract (String.ofList (l ++ (p ++ q) ++ r)) b
          ⟨String.utf8Len l⟩ :: acc) := by
  induction q generalizing p with
  | nil => exact absurd rfl hq
  | cons c q ih =>
    have text : l ++ (p ++ c :: q) ++ r = (l ++ p) ++ c :: (q ++ r) := by simp
    have more : ¬ String.Pos.Raw.atEnd (String.ofList (l ++ (p ++ c :: q) ++ r))
        ⟨String.utf8Len (l ++ p)⟩ = true := by
      rw [text, String.atEnd_of_valid]
      simp
    have here : (String.Pos.Raw.get (String.ofList (l ++ (p ++ c :: q) ++ r))
        ⟨String.utf8Len (l ++ p)⟩ ==
          String.Pos.Raw.get (String.ofList (p ++ c :: q)) ⟨String.utf8Len p⟩) = true := by
      rw [text, String.get_of_valid, String.get_of_valid]
      simp
    have next : String.Pos.Raw.next (String.ofList (l ++ (p ++ c :: q) ++ r))
        ⟨String.utf8Len (l ++ p)⟩ = ⟨String.utf8Len (l ++ (p ++ [c]))⟩ := by
      rw [text, String.next_of_valid]
      simp
      omega
    have next' : String.Pos.Raw.next (String.ofList (p ++ c :: q)) ⟨String.utf8Len p⟩ =
        ⟨String.utf8Len (p ++ [c])⟩ := by
      rw [String.next_of_valid]
      simp
    -- one more character agrees, and then the separator is at its end or it is not
    rw [String.splitOnAux, if_neg more, if_pos here, next, next']
    dsimp only
    cases q with
    | nil =>
      have fin : String.Pos.Raw.atEnd (String.ofList (p ++ [c]))
          ⟨String.utf8Len (p ++ [c])⟩ = true := by
        have all := (String.atEnd_of_valid (p ++ [c]) []).2 rfl
        simpa using all
      have start : String.Pos.Raw.unoffsetBy ⟨String.utf8Len (l ++ (p ++ [c]))⟩
          ⟨String.utf8Len (p ++ [c])⟩ = ⟨String.utf8Len l⟩ := by
        simp [String.Pos.Raw.unoffsetBy]
      rw [if_pos fin, start]
    | cons c' q =>
      have unfinished : ¬ String.Pos.Raw.atEnd (String.ofList (p ++ c :: c' :: q))
          ⟨String.utf8Len (p ++ [c])⟩ = true := by
        have text : p ++ c :: c' :: q = (p ++ [c]) ++ c' :: q := by simp
        rw [text, String.atEnd_of_valid]
        simp
      rw [if_neg unfinished]
      have rest := ih (p ++ [c]) (by simp)
      simpa using rest


/-- A text in which a separator stands once, and its first character not elsewhere, is split
there. -/
theorem splitOn_of_once {l m r : List Char} {c : Char} (hm : m.head? = some c) (before : c ∉ l)
    (after : c ∉ r) : (String.ofList (l ++ (m ++ r))).splitOn (String.ofList m) =
      [String.ofList l, String.ofList r] := by
  obtain ⟨m, rfl⟩ : ∃ cs, m = c :: cs := List.head?_eq_some_iff.1 hm
  have first : String.Pos.Raw.get (String.ofList (c :: m)) 0 = c := by
    simpa using String.get_of_valid [] (c :: m)
  have absent : ∀ cs : List Char, c ∉ cs →
      ∀ c' ∈ cs, c' ≠ String.Pos.Raw.get (String.ofList (c :: m)) 0 := by
    intro cs hc c' hc' same
    exact hc (first ▸ same ▸ hc')
  have skipped := splitOnAux_skip [] l (c :: m ++ r) (absent l before) 0 []
  have found := splitOnAux_match l [] (c :: m) r (List.cons_ne_nil c m) 0 []
  have rest := splitOnAux_of_absent (l ++ c :: m) r (absent r after) [String.ofList l]
  have start := String.extract_of_valid [] l (c :: m ++ r)
  have whole : l ++ (c :: m ++ r) = l ++ c :: m ++ r := (List.append_assoc ..).symm
  rw [String.splitOn, if_neg (by simp), whole]
  simp only [List.nil_append, List.append_nil, String.utf8Len_nil, Nat.zero_add, whole]
    at skipped found start
  calc _ = _ := skipped
    _ = _ := found
    _ = _ := (congrArg (fun p => String.splitOnAux _ _ _ _ _ [p]) start).trans rest

/-! ### Values that have no written form -/

namespace Value

theorem writtenBytes_error {bs : List UInt8} {e : Failure} (h : writtenBytes bs = .error e) :
    e = .unserialisable := by
  unfold writtenBytes at h
  split at h <;> cases h
  rfl

mutual

theorem writtenKey_error : (v : Value) → {e : Failure} → writtenKey v = .error e →
    e = .unserialisable
  | .bytes _, _, h => writtenBytes_error h
  | .tuple xs, _, h => by
    obtain h | ⟨ts, -, h⟩ := bind_eq_error.1 h
    · exact writtenKeys_error xs h
    · cases h
  | .null, _, h | .bool _, _, h | .int _, _, h | .float _, _, h | .nan _, _, h | .str _, _, h
  | .date _, _, h | .moment _, _, h | .stamp _, _, h => nomatch h
  | .list _, _, h | .set _, _, h | .dict _, _, h | .ordered _, _, h | .zone _, _, h
  | .object _, _, h | .function _, _, h | .method _ _, _, h | .cls _, _, h | .checker _ _, _, h
  | .store _, _, h | .thing _, _, h => by
    cases h
    rfl

theorem writtenKeys_error : (xs : List Value) → {e : Failure} → writtenKeys xs = .error e →
    e = .unserialisable
  | [], _, h => nomatch h
  | x :: xs, _, h => by
    obtain h | ⟨t, -, h⟩ := bind_eq_error.1 h
    · exact writtenKey_error x h
    · obtain h | ⟨ts, -, h⟩ := bind_eq_error.1 h
      · exact writtenKeys_error xs h
      · cases h

end

mutual

/-- A value fails to be written in one way only. -/
theorem written_error : (v : Value) → {e : Failure} → written v = .error e → e = .unserialisable
  | .bytes bs, _, h => by
    obtain h | ⟨t, -, h⟩ := bind_eq_error.1 h
    · exact writtenBytes_error h
    · cases h
  | .list xs, _, h | .tuple xs, _, h | .set xs, _, h => by
    obtain h | ⟨ys, -, h⟩ := bind_eq_error.1 h
    · exact writtenItems_error xs h
    · cases h
  | .dict es, _, h | .ordered es, _, h => by
    obtain h | ⟨ds, -, h⟩ := bind_eq_error.1 h
    · exact writtenEntries_error es h
    · cases h
  | .null, _, h | .bool _, _, h | .int _, _, h | .float _, _, h | .nan _, _, h | .str _, _, h
  | .date _, _, h | .moment _, _, h | .stamp _, _, h => nomatch h
  | .zone _, _, h | .object _, _, h | .function _, _, h | .method _ _, _, h | .cls _, _, h
  | .checker _ _, _, h | .store _, _, h | .thing _, _, h => by
    cases h
    rfl

theorem writtenItems_error : (xs : List Value) → {e : Failure} → writtenItems xs = .error e →
    e = .unserialisable
  | [], _, h => nomatch h
  | x :: xs, _, h => by
    obtain h | ⟨y, -, h⟩ := bind_eq_error.1 h
    · exact written_error x h
    · obtain h | ⟨ys, -, h⟩ := bind_eq_error.1 h
      · exact writtenItems_error xs h
      · cases h

theorem writtenEntries_error : (es : Entries) → {e : Failure} → writtenEntries es = .error e →
    e = .unserialisable
  | [], _, h => nomatch h
  | (k, v) :: es, _, h => by
    obtain h | ⟨t, -, h⟩ := bind_eq_error.1 h
    · exact writtenKey_error k h
    · obtain h | ⟨w, -, h⟩ := bind_eq_error.1 h
      · exact written_error v h
      · obtain h | ⟨ds, -, h⟩ := bind_eq_error.1 h
        · exact writtenEntries_error es h
        · cases h

end

end Value

/-- What is offered as a record is refused for its faults. -/
theorem Record.examine_error {kind data : Value} {name : String} {e : Failure}
    (h : examine kind name data = .error e) : ∃ ps, e = .invalid ps := by
  unfold examine at h
  split at h <;> cases h
  exact ⟨_, rfl⟩

/-- A row fails to be inserted only for want of a written form. -/
theorem FileTable.put_error {t : FileTable} {r : Record} {e : Failure}
    (h : (t.put r).1 = .error e) : e = .unserialisable := by
  unfold put transaction at h
  dsimp only at h
  split at h
  · cases h
  · next hr =>
    cases h
    obtain hr | ⟨r', -, hr⟩ := bind_eq_error.1 hr
    · obtain hr | ⟨es, -, hr⟩ := bind_eq_error.1 hr
      · exact Value.writtenEntries_error _ hr
      · cases hr
    · cases hr

namespace Session

variable {s : Session} {i : StoreId}

/-! ### Stores that serve -/

/-- No record is asked of a store or put there in vain for want of a connection. -/
structure Serving (s : Session) (i : StoreId) : Prop where
  fetch : ∀ kind name : String,
    (outcome (fetchRecord i (.str kind) (.str name)) s).1 ≠ .error .notConnected
  put : ∀ (kind name : String) (data : Value),
    (outcome (putRecord i (.str kind) (.str name) data) s).1 ≠ .error .notConnected

/-- A store refuses to get any record or to put one, for want of a connection. -/
structure Refusing (s : Session) (i : StoreId) : Prop where
  fetch : ∀ kind name : String,
    (outcome (fetchRecord i (.str kind) (.str name)) s).1 = .error .notConnected
  put : ∀ (kind name : String) (data : Value) (r : Record),
    Record.examine (.str kind) name data = .ok r →
      (outcome (putRecord i (.str kind) (.str name) data) s).1 = .error .notConnected

/-- What fails after a step that has a result fails after that step. -/
theorem outcome_textOf_str (name : String) (s : Session) :
    outcome (textOf (.str name)) s = (.ok name, s) := rfl

/-- A store in memory serves. -/
theorem serving_of_memory (h : s.inFile i = false) : s.Serving i := by
  obtain ⟨rs, hs⟩ : ∃ rs, s.store i = .memory rs := by
    unfold inFile at h
    split at h
    · exact ⟨_, ‹_›⟩
    · cases h
  constructor
  · intro kind name
    have searched : outcome (ofExcept (searchedKind s.heap (.str kind))) s =
        (.ok (some (.text kind)), s) := rfl
    rw [fetchRecord]
    simp only [outcome_bind_ok (outcome_textOf_str name s), outcome_get_bind, hs,
      outcome_bind_ok searched, Option.bind_some]
    cases MemoryStore.get? rs ⟨.text kind, name⟩ <;> (intro h; cases h)
  · intro kind name data
    rw [putRecord, outcome_bind_ok (outcome_textOf_str name s)]
    cases hr : Record.examine (.str kind) name data with
    | error e =>
      obtain ⟨ps, rfl⟩ := Record.examine_error hr
      rw [outcome_bind_error (outcome_ofExcept _ _)]
      intro h
      cases h
    | ok r =>
      rw [outcome_bind_ok (outcome_ofExcept _ _), outcome_get_bind]
      simp only [hs]
      cases hc : s.heap.copyable (.dict r.data) with
      | true =>
        rw [outcome_keepRecord hs hc rfl]
        intro h
        cases h
      | false =>
        rw [outcome_keepRecord_of_uncopyable hs hc]
        intro h
        cases h

theorem exists_path (hf : s.inFile i = true) : ∃ path link, s.store i = .file path link := by
  unfold inFile at hf
  split at hf
  · cases hf
  · exact ⟨_, _, ‹_›⟩

/-- A file that is not connected refuses. -/
theorem refusing_of_closed (hf : s.inFile i = true) (hl : s.linkOf i = .closed) : s.Refusing i := by
  obtain ⟨path, link, hs⟩ := exists_path hf
  constructor
  · intro kind name
    have closed : outcome (rows i) s = (.error .notConnected, s) := by rw [outcome_rows, hl]
    rw [fetchRecord, outcome_bind_ok (outcome_textOf_str name s), outcome_get_bind]
    simp only [hs, outcome_bind_error closed]
  · intro kind name data r hr
    have closed : outcome (requireLink i) s = (.error .notConnected, s) := by
      rw [requireLink, outcome_get_bind, hl]
      rfl
    rw [putRecord, outcome_bind_ok (outcome_textOf_str name s), hr,
      outcome_bind_ok (outcome_ofExcept _ _), outcome_get_bind]
    simp only [hs, outcome_bind_error closed]

/-- What a connected file makes of an action on its table: it has one, or tells that it cannot be
used or has none. -/
theorem rows_of_open (hl : s.linkOf i ≠ .closed) :
    (∃ t, outcome (rows i) s = (.ok t, s)) ∨
      ∃ b s', outcome (rows i) s = (.error (.blocked b), s') := by
  rw [outcome_rows]
  cases hlink : s.linkOf i with
  | closed => exact absurd hlink hl
  | unusable => exact .inr ⟨_, _, rfl⟩
  | _ =>
    dsimp only
    split
    · exact .inl ⟨_, rfl⟩
    · exact .inr ⟨_, _, rfl⟩

theorem outcome_setRows (t : FileTable) : ∃ s', outcome (setRows i t) s = (.ok ⟨⟩, s') :=
  ⟨_, rfl⟩

/-- A file that is connected serves. -/
theorem serving_of_open (hf : s.inFile i = true) (hl : s.linkOf i ≠ .closed) : s.Serving i := by
  obtain ⟨path, link, hs⟩ := exists_path hf
  constructor
  · intro kind name
    rw [fetchRecord, outcome_bind_ok (outcome_textOf_str name s),
      outcome_get_bind]
    simp only [hs]
    obtain ⟨t, ht⟩ | ⟨b, s', hb⟩ := rows_of_open hl
    · rw [outcome_bind_ok ht, Kind.bind, outcome_bind_ok (outcome_bound_ok _ _), outcome_wait_bind]
      intro h
      cases h
    · rw [outcome_bind_error hb]
      intro h
      cases h
  · intro kind name data
    rw [putRecord, outcome_bind_ok (outcome_textOf_str name s)]
    cases hr : Record.examine (.str kind) name data with
    | error e =>
      obtain ⟨ps, rfl⟩ := Record.examine_error hr
      rw [outcome_bind_error (outcome_ofExcept _ _)]
      intro h
      cases h
    | ok r =>
      have linked : outcome (requireLink i) s = (.ok ⟨⟩, s) := by
        rw [requireLink, outcome_get_bind]
        split
        · exact absurd ‹_› hl
        · rfl
      rw [outcome_bind_ok (outcome_ofExcept _ _), outcome_get_bind]
      simp only [hs, outcome_bind_ok linked]
      obtain ⟨t, ht⟩ | ⟨b, s', hb⟩ := rows_of_open hl
      · obtain ⟨s₁, hs₁⟩ := outcome_setRows (s := s) (i := i) (t.put r).2
        -- a put may be refused, but not for want of a connection
        cases hput : (t.put r).1 with
        | ok u =>
          have change : outcome (do
              let t ← rows i
              setRows i (t.put r).2
              bound (t.put r).1
              wait 3) s = (.ok ⟨⟩, { s₁ with now := s₁.now.after 3 }) := by
            rw [outcome_bind_ok ht]
            simp only [outcome_bind_ok hs₁, hput, outcome_bind_ok (outcome_bound_ok _ _),
              outcome_wait]
          rw [outcome_undone_ok change]
          intro h
          cases h
        | error e =>
          obtain rfl := FileTable.put_error hput
          have refused : ∃ s₂, outcome (bound (.error .unserialisable : Except Failure Unit)) s₁ =
              (.error .unserialisable, s₂) := ⟨_, rfl⟩
          obtain ⟨s₂, hs₂⟩ := refused
          have change : outcome (do
              let t ← rows i
              setRows i (t.put r).2
              bound (t.put r).1
              wait 3) s = (.error .unserialisable, s₂) := by
            rw [outcome_bind_ok ht]
            simp only [outcome_bind_ok hs₁, hput, outcome_bind_error hs₂]
          rw [outcome_undone_error change]
          intro h
          cases h
      · rw [outcome_undone_error (outcome_bind_error hb)]
        intro h
        cases h

/-- **A store serves if it is in memory or connected.** -/
theorem serving (h : s.inFile i = false ∨ s.linkOf i ≠ .closed) : s.Serving i := by
  cases hf : s.inFile i with
  | false => exact serving_of_memory hf
  | true => exact serving_of_open hf (h.resolve_left (by simp [hf]))

end Session

/-! ### Opening the shared store -/

/-- A store can be connected: one in memory at once, one in a file after some rounds. -/
inductive Disk.Connects (d : Disk) : Store → Nat → Prop
  | memory {rs : MemoryStore} : Connects d (.memory rs) 0
  | file {path : String} {link l : Link} {d' : Disk} : d.connect path = (.ok l, d') →
      l ≠ .unusable → Connects d (.file path link) (Session.roundsToConnect d l)

/-- What a path connects to is not closed. -/
theorem Disk.ne_closed_of_connect {d d' : Disk} {path : String} {link : Link}
    (h : d.connect path = (.ok link, d')) : link ≠ .closed := by
  rintro rfl
  obtain ⟨-, h⟩ | h | ⟨h, -⟩ := exists_database_of_connect h <;> cases h

/-- It takes rounds to connect a store exactly if it is in a file. -/
theorem Disk.Connects.rounds_eq_zero_iff {d : Disk} {x : Settings} {rounds : Nat}
    (h : d.Connects (Session.storeFor x) rounds) : rounds = 0 ↔ x.backend = .memory := by
  rw [Session.storeFor] at h
  cases hb : x.backend with
  | memory =>
    rw [hb] at h
    cases h
    simp
  | sqlite =>
    rw [hb] at h
    cases h with
    | @file path link l d' hc hu =>
      cases l with
      | closed => exact absurd rfl (Disk.ne_closed_of_connect hc)
      | unusable => exact absurd rfl hu
      | own t => simp [Session.roundsToConnect]
      | file p =>
        rw [Session.roundsToConnect]
        split <;> simp

namespace Session

variable {s s' : Session} {i : StoreId} {rounds : Nat}

/-- The settings that are read are kept. -/
theorem outcome_currentSettings {x : Settings} (h : (outcome currentSettings s).1 = .ok x) :
    outcome currentSettings s = (.ok x, { s with settings := some x }) := by
  rw [currentSettings, outcome_get_bind] at h ⊢
  cases hs : s.settings with
  | some y =>
    rw [hs] at h
    obtain rfl : y = x := Except.ok.inj h
    have same : { s with settings := some y } = s := by rw [← hs]
    rw [same]
    rfl
  | none =>
    rw [hs] at h
    cases hr : Settings.read [] s.environment [] with
    | error e =>
      simp only [hr, outcome_bind_error (outcome_ofExcept _ _)] at h
      cases h
    | ok y =>
      simp only [hr, outcome_bind_ok (outcome_ofExcept _ _), outcome_modify_bind] at h ⊢
      obtain rfl : y = x := Except.ok.inj h
      rfl

/-- A store is not closed, unless it is in memory. -/
def Linked (s : Session) (i : StoreId) : Prop :=
  ∀ path link, s.store i = .file path link → link ≠ .closed

theorem inFile_file {path : String} {link : Link} (hs : s.stores[i]? = some (.file path link)) :
    s.inFile i = true := by
  rw [inFile, store_eq hs]

/-- A store that can be connected is connected after that many rounds. -/
theorem outcome_connect {st : Store} (hs : s.stores[i]? = some st)
    (h : s.disk.Connects st rounds) :
    ∃ s', outcome (connect i) s = (.ok ⟨⟩, s') ∧ s'.now = s.now.after rounds ∧
      s'.catalog = s.catalog ∧ s'.survey = s.survey ∧ s'.inFile i = s.inFile i ∧ s'.Linked i := by
  rw [connect, outcome_get_bind, store_eq hs]
  cases h with
  | memory =>
    refine ⟨s, rfl, rfl, rfl, rfl, rfl, ?_⟩
    intro path link hl
    rw [store_eq hs] at hl
    cases hl
  | @file path link l d' hc hu =>
    refine ⟨{ { s with disk := d' }.setStore i (.file path l) with
      now := s.now.after (roundsToConnect s.disk l) }, ?_, rfl, rfl, rfl, ?_, ?_⟩
    · dsimp only
      rw [hc]
      cases l with
      | unusable => exact absurd rfl hu
      | _ => rfl
    · exact (inFile_file (store_setStore hs)).trans (inFile_file hs).symm
    · intro path' link' hl
      cases (store_eq (store_setStore hs)).symm.trans hl
      exact Disk.ne_closed_of_connect hc

/-- The shared store has just been opened: it is waited for from one instant to another. -/
structure Opened (s : Session) (i : StoreId) (time ready : Instant) (s' : Session) : Prop where
  shared : s'.shared = some ⟨i, time, ready, none⟩
  catalog : s'.catalog = s.catalog
  survey : s'.survey = s.survey
  linked : s'.Linked i

/-- **The shared store as it is opened.** -/
theorem outcome_openShared {x : Settings} (settings : (outcome currentSettings s).1 = .ok x)
    (connects : s.disk.Connects (storeFor x) rounds) (time : Instant) :
    ∃ s', outcome (openShared time) s = (.ok ⟨⟩, s') ∧
      s.Opened s.stores.length time (time.after rounds) s' ∧ s'.now = s.now ∧
      (s'.inFile s.stores.length = false ↔ x.backend = .memory) := by
  generalize hst : storeFor x = st at connects
  have there : (s.stores ++ [st])[s.stores.length]? = some st := by simp
  obtain ⟨s', hs', now, catalog, survey, place, linked⟩ :=
    outcome_connect (s := { s with
      settings := some x, stores := s.stores ++ [st], now := time }) there connects
  refine ⟨{ s' with now := s.now, shared := some ⟨s.stores.length, time, s'.now, none⟩ }, ?_,
    ⟨by rw [now], catalog, survey, linked⟩, rfl, ?_⟩
  · have opened : outcome (openStore st) { s with settings := some x } =
        (.ok s.stores.length, { s with settings := some x, stores := s.stores ++ [st] }) := rfl
    have connected : outcome (attempt (connect s.stores.length)) { s with
        settings := some x, stores := s.stores ++ [st], now := time } = (.ok (.ok ⟨⟩), s') := by
      rw [outcome_attempt, hs']
    rw [openShared, outcome_bind_ok (outcome_currentSettings settings), hst,
      outcome_bind_ok opened, outcome_get_bind, outcome_modify_bind, outcome_bind_ok connected]
    rfl
  · show s'.inFile s.stores.length = false ↔ _
    rw [place, inFile, store_eq there, ← hst, storeFor]
    cases x.backend <;> simp

/-- The shared store is waited for until it is connected. -/
theorem Opened.awaited {time ready : Instant} (h : s.Opened i time ready s') (t : Instant) :
    { s' with now := t }.awaited i = t.before ready := by
  simp [Session.awaited, h.shared]

theorem Opened.linkOf {time ready : Instant} (h : s.Opened i time ready s') {t : Instant}
    (hf : s'.inFile i = true) :
    { s' with now := t }.linkOf i = .closed ↔ t.before ready = true := by
  obtain ⟨path, link, hs⟩ := exists_path (s := { s' with now := t }) hf
  have linked : link ≠ .closed := h.linked path link hs
  rw [Session.linkOf, hs]
  dsimp only
  rw [h.awaited]
  cases t.before ready <;> simp [linked]

end Session

/-! ### Tasks that ask for the shared store -/

/-- A task that asks for the shared store at an instant, be it for a class that has no store of its
own or not. -/
structure Asker where
  time : Instant
  cls? : Option ClassId

namespace Asker

/-- What a task asks. -/
def ask (a : Asker) : Action StoreId :=
  match a.cls? with
  | none => Session.sharedStore
  | some cls => Session.storeOf cls

/-- A task on a clock of its own: what it is told, and when. -/
def run (a : Asker) : Action (Except Failure StoreId × Instant) := do
  modify fun s => { s with now := a.time }
  let outcome ← Session.attempt a.ask
  pure (outcome, (← get).now)

/-- When a task is told, if the shared store is opened at an instant and ready at another: the one
who opens it waits. -/
def told (a : Asker) (opened ready : Instant) : Instant :=
  if a.time = opened then ready else a.time

end Asker

namespace Session

variable {s s' : Session} {i : StoreId} {rounds : Nat}

/-- Tasks that ask for the shared store, when there may be none. -/
def askAll (askers : List Asker) : Action (List (Except Failure StoreId × Instant)) :=
  arrange (askers.mapM Asker.run)

theorem mem_of_earliest? {ts : List Instant} {t : Instant} (h : earliest? ts = some t) :
    t ∈ ts := by
  induction ts generalizing t with
  | nil => cases h
  | cons u ts ih =>
    rw [earliest?] at h
    split at h
    · next hv =>
      split at h <;> cases h
      · exact List.mem_cons_of_mem _ (ih hv)
      · exact List.mem_cons_self ..
    · cases h
      exact List.mem_cons_self ..

/-- The earliest of several instants is the one among them that no other is before. -/
theorem earliest?_eq {ts : List Instant} {first : Instant} (mem : first ∈ ts)
    (least : ∀ t ∈ ts, first.Precedes t) : earliest? ts = some first := by
  induction ts with
  | nil => cases mem
  | cons t ts ih =>
    obtain ⟨head, rest⟩ := List.forall_mem_cons.1 least
    rw [earliest?]
    by_cases later : first ∈ ts
    · rw [ih later rest]
      dsimp only
      cases hb : first.before t with
      | true => rfl
      | false => rw [Instant.eq_of_not_before hb head, if_neg Bool.false_ne_true]
    · obtain rfl : first = t := (List.mem_cons.1 mem).resolve_right later
      cases hu : earliest? ts with
      | none => rfl
      | some u =>
        have after : u.before first = false := rest u (mem_of_earliest? hu)
        dsimp only
        rw [after, if_neg Bool.false_ne_true]

/-- A task for a class without a store asks for the shared one. -/
theorem outcome_ask {a : Asker} (s : Session)
    (unassigned : ∀ cls ∈ a.cls?, s.catalog.assignedStore? cls = none) :
    outcome a.ask s = outcome sharedStore s := by
  rw [Asker.ask]
  cases hc : a.cls? with
  | none => rfl
  | some cls =>
    dsimp only
    rw [storeOf, outcome_get_bind, unassigned cls hc]

theorem outcome_asker (a : Asker) (s : Session) :
    outcome a.run s = (.ok ((outcome a.ask { s with now := a.time }).1,
      (outcome a.ask { s with now := a.time }).2.now),
      (outcome a.ask { s with now := a.time }).2) := rfl

/-- While it is found out who asks first, every task is noted and told nothing. -/
theorem outcome_survey {askers : List Asker}
    (unassigned : ∀ a ∈ askers, ∀ cls ∈ a.cls?, s.catalog.assignedStore? cls = none)
    (asked : List Instant) (t : Instant) :
    ∃ answers t', outcome (askers.mapM Asker.run) { s with survey := some asked, now := t } =
      (.ok answers,
        { s with survey := some ((askers.map Asker.time).reverse ++ asked), now := t' }) := by
  induction askers generalizing asked t with
  | nil => exact ⟨[], t, rfl⟩
  | cons a askers ih =>
    obtain ⟨ha, hrest⟩ := List.forall_mem_cons.1 unassigned
    obtain ⟨answers, t', run⟩ := ih hrest (a.time :: asked) (a.time.after sharedStore.never)
    have first : outcome a.run { s with survey := some asked, now := t } =
        (.ok (.error .notConnected, a.time.after sharedStore.never), { s with
          survey := some (a.time :: asked), now := a.time.after sharedStore.never }) := by
      have asks : outcome a.ask { s with survey := some asked, now := a.time } =
          (.error .notConnected, { s with
            survey := some (a.time :: asked), now := a.time.after sharedStore.never }) :=
        (outcome_ask { s with survey := some asked, now := a.time } ha).trans rfl
      rw [outcome_asker, asks]
    refine ⟨(.error .notConnected, a.time.after sharedStore.never) :: answers, t', ?_⟩
    rw [List.mapM_cons, outcome_bind_ok first, outcome_bind_ok run, outcome_pure, List.map_cons,
      List.reverse_cons, List.append_assoc]
    rfl

/-- What one task is told once the shared store is opened. -/
theorem Opened.outcome_run {opened ready : Instant} (h : s.Opened i opened ready s')
    (unsurveyed : s'.survey = none) {a : Asker}
    (unassigned : ∀ cls ∈ a.cls?, s'.catalog.assignedStore? cls = none)
    (later : opened.Precedes a.time) (t : Instant) :
    outcome a.run { s' with now := t } =
      (.ok (.ok i, a.told opened ready), { s' with now := a.told opened ready }) := by
  have asks : outcome a.ask { s' with now := a.time } =
      (.ok i, { s' with now := a.told opened ready }) := by
    refine (outcome_ask { s' with now := a.time } unassigned).trans ?_
    rw [sharedStore, outcome_get_bind]
    simp only [unsurveyed, h.shared, Asker.told]
    by_cases same : a.time = opened
    · rw [same, Instant.not_before_self, if_neg Bool.false_ne_true, if_pos rfl, if_pos rfl]
      rfl
    · have before : opened.before a.time = true := by
        cases hb : opened.before a.time with
        | true => rfl
        | false => exact absurd (Instant.eq_of_not_before later hb) same
      rw [if_pos before, if_neg same]
      rfl
  rw [outcome_asker, asks]

/-- What all tasks are told once the shared store is opened. -/
theorem Opened.outcome_runAll {opened ready : Instant} (h : s.Opened i opened ready s')
    (unsurveyed : s'.survey = none) {askers : List Asker}
    (unassigned : ∀ a ∈ askers, ∀ cls ∈ a.cls?, s'.catalog.assignedStore? cls = none)
    (later : ∀ a ∈ askers, opened.Precedes a.time) (t : Instant) :
    ∃ t', outcome (askers.mapM Asker.run) { s' with now := t } =
      (.ok (askers.map fun a => (.ok i, a.told opened ready)), { s' with now := t' }) := by
  induction askers generalizing t with
  | nil => exact ⟨t, rfl⟩
  | cons a askers ih =>
    obtain ⟨ha, hrest⟩ := List.forall_mem_cons.1 unassigned
    obtain ⟨la, lrest⟩ := List.forall_mem_cons.1 later
    obtain ⟨t', run⟩ := ih hrest lrest (a.told opened ready)
    refine ⟨t', ?_⟩
    rw [List.mapM_cons, outcome_bind_ok (h.outcome_run unsurveyed ha la t), outcome_bind_ok run]
    rfl

/-- The state in which a task is handed the shared store, which was first asked for at an instant
and is connected at another. -/
structure Handed (x : Settings) (first ready : Instant) (a : Asker) (s : Session) (i : StoreId) :
    Prop where
  /-- It is connected exactly if the task was the first or asked when that had been done. -/
  connected : s.awaited i = false ↔ a.time = first ∨ ready.Precedes a.time
  memory : x.backend = .memory → s.awaited i = false
  serving : s.awaited i = false → s.Serving i
  /-- A task that asks in the round in which another opened the store is refused. -/
  refused : x.backend = .sqlite → a.time ≠ first → a.time.rounds = first.rounds → s.Refusing i

/-- **Who is handed the shared store, and in what state.**  All tasks are handed one store, the
first of them once it is connected and the others when they ask. -/
theorem askAll_handed {x : Settings} {askers : List Asker} {first : Instant}
    (unopened : s.shared = none) (unsurveyed : s.survey = none)
    (settings : (outcome currentSettings s).1 = .ok x)
    (connects : s.disk.Connects (storeFor x) rounds)
    (unassigned : ∀ a ∈ askers, ∀ cls ∈ a.cls?, s.catalog.assignedStore? cls = none)
    (asked : first ∈ askers.map Asker.time) (earliest : ∀ a ∈ askers, first.Precedes a.time) :
    ∃ i s', outcome (askAll askers) s =
        (.ok (askers.map fun a => (.ok i, a.told first (first.after rounds))), s') ∧
      ∀ a ∈ askers, Handed x first (first.after rounds) a
        { s' with now := a.told first (first.after rounds) } i := by
  obtain ⟨s₁, hopen, opened, now, place⟩ := outcome_openShared settings connects first
  obtain ⟨answers, t, survey⟩ := outcome_survey unassigned [] s.now
  -- the store is asked for first by the earliest of the tasks
  have request : firstRequest? (askers.mapM Asker.run) s = some first := by
    show earliest? ((outcome (askers.mapM Asker.run) { s with survey := some [] }).2.survey.getD [])
      = some first
    rw [show outcome (askers.mapM Asker.run) { s with survey := some [] } = _ from survey]
    exact earliest?_eq (by simpa using asked) (by simpa using earliest)
  obtain ⟨t', run⟩ := opened.outcome_runAll (opened.survey.trans unsurveyed)
    (fun a ha cls hc => opened.catalog ▸ unassigned a ha cls hc) earliest s₁.now
  refine ⟨s.stores.length, { s₁ with now := t' }, ?_, ?_⟩
  · have attempted : outcome (attempt (openShared first)) s = (.ok (.ok ⟨⟩), s₁) := by
      rw [outcome_attempt, hopen]
    rw [askAll, arrange, outcome_get_bind, unopened, request]
    simp only [if_true]
    rw [outcome_bind_ok (outcome_discard_ok attempted)]
    exact run
  · intro a ha
    have awaited := opened.awaited (a.told first (first.after rounds))
    have connected : (a.told first (first.after rounds)).before (first.after rounds) = false ↔
        a.time = first ∨ (first.after rounds).Precedes a.time := by
      rw [Asker.told]
      by_cases same : a.time = first
      · simp [same, Instant.not_before_self]
      · simp [same, Instant.Precedes]
    refine ⟨?_, ?_, ?_, ?_⟩
    · exact (congrArg (· = false) awaited).to_iff.trans connected
    · -- no round passes before a store in memory is connected
      intro hm
      obtain rfl := connects.rounds_eq_zero_iff.2 hm
      exact awaited.trans (connected.2 (.inr (earliest a ha)))
    · intro h
      refine serving ?_
      cases hf : s₁.inFile s.stores.length with
      | false => exact .inl hf
      | true =>
        refine .inr fun hl => ?_
        rw [awaited, (opened.linkOf hf).1 hl] at h
        cases h
    · intro hx hne same
      have hf : s₁.inFile s.stores.length = true := by
        rw [← Bool.not_eq_false, place, hx]
        intro h
        cases h
      have later : 0 < rounds := Nat.pos_of_ne_zero fun hz => by
        rw [connects.rounds_eq_zero_iff.1 hz] at hx
        cases hx
      refine refusing_of_closed hf ((opened.linkOf hf).2 ?_)
      simp [Asker.told, hne, Instant.before, Instant.after, same, later]

/-- A session with settings that ask for a file, of which nothing is open. -/
def filing : Session := { initial with settings := some ⟨.sqlite, "sqlite", none⟩ }

/-- A name alone is a path from the working directory. -/
theorem ofText_sqlite : Path.ofText "sqlite" = ⟨Disk.working, ["sqlite"]⟩ := by
  have slash : "sqlite".splitOn "/" = ["sqlite"] := splitOn_of_absent (by decide) (by decide)
  have relative : "sqlite".startsWith "/" = false := by decide +kernel
  rw [Path.ofText]
  simp only [slash, relative]
  decide

/-- A file is made in the working directory. -/
theorem connect_sqlite : ∃ d, Disk.initial.connect "sqlite" =
    (.ok (.file (Disk.working ++ ["sqlite"])), d) := by
  refine ⟨(Disk.initial.connect "sqlite").2, ?_⟩
  rw [Disk.connect, ofText_sqlite]
  rfl

/-- The path that these settings ask for. -/
theorem normalPath_filing :
    normalPath (Settings.databasePath ⟨.sqlite, "sqlite", none⟩) = "sqlite" := by
  have slashes : "sqlite".splitOn "///" = ["sqlite"] :=
    splitOn_of_absent (by decide) (by decide)
  have slash : "sqlite".splitOn "/" = ["sqlite"] := splitOn_of_absent (by decide) (by decide)
  have database : Settings.databasePath ⟨.sqlite, "sqlite", none⟩ = "sqlite" := by
    have own : "sqlite".startsWith "sqlite" = true := by decide +kernel
    rw [Settings.databasePath]
    simp only [own, slashes]
    rfl
  have relative : "sqlite".startsWith "/" = false ∧ "sqlite".startsWith "//" = false ∧
      "sqlite".startsWith "///" = false := by decide +kernel
  rw [database, normalPath]
  simp only [slash, relative]
  decide

/-- The file that these settings ask for is made in eight rounds. -/
theorem connects_filing : filing.disk.Connects (storeFor ⟨.sqlite, "sqlite", none⟩) 8 := by
  have file : storeFor ⟨.sqlite, "sqlite", none⟩ = .file "sqlite" .closed := by
    rw [storeFor]
    dsimp only
    rw [normalPath_filing]
  obtain ⟨d, hd⟩ := connect_sqlite
  rw [file]
  exact .file hd (by nofun)

/-- Three tasks: one that opens the file, one that asks next, and one that asks later. -/
def threeAskers : List Asker :=
  [⟨⟨0, 1, [0]⟩, none⟩, ⟨⟨0, 1, [1]⟩, some Catalog.base⟩, ⟨⟨9, 0, [2]⟩, none⟩]

/-- The first of the tasks and the last are handed a store that serves, and the second one that
refuses. -/
theorem askAll_three : ∃ i s', outcome (askAll threeAskers) filing =
      (.ok [(.ok i, ⟨8, 1, [0]⟩), (.ok i, ⟨0, 1, [1]⟩), (.ok i, ⟨9, 0, [2]⟩)], s') ∧
    { s' with now := ⟨8, 1, [0]⟩ }.Serving i ∧ { s' with now := ⟨0, 1, [1]⟩ }.Refusing i ∧
    { s' with now := ⟨9, 0, [2]⟩ }.Serving i := by
  have unassigned : ∀ a ∈ threeAskers, ∀ cls ∈ a.cls?,
      filing.catalog.assignedStore? cls = none := by
    simp only [threeAskers, List.forall_mem_cons]
    exact ⟨nofun, fun cls hc => by cases hc; rfl, nofun, nofun⟩
  have asked : (⟨0, 1, [0]⟩ : Instant) ∈ threeAskers.map Asker.time := by decide
  obtain ⟨i, s', run, handed⟩ := askAll_handed (s := filing) rfl rfl rfl connects_filing unassigned
    asked (by decide)
  simp only [threeAskers, List.forall_mem_cons] at handed
  obtain ⟨first, second, third, -⟩ := handed
  exact ⟨i, s', run, first.serving (first.connected.2 (.inl rfl)),
    second.refused rfl (by decide) rfl, third.serving (third.connected.2 (.inr (by decide)))⟩

end Session

end EntitySchema
