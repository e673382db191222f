/-
**Listings with negative bounds.**

A store in memory cuts the window from `offset` to `offset + limit` out of a listing, and positions
that are negative count from its end.  To a file a negative limit is no limit and a negative offset
is none.  So both kinds of stores tell the same where neither bound is negative, and hardly ever
where one is: with a negative limit only where the offset skips everything, and with a negative
offset only where nothing is asked for, or the window covers everything, or what stands at the end
of the listing stands at its start as well.

Main definitions:

* `cut` — the part of a listing that a file tells;
* `Request.after`, `Request.logAfter` — a store, and its log, after some requests.

Main results:

* `window_eq_cut_iff` — **when a window with a negative bound is what a file tells**;
* `Request.keeps_after` — after any requests both kinds of stores keep the live records of one log;
* `Request.listings_agree_iff` — **when both kinds of stores list the same records.**
-/

import EntitySchema.Proofs.Refinement

set_option autoImplicit false

namespace EntitySchema

/-! ### Windows and cuts -/

section

variable {α : Type}

/-- The part of a listing from `offset` on of at most `limit` items, where a negative limit is none
and a negative offset is none. -/
def cut (xs : List α) (limit offset : Int) : List α :=
  if limit < 0 then xs.drop offset.toNat else (xs.drop offset.toNat).take limit.toNat

theorem map_cut {β : Type} (f : α → β) (xs : List α) (limit offset : Int) :
    (cut xs limit offset).map f = cut (xs.map f) limit offset := by
  unfold cut
  split
  · rw [List.map_drop]
  · rw [List.map_take, List.map_drop]

theorem position_le (n : Nat) (i : Int) : position n i ≤ n := by
  unfold position
  split <;> omega

theorem length_window (xs : List α) (start stop : Int) :
    (window xs start stop).length = position xs.length stop - position xs.length start := by
  rw [window, List.length_drop, List.length_take, Nat.min_eq_left (position_le _ _)]

/-- A window with a negative limit ends before the listing does, or where it starts. -/
theorem window_eq_cut_iff_of_limit (xs : List α) {limit : Int} (offset : Int) (h : limit < 0) :
    window xs offset (offset + limit) = cut xs limit offset ↔ xs.length ≤ offset.toNat := by
  rw [cut, if_pos h]
  constructor
  · intro same
    have lengths := congrArg List.length same
    rw [length_window, List.length_drop] at lengths
    by_contra more
    simp only [position] at lengths
    split at lengths <;> split at lengths <;> omega
  · intro all
    rw [List.drop_eq_nil_of_le all, List.eq_nil_iff_length_eq_zero, length_window]
    simp only [position]
    split <;> split <;> omega

/-- A window with a negative offset starts at the end of the listing, or covers all of it. -/
theorem window_eq_cut_iff_of_offset (xs : List α) {limit offset : Int} (hl : 0 < limit)
    (ho : offset < 0) (nonempty : 0 < xs.length) :
    window xs offset (offset + limit) = cut xs limit offset ↔
      (offset ≤ -xs.length ∧ xs.length ≤ offset + limit) ∨
        (-xs.length ≤ offset ∧ limit < -offset ∧
          (xs.drop (offset + xs.length).toNat).take limit.toNat = xs.take limit.toNat) := by
  have start : position xs.length offset = (offset + xs.length).toNat := if_pos ho
  rw [cut, if_neg (by omega), Int.toNat_of_nonpos ho.le, List.drop_zero]
  by_cases early : offset ≤ -xs.length
  · -- the window starts where the listing does
    have window_eq : window xs offset (offset + limit) =
        xs.take (position xs.length (offset + limit)) := by
      rw [window, start, Int.toNat_of_nonpos (by omega), List.drop_zero]
    rw [window_eq, List.take_eq_take_iff]
    constructor
    · intro same
      by_cases all : (xs.length : Int) ≤ offset + limit
      · exact .inl ⟨early, all⟩
      · obtain ⟨whole, short⟩ : offset = -xs.length ∧ limit < -offset := by
          simp only [position] at same
          split at same <;> omega
        have first : (offset + xs.length).toNat = 0 := by omega
        refine .inr ⟨by omega, short, ?_⟩
        rw [first, List.drop_zero]
    · rintro (⟨-, all⟩ | ⟨late, short, -⟩)
      · rw [position, if_neg (by omega)]
        omega
      · rw [position, if_pos (by omega)]
        omega
  · by_cases short : limit < -offset
    · -- the window lies at the end of the listing
      have stop : position xs.length (offset + limit) =
          (offset + xs.length).toNat + limit.toNat := by
        rw [position, if_pos (by omega)]
        omega
      have window_eq : window xs offset (offset + limit) =
          (xs.drop (offset + xs.length).toNat).take limit.toNat := by
        rw [window, start, stop, List.drop_take, Nat.add_sub_cancel_left]
      rw [window_eq]
      constructor
      · exact fun same => .inr ⟨by omega, short, same⟩
      · rintro (⟨early', -⟩ | ⟨-, -, same⟩)
        · exact absurd early' early
        · exact same
    · refine iff_of_false (fun same => ?_) ?_
      · have lengths := congrArg List.length same
        rw [length_window, start, List.length_take] at lengths
        simp only [position] at lengths
        split at lengths <;> omega
      · rintro (⟨early', -⟩ | ⟨-, short', -⟩)
        · exact early early'
        · exact short short'

/-- **When a window with a negative bound is what a file tells**: nothing is asked for; or the
listing is empty; or the limit is negative and the offset skips everything; or the offset is
negative and the window covers everything, or lies at the end of the listing and repeats what stands
at its start. -/
theorem window_eq_cut_iff (xs : List α) {limit offset : Int} (h : limit < 0 ∨ offset < 0) :
    window xs offset (offset + limit) = cut xs limit offset ↔
      limit = 0 ∨ xs.length = 0 ∨ (limit < 0 ∧ xs.length ≤ offset) ∨
        (0 < limit ∧ offset ≤ -xs.length ∧ xs.length ≤ offset + limit) ∨
        (0 < limit ∧ -xs.length ≤ offset ∧ limit < -offset ∧
          (xs.drop (offset + xs.length).toNat).take limit.toNat = xs.take limit.toNat) := by
  by_cases hx : xs.length = 0
  · obtain rfl := List.eq_nil_of_length_eq_zero hx
    refine iff_of_true ?_ (.inr (.inl rfl))
    simp [window, cut]
  rcases lt_trichotomy limit 0 with hl | rfl | hl
  · rw [window_eq_cut_iff_of_limit xs offset hl]
    constructor
    · exact fun all => .inr (.inr (.inl ⟨hl, by omega⟩))
    · rintro (h0 | h0 | ⟨-, all⟩ | ⟨h0, -⟩ | ⟨h0, -⟩) <;> omega
  · refine iff_of_true ?_ (.inl rfl)
    rw [Int.add_zero, List.eq_nil_of_length_eq_zero (l := window xs offset offset)]
    · simp [cut]
    · rw [length_window, Nat.sub_self]
  · rw [window_eq_cut_iff_of_offset xs hl (h.resolve_left hl.not_gt) (Nat.pos_of_ne_zero hx)]
    constructor
    · rintro (all | repeated)
      · exact .inr (.inr (.inr (.inl ⟨hl, all⟩)))
      · exact .inr (.inr (.inr (.inr ⟨hl, repeated⟩)))
    · rintro (h0 | h0 | ⟨h0, -⟩ | ⟨-, all⟩ | ⟨-, repeated⟩)
      · omega
      · exact absurd h0 hx
      · omega
      · exact .inl all
      · exact .inr repeated

end

/-! ### Listings of both kinds of stores -/

/-- A file tells a cut of the records of a kind. -/
theorem FileTable.list_eq_cut (t : FileTable) (kind : Kind) (limit offset : Int) :
    list t (some kind) limit offset = cut (MemoryStore.ofKind t kind) limit offset := by
  rw [← ofKind_some, ← map_cut]
  rfl

namespace Session

variable {s : Session} {i : StoreId} {rs : List Record}

/-- A store in memory lists a window of the records of a kind. -/
theorem listRecords_memory (h : s.stores[i]? = some (.memory rs))
    (data : ∀ r ∈ rs, (Value.dict r.data).IsData) (kind : String) (limit offset : Int) :
    outcome (listRecords i (.str kind) (.int limit) (.int offset)) s =
      (.ok ((window (MemoryStore.ofKind rs (.text kind)) offset (offset + limit)).map .dict),
        s) := by
  rw [listRecords, outcome_get_bind, store_eq h]
  refine outcome_mapM_copy ?_
  intro es hes
  have mem : es ∈ MemoryStore.ofKind rs (.text kind) :=
    List.mem_of_mem_take (List.mem_of_mem_drop hes)
  obtain ⟨r, hr, rfl⟩ := List.mem_map.1 mem
  exact (data r (List.mem_reverse.1 (List.mem_filter.1 hr).1)).inert

/-- A file lists a cut of the records of a kind. -/
theorem listRecords_file (h : Connected s i rs) (kind : String) {limit offset : Int}
    (hl : fitsWord limit = true) (ho : fitsWord offset = true) :
    (outcome (listRecords i (.str kind) (.int limit) (.int offset)) s).1 =
      .ok ((cut (MemoryStore.ofKind rs (.text kind)) limit offset).map .dict) := by
  obtain ⟨path, link, hs⟩ := h.store_file
  have fits {n : Int} (hn : fitsWord n = true) : bindInt n = .ok n := if_pos hn
  rw [listRecords, outcome_get_bind, hs]
  simp only [outcome_bind_ok h.rows, bindBound, fits hl, fits ho]
  rw [← FileTable.list_eq_cut]
  rfl

end Session

/-! ### The state after requests -/

namespace Request

/-- The session after requests made one after the other of a store. -/
def after (i : StoreId) (rs : List Request) (s : Session) : Session :=
  rs.foldl (fun s r => (Session.outcome (r.perform i) s).2) s

/-- A log after requests made one after the other. -/
def logAfter (text : Value → Except Failure String) (rs : List Request) (log : Log) : Log :=
  rs.foldl (fun log r => (r.answer text log).2) log

variable {s : Session} {i j : StoreId} {log : Log} {rs : List Request}

/-- **After any requests a store keeps the live records of the log**, and is of the same kind. -/
theorem keeps_after (hrs : ∀ r ∈ rs, r.Plain) (h : s.Keeps i (log.live).reverse)
    (data : ∀ r ∈ log.live, (Value.dict r.data).IsData) :
    let log' := logAfter (Method.toText s.catalog s.heap) rs log
    (after i rs s).Keeps i (log'.live).reverse ∧ (after i rs s).inFile i = s.inFile i ∧
      ∀ r ∈ log'.live, (Value.dict r.data).IsData := by
  induction rs generalizing s log with
  | nil => exact ⟨h, rfl, data⟩
  | cons r rs ih =>
    obtain ⟨hr, hrest⟩ := List.forall_mem_cons.1 hrs
    obtain ⟨s', hs', served, data'⟩ := step h data hr
    obtain ⟨keeps, place, rest⟩ := ih hrest served.keeps data'
    rw [served.on.catalog, served.heap] at keeps rest
    have next : after i (r :: rs) s = after i rs s' := by
      rw [after, List.foldl_cons, hs']
      rfl
    rw [next]
    exact ⟨keeps, place.trans served.place, rest⟩

/-- **When both kinds of stores list the same records with a negative bound.**  A store in memory
and one in a connected file are empty at first, and the same requests are made of both.  Then the
first lists a window of the live records, the second a cut, and these are the same exactly if
nothing is asked for; or no record is live; or the limit is negative and the offset skips all; or
the offset is negative and the window covers all, or lies at the end of the listing and repeats what
stands at its start. -/
theorem listings_agree_iff (memory : s.stores[i]? = some (.memory [])) (file : s.Connected j [])
    (hrs : ∀ r ∈ rs, r.Plain) (kind : String) {limit offset : Int} (hl : fitsWord limit = true)
    (ho : fitsWord offset = true) (negative : limit < 0 ∨ offset < 0) :
    let found := (logAfter (Method.toText s.catalog s.heap) rs []).ofKind (.text kind)
    let listing (k : StoreId) : Except Failure (List Value) := (Session.outcome
      (Session.listRecords k (.str kind) (.int limit) (.int offset)) (after k rs s)).1
    listing i = .ok ((window found offset (offset + limit)).map .dict) ∧
    listing j = .ok ((cut found limit offset).map .dict) ∧
    (listing i = listing j ↔
      limit = 0 ∨ found.length = 0 ∨ (limit < 0 ∧ found.length ≤ offset) ∨
        (0 < limit ∧ offset ≤ -found.length ∧ found.length ≤ offset + limit) ∨
        (0 < limit ∧ -found.length ≤ offset ∧ limit < -offset ∧
          (found.drop (offset + found.length).toNat).take limit.toNat =
            found.take limit.toNat)) := by
  intro found listing
  have empty : ∀ r ∈ Log.live [], (Value.dict r.data).IsData := List.forall_mem_nil _
  obtain ⟨keepsI, placeI, data⟩ := keeps_after hrs
    (show s.Keeps i (Log.live []).reverse from .memory memory) empty
  obtain ⟨keepsJ, placeJ, -⟩ := keeps_after hrs
    (show s.Keeps j (Log.live []).reverse from .file file) empty
  have inMemory : listing i = .ok ((window found offset (offset + limit)).map .dict) := by
    cases keepsI with
    | memory h =>
      have rows := fun r hr => data r (List.mem_reverse.1 hr)
      show (Session.outcome _ _).1 = _
      rw [Session.listRecords_memory h rows, MemoryStore.ofKind_live]
    | file h =>
      rw [h.inFile, Session.inFile_memory memory] at placeI
      cases placeI
  have inFile : listing j = .ok ((cut found limit offset).map .dict) := by
    cases keepsJ with
    | memory h =>
      rw [file.inFile, Session.inFile_memory h] at placeJ
      cases placeJ
    | file h =>
      show (Session.outcome _ _).1 = _
      rw [Session.listRecords_file h kind hl ho, MemoryStore.ofKind_live]
  refine ⟨inMemory, inFile, ?_⟩
  rw [inMemory, inFile, Except.ok.injEq, List.map_inj_right fun _ _ => Value.dict.inj]
  exact window_eq_cut_iff found negative

/-- A limit of minus one leaves out the oldest record in memory and none in a file. -/
theorem listings_agree_iff_filing :
    (fitsWord (-1) = true ∧ fitsWord 0 = true ∧ ((-1 : Int) < 0 ∨ (0 : Int) < 0)) ∧
    ((Session.outcome (Session.listRecords 0 (.str "B") (.int (-1)) (.int 0))
      (after 0 filing twoStores)).1 = .ok [] ∧
    (Session.outcome (Session.listRecords 1 (.str "B") (.int (-1)) (.int 0))
      (after 1 filing twoStores)).1 = .ok [.dict []]) := by
  have plain : ∀ r ∈ filing, r.Plain := by
    simp only [filing, List.forall_mem_cons, Plain]
    exact ⟨⟨_, rfl, rfl⟩, ⟨_, rfl, rfl⟩, ⟨_, rfl, rfl⟩, ⟨_, rfl, rfl⟩, ⟨by decide, by decide⟩,
      ⟨by decide, by decide⟩, trivial, trivial, trivial, trivial, List.forall_mem_nil _⟩
  have memory : twoStores.stores[0]? = some (.memory []) := rfl
  have file : twoStores.Connected 1 [] := .own rfl rfl rfl
  obtain ⟨inMemory, inFile, -⟩ := listings_agree_iff memory file plain "B"
    (by decide : fitsWord (-1) = true) (by decide : fitsWord 0 = true) (.inl (by decide))
  exact ⟨⟨by decide, by decide, .inl (by decide)⟩, inMemory.trans rfl, inFile.trans rfl⟩

end Request

end EntitySchema
