/-
**Days by their number, and moments by their microseconds.**

The day with a given ordinal is found through spans of 400, 100, 4 and 1 years and then through the
months.  Where the days of the years 1 to 9999 are, it is found, and has this ordinal; elsewhere
there is none.  So the moment that is a number of microseconds after the start of 1970 is found if
it lies in these years, and it is that instant.

Main definitions:

* `Moment.AtMicros` — the moment in UTC a number of microseconds after the start of 1970.

Main results:

* `Date.ofOrdinal?_cases` — **the day with a given ordinal, if there is one**;
* `Moment.ofMicros?_cases` — **the moment a number of microseconds after the start of 1970**;
* `Moment.exists_atMicros_iff` — the numbers of microseconds for which there is such a moment.
-/

import EntitySchema.Calendar.Epoch

set_option autoImplicit false

namespace EntitySchema

/-! ### Years -/

/-- The years from which a year is counted through spans of 400, 100, 4 and 1 years start with the
days of these spans. -/
theorem daysBeforeYear_of_spans {a b c e : Nat} (hb : b ≤ 3) (hc : c ≤ 24) (he : e ≤ 3) :
    daysBeforeYear (a * 400 + b * 100 + c * 4 + e + 1) =
      a * 146097 + b * 36524 + c * 1461 + e * 365 := by
  unfold daysBeforeYear
  dsimp only
  omega

/-- The fourth year of a span is a leap year, unless the span is the last one of a century that is
not the last one of four. -/
theorem isLeapYear_of_spans {a b c : Nat} (hc : c ≤ 24) (last : c = 24 → b = 3) :
    isLeapYear (a * 400 + b * 100 + c * 4 + 3 + 1) = true := by
  have four : (a * 400 + b * 100 + c * 4 + 3 + 1) % 4 = 0 := by omega
  have rest : (a * 400 + b * 100 + c * 4 + 3 + 1) % 100 ≠ 0 ∨
      (a * 400 + b * 100 + c * 4 + 3 + 1) % 400 = 0 := by omega
  rcases rest with rest | rest <;> simp [isLeapYear, four, rest]

/-- The number of days of a year. -/
theorem daysBeforeMonth_thirteen (year : Nat) :
    daysBeforeMonth year 13 = if isLeapYear year then 366 else 365 := by
  cases h : isLeapYear year <;> simp [daysBeforeMonth, List.range, List.range.loop, daysInMonth, h]

/-! ### Months -/

theorem daysBeforeMonth_succ {year month : Nat} (h : 1 ≤ month) :
    daysBeforeMonth year (month + 1) = daysBeforeMonth year month + daysInMonth year month := by
  obtain ⟨m, rfl⟩ : ∃ m, month = m + 1 := ⟨month - 1, by omega⟩
  simp only [daysBeforeMonth, Nat.add_sub_cancel, List.range_succ, List.foldl_append,
    List.foldl_cons, List.foldl_nil]

theorem daysBeforeMonth_le {year a b : Nat} (ha : 1 ≤ a) (hab : a ≤ b) :
    daysBeforeMonth year a ≤ daysBeforeMonth year b := by
  induction hab with
  | refl => exact Nat.le_refl _
  | step hab ih =>
    rw [daysBeforeMonth_succ (Nat.le_trans ha hab)]
    exact Nat.le_trans ih (Nat.le_add_right _ _)

/-- The lengths of `count` months from one on. -/
def monthLengths (year month count : Nat) : List Nat :=
  (List.range count).map fun i => daysInMonth year (month + i)

theorem monthLengths_succ (year month count : Nat) : monthLengths year month (count + 1) =
    daysInMonth year month :: monthLengths year (month + 1) count := by
  simp only [monthLengths, List.range_succ_eq_map, List.map_cons, List.map_map, Nat.add_zero]
  congr 1
  refine List.map_congr_left fun i _ => ?_
  simp only [Function.comp, Nat.succ_eq_add_one]
  congr 1
  omega

/-- A day of a span of months is found in the month that it lies in. -/
theorem Date.locate_spec (year : Nat) : ∀ (count : Nat) {month n : Nat}, 1 ≤ month →
    daysBeforeMonth year month + n < daysBeforeMonth year (month + count) →
    let found := locate month (monthLengths year month count) n
    (month ≤ found.1 ∧ found.1 < month + count) ∧
      (1 ≤ found.2 ∧ found.2 ≤ daysInMonth year found.1) ∧
      daysBeforeMonth year found.1 + found.2 = daysBeforeMonth year month + n + 1
  | 0, month, n, _, inside => by
    rw [Nat.add_zero] at inside
    omega
  | count + 1, month, n, hm, inside => by
    have next : daysBeforeMonth year (month + 1) = _ := daysBeforeMonth_succ hm
    rw [monthLengths_succ, locate]
    split
    · next here => exact ⟨⟨Nat.le_refl _, by omega⟩, ⟨by omega, here⟩, rfl⟩
    · next later =>
      rw [← Nat.add_assoc, Nat.add_right_comm] at inside
      obtain ⟨⟨low, high⟩, day, sum⟩ := @locate_spec year count (month + 1)
        (n - daysInMonth year month) (by omega) (by omega)
      exact ⟨⟨by omega, by omega⟩, day, by omega⟩

/-- A day of a year, from 0 on, is found in its month. -/
theorem Date.exists_ofFields? {year r : Nat} (hy : 1 ≤ year ∧ year ≤ 9999)
    (hr : r < if isLeapYear year then 366 else 365) :
    let found := locate 1 ((List.range 12).map fun i => daysInMonth year (i + 1)) r
    ∃ d, ofFields? year found.1 found.2 = some d ∧ d.ordinal = daysBeforeYear year + r + 1 := by
  have lengths : ((List.range 12).map fun i => daysInMonth year (i + 1)) = monthLengths year 1 12 :=
    List.map_congr_left fun i _ => by rw [Nat.add_comm]
  have first : daysBeforeMonth year 1 = 0 := rfl
  rw [← daysBeforeMonth_thirteen] at hr
  obtain ⟨month, day, sum⟩ := @locate_spec year 12 1 r (Nat.le_refl 1)
    (by rw [first, Nat.zero_add]; exact hr)
  rw [lengths]
  intro found
  have valid : (1 ≤ year ∧ year ≤ 9999) ∧ (1 ≤ found.1 ∧ found.1 ≤ 12) ∧
      (1 ≤ found.2 ∧ found.2 ≤ daysInMonth year found.1) :=
        ⟨hy, ⟨month.1, Nat.le_of_lt_succ month.2⟩, day⟩
  refine ⟨⟨year, found.1, found.2, valid⟩, dif_pos valid, ?_⟩
  have sum' : daysBeforeMonth year found.1 + found.2 = daysBeforeMonth year 1 + r + 1 := sum
  show daysBeforeYear year + daysBeforeMonth year found.1 + found.2 = _
  omega

/-! ### Days by their number -/

/-- **The day with a given ordinal**: it is found among the 3652059 days of the years 1 to 9999, and
has this ordinal. -/
theorem Date.ofOrdinal?_cases (n : Int) :
    (1 ≤ n ∧ n ≤ 3652059) ∧ (∃ d, ofOrdinal? n = some d ∧ (d.ordinal : Int) = n) ∨
      ¬ (1 ≤ n ∧ n ≤ 3652059) ∧ ofOrdinal? n = none := by
  by_cases positive : n < 1
  · refine .inr ⟨by omega, ?_⟩
    rw [ofOrdinal?, if_pos positive]
  · obtain ⟨k, rfl⟩ : ∃ k : Nat, n = k + 1 := ⟨(n - 1).toNat, by omega⟩
    rw [ofOrdinal?, if_neg positive]
    have index : ((k : Int) + 1 - 1).toNat = k := by omega
    simp only [index]
    -- the spans of 400, 100, 4 and 1 years that lie before the day, and the days after them
    generalize ha : k / 146097 = a
    generalize hk : k % 146097 = k₁
    generalize hb : min 3 (k₁ / 36524) = b
    generalize hk₁ : k₁ - b * 36524 = k₂
    generalize hc : k₂ / 1461 = c
    generalize hk₂ : k₂ % 1461 = k₃
    generalize he : min 3 (k₃ / 365) = e
    generalize hr : k₃ - e * 365 = r
    have hb' : b ≤ 3 := by omega
    have hc' : c ≤ 24 := by omega
    have he' : e ≤ 3 := by omega
    have days := daysBeforeYear_of_spans (a := a) hb' hc' he'
    have total : k = a * 146097 + b * 36524 + c * 1461 + e * 365 + r := by omega
    have inside : r < if isLeapYear (a * 400 + b * 100 + c * 4 + e + 1) then 366 else 365 := by
      by_cases short : r < 365
      · split <;> omega
      · have fourth : e = 3 := by omega
        have leap := isLeapYear_of_spans (a := a) (b := b) hc' (by omega)
        rw [fourth, leap, if_pos rfl]
        omega
    by_cases known : a * 400 + b * 100 + c * 4 + e + 1 ≤ 9999
    · obtain ⟨d, hd, ordinal⟩ := exists_ofFields? ⟨Nat.le_add_left 1 _, known⟩ inside
      have ha' : a ≤ 24 := by omega
      have early : r ≤ 364 ∨ e = 3 := by omega
      refine .inl ⟨⟨by omega, ?_⟩, d, hd, by omega⟩
      rcases early with early | fourth <;> omega
    · refine .inr ⟨by omega, dif_neg ?_⟩
      exact fun valid => known valid.1.2

/-- The days of the years 1 to 9999 are numbered from 1 to 3652059. -/
theorem Date.ordinal_bounds (d : Date) : 1 ≤ d.ordinal ∧ d.ordinal ≤ 3652059 := by
  obtain ⟨⟨-, year⟩, ⟨month, month'⟩, day, day'⟩ := d.valid
  have upTo : daysBeforeMonth d.year (d.month + 1) ≤ daysBeforeMonth d.year 13 :=
    daysBeforeMonth_le (Nat.le_add_left 1 _) (Nat.succ_le_succ month')
  rw [daysBeforeMonth_succ month, daysBeforeMonth_thirteen] at upTo
  refine ⟨by unfold ordinal; omega, ?_⟩
  have before : ordinal d ≤ daysBeforeYear d.year + if isLeapYear d.year then 366 else 365 := by
    unfold ordinal
    omega
  refine Nat.le_trans before ?_
  rcases Nat.lt_or_eq_of_le year with year | last
  · have days : daysBeforeYear d.year + 366 ≤ 3652059 := by
      unfold daysBeforeYear
      dsimp only
      omega
    refine Nat.le_trans ?_ days
    split <;> omega
  · rw [last]
    decide

/-! ### Moments by their microseconds -/

namespace Moment

variable {m : Moment} {n : Int}

/-- The moment, in UTC, a number of microseconds after the start of 1970. -/
def AtMicros (m : Moment) (n : Int) : Prop :=
  m.offset = some 0 ∧ m.instant? = some (epochOrdinal * microsPerDay + n)

theorem AtMicros.wallClock_eq (at_n : m.AtMicros n) :
    m.wallClock = epochOrdinal * microsPerDay + n := by
  have instant := at_n.2
  rw [instant?, at_n.1, Option.map_some, Int.sub_zero] at instant
  exact Option.some.inj instant

theorem timeOfDay_lt (m : Moment) : m.timeOfDay < 86400000000 := by
  obtain ⟨⟨hour, minute, second, micro⟩, -⟩ := m.inRange
  unfold timeOfDay
  omega

/-- The microseconds of the second are told by the microseconds since 1970. -/
theorem AtMicros.micro_eq (at_n : m.AtMicros n) : (m.micro : Int) = n % 1000000 := by
  have wall := at_n.wallClock_eq
  obtain ⟨⟨-, -, -, micro⟩, -⟩ := m.inRange
  unfold wallClock timeOfDay microsPerDay epochOrdinal at wall
  omega

/-- **The moment a number of microseconds after the start of 1970**: it is found if it lies in the
years 1 to 9999. -/
theorem ofMicros?_cases (n : Int) :
    (-62135596800000000 ≤ n ∧ n < 253402300800000000) ∧
      (∃ m, ofMicros? n = some m ∧ m.AtMicros n) ∨
    ¬ (-62135596800000000 ≤ n ∧ n < 253402300800000000) ∧ ofMicros? n = none := by
  unfold ofMicros?
  have day : n.fdiv microsPerDay = n / 86400000000 := Int.fdiv_eq_ediv_of_nonneg _ (by decide)
  have time : n.fmod microsPerDay = n % 86400000000 := Int.fmod_eq_emod_of_nonneg _ (by decide)
  rw [day, time]
  rcases Date.ofOrdinal?_cases (epochOrdinal + n / 86400000000) with
    ⟨inside, d, hd, ordinal⟩ | ⟨outside, none⟩
  · left
    unfold epochOrdinal at inside ordinal
    refine ⟨⟨by omega, by omega⟩, ?_⟩
    generalize ht : (n % 86400000000).toNat = t
    have range : InRange (t / 3600000000) (t / 60000000 % 60) (t / 1000000 % 60) (t % 1000000)
        (some 0) := by
      refine ⟨⟨by omega, by omega, by omega, by omega⟩, ?_⟩
      intro o ho
      cases ho
      decide
    refine ⟨⟨d, _, _, _, _, _, range⟩, ?_, rfl, ?_⟩
    · rw [show epochOrdinal = 719163 from rfl] at hd
      rw [show epochOrdinal = 719163 from rfl, hd]
      exact dif_pos range
    · have clock : ((t / 3600000000 * 60 + t / 60000000 % 60) * 60 + t / 1000000 % 60) * 1000000 +
          t % 1000000 = t := by omega
      have wall : wallClock ⟨d, _, _, _, _, _, range⟩ = (d.ordinal * 86400000000 + t : Nat) := by
        rw [wallClock, timeOfDay, clock]
        rfl
      have same : ((d.ordinal * 86400000000 + t : Nat) : Int) - 0 =
          epochOrdinal * microsPerDay + n := by
        unfold epochOrdinal microsPerDay
        omega
      rw [instant?, wall, ← same]
      rfl
  · right
    unfold epochOrdinal at outside
    refine ⟨by omega, ?_⟩
    rw [none]
    rfl

/-- There is such a moment just in the years 1 to 9999. -/
theorem exists_atMicros_iff :
    (∃ m, AtMicros m n) ↔ -62135596800000000 ≤ n ∧ n < 253402300800000000 := by
  constructor
  · rintro ⟨m, at_n⟩
    have wall := at_n.wallClock_eq
    have time := m.timeOfDay_lt
    obtain ⟨first, last⟩ := m.date.ordinal_bounds
    unfold wallClock microsPerDay epochOrdinal at wall
    omega
  · intro inside
    rcases ofMicros?_cases n with ⟨-, m, -, at_n⟩ | ⟨outside, -⟩
    · exact ⟨m, at_n⟩
    · exact absurd inside outside

end Moment

end EntitySchema
