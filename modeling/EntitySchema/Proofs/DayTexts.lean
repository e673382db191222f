/-
**The texts of days.**

A day is written by year, month and day, or by year, week and weekday, and then the weekday may be
missing; in each way there are hyphens between the parts or none.  The reader decides from the
first bytes of a text where a day at its start ends, and reads as many digits as there have to be.
So what it takes as a day is a day in one of these six forms; and where a sign follows, each of
them is taken as a whole.

Main definitions:

* `Date.Written` — **the texts of a day.**

Main results:

* `IsoReading.monthDay?_eq_some_iff`, `IsoReading.weekDay?_eq_some_iff` — what is read after a year;
* `IsoReading.written_of_day?` — **what is read as a day is a text of that day**;
* `IsoReading.day?_of_written` — a text of a day is read where a sign follows.
-/

import EntitySchema.Proofs.ReadingBytes

set_option autoImplicit false

namespace EntitySchema

/-! ### The six forms -/

namespace Date

/-- A hyphen between two parts of a day, if there are any. -/
def hyphen (hyphens : Bool) : List Char := if hyphens then ['-'] else []

/-- **The texts of a day**, with hyphens or without. -/
inductive Written : List Char → Date → Prop
  | calendar (hyphens : Bool) (d : Date) :
      Written (fixedDigits 4 d.year ++ hyphen hyphens ++ fixedDigits 2 d.month ++ hyphen hyphens ++
        fixedDigits 2 d.day) d
  | week (hyphens : Bool) {year week : Nat} {d : Date} (h : ofWeek? year week 1 = some d) :
      Written (fixedDigits 4 year ++ hyphen hyphens ++ 'W' :: fixedDigits 2 week) d
  | weekday (hyphens : Bool) {year week day : Nat} {d : Date} (h : ofWeek? year week day = some d) :
      Written (fixedDigits 4 year ++ hyphen hyphens ++ 'W' :: (fixedDigits 2 week ++
        hyphen hyphens ++ fixedDigits 1 day)) d

/-- The fields that name a day are its own. -/
theorem eq_of_ofFields? {year month day : Nat} {d : Date} (h : ofFields? year month day = some d) :
    d.year = year ∧ d.month = month ∧ d.day = day := by
  unfold ofFields? at h
  split at h
  · cases h
    exact ⟨rfl, rfl, rfl⟩
  · cases h

/-- The year, the week and the weekday that name a day are in range. -/
theorem le_of_ofWeek? {year week day : Nat} {d : Date} (h : ofWeek? year week day = some d) :
    year ≤ 9999 ∧ week ≤ 53 ∧ day ≤ 7 := by
  unfold ofWeek? at h
  split at h
  · cases h
  · split at h
    · cases h
    · split at h
      · cases h
      · omega

/-- The month and the day of a day have at most two digits, its year at most four. -/
theorem lt_of_valid (d : Date) : d.year < 10 ^ 4 ∧ d.month < 10 ^ 2 ∧ d.day < 10 ^ 2 := by
  obtain ⟨⟨-, hy⟩, ⟨-, hm⟩, -, hd⟩ := d.valid
  have hd31 : daysInMonth d.year d.month ≤ 31 := by
    unfold daysInMonth
    repeat' split
    all_goals omega
  omega

/-- What holds of digits, of the hyphen and of the `W` holds of the characters of texts of days. -/
theorem Written.forall_mem {P : Char → Prop} (hd : ∀ n, P (Nat.digitChar (n % 10))) (hh : P '-')
    (hw : P 'W') {cs : List Char} {d : Date} (h : Written cs d) : ∀ c ∈ cs, P c := by
  have digits {w n : Nat} : ∀ c ∈ fixedDigits w n, P c := IsoReading.forall_mem_fixedDigits hd
  have hyphens {b : Bool} : ∀ c ∈ hyphen b, P c := by
    cases b <;> simp [hyphen, hh]
  intro c hc
  cases h with
  | calendar =>
    simp only [List.mem_append] at hc
    rcases hc with (((hc | hc) | hc) | hc) | hc
    · exact digits c hc
    · exact hyphens c hc
    · exact digits c hc
    · exact hyphens c hc
    · exact digits c hc
  | week =>
    simp only [List.mem_append, List.mem_cons] at hc
    rcases hc with (hc | hc) | rfl | hc
    · exact digits c hc
    · exact hyphens c hc
    · exact hw
    · exact digits c hc
  | weekday =>
    simp only [List.mem_append, List.mem_cons] at hc
    rcases hc with (hc | hc) | rfl | (hc | hc) | hc
    · exact digits c hc
    · exact hyphens c hc
    · exact hw
    · exact digits c hc
    · exact hyphens c hc
    · exact digits c hc

end Date

namespace IsoReading

variable {s : Bytes} {p : Nat}

/-! ### Days -/

/-- A hyphen stands where there is to be one. -/
theorem stands_hyphen {hyphens : Bool} :
    Stands s p (Date.hyphen hyphens) ↔ (hyphens && byteAt s p != byte '-') = false := by
  cases hyphens with
  | false => simp [Date.hyphen, stands_nil]
  | true => simp [Date.hyphen, stands_cons (c := '-') (by decide), stands_nil]

theorem length_hyphen (hyphens : Bool) (p : Nat) :
    p + (Date.hyphen hyphens).length = if hyphens then p + 1 else p := by
  cases hyphens <;> rfl

/-- A day is read by its month and day where they stand. -/
theorem monthDay?_eq_some_iff {year : Nat} {hyphens : Bool} {d : Date} :
    monthDay? s year p hyphens = some d ↔ d.year = year ∧
      Stands s p (fixedDigits 2 d.month ++ Date.hyphen hyphens ++ fixedDigits 2 d.day) := by
  have within := d.lt_of_valid
  simp only [monthDay?, Option.bind_eq_bind, Option.bind_eq_some_iff, number?_eq_some_iff,
    List.append_assoc, stands_append, stands_hyphen, length_fixedDigits, length_hyphen]
  constructor
  · rintro ⟨month, ⟨-, at_month⟩, h⟩
    split at h
    · cases h
    · next hyphen =>
      obtain ⟨day, ⟨-, at_day⟩, named⟩ := by
        simpa only [Option.bind_eq_some_iff, number?_eq_some_iff] using h
      obtain ⟨rfl, rfl, rfl⟩ := Date.eq_of_ofFields? named
      exact ⟨rfl, at_month, eq_false_of_ne_true hyphen, at_day⟩
  · rintro ⟨rfl, at_month, hyphen, at_day⟩
    refine ⟨d.month, ⟨within.2.1, at_month⟩, ?_⟩
    rw [hyphen, if_neg Bool.false_ne_true, number?_eq_some_iff.2 ⟨within.2.2, at_day⟩]
    exact d.ofFields?_self

/-- A day is read by its week and weekday where they stand, or by its week alone. -/
theorem weekDay?_eq_some_iff {year stop : Nat} {hyphens : Bool} {d : Date} :
    weekDay? s year p stop hyphens = some d ↔
      (stop ≤ p + 2 ∧ ∃ week, Date.ofWeek? year week 1 = some d ∧
        Stands s p (fixedDigits 2 week)) ∨
      (p + 2 < stop ∧ ∃ week day, Date.ofWeek? year week day = some d ∧
        Stands s p (fixedDigits 2 week ++ Date.hyphen hyphens ++ fixedDigits 1 day)) := by
  simp only [weekDay?, Option.bind_eq_bind, Option.bind_eq_some_iff, number?_eq_some_iff,
    List.append_assoc, stands_append, stands_hyphen, length_fixedDigits, length_hyphen]
  constructor
  · rintro ⟨week, ⟨-, at_week⟩, h⟩
    split at h
    · next more =>
      split at h
      · cases h
      · next hyphen =>
        obtain ⟨day, ⟨-, at_day⟩, named⟩ := by
          simpa only [Option.bind_eq_some_iff, number?_eq_some_iff] using h
        exact .inr ⟨more, week, day, named, at_week, eq_false_of_ne_true hyphen, at_day⟩
    · next done => exact .inl ⟨Nat.le_of_not_lt done, week, h, at_week⟩
  · rintro (⟨done, week, named, at_week⟩ | ⟨more, week, day, named, at_week, hyphen, at_day⟩)
    · have within := Date.le_of_ofWeek? named
      exact ⟨week, ⟨by omega, at_week⟩, by rw [if_neg (Nat.not_lt.2 done), named]⟩
    · have within := Date.le_of_ofWeek? named
      refine ⟨week, ⟨by omega, at_week⟩, ?_⟩
      rw [if_pos more, hyphen, if_neg Bool.false_ne_true,
        number?_eq_some_iff.2 ⟨by omega, at_day⟩]
      exact named

/-- Where a day that starts a text ends, by the form of the text. -/
theorem timeStart?_cases {n : Nat} (h : timeStart? s = some n) :
    (s.length = 7 ∧ n = 7) ∨
    (byteAt s 4 = byte '-' ∧ (byteAt s 5 = byte 'W' ∧ (n = 8 ∨ n = 10) ∨
      byteAt s 5 ≠ byte 'W' ∧ n = 10)) ∨
    (byteAt s 4 ≠ byte '-' ∧ (byteAt s 4 = byte 'W' ∧ (n = 7 ∨ n = 8) ∨
      byteAt s 4 ≠ byte 'W' ∧ n = 8)) := by
  simp only [timeStart?] at h
  split at h
  · next seven => exact .inl ⟨seven, (Option.some.inj h).symm⟩
  · split at h
    · next hyphen =>
      refine .inr (.inl ⟨hyphen, ?_⟩)
      split at h
      · next week =>
        refine .inl ⟨week, ?_⟩
        repeat' split at h
        all_goals cases h
        all_goals simp
      · next month => exact .inr ⟨month, (Option.some.inj h).symm⟩
    · next plain =>
      refine .inr (.inr ⟨plain, ?_⟩)
      split at h
      · next week =>
        refine .inl ⟨week, ?_⟩
        repeat' split at h
        all_goals cases h
        all_goals omega
      · next month => exact .inr ⟨month, (Option.some.inj h).symm⟩

section

variable {year p : Nat} {hyphens : Bool} {d : Date} (at_year : Stands s 0 (fixedDigits 4 year))
  (at_hyphen : Stands s 4 (Date.hyphen hyphens)) (hp : 4 + (Date.hyphen hyphens).length = p)

include at_year at_hyphen hp

/-- What is read as a week and a weekday after a year is a text of a day. -/
theorem written_of_weekDay? {stop : Nat} (letter : byteAt s p = byte 'W')
    (read : weekDay? s year (p + 1) stop hyphens = some d) :
    ∃ cs, Date.Written cs d ∧ Stands s 0 cs ∧ (stop ≤ p + 3 ∧ cs.length = p + 3 ∨
      p + 3 < stop ∧ cs.length = p + 4 + (Date.hyphen hyphens).length) := by
  have at_week {cs : List Char} (h : Stands s (p + 1) cs) :
      Stands s 0 (fixedDigits 4 year ++ Date.hyphen hyphens ++ 'W' :: cs) := by
    rw [List.append_assoc, stands_append, stands_append, length_fixedDigits, Nat.zero_add, hp,
      stands_cons (by decide)]
    exact ⟨at_year, at_hyphen, letter, h⟩
  rcases weekDay?_eq_some_iff.1 read with ⟨done, week, named, h⟩ | ⟨more, week, day, named, h⟩
  · refine ⟨_, .week hyphens named, at_week h, .inl ⟨done, ?_⟩⟩
    simp only [List.length_append, List.length_cons, length_fixedDigits, hp]
  · refine ⟨_, .weekday hyphens named, at_week h, .inr ⟨more, ?_⟩⟩
    simp only [List.length_append, List.length_cons, length_fixedDigits, hp]
    omega

/-- What is read as a month and a day after a year is a text of a day. -/
theorem written_of_monthDay? (read : monthDay? s year p hyphens = some d) :
    ∃ cs, Date.Written cs d ∧ Stands s 0 cs ∧
      cs.length = p + 4 + (Date.hyphen hyphens).length := by
  obtain ⟨rfl, h⟩ := monthDay?_eq_some_iff.1 read
  refine ⟨_, .calendar hyphens d, ?_, ?_⟩
  · rw [List.append_assoc, List.append_assoc, ← List.append_assoc (fixedDigits 2 d.month),
      List.append_assoc, stands_append, stands_append, length_fixedDigits, Nat.zero_add, hp]
    exact ⟨at_year, at_hyphen, h⟩
  · simp only [List.length_append, length_fixedDigits, hp]
    omega

end

/-- **What is read as a day at the start of a text is a text of that day**, and the time starts
after it. -/
theorem written_of_day? {n : Nat} {d : Date} (start : timeStart? s = some n)
    (read : day? s n = some d) : ∃ cs, Date.Written cs d ∧ Stands s 0 cs ∧ cs.length = n := by
  simp only [day?, Option.bind_eq_bind, Option.bind_eq_some_iff, number?_eq_some_iff] at read
  obtain ⟨year, ⟨-, at_year⟩, read⟩ := read
  have ends := timeStart?_cases start
  -- the form of the text leaves one or two places where the day may end
  by_cases hyphen : byteAt s 4 = byte '-'
  · have at_hyphen : Stands s 4 (Date.hyphen true) := stands_hyphen.2 (by simp [hyphen])
    have one : (Date.hyphen true).length = 1 := rfl
    simp only [hyphen, beq_self_eq_true, if_true] at read
    split at read
    · next letter =>
      obtain ⟨cs, written, stands, size⟩ := written_of_weekDay? at_year at_hyphen rfl letter read
      have within := stands.le_length (Nat.zero_le _)
      simp only [hyphen, letter, ne_eq, not_true_eq_false, false_and, or_false, true_and] at ends
      exact ⟨cs, written, stands, by omega⟩
    · next letter =>
      obtain ⟨cs, written, stands, size⟩ := written_of_monthDay? at_year at_hyphen rfl read
      have within := stands.le_length (Nat.zero_le _)
      simp only [hyphen, letter, ne_eq, not_true_eq_false, not_false_eq_true, false_and, false_or,
        or_false, true_and] at ends
      exact ⟨cs, written, stands, by omega⟩
  · have at_hyphen : Stands s 4 (Date.hyphen false) := stands_nil
    have none : (Date.hyphen false).length = 0 := rfl
    simp only [beq_eq_false_iff_ne.2 hyphen, Bool.false_eq_true, if_false] at read
    split at read
    · next letter =>
      obtain ⟨cs, written, stands, size⟩ := written_of_weekDay? at_year at_hyphen rfl letter read
      rw [letter] at hyphen
      simp only [letter, hyphen, ne_eq, not_true_eq_false, not_false_eq_true, false_and, false_or,
        or_false, true_and] at ends
      exact ⟨cs, written, stands, by omega⟩
    · next letter =>
      obtain ⟨cs, written, stands, size⟩ := written_of_monthDay? at_year at_hyphen rfl read
      have within := stands.le_length (Nat.zero_le _)
      simp only [hyphen, letter, ne_eq, not_false_eq_true, false_and, false_or, true_and] at ends
      exact ⟨cs, written, stands, by omega⟩

/-! ### Texts of days are read -/

/-- A day is read by its year, and by what stands after it. -/
theorem day?_of_stands {year stop : Nat} (hyphens : Bool) (hy : year < 10 ^ 4)
    (at_year : Stands s 0 (fixedDigits 4 year)) (letter : (byteAt s 4 == byte '-') = hyphens) :
    day? s stop = if byteAt s (4 + (Date.hyphen hyphens).length) = byte 'W' then
        weekDay? s year (4 + (Date.hyphen hyphens).length + 1) stop hyphens
      else monthDay? s year (4 + (Date.hyphen hyphens).length) hyphens := by
  simp only [day?, number?_eq_some_iff.2 ⟨hy, at_year⟩, letter, Option.bind_eq_bind,
    Option.bind_some, length_hyphen]

/-- No digit is a hyphen or a `W`. -/
theorem ne_of_isDigit {b : UInt8} (h : isDigit b = true) : b ≠ byte '-' ∧ b ≠ byte 'W' := by
  constructor
  all_goals
    rintro rfl
    exact absurd h (by decide)

/-- A text of a day by its month is read as that day. -/
theorem day?_of_calendar {hyphens : Bool} {d : Date} {stop : Nat}
    (hstop : stop = 8 + 2 * (Date.hyphen hyphens).length) (long : stop < s.length)
    (stands : Stands s 0 (fixedDigits 4 d.year ++ Date.hyphen hyphens ++ fixedDigits 2 d.month ++
      Date.hyphen hyphens ++ fixedDigits 2 d.day)) :
    timeStart? s = some stop ∧ day? s stop = some d := by
  simp only [List.append_assoc] at stands
  rw [stands_append, stands_append, length_fixedDigits, Nat.zero_add,
    ← List.append_assoc (fixedDigits 2 d.month)] at stands
  obtain ⟨at_year, at_hyphen, at_month⟩ := stands
  have digit := ne_of_isDigit (stands_append.1 (stands_append.1 at_month).1).1.isDigit
  have letter : (byteAt s 4 == byte '-') = hyphens := by
    cases hyphens with
    | false => exact beq_eq_false_iff_ne.2 digit.1
    | true => exact beq_iff_eq.2 ((stands_cons (by decide)).1 at_hyphen).1
  refine ⟨?_, ?_⟩
  · cases hyphens with
    | false =>
      have plain : byteAt s 4 ≠ byte '-' ∧ byteAt s 4 ≠ byte 'W' := digit
      rw [timeStart?, if_neg (by omega), if_neg plain.1, if_neg plain.2, hstop]
      rfl
    | true =>
      have month : byteAt s 5 ≠ byte 'W' := digit.2
      rw [timeStart?, if_neg (by omega), if_pos (beq_iff_eq.1 letter), if_neg month, hstop]
      rfl
  · rw [day?_of_stands hyphens d.lt_of_valid.1 at_year letter, if_neg digit.2]
    exact monthDay?_eq_some_iff.2 ⟨rfl, at_month⟩

/-- After a year and a `W` a day is read by its week. -/
theorem day?_of_weeks {hyphens : Bool} {year : Nat} {rest : List Char} (hy : year < 10 ^ 4)
    (stands : Stands s 0 (fixedDigits 4 year ++ Date.hyphen hyphens ++ 'W' :: rest)) :
    (byteAt s 4 == byte '-') = hyphens ∧ byteAt s (4 + (Date.hyphen hyphens).length) = byte 'W' ∧
      Stands s (5 + (Date.hyphen hyphens).length) rest ∧
      ∀ stop, day? s stop = weekDay? s year (5 + (Date.hyphen hyphens).length) stop hyphens := by
  rw [List.append_assoc, stands_append, stands_append, stands_cons (by decide), length_fixedDigits,
    Nat.zero_add, Nat.add_right_comm] at stands
  obtain ⟨at_year, at_hyphen, at_letter, at_rest⟩ := stands
  have letter : (byteAt s 4 == byte '-') = hyphens := by
    cases hyphens with
    | false =>
      have week : byteAt s 4 = byte 'W' := at_letter
      rw [week]
      decide
    | true => exact beq_iff_eq.2 ((stands_cons (by decide)).1 at_hyphen).1
  refine ⟨letter, at_letter, at_rest, fun stop => ?_⟩
  rw [day?_of_stands hyphens hy at_year letter, if_pos at_letter, Nat.add_right_comm]

/-- The digits from a position on, where some stand and then a sign follows. -/
theorem takeWhile_isDigit_of_stands {w n : Nat} (stands : Stands s p (fixedDigits w n))
    (sign : byteAt s (p + w) = byte '+') :
    ((s.drop p).takeWhile isDigit).length = w := by
  obtain ⟨rest, h⟩ := stands
  have after : s.drop (p + w) = rest := drop_fixedDigits h.symm
  have stop : rest.takeWhile isDigit = [] := by
    rw [← after, drop_eq_cons (sign ▸ by decide), sign]
    rfl
  rw [← h, List.takeWhile_append_of_pos, stop, List.append_nil, length_ascii, length_fixedDigits]
  intro b hb
  obtain ⟨c, hc, rfl⟩ := List.mem_map.1 hb
  exact forall_mem_fixedDigits (P := fun c => isDigit (byte c) = true) isDigit_digitChar c hc

/-- **A text of a day is read as that day where a sign follows**, and the time starts at the
sign. -/
theorem day?_of_written {cs : List Char} {d : Date} (written : Date.Written cs d)
    (stands : Stands s 0 cs) (sign : byteAt s cs.length = byte '+') :
    timeStart? s = some cs.length ∧ day? s cs.length = some d := by
  have long : cs.length < s.length := lt_of_byteAt (sign ▸ by decide)
  cases written with
  | calendar hyphens =>
    refine day?_of_calendar ?_ long stands
    simp only [List.length_append, length_fixedDigits]
    omega
  | @week hyphens year week _ named =>
    have within := Date.le_of_ofWeek? named
    obtain ⟨letter, at_letter, at_week, read⟩ := day?_of_weeks (by omega) stands
    simp only [List.length_append, List.length_cons, length_fixedDigits] at sign long ⊢
    refine ⟨?_, ?_⟩
    · cases hyphens with
      | false =>
        have plain : byteAt s 4 = byte 'W' := at_letter
        have sign : byteAt s 7 = byte '+' := sign
        have digits : ((s.drop 7).takeWhile isDigit).length = 0 :=
          takeWhile_isDigit_of_stands (n := 0) stands_nil sign
        rw [timeStart?, if_neg (by omega), if_neg (beq_eq_false_iff_ne.1 letter), if_pos plain,
          digits]
        rfl
      | true =>
        have plain : byteAt s 5 = byte 'W' := at_letter
        have sign : byteAt s 8 = byte '+' := sign
        rw [timeStart?, if_neg (by omega), if_pos (beq_iff_eq.1 letter), if_pos plain,
          if_neg (by omega), if_neg (by rw [sign]; exact fun h => absurd h.2 (by decide))]
        rfl
    · rw [read, weekDay?_eq_some_iff]
      exact .inl ⟨by omega, week, named, at_week⟩
  | @weekday hyphens year week day _ named =>
    have within := Date.le_of_ofWeek? named
    obtain ⟨letter, at_letter, at_week, read⟩ := day?_of_weeks (by omega) stands
    simp only [List.length_append, List.length_cons, length_fixedDigits] at sign long ⊢
    refine ⟨?_, ?_⟩
    · cases hyphens with
      | false =>
        have plain : byteAt s 4 = byte 'W' := at_letter
        have sign : byteAt s 8 = byte '+' := sign
        have at_day : Stands s 7 (fixedDigits 1 day) := (stands_append.1 at_week).2
        have digits : ((s.drop 7).takeWhile isDigit).length = 1 :=
          takeWhile_isDigit_of_stands at_day sign
        rw [timeStart?, if_neg (by omega), if_neg (beq_eq_false_iff_ne.1 letter), if_pos plain,
          digits]
        rfl
      | true =>
        have plain : byteAt s 5 = byte 'W' := at_letter
        have sign : byteAt s 10 = byte '+' := sign
        have second : byteAt s 8 = byte '-' :=
          ((stands_cons (by decide)).1 (stands_append.1 (stands_append.1 at_week).1).2).1
        have long : 10 < s.length := long
        rw [timeStart?, if_neg (by omega), if_pos (beq_iff_eq.1 letter), if_pos plain,
          if_neg (by omega), if_pos ⟨by omega, second⟩, if_neg (by omega),
          if_neg (by rw [sign]; exact fun h => absurd h.2 (by decide))]
        rfl
    · rw [read, weekDay?_eq_some_iff]
      exact .inr ⟨by omega, week, day, named, at_week⟩

end IsoReading

end EntitySchema
