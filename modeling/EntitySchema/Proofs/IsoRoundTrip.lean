/-
**The written form of a moment is read back as that moment.**

A reader works through the bytes of a text by position.  What it finds at a position depends on what
is left of the bytes from there on, so the proof moves along the text: it says at each position what
is left, takes one part off, and says what is left after that.

An offset of less than a second is read as none, so it is not read back.  No moment that was read
itself has such an offset.

Main definitions:

* `Moment.Readable` — the offset of a moment is none or zero, or at least a second.

Main results:

* `IsoReading.clock?_of_drop`, `IsoReading.offset?_of_drop` — a time and an offset are read back;
* `Moment.ofIsoText?_isoText` — **a moment is read back from its written form**;
* `Moment.readable_of_ofIsoText?`, `Moment.readable_of_ofTimestamp?` — moments that are read are
  readable.
-/

import EntitySchema.Calendar.Epoch
import EntitySchema.Proofs.DayTexts
import EntitySchema.Value.Conversion

set_option autoImplicit false

namespace EntitySchema

namespace IsoReading

variable {s : Bytes} {p : Nat}

/-! ### Times -/

/-- Where no digit follows, no more digits are passed over. -/
theorem takeWhile_isDigit_eq_nil {rest : Bytes} (h : ∀ b ∈ rest.head?, isDigit b = false) :
    rest.takeWhile isDigit = [] := by
  cases rest with
  | nil => rfl
  | cons b rest => simp [h b rfl]

theorem byteAt_eq_head? {rest : Bytes} (h : s.drop p = rest) :
    byteAt s p = rest.head?.getD 0 := by
  cases rest with
  | nil => exact byteAt_of_drop_nil h
  | cons b rest => exact byteAt_of_drop h

/-- A fraction of six digits is read back. -/
theorem fraction?_of_drop {micro : Nat} {rest : Bytes}
    (h : s.drop p = ascii (fixedDigits 6 micro) ++ rest) (hm : micro < 1000000)
    (hrest : ∀ b ∈ rest.head?, isDigit b = false) (parts : List Nat) :
    fraction? s (p + 6) p parts = some ⟨parts, micro, rest.head?.getD 0 != 0⟩ := by
  have after : s.drop (p + 6) = rest := drop_fixedDigits h
  have count : min 6 (p + 6 - p) = 6 := by omega
  simp only [fraction?, count, number?_of_drop h hm, after, takeWhile_isDigit_eq_nil hrest,
    List.length_nil, Nat.add_zero, byteAt_eq_head? after, Option.bind_eq_bind, Option.bind_some,
    Nat.sub_self, Nat.pow_eq, Nat.pow_zero, Nat.mul_one]

/-- Two digits before a colon are a part of a time, and the next part is read after the colon. -/
theorem clockFrom?_of_drop {n : Nat} {rest : Bytes}
    (h : s.drop p = ascii (fixedDigits 2 n) ++ byte ':' :: rest) (hn : n < 100) (stop left : Nat)
    (hstop : p + 3 < stop) (parts : List Nat) :
    clockFrom? s stop (left + 1) true p parts =
        clockFrom? s stop left true (p + 3) (parts ++ [n]) ∧ s.drop (p + 3) = rest := by
  have after : s.drop (p + 2) = byte ':' :: rest := drop_fixedDigits h
  refine ⟨?_, drop_succ_of_drop after⟩
  have colon : byteAt s (p + 2) = byte ':' := byteAt_of_drop after
  simp only [clockFrom?, number?_of_drop h hn, colon, Option.bind_eq_bind, Option.bind_some,
    beq_self_eq_true, ite_self, Bool.and_self, if_true]
  rw [if_neg (by omega)]

/-- The seconds of a time, and the fraction after them. -/
theorem clockFrom?_seconds {second micro : Nat} {rest : Bytes}
    (h : s.drop p = ascii (fixedDigits 2 second ++ Moment.fractionChars micro) ++ rest)
    (hs : second < 100) (hu : micro < 1000000) (hrest : ∀ b ∈ rest.head?, isDigit b = false)
    (parts : List Nat) :
    clockFrom? s (p + (2 + (Moment.fractionChars micro).length)) 1 true p parts =
      some ⟨parts ++ [second], micro, rest.head?.getD 0 != 0⟩ := by
  rw [ascii_append, List.append_assoc] at h
  have after : s.drop (p + 2) = ascii (Moment.fractionChars micro) ++ rest :=
    drop_fixedDigits h
  simp only [clockFrom?, number?_of_drop h hs, Option.bind_eq_bind, Option.bind_some]
  by_cases hz : micro = 0
  · subst hz
    rw [if_pos (by simp [Moment.fractionChars]), byteAt_eq_head? after]
    simp [Moment.fractionChars]
  · have chars : Moment.fractionChars micro = '.' :: fixedDigits 6 micro := if_neg hz
    rw [chars] at after ⊢
    have point : byteAt s (p + 2) = byte '.' := byteAt_of_drop after
    have stop : p + (2 + ('.' :: fixedDigits 6 micro).length) = p + 3 + 6 := by
      simp only [List.length_cons, length_fixedDigits]
    rw [stop, if_neg (by omega), point, if_neg (by decide), if_pos (Or.inl rfl)]
    exact fraction?_of_drop (drop_succ_of_drop after) hu hrest _

@[simp] theorem length_clockChars (hour minute second : Nat) :
    (Moment.clockChars hour minute second).length = 8 := by
  simp [Moment.clockChars]

/-- The time written at a position is read back, if no digit follows. -/
theorem clock?_of_drop {hour minute second micro : Nat} {rest : Bytes}
    (h : s.drop p = ascii (Moment.clockChars hour minute second ++ Moment.fractionChars micro) ++
      rest)
    (hh : hour < 100) (hm : minute < 100) (hs : second < 100) (hu : micro < 1000000)
    (hrest : ∀ b ∈ rest.head?, isDigit b = false) :
    clock? s p (p + (8 + (Moment.fractionChars micro).length)) =
      some ⟨[hour, minute, second], micro, rest.head?.getD 0 != 0⟩ := by
  simp only [Moment.clockChars, ascii_append, ascii_cons, List.append_assoc, List.cons_append] at h
  obtain ⟨read_hour, left_hour⟩ := clockFrom?_of_drop h hh
    (p + (8 + (Moment.fractionChars micro).length)) 2 (by omega) []
  obtain ⟨read_minute, left_minute⟩ := clockFrom?_of_drop left_hour hm
    (p + (8 + (Moment.fractionChars micro).length)) 1 (by omega) [hour]
  rw [← List.append_assoc, ← ascii_append] at left_minute
  have stop : p + (8 + (Moment.fractionChars micro).length) =
      p + 3 + 3 + (2 + (Moment.fractionChars micro).length) := by omega
  rw [clock?, read_hour, List.nil_append, read_minute, stop]
  exact clockFrom?_seconds left_minute hs hu hrest [hour, minute]

/-- An hour and a minute at the end of the bytes are read back. -/
theorem clock?_of_drop_short {hour minute : Nat}
    (h : s.drop p = ascii (fixedDigits 2 hour ++ ':' :: fixedDigits 2 minute))
    (hh : hour < 100) (hm : minute < 100) :
    clock? s p (p + 5) = some ⟨[hour, minute], 0, false⟩ := by
  rw [ascii_append, ascii_cons] at h
  obtain ⟨read_hour, left_hour⟩ := clockFrom?_of_drop h hh (p + 5) 2 (by omega) []
  rw [← List.append_nil (ascii (fixedDigits 2 minute))] at left_hour
  have left_minute : s.drop (p + 3 + 2) = [] := drop_fixedDigits left_hour
  rw [clock?, read_hour]
  simp only [clockFrom?, number?_of_drop left_hour hm, Option.bind_eq_bind, Option.bind_some,
    byteAt_of_drop_nil left_minute, List.nil_append, List.cons_append]
  rw [if_pos (by omega)]
  rfl

/-! ### Offsets -/

/-- The body of an offset, by hours and minutes or by more. -/
def bodyChars (distance : Nat) : List Char :=
  let total := distance / 1000000
  if total % 60 = 0 ∧ distance % 1000000 = 0 then
    fixedDigits 2 (total / 3600) ++ ':' :: fixedDigits 2 (total / 60 % 60)
  else Moment.clockChars (total / 3600) (total / 60 % 60) (total % 60) ++
    Moment.fractionChars (distance % 1000000)

theorem offsetChars_eq (o : Int) :
    Moment.offsetChars o = (if o < 0 then '-' else '+') :: bodyChars o.natAbs := rfl

/-- The body of an offset at the end of the bytes is read as hours, minutes, seconds and a
fraction. -/
theorem clock?_of_bodyChars {distance : Nat} (h : s.drop p = ascii (bodyChars distance))
    (hp : p ≤ s.length) (hday : distance < microsPerDay) :
    ∃ c, clock? s p s.length = some c ∧ c.more = false ∧
      (c.hour * 60 + c.minute) * 60 + c.second = distance / 1000000 ∧
      c.micro = distance % 1000000 := by
  unfold microsPerDay at hday
  have len : s.length = p + (bodyChars distance).length := by
    have := congrArg List.length h
    rw [List.length_drop, length_ascii] at this
    omega
  simp only [bodyChars] at h len
  split at h
  · next short =>
    rw [if_pos short] at len
    have stop : s.length = p + 5 := by simpa using len
    refine ⟨_, stop ▸ clock?_of_drop_short h (by omega) (by omega), rfl, ?_, short.2.symm⟩
    simp only [Clock.hour, Clock.minute, Clock.second, List.getElem?_cons_zero,
      List.getElem?_cons_succ, List.getElem?_nil, Option.getD_some, Option.getD_none]
    omega
  · next long =>
    rw [if_neg long] at len
    have stop : s.length = p + (8 + (Moment.fractionChars (distance % 1000000)).length) := by
      simpa using len
    rw [← List.append_nil (ascii _)] at h
    have read := clock?_of_drop h (by omega) (by omega) (by omega)
      (Nat.mod_lt _ (by decide)) (by simp)
    rw [← stop] at read
    refine ⟨_, read, rfl, ?_, rfl⟩
    simp only [Clock.hour, Clock.minute, Clock.second, List.getElem?_cons_zero,
      List.getElem?_cons_succ, Option.getD_some]
    omega

/-- An offset that is zero or at least a second is read back at the end of the bytes. -/
theorem offset?_of_drop {o : Int} (h : s.drop p = ascii (Moment.offsetChars o))
    (ho : o = 0 ∨ 1000000 ≤ o.natAbs) (hday : o.natAbs < microsPerDay) :
    offset? s p = some o := by
  rw [offsetChars_eq, ascii_cons] at h
  have sign : byteAt s p = byte (if o < 0 then '-' else '+') := byteAt_of_drop h
  have not_z : byteAt s p ≠ byte 'Z' := by
    rw [sign]
    split <;> decide
  have negative : (byteAt s p = byte '-') ↔ o < 0 := by
    rw [sign]
    split
    · next hneg => simp [hneg]
    · next hpos => simp [hpos]
  have hp : p + 1 ≤ s.length := lt_of_drop h
  obtain ⟨c, read, done, seconds, micro⟩ := clock?_of_bodyChars (drop_succ_of_drop h) hp hday
  simp only [offset?, not_z, if_false, read, Option.bind_eq_bind, Option.bind_some, done, seconds,
    micro, negative, Bool.false_eq_true]
  rcases ho with rfl | ho
  · simp
  · have total : o.natAbs / 1000000 * 1000000 + o.natAbs % 1000000 = o.natAbs := by omega
    have nonzero : o.natAbs / 1000000 ≠ 0 := by omega
    simp only [nonzero, if_false, total]
    split <;> congr 1 <;> omega

/-- An offset that is read is zero or at least a second. -/
theorem offset?_readable {s : Bytes} {p : Nat} {o : Int}
    (h : offset? s p = some o) : o = 0 ∨ 1000000 ≤ o.natAbs := by
  unfold offset? at h
  split at h
  · split at h
    · cases h
      exact Or.inl rfl
    · cases h
  · obtain ⟨c, -, h⟩ := Option.bind_eq_some_iff.1 h
    split at h
    · cases h
    · simp only [Option.some.injEq] at h
      subst h
      split <;> split <;> omega

/-! ### Moments -/

/-- The day at the start of the bytes is read back, where something follows. -/
theorem day?_of_drop {d : Date} {rest : Bytes} (h : s.drop 0 = ascii d.isoChars ++ rest)
    (hrest : rest ≠ []) : timeStart? s = some 10 ∧ day? s 10 = some d ∧ s.drop 10 = rest := by
  have after : s.drop 10 = rest := by simpa using drop_of_drop h (w := 10) (by simp [Date.isoChars])
  have long : 10 < s.length := by
    refine Nat.lt_of_not_le fun short => hrest ?_
    rw [← after, List.drop_of_length_le short]
  have stands : Stands s 0 (fixedDigits 4 d.year ++ Date.hyphen true ++ fixedDigits 2 d.month ++
      Date.hyphen true ++ fixedDigits 2 d.day) := by
    refine ⟨rest, ?_⟩
    rw [h]
    simp [Date.isoChars, Date.hyphen]
  have stop : 10 = 8 + 2 * (Date.hyphen true).length := rfl
  obtain ⟨start, read⟩ := day?_of_calendar stop long stands
  exact ⟨start, read, after⟩

/-- What holds of all digits, of the colon and of the point holds of the characters of a time. -/
theorem forall_mem_clock {P : Char → Prop} (hd : ∀ n, P (Nat.digitChar (n % 10))) (hc : P ':')
    (hp : P '.') {hour minute second micro : Nat} :
    ∀ c ∈ Moment.clockChars hour minute second ++ Moment.fractionChars micro, P c := by
  intro c hmem
  simp only [Moment.clockChars, Moment.fractionChars, List.append_assoc, List.cons_append,
    List.mem_append, List.mem_cons] at hmem
  rcases hmem with hmem | rfl | hmem | rfl | hmem | hmem
  · exact forall_mem_fixedDigits hd c hmem
  · exact hc
  · exact forall_mem_fixedDigits hd c hmem
  · exact hc
  · exact forall_mem_fixedDigits hd c hmem
  · split at hmem
    · cases hmem
    · rcases List.mem_cons.1 hmem with rfl | hmem
      · exact hp
      · exact forall_mem_fixedDigits hd c hmem

/-- No character of a time or a fraction starts an offset. -/
theorem startsOffset_clock {hour minute second micro : Nat} :
    ∀ c ∈ Moment.clockChars hour minute second ++ Moment.fractionChars micro,
      startsOffset (byte c) = false :=
  forall_mem_clock
    (fun n => digitChar_cases (P := fun c _ => startsOffset (byte c) = false) (by decide) n)
    (by decide) (by decide)

/-- The sign of an offset. -/
theorem head?_offsetChars (o : Int) : (ascii (Moment.offsetChars o)).head? =
    some (byte (if o < 0 then '-' else '+')) := by
  rw [offsetChars_eq]
  rfl

/-- The time of a moment is what stands before its offset. -/
theorem takeWhile_clock {hour minute second micro : Nat} {rest : Bytes}
    (hrest : ∀ b ∈ rest.head?, startsOffset b = true) :
    (ascii (Moment.clockChars hour minute second ++ Moment.fractionChars micro) ++
      rest).takeWhile (fun b => !startsOffset b) =
        ascii (Moment.clockChars hour minute second ++ Moment.fractionChars micro) := by
  rw [List.takeWhile_append_of_pos]
  · cases rest with
    | nil => simp
    | cons b rest => simp [hrest b rfl]
  · intro b hb
    obtain ⟨c, hc, rfl⟩ := List.mem_map.1 hb
    simp [startsOffset_clock c hc]

/-- The characters of the offset of a moment. -/
def endChars (m : Moment) : List Char :=
  match m.offset with
  | none => []
  | some o => Moment.offsetChars o

/-- What stands after the time of a moment, if anything, is a sign. -/
theorem head?_endChars {m : Moment} {b : UInt8} (hb : b ∈ (ascii (endChars m)).head?) :
    startsOffset b = true ∧ isDigit b = false := by
  unfold endChars at hb
  split at hb
  · cases hb
  · rw [head?_offsetChars] at hb
    cases hb
    split <;> decide

/-- The time of a moment and its offset are read back after the separator. -/
theorem timed?_of_drop {m : Moment}
    (h : s.drop 10 = byte 'T' :: (ascii (Moment.clockChars m.hour m.minute m.second ++
      Moment.fractionChars m.micro) ++ ascii (endChars m)))
    (ho : ∀ o ∈ m.offset, o = 0 ∨ 1000000 ≤ o.natAbs) :
    timed? s m.date 10 = some m := by
  obtain ⟨⟨hh, hm, hs, hu⟩, hday⟩ := m.inRange
  have sep : width (byteAt s 10) = 1 := by
    rw [byteAt_of_drop h]
    rfl
  have after : s.drop 11 = _ := drop_succ_of_drop h
  have size : s.length =
      11 + (8 + (Moment.fractionChars m.micro).length) + (endChars m).length := by
    have len := congrArg List.length after
    simp only [List.length_drop, List.length_append, length_ascii, length_clockChars] at len
    omega
  -- the clock ends where the sign of an offset starts, or at the end of the text
  have stop : 11 + ((s.drop 11).takeWhile fun b => !startsOffset b).length =
      11 + (8 + (Moment.fractionChars m.micro).length) := by
    rw [after, takeWhile_clock fun b hb => (head?_endChars hb).1]
    simp
  have time := clock?_of_drop after (by omega) (by omega) (by omega) hu
    fun b hb => (head?_endChars hb).2
  have short : ¬ s.length ≤ 11 := by omega
  simp only [timed?, sep, Nat.reduceAdd, short, if_false, stop, time, Option.bind_eq_bind,
    Option.bind_some, Clock.hour, Clock.minute, Clock.second, List.getElem?_cons_zero,
    List.getElem?_cons_succ, Option.getD_some]
  cases hoff : m.offset with
  | none =>
    have whole : endChars m = [] := by simp [endChars, hoff]
    have end_ : 11 + (8 + (Moment.fractionChars m.micro).length) = s.length := by
      rw [size, whole]
      rfl
    simp only [end_, if_true, whole, ascii_nil, List.head?_nil, Option.getD_none, bne_self_eq_false,
      Bool.false_eq_true, if_false]
    rw [← hoff, Moment.ofFields?_self]
  | some o =>
    have sign : endChars m = Moment.offsetChars o := by simp [endChars, hoff]
    have part : 11 + (8 + (Moment.fractionChars m.micro).length) ≠ s.length := by
      rw [size, sign, offsetChars_eq, List.length_cons]
      omega
    have at_sign : s.drop (11 + (8 + (Moment.fractionChars m.micro).length)) =
        ascii (Moment.offsetChars o) := by
      rw [sign] at after
      exact drop_of_drop after (by simp)
    have range := hday o (by simp [hoff])
    have read := offset?_of_drop at_sign (ho o (by simp [hoff])) (by omega)
    simp only [part, if_false, read, Option.bind_some]
    rw [← hoff, Moment.ofFields?_self]

/-- The written form of a moment, part by part. -/
theorem isoChars_eq (m : Moment) : m.isoChars 'T' = m.date.isoChars ++ 'T' ::
    (Moment.clockChars m.hour m.minute m.second ++ Moment.fractionChars m.micro ++ endChars m) := by
  simp only [Moment.isoChars, List.append_assoc, List.cons_append]
  rfl

/-- The bytes of a moment stand for that moment. -/
theorem moment?_isoChars {m : Moment} (ho : ∀ o ∈ m.offset, o = 0 ∨ 1000000 ≤ o.natAbs) :
    moment? (ascii (m.isoChars 'T')) = some m := by
  generalize hs : ascii (m.isoChars 'T') = s
  have whole : s.drop 0 = ascii m.date.isoChars ++ byte 'T' ::
      (ascii (Moment.clockChars m.hour m.minute m.second ++ Moment.fractionChars m.micro) ++
        ascii (endChars m)) := by
    rw [List.drop_zero, ← hs, isoChars_eq, ascii_append, ascii_cons, ascii_append _ (endChars m)]
  obtain ⟨start, day, after⟩ := day?_of_drop whole (by simp)
  have long : 10 < s.length := lt_of_drop after
  simp only [moment?, start, day, Option.bind_eq_bind, Option.bind_some]
  rw [if_neg (by omega), if_neg (by omega)]
  exact timed?_of_drop after ho

/-- What holds of all digits and signs holds of the characters of a moment. -/
theorem forall_mem_isoChars {P : Char → Prop} (hd : ∀ n, P (Nat.digitChar (n % 10)))
    (hs : ∀ c ∈ ['-', ':', '.', '+', 'T'], P c) {m : Moment} : ∀ c ∈ m.isoChars 'T', P c := by
  have digits {w n : Nat} : ∀ c ∈ fixedDigits w n, P c := forall_mem_fixedDigits hd
  have clock {hour minute second micro : Nat} : ∀ c ∈ Moment.clockChars hour minute second ++
      Moment.fractionChars micro, P c := forall_mem_clock hd (hs ':' (by simp)) (hs '.' (by simp))
  have hyphen : P '-' := hs '-' (by simp)
  have ending : ∀ c ∈ endChars m, P c := by
    intro c hc
    unfold endChars at hc
    split at hc
    · cases hc
    · next o _ =>
      rw [offsetChars_eq, List.mem_cons] at hc
      rcases hc with rfl | hc
      · split <;> exact hs _ (by simp)
      · simp only [bodyChars] at hc
        split at hc
        · simp only [List.mem_append, List.mem_cons] at hc
          rcases hc with hc | rfl | hc
          · exact digits c hc
          · exact hs ':' (by simp)
          · exact digits c hc
        · exact clock c hc
  intro c hc
  rw [isoChars_eq, List.mem_append, List.mem_cons, List.mem_append] at hc
  rcases hc with hc | rfl | hc | hc
  · simp only [Date.isoChars, List.append_assoc, List.cons_append, List.mem_append,
      List.mem_cons] at hc
    rcases hc with hc | rfl | hc | rfl | hc
    · exact digits c hc
    · exact hyphen
    · exact digits c hc
    · exact hyphen
    · exact digits c hc
  · exact hs 'T' (by simp)
  · exact clock c hc
  · exact ending c hc

end IsoReading

/-! ### The round trip -/

namespace Moment

/-- The offset of the moment, if any, is zero or at least a second. -/
def Readable (m : Moment) : Prop := ∀ o ∈ m.offset, o = 0 ∨ 1000000 ≤ o.natAbs

/-- A moment is read back from its written form. -/
theorem ofIsoText?_isoText {m : Moment} (hm : m.Readable) : ofIsoText? m.isoText = some m := by
  have bytes : IsoReading.bytesOf m.isoText = IsoReading.ascii (m.isoChars 'T') :=
    IsoReading.bytesOf_ofList
      (IsoReading.forall_mem_isoChars IsoReading.toNat_digitChar_lt (by
        simp only [List.forall_mem_cons, List.not_mem_nil, false_imp_iff, implies_true, and_true]
        decide))
  rw [ofIsoText?, bytes]
  exact IsoReading.moment?_isoChars hm

end Moment

/-- Where no character is blank there is nothing to trim. -/
theorem Text.trimChars_eq_self {cs : List Char} (h : ∀ c ∈ cs, isBlank c = false) :
    trimChars cs = cs := by
  have kept : ∀ cs : List Char, (∀ c ∈ cs, isBlank c = false) → trimStart cs = cs := by
    intro cs hcs
    cases cs with
    | nil => rfl
    | cons c cs => exact trimStart_eq_self (hcs c (List.mem_cons_self ..))
  rw [trimChars, kept _ h, kept _ fun c hc => h c (List.mem_reverse.1 hc), List.reverse_reverse]

/-- No character of the written form of a moment is blank, and none is a `Z`. -/
theorem Moment.forall_mem_isoChars {m : Moment} :
    ∀ c ∈ m.isoChars 'T', Text.isBlank c = false ∧ c ≠ 'Z' :=
  IsoReading.forall_mem_isoChars
    (fun n => IsoReading.digitChar_cases
      (P := fun c _ => Text.isBlank c = false ∧ c ≠ 'Z') (by decide) n) (by
      simp only [List.forall_mem_cons, List.not_mem_nil, false_imp_iff, implies_true, and_true]
      decide)

/-- The written form of a moment has no blanks around it and no `Z` at its end. -/
theorem Value.momentText_isoText (m : Moment) : momentText m.isoText = m.isoText := by
  have trimmed : Text.trimChars (m.isoChars 'T') = m.isoChars 'T' :=
    Text.trimChars_eq_self fun c hc => (m.forall_mem_isoChars c hc).1
  simp only [momentText, Moment.isoText, String.toList_ofList, trimmed]
  split
  · next rest heq =>
    have mem : 'Z' ∈ (m.isoChars 'T').reverse := by
      rw [heq]
      exact List.mem_cons_self ..
    exact absurd rfl (m.forall_mem_isoChars 'Z' (List.mem_reverse.1 mem)).2
  · rfl

/-- **A moment is made of its written form.** -/
theorem Value.toMoment_isoText {m : Moment} (hm : m.Readable) (objectName : Address → String) :
    (Value.str m.isoText).toMoment objectName = .ok (.moment m) := by
  simp only [toMoment, momentText_isoText, Moment.ofIsoText?_isoText hm]

/-! ### Moments that are read are readable -/

namespace Moment

theorem offset_of_ofFields? {d : Date} {hour minute second micro : Nat} {o : Option Int}
    {m : Moment} (h : ofFields? d hour minute second micro o = some m) : m.offset = o := by
  unfold ofFields? at h
  split at h
  · cases h
    rfl
  · cases h

/-- A moment that was read from a text is readable. -/
theorem readable_of_ofIsoText? {s : String} {m : Moment} (h : ofIsoText? s = some m) :
    m.Readable := by
  unfold ofIsoText? IsoReading.moment? at h
  split at h
  · cases h
  obtain ⟨n, -, h⟩ := Option.bind_eq_some_iff.1 h
  obtain ⟨d, -, h⟩ := Option.bind_eq_some_iff.1 h
  split at h
  · cases h
    intro o ho
    cases ho
  simp only [IsoReading.timed?] at h
  split at h
  · cases h
  obtain ⟨c, -, h⟩ := Option.bind_eq_some_iff.1 h
  split at h
  · split at h
    · cases h
    · intro o ho
      rw [offset_of_ofFields? h] at ho
      cases ho
  · obtain ⟨o, hread, h⟩ := Option.bind_eq_some_iff.1 h
    intro o' ho'
    rw [offset_of_ofFields? h] at ho'
    cases ho'
    exact IsoReading.offset?_readable hread

/-- The moment of a time stamp is readable. -/
theorem readable_of_ofTimestamp? {x : Binary64} {m : Moment} (h : ofTimestamp? x = some m) :
    m.Readable := by
  obtain ⟨n, -, h⟩ := Option.bind_eq_some_iff.1 h
  obtain ⟨d, -, h⟩ := Option.bind_eq_some_iff.1 h
  intro o ho
  rw [offset_of_ofFields? h] at ho
  cases ho
  exact Or.inl rfl

end Moment

end EntitySchema
