/-
**Texts of moments, and the `Z` at their ends.**

A day or a moment is encoded by its written form, which is decoded to the same moment again.  A `Z`
at the end of a text is replaced by an offset of zero before the text is read, so behind the written
form of a naive moment it says that the moment is in UTC.

This is so of all texts of which the reader takes the appended offset for an offset.  It does not
where the text is a day alone: the sign is then taken for what stands between day and time, and the
moment is naive.  Nor does it where the text has an offset of its own and a NUL after that, which is
taken for the end of the text.

Main definitions:

* `Moment.asUtc` — a moment with an offset of zero;
* `IsoReading.CutOff` — a text with an offset of its own that a NUL puts an end to.

Main results:

* `Loading.decode_encoded` — **a moment is decoded from what it is encoded to**, and with a `Z`
  behind it as one in UTC;
* `IsoReading.nul_of_offset?` — an offset before the appended one;
* `IsoReading.moment?_of_written`, `IsoReading.offset_of_moment?` — what is read with an appended
  offset of zero;
* `Loading.decode_zulu` — **what is decoded from a text with a `Z` at its end.**
-/

import EntitySchema.Encoding
import EntitySchema.Loading
import EntitySchema.Proofs.IsoRoundTrip
import EntitySchema.Proofs.Running
import Mathlib.Data.List.TakeWhile

set_option autoImplicit false

namespace EntitySchema

/-! ### Decoding of texts -/

/-- What is only read from the heap leaves the session as it is. -/
theorem Session.outcome_build_reading {α : Type} (f : Heap → Except Failure α) (s : Session) :
    outcome (build (do liftM (f (← get)))) s = (f s.heap, s) := by
  have run : (do liftM (f (← get)) : Build α) s.heap = (f s.heap).map fun x => (x, s.heap) := by
    change (liftM (f s.heap) : Build α) s.heap = _
    cases f s.heap <;> rfl
  rw [build, outcome_get_bind, run]
  cases f s.heap <;> rfl

/-- The outcome of the decoding of a day or a moment. -/
theorem Loading.outcome_decode_date (r : Bool) (raw : Value) (s : Session) :
    Session.outcome (decode (.date r) raw) s =
      (raw.toMoment (Heap.objectName s.catalog s.heap), s) := by
  rw [decode, Session.outcome_get_bind]
  exact Session.outcome_build_reading (fun h => raw.toMoment (Heap.objectName s.catalog h)) s

/-- A `Z` at the end of a text is replaced by an offset of zero. -/
theorem Value.momentText_of_zulu {text : String} {cs : List Char}
    (h : Text.trimChars text.toList = cs ++ ['Z']) :
    momentText text = String.ofList (cs ++ ['+', '0', '0', ':', '0', '0']) := by
  simp only [momentText, h, List.reverse_append, List.reverse_singleton, List.singleton_append,
    List.reverse_reverse]

/-! ### Written forms -/

namespace Moment

/-- A moment with the same fields and an offset of zero. -/
def asUtc (m : Moment) : Moment :=
  ⟨m.date, m.hour, m.minute, m.second, m.micro, some 0, m.inRange.1, by
    rintro _ ⟨⟩
    decide⟩

/-- An offset of a whole number of seconds can be read back. -/
theorem readable_of_whole {m : Moment} (h : ∀ o ∈ m.offset, o % 1000000 = 0) : m.Readable := by
  intro o ho
  have whole := h o ho
  omega

/-- The written form of a naive moment in UTC. -/
theorem isoChars_asUtc {m : Moment} (naive : m.offset = none) :
    m.asUtc.isoChars 'T' = m.isoChars 'T' ++ ['+', '0', '0', ':', '0', '0'] := by
  simp only [isoChars, asUtc, naive, List.append_nil]
  rfl

end Moment

/-- A naive moment with a `Z` behind it is read as one in UTC. -/
theorem Value.momentText_zulu {m : Moment} (naive : m.offset = none) :
    momentText (m.isoText ++ "Z") = m.asUtc.isoText := by
  have trimmed : Text.trimChars (m.isoText ++ "Z").toList = m.isoChars 'T' ++ ['Z'] := by
    rw [String.toList_append, Moment.isoText, String.toList_ofList]
    refine Text.trimChars_eq_self fun c hc => ?_
    rcases List.mem_append.1 hc with hc | hc
    · exact (m.forall_mem_isoChars c hc).1
    · rw [List.mem_singleton.1 hc]
      decide
  rw [momentText_of_zulu trimmed, Moment.isoText, Moment.isoChars_asUtc naive]

/-- **A moment is decoded from what it is encoded to**: with the same fields and the same offset, if
that is a whole number of seconds.  A naive moment is decoded as one in UTC if a `Z` is put behind
what it is encoded to. -/
theorem Loading.decode_encoded {m : Moment} (whole : ∀ o ∈ m.offset, o % 1000000 = 0) {v : Value}
    (hv : v = .moment m ∨ v = .stamp m) (h : Heap) (visit : Address → Except Failure Value)
    (byId r : Bool) (s : Session) :
    ∃ text, Encoding.encodeWith h visit byId v = .ok (.str text) ∧
      Session.outcome (decode (.date r) (.str text)) s = (.ok (.moment m), s) ∧
      (m.offset = none →
        Session.outcome (decode (.date r) (.str (text ++ "Z"))) s =
          (.ok (.moment m.asUtc), s)) := by
  refine ⟨m.isoText, ?_, ?_, fun naive => ?_⟩
  · rcases hv with rfl | rfl <;> rfl
  · rw [outcome_decode_date, Value.toMoment_isoText (Moment.readable_of_whole whole)]
  · have utc : m.asUtc.Readable := by
      rintro _ ⟨⟩
      exact .inl rfl
    rw [outcome_decode_date, Value.toMoment, Value.momentText_zulu naive,
      Moment.ofIsoText?_isoText utc]

/-- The last minute but one, with a fraction, five hours and a half and half a minute behind UTC. -/
def Moment.dusk : Moment :=
  ⟨.last, 23, 59, 0, 7, some (-19830000000), by decide, by
    rintro _ ⟨⟩
    decide⟩

/-- This moment, and the last one with a `Z` behind it. -/
theorem Loading.decode_encoded_dusk : (∀ o ∈ Moment.dusk.offset, o % 1000000 = 0) ∧
    Session.outcome (decode (.date true) (.str "9999-12-31T23:59:00.000007-05:30:30")) .initial =
      (.ok (.moment .dusk), .initial) ∧
    Session.outcome (decode (.date true) (.str "9999-12-31T23:59:59.999999Z")) .initial =
      (.ok (.moment Moment.last.asUtc), .initial) := by
  have whole : ∀ o ∈ Moment.dusk.offset, o % 1000000 = 0 := by
    rintro _ ⟨⟩
    rfl
  obtain ⟨text, encoded, decoded, -⟩ :=
    decode_encoded whole (.inl rfl) [] (fun _ => .ok .null) false true .initial
  obtain ⟨text', encoded', -, utc⟩ := decode_encoded (m := .last) (by rintro _ ⟨⟩) (.inr rfl) []
    (fun _ => .ok .null) false true .initial
  cases encoded
  cases encoded'
  exact ⟨whole, decoded, utc rfl⟩

namespace IsoReading

/-! ### Texts that are cut -/

section

variable {s : Bytes} {p i : Nat}

/-- What stands before a cut is the same. -/
theorem byteAt_take (hp : p < i) : byteAt (s.take i) p = byteAt s p := by
  rw [byteAt, List.getElem?_take_of_lt hp, byteAt]

/-- A number before a cut is the same. -/
theorem number?_take {w : Nat} (hp : p + w ≤ i) : number? (s.take i) p w = number? s p w := by
  have same : ((s.take i).drop p).take w = (s.drop p).take w := by
    rw [List.drop_take, List.take_take, Nat.min_eq_left (by omega)]
  rw [number?, same, number?]

/-- A span of digits goes up to a cut behind it. -/
theorem length_takeWhile_take (f : UInt8 → Bool) :
    (((s.take (p + ((s.drop p).takeWhile f).length)).drop p).takeWhile f).length =
      ((s.drop p).takeWhile f).length := by
  have cut : (s.take (p + ((s.drop p).takeWhile f).length)).drop p = (s.drop p).takeWhile f := by
    rw [List.drop_take, Nat.add_sub_cancel_left]
    exact (List.prefix_iff_eq_take.1 (List.takeWhile_prefix f)).symm
  rw [cut, List.takeWhile_idem]

end

/-! ### Texts with an appended offset -/

section

variable {s : Bytes} {k : Nat} (tail : s.drop k = ascii (Moment.offsetChars 0))

include tail

theorem byteAt_of_tail : byteAt s k = byte '+' := byteAt_of_drop tail

theorem length_of_tail : s.length = k + 6 := by
  have size := congrArg List.length tail
  have six : (ascii (Moment.offsetChars 0)).length = 6 := rfl
  rw [List.length_drop, six] at size
  omega

/-- A number before the sign ends before the sign. -/
theorem le_of_number? {p w n : Nat} (hp : p ≤ k) (h : number? s p w = some n) : p + w ≤ k := by
  refine Nat.le_of_not_lt fun past => ?_
  obtain ⟨c, hc, here⟩ := (number?_eq_some_iff.1 h).2.exists_byteAt hp
    (by rw [length_fixedDigits]; omega)
  have digit : isDigit (byte c) = true :=
    forall_mem_fixedDigits (P := fun c => isDigit (byte c) = true) isDigit_digitChar c hc
  rw [← here, byteAt_of_tail tail] at digit
  exact absurd digit (by decide)

/-- Where nothing follows a fraction before the sign there is a NUL, up to which the fraction is
read. -/
theorem nul_of_fraction? {p : Nat} {parts : List Nat} {c : Clock} (hp : p ≤ k)
    (h : fraction? s s.length p parts = some c) (done : c.more = false) :
    ∃ i < k, p + 2 ≤ i ∧ byteAt s i = 0 ∧ fraction? (s.take i) i p parts = some c := by
  have sign := byteAt_of_tail tail
  have size := length_of_tail tail
  have six : min 6 (s.length - p) = 6 := by omega
  simp only [fraction?, six, Option.bind_eq_bind, Option.bind_eq_some_iff] at h
  obtain ⟨digits, number, made⟩ := h
  cases made
  have within := length_takeWhile_le s isDigit (le_of_number? tail hp number) (by omega)
    (by rw [sign]; decide)
  have zero := bne_eq_false_iff_eq.1 done
  have span := length_takeWhile_take (s := s) (p := p + 6) isDigit
  generalize hi : p + 6 + ((s.drop (p + 6)).takeWhile isDigit).length = i at *
  refine ⟨i, Nat.lt_of_le_of_ne within fun same => ?_, by omega, zero, ?_⟩
  · rw [same, sign] at zero
    exact absurd zero (by decide)
  · have six' : min 6 (i - p) = 6 := by omega
    have past : byteAt (s.take i) i = 0 := by
      rw [byteAt, List.getElem?_eq_none (by rw [List.length_take]; omega), Option.getD_none]
    simp only [fraction?, six', number?_take (show p + 6 ≤ i by omega), number, span, hi, past,
      zero, Option.bind_eq_bind, Option.bind_some]

/-- Where nothing follows a time before the sign there is a NUL, up to which the time is read. -/
theorem nul_of_clockFrom? {left p : Nat} {colons : Bool} {parts : List Nat} {c : Clock}
    (hp : p ≤ k) (h : clockFrom? s s.length left colons p parts = some c) (done : c.more = false) :
    ∃ i < k, p + 2 ≤ i ∧ byteAt s i = 0 ∧ clockFrom? (s.take i) i left colons p parts = some c := by
  have sign := byteAt_of_tail tail
  have size := length_of_tail tail
  induction left generalizing p colons parts with
  | zero => exact nul_of_fraction? tail hp h done
  | succ left ih =>
    simp only [clockFrom?, Option.bind_eq_bind, Option.bind_eq_some_iff] at h
    obtain ⟨part, number, h⟩ := h
    have within := le_of_number? tail hp number
    -- a colon or a point is not the sign
    have next {b : UInt8} (hb : b ≠ byte '+') (here : byteAt s (p + 2) = b) : p + 3 ≤ k := by
      refine Nat.lt_of_le_of_ne within fun same => hb ?_
      rw [← here, same, sign]
    -- up to a later NUL all is read alike
    have back {i : Nat} (hi : p + 4 ≤ i) : clockFrom? (s.take i) i (left + 1) colons p parts =
        let parts := parts ++ [part]
        let c := byteAt s (p + 2)
        let colons := if left = 2 then c == byte ':' else colons
        if colons && c == byte ':' then clockFrom? (s.take i) i left colons (p + 3) parts
        else if c = byte '.' ∨ c = byte ',' then fraction? (s.take i) i (p + 3) parts
        else if colons then none
        else clockFrom? (s.take i) i left colons (p + 2) parts := by
      simp only [clockFrom?, number?_take (show p + 2 ≤ i by omega), number,
        byteAt_take (show p + 2 < i by omega), if_neg (show ¬ i ≤ p + 3 by omega),
        Option.bind_eq_bind, Option.bind_some]
    dsimp only at back
    generalize (if left = 2 then byteAt s (p + 2) == byte ':' else colons) = colons' at h back
    rw [if_neg (by omega)] at h
    split at h
    · next colon =>
      obtain ⟨i, hi, far, zero, read⟩ :=
        ih (next (by decide) (beq_iff_eq.1 (Bool.and_eq_true_iff.1 colon).2)) h
      exact ⟨i, hi, by omega, zero, by rw [back (by omega), if_pos colon, read]⟩
    · next colon =>
      split at h
      · next point =>
        have after : p + 3 ≤ k := point.elim (next (by decide)) (next (by decide))
        obtain ⟨i, hi, far, zero, read⟩ := nul_of_fraction? tail after h done
        exact ⟨i, hi, by omega, zero, by rw [back (by omega), if_neg colon, if_pos point, read]⟩
      · next point =>
        split at h
        · cases h
        · next plain =>
          obtain ⟨i, hi, far, zero, read⟩ := ih within h
          exact ⟨i, hi, by omega, zero, by
            rw [back far, if_neg colon, if_neg point, if_neg plain, read]⟩

/-- An offset that starts before the sign is zero, or is read up to a NUL. -/
theorem nul_of_offset? {z : Nat} {o : Int} (hz : z < k) (h : offset? s z = some o) :
    o = 0 ∨ ∃ i < k, z < i ∧ byteAt s i = 0 ∧ offset? (s.take i) z = some o := by
  unfold offset? at h
  split at h
  · split at h
    · cases h
      exact .inl rfl
    · cases h
  · next letter =>
    obtain ⟨c, clock, h⟩ := Option.bind_eq_some_iff.1 h
    split at h
    · cases h
    · next done =>
      obtain ⟨i, hi, far, zero, read⟩ :=
        nul_of_clockFrom? tail hz clock (eq_false_of_ne_true done)
      have long : (s.take i).length = i := by
        have size := length_of_tail tail
        rw [List.length_take]
        omega
      refine .inr ⟨i, hi, by omega, zero, ?_⟩
      rw [offset?, byteAt_take (by omega), if_neg letter, clock?, long, read, Option.bind_eq_bind,
        Option.bind_some, if_neg done]
      exact h

omit tail in
/-- Where there is one, an offset before it is read. -/
example : offset? (bytesOf "+05:00:00.000000\x00+00:00") 0 = some 18000000000 := by decide

omit tail in
/-- Where a span ends before the text does stands what is not of its kind. -/
theorem byteAt_length_takeWhile {f : UInt8 → Bool} {bs : Bytes}
    (h : (bs.takeWhile f).length < bs.length) :
    f (byteAt bs (bs.takeWhile f).length) = false := by
  induction bs with
  | nil => cases h
  | cons b bs ih =>
    cases hb : f b with
    | false => rwa [List.takeWhile_cons_of_neg (ne_true_of_eq_false hb)]
    | true =>
      rw [List.takeWhile_cons_of_pos hb] at h ⊢
      exact ih (Nat.lt_of_succ_lt_succ h)

/-- The time before the sign has the offset of zero, or one of its own that is read up to a NUL. -/
theorem offset_of_timed? {d : Date} {n : Nat} {m : Moment}
    (hp : n + width (byteAt s n) ≤ k) (h : timed? s d n = some m) :
    ∃ o, m.offset = some o ∧ (o = 0 ∨ ∃ z i, z < i ∧ i < k ∧ byteAt s i = 0 ∧
      startsOffset (byteAt s z) = true ∧ offset? (s.take i) z = some o) := by
  have sign := byteAt_of_tail tail
  have size := length_of_tail tail
  simp only [timed?] at h
  split at h
  · cases h
  obtain ⟨c, -, h⟩ := Option.bind_eq_some_iff.1 h
  have within := length_takeWhile_le s (fun b => !startsOffset b) hp (by omega)
    (by rw [sign]; decide)
  rw [if_neg (by omega)] at h
  obtain ⟨o, read, made⟩ := Option.bind_eq_some_iff.1 h
  refine ⟨o, Moment.offset_of_ofFields? made, ?_⟩
  rcases Nat.lt_or_eq_of_le within with before | here
  · refine (nul_of_offset? tail before read).imp_right ?_
    rintro ⟨i, hi, past, zero, cut⟩
    refine ⟨_, i, past, hi, zero, ?_, cut⟩
    have short : ((s.drop (n + width (byteAt s n))).takeWhile fun b => !startsOffset b).length <
        (s.drop (n + width (byteAt s n))).length := by
      rw [List.length_drop]
      omega
    have ends := byteAt_length_takeWhile short
    rw [byteAt, List.getElem?_drop, Bool.not_eq_false'] at ends
    exact ends
  · rw [here, offset?_of_drop tail (.inl rfl) (by decide)] at read
    cases read
    exact .inl rfl

/-- Where a day ends at the sign, the sign is taken for what stands before the time. -/
theorem timed?_of_tail (d : Date) : timed? s d k = some (Moment.midnight d) := by
  have sign := byteAt_of_tail tail
  have size := length_of_tail tail
  have after : s.drop (k + 1) = ascii (fixedDigits 2 0 ++ ':' :: fixedDigits 2 0) :=
    drop_succ_of_drop tail
  have one : width (byteAt s k) = 1 := by
    rw [sign]
    rfl
  have span : ((s.drop (k + 1)).takeWhile fun b => !startsOffset b).length = 5 := by
    rw [after]
    decide
  have clock : clock? s (k + 1) (k + 1 + 5) = some ⟨[0, 0], 0, false⟩ :=
    clock?_of_drop_short after (by decide) (by decide)
  simp only [timed?, one, span]
  rw [if_neg (by omega), clock, Option.bind_eq_bind, Option.bind_some, if_pos size.symm,
    if_neg Bool.false_ne_true]
  exact (Moment.midnight d).ofFields?_self

end

/-- The bytes of a text with an appended offset of zero. -/
theorem bytesOf_zulu (cs : List Char) :
    bytesOf (String.ofList (cs ++ ['+', '0', '0', ':', '0', '0'])) =
      cs.flatMap String.utf8EncodeChar ++ ascii (Moment.offsetChars 0) := by
  rw [bytesOf, String.toList_ofList, List.flatMap_append]
  rfl

/-- A text of a day is as many bytes as characters. -/
theorem flatMap_of_written {cs : List Char} {d : Date} (written : Date.Written cs d) :
    cs.flatMap String.utf8EncodeChar = ascii cs := by
  have low := written.forall_mem (P := fun c => c.toNat < 128) toNat_digitChar_lt (by decide)
    (by decide)
  rw [← bytesOf_ofList low, bytesOf, String.toList_ofList]

/-- No text of a day has a sign. -/
theorem ne_sign_of_written {cs : List Char} {d : Date} (written : Date.Written cs d) :
    ∀ c ∈ cs, byte c ≠ byte '+' :=
  written.forall_mem (fun n => digitChar_cases (P := fun c _ => byte c ≠ byte '+') (by decide) n)
    (by decide) (by decide)

section

variable {cs : List Char}

/-- **The text of a day with an appended offset is read as the day**, and the offset as its time. -/
theorem moment?_of_written {d : Date} (written : Date.Written cs d) :
    moment? (bytesOf (String.ofList (cs ++ ['+', '0', '0', ':', '0', '0']))) =
      some (Moment.midnight d) := by
  rw [bytesOf_zulu, flatMap_of_written written]
  generalize hs : ascii cs ++ ascii (Moment.offsetChars 0) = s
  have tail : s.drop cs.length = ascii (Moment.offsetChars 0) := by
    rw [← hs, ← length_ascii cs, List.drop_left]
  have stands : Stands s 0 cs := ⟨_, hs⟩
  have sign := byteAt_of_tail tail
  have size := length_of_tail tail
  obtain ⟨start, day⟩ := day?_of_written written stands sign
  have long : 7 ≤ s.length := by
    cases written
    all_goals
      simp only [List.length_append, List.length_cons, length_fixedDigits] at size
      omega
  simp only [moment?, start, day, Option.bind_eq_bind, Option.bind_some]
  rw [if_neg (by omega), if_neg (by omega)]
  exact timed?_of_tail tail d

/-- A day at the start of a text with an appended offset is one at the start of the text. -/
theorem exists_after_day {ds : List Char} {d : Date} (written : Date.Written ds d)
    (stands : Stands (cs.flatMap String.utf8EncodeChar ++ ascii (Moment.offsetChars 0)) 0 ds) :
    ∃ after, cs = ds ++ after := by
  have sign := byteAt_of_tail
    (s := cs.flatMap String.utf8EncodeChar ++ ascii (Moment.offsetChars 0)) List.drop_left
  have before : ds.length ≤ (cs.flatMap String.utf8EncodeChar).length := by
    refine Nat.le_of_not_lt fun past => ?_
    obtain ⟨c, hc, here⟩ := stands.exists_byteAt (Nat.zero_le _) (by rwa [Nat.zero_add])
    exact ne_sign_of_written written c hc (here.symm.trans sign)
  obtain ⟨rest, bytes⟩ : ascii ds <+: cs.flatMap String.utf8EncodeChar :=
    List.prefix_of_prefix_length_le stands ⟨_, rfl⟩ (by rwa [length_ascii])
  have low := written.forall_mem (P := fun c => c.toNat < 128) toNat_digitChar_lt (by decide)
    (by decide)
  obtain ⟨after, rfl, -⟩ := ascii_prefix low bytes.symm
  exact ⟨after, rfl⟩

/-- What stands between a day and a time is a character of the text. -/
theorem width_le_of_day {ds : List Char} {d : Date} (written : Date.Written ds d) (c : Char)
    (after : List Char) (tail : Bytes) :
    ds.length +
        width (byteAt ((ds ++ c :: after).flatMap String.utf8EncodeChar ++ tail) ds.length) ≤
      ((ds ++ c :: after).flatMap String.utf8EncodeChar).length := by
  obtain ⟨b, bs, code, size⟩ := width_of_utf8EncodeChar c
  rw [List.flatMap_append, List.flatMap_cons, flatMap_of_written written, code]
  have here :
      (ascii ds ++ (b :: bs ++ after.flatMap String.utf8EncodeChar) ++ tail).drop ds.length =
        b :: (bs ++ after.flatMap String.utf8EncodeChar ++ tail) := by
    rw [List.append_assoc, ← length_ascii ds, List.drop_left]
    rfl
  rw [byteAt_of_drop here, size, List.length_append, length_ascii, List.length_append,
    List.length_cons]
  omega

/-- A text has an offset of its own that a NUL puts an end to. -/
def CutOff (cs : List Char) (o : Int) : Prop :=
  ∃ before after z, cs = before ++ Char.ofNat 0 :: after ∧
    startsOffset (byteAt (bytesOf (String.ofList before)) z) = true ∧
    offset? (bytesOf (String.ofList before)) z = some o

/-- An offset that is read up to a zero before the appended one is cut off by a NUL. -/
theorem cutOff_of_take {tail : Bytes} {z i : Nat} {o : Int} (hz : z < i)
    (hi : i < (cs.flatMap String.utf8EncodeChar).length)
    (zero : byteAt (cs.flatMap String.utf8EncodeChar ++ tail) i = 0)
    (sign : startsOffset (byteAt (cs.flatMap String.utf8EncodeChar ++ tail) z) = true)
    (read : offset? ((cs.flatMap String.utf8EncodeChar ++ tail).take i) z = some o) :
    CutOff cs o := by
  rw [← byteAt_take hz] at sign
  rw [byteAt, List.getElem?_append_left hi, List.getElem?_eq_getElem hi, Option.getD_some] at zero
  have split : cs.flatMap String.utf8EncodeChar =
      (cs.flatMap String.utf8EncodeChar).take i ++ byte (Char.ofNat 0) ::
        (cs.flatMap String.utf8EncodeChar).drop (i + 1) := by
    have whole := List.take_append_drop i (cs.flatMap String.utf8EncodeChar)
    rw [List.drop_eq_getElem_cons hi, zero] at whole
    exact whole.symm
  obtain ⟨before, after, rfl, bytes⟩ := exists_split (by decide) split
  rw [List.take_append_of_le_length hi.le, ← bytes] at sign read
  refine ⟨before, after, z, rfl, ?_, ?_⟩
  · rwa [bytesOf, String.toList_ofList]
  · rwa [bytesOf, String.toList_ofList]

/-- **What is read from any other text with an appended offset has an offset**, and it is that of
zero unless the text has one of its own that a NUL puts an end to. -/
theorem offset_of_moment? (other : ∀ d, ¬ Date.Written cs d) {m : Moment}
    (h : moment? (bytesOf (String.ofList (cs ++ ['+', '0', '0', ':', '0', '0']))) = some m) :
    ∃ o, m.offset = some o ∧ (o = 0 ∨ CutOff cs o) := by
  rw [bytesOf_zulu] at h
  have size := length_of_tail
    (s := cs.flatMap String.utf8EncodeChar ++ ascii (Moment.offsetChars 0)) List.drop_left
  simp only [moment?] at h
  split at h
  · cases h
  obtain ⟨n, start, h⟩ := Option.bind_eq_some_iff.1 h
  obtain ⟨d, day, h⟩ := Option.bind_eq_some_iff.1 h
  obtain ⟨ds, written, stands, rfl⟩ := written_of_day? start day
  obtain ⟨after, rfl⟩ := exists_after_day written stands
  cases after with
  | nil => exact absurd (by rwa [List.append_nil]) (other d)
  | cons c after =>
    have inside := width_le_of_day written c after (ascii (Moment.offsetChars 0))
    rw [if_neg (by omega)] at h
    obtain ⟨o, offset, zero⟩ := offset_of_timed? List.drop_left inside h
    refine ⟨o, offset, zero.imp_right ?_⟩
    rintro ⟨z, i, hz, hi, nul, sign, read⟩
    exact cutOff_of_take hz hi nul sign read

end

end IsoReading

/-! ### The `Z` at the end -/

namespace Loading

/-- **What is decoded from a text with a `Z` at its end**, blanks around it apart.  The text of a
day is decoded to its midnight without an offset.  Any other text fails to be decoded, or is decoded
to a moment with an offset, which is zero unless the text has one of its own that a NUL puts an end
to. -/
theorem decode_zulu {text : String} {cs : List Char}
    (zulu : Text.trimChars text.toList = cs ++ ['Z']) (r : Bool) (s : Session) :
    (∀ d, Date.Written cs d → Session.outcome (decode (.date r) (.str text)) s =
      (.ok (.moment (.midnight d)), s)) ∧
    ((∀ d, ¬ Date.Written cs d) →
      Session.outcome (decode (.date r) (.str text)) s =
          (.error (Value.undecodable (.badFormat text)), s) ∨
        ∃ m o, Session.outcome (decode (.date r) (.str text)) s = (.ok (.moment m), s) ∧
          m.offset = some o ∧ (o = 0 ∨ IsoReading.CutOff cs o)) := by
  rw [outcome_decode_date, Value.toMoment, Value.momentText_of_zulu zulu, Moment.ofIsoText?]
  refine ⟨fun d written => ?_, fun other => ?_⟩
  · rw [IsoReading.moment?_of_written written]
  · cases read : IsoReading.moment? (IsoReading.bytesOf
        (String.ofList (cs ++ ['+', '0', '0', ':', '0', '0']))) with
    | none => exact .inl rfl
    | some m =>
      obtain ⟨o, offset, zero⟩ := IsoReading.offset_of_moment? other read
      exact .inr ⟨m, o, rfl, offset, zero⟩

/-- A day with a `Z` is decoded to its midnight, of which it is not said that it is in UTC. -/
theorem decode_zulu_day : Text.trimChars " 2024-01-05Z".toList = "2024-01-05".toList ++ ['Z'] ∧
    Session.outcome (decode (.date false) (.str " 2024-01-05Z")) .initial =
      (.ok (.moment (.midnight ⟨2024, 1, 5, by decide⟩)), .initial) := by
  have zulu : Text.trimChars " 2024-01-05Z".toList = "2024-01-05".toList ++ ['Z'] := by decide
  have form : "2024-01-05".toList = fixedDigits 4 2024 ++ Date.hyphen true ++ fixedDigits 2 1 ++
      Date.hyphen true ++ fixedDigits 2 5 := by decide
  have written : Date.Written "2024-01-05".toList ⟨2024, 1, 5, by decide⟩ := by
    rw [form]
    exact .calendar true ⟨2024, 1, 5, by decide⟩
  exact ⟨zulu, (decode_zulu zulu false .initial).1 _ written⟩

end Loading

end EntitySchema
