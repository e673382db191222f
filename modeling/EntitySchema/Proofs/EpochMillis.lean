/-
**Moments from milliseconds.**

A raw integer counts milliseconds from the start of 1970.  It is divided by 1000, which rounds to a
number of the format, and the seconds are taken to the nearest microsecond.  The second rounding
undoes the first one as long as the numbers of the format are less than a microsecond apart: 272
years either way.  Further away the moment may be some microseconds off, and it is told which
milliseconds are met.  At the ends of the calendar no second is missed and none is added.

Main definitions:

* `ResolvesMillis` — the rounded quotient is at most half a microsecond off.

Main results:

* `Binary64.micros?_ofRatio_millis`, `Binary64.micros?_ofRatio_large` — **the microseconds that
  milliseconds are taken to**;
* `Moment.ofTimestamp?_millis` — the moment that they are taken to;
* `Loading.decode_millis` — **decoding an integer to a day or moment.**
-/

import EntitySchema.Proofs.Ordinals
import EntitySchema.Proofs.Rounding
import EntitySchema.Proofs.ZuluTexts

set_option autoImplicit false

namespace EntitySchema

/-! ### Milliseconds that are resolved -/

/-- Among numbers of seconds about as large as a number of milliseconds, `unit` numbers of the
format make a second.  The nearest of them to the milliseconds is at most half a microsecond off. -/
def ResolvesMillis (n : Nat) : Prop :=
  let unit := 2 ^ (52 - Nat.log2 (n / 1000))
  let rest := n * unit % 1000
  2000 * min rest (1000 - rest) ≤ unit

instance (n : Nat) : Decidable (ResolvesMillis n) := Nat.decLe _ _

/-- Whole seconds are resolved. -/
theorem resolvesMillis_of_dvd {n : Nat} (h : n % 1000 = 0) : ResolvesMillis n := by
  have whole (k : Nat) : n * k % 1000 = 0 := by rw [Nat.mul_mod, h, Nat.zero_mul, Nat.zero_mod]
  unfold ResolvesMillis
  dsimp only
  rw [whole, Nat.zero_min, Nat.mul_zero]
  exact Nat.zero_le _

/-- All milliseconds of 272 years are resolved. -/
theorem resolvesMillis_of_lt {n : Nat} (h : n < 1000 * 2 ^ 33) : ResolvesMillis n := by
  have length : Nat.log2 (n / 1000) ≤ 32 := by
    by_cases zero : n / 1000 = 0
    · rw [zero]
      decide
    · exact Nat.lt_succ_iff.1 ((Nat.log2_lt zero).2 (Nat.div_lt_of_lt_mul h))
  have fine : 2 ^ 20 ≤ 2 ^ (52 - Nat.log2 (n / 1000)) := Nat.pow_le_pow_right (by omega) (by omega)
  unfold ResolvesMillis
  dsimp only
  omega

/-- How far an integer is from the nearest multiple of 1000. -/
theorem min_rest_le_iff {x bound : Nat} {q : Int} (near : |1000 * q - x| ≤ 500) :
    2000 * min (x % 1000) (1000 - x % 1000) ≤ bound ↔ 2000 * |1000 * q - (x : Int)| ≤ bound := by
  rw [abs_le] at near
  rcases abs_cases (1000 * q - (x : Int)) with ⟨abs, _⟩ | ⟨abs, _⟩ <;> rw [abs] <;> omega

/-! ### Microseconds -/

namespace Binary64

/-- Both roundings together. -/
theorem apart_of_near {k n : Nat} {v ε : ℚ} (first : |v - n / (1000 : Nat)| ≤ ε)
    (second : |(k : ℚ) - v * 1000000| ≤ 1 / 2 + 2 ^ (-34 : Int)) :
    |((k : Int) : ℚ) - ((1000 * n : Int) : ℚ)| ≤ 1 / 2 + 2 ^ (-34 : Int) + ε * 1000000 := by
  have sum : ((k : Int) : ℚ) - ((1000 * n : Int) : ℚ) =
      (k - v * 1000000) + (v - n / (1000 : Nat)) * 1000000 := by
    push_cast
    ring
  rw [sum]
  refine (abs_add_le _ _).trans (add_le_add second ?_)
  rw [abs_mul, abs_of_pos (by norm_num : (0 : ℚ) < 1000000)]
  exact mul_le_mul_of_nonneg_right first (by norm_num)

/-- In 272 years either way, milliseconds are taken to 1000 times as many microseconds. -/
theorem micros?_of_millis_lt (s : Bool) {n : Nat} (h : n < 1000 * 2 ^ 33) :
    (ofRatio s n 1000).micros? =
      some (if s then -((1000 * n : Nat) : Int) else (1000 * n : Nat)) := by
  have high : (n : ℚ) / (1000 : Nat) < 2 ^ (-20 + 53 : Int) := by
    rw [div_lt_iff₀ (by norm_num), show (-20 + 53 : Int) = (33 : Nat) from rfl, zpow_natCast]
    exact_mod_cast (by omega : n < 2 ^ 33 * 1000)
  obtain ⟨m, e, rounded, hm, he, near⟩ := ofRatio_near s (by omega) (by omega) high
  obtain ⟨k, micros, close, -⟩ := micros?_spec s hm he
  have same : (k : Int) = 1000 * n :=
    eq_of_apart_lt_one ((apart_of_near near close).trans_lt (by norm_num))
  rw [rounded, micros]
  obtain rfl : k = 1000 * n := by exact_mod_cast same
  rfl

/-- Seconds that are the nearest multiple of a power of two to milliseconds are at most half a
microsecond off just if the nearest multiple of 1000 is near in units of that power. -/
theorem nearest_millis_iff {n p : Nat} {q : Int}
    (nearest : Nearest q ((n : ℚ) / (1000 : Nat) / 2 ^ (-(p : Int)))) :
    |((1000 * n : Int) : ℚ) - q * 2 ^ (-(p : Int)) * 1000000| ≤ 1 / 2 ↔
      2000 * min (n * 2 ^ p % 1000) (1000 - n * 2 ^ p % 1000) ≤ 2 ^ p := by
  have unit : (0 : ℚ) < 2 ^ p := by positivity
  rw [zpow_neg, zpow_natCast] at nearest ⊢
  rw [div_inv_eq_mul] at nearest
  have scaled : ((1000 * q - (n * 2 ^ p : Nat) : Int) : ℚ) =
      (q - (n : ℚ) / (1000 : Nat) * 2 ^ p) * 1000 := by
    push_cast
    ring
  have near : |1000 * q - ((n * 2 ^ p : Nat) : Int)| ≤ 500 := by
    refine Int.cast_le.1 (?_ : ((|_| : Int) : ℚ) ≤ (500 : Int))
    rw [Int.cast_abs, scaled, abs_mul, abs_of_pos (by norm_num : (0 : ℚ) < 1000)]
    linarith [nearest.1]
  have apart : ((1000 * n : Int) : ℚ) - q * (2 ^ p)⁻¹ * 1000000 =
      -((1000 * q - (n * 2 ^ p : Nat) : Int) : ℚ) * 1000 / 2 ^ p := by
    push_cast
    field_simp
    ring
  rw [min_rest_le_iff near, apart, abs_div, abs_mul, abs_neg, abs_of_pos unit,
    abs_of_pos (by norm_num : (0 : ℚ) < 1000), div_le_div_iff₀ unit two_pos, ← Int.cast_abs,
    ← Int.cast_le (R := ℚ), Int.cast_mul, Int.cast_natCast (2 ^ p), Nat.cast_pow, one_mul,
    mul_assoc, mul_comm, (by norm_num : (1000 : ℚ) * 2 = 2000), Int.cast_ofNat, Nat.cast_ofNat]

/-- A second or more lies between the powers of two that the binary length of its whole seconds
tells. -/
theorem zpow_log2_seconds {n : Nat} (h : n / 1000 ≠ 0) :
    (2 : ℚ) ^ (Nat.log2 (n / 1000) : Int) ≤ (n : ℚ) / (1000 : Nat) ∧
      (n : ℚ) / (1000 : Nat) < 2 ^ ((Nat.log2 (n / 1000) : Int) + 1) := by
  have thousand : (0 : ℚ) < (1000 : Nat) := by norm_num
  constructor
  · rw [zpow_natCast, le_div_iff₀ thousand]
    exact_mod_cast (Nat.le_div_iff_mul_le (by norm_num)).1 (Nat.log2_self_le h)
  · rw [← Nat.cast_succ, zpow_natCast, div_lt_iff₀ thousand]
    exact_mod_cast (Nat.div_lt_iff_lt_mul (by norm_num)).1 (@Nat.lt_log2_self (n / 1000))

/-- Further away they are taken to microseconds that are at most 15 off, and exact only if they are
resolved. -/
theorem micros?_of_millis_between (s : Bool) {n : Nat} (low : 1000 * 2 ^ 33 ≤ n)
    (high : n < 1000 * 2 ^ 38) :
    ∃ k : Nat, (ofRatio s n 1000).micros? = some (if s then -(k : Int) else k) ∧
      |(k : Int) - 1000 * n| ≤ 15 ∧ (k = 1000 * n ↔ ResolvesMillis n) := by
  have positive : n / 1000 ≠ 0 := by omega
  obtain ⟨from_length, to_length⟩ := zpow_log2_seconds positive
  have bounds : 33 ≤ Nat.log2 (n / 1000) ∧ Nat.log2 (n / 1000) < 38 :=
    ⟨(Nat.le_log2 positive).2 (by omega), (Nat.log2_lt positive).2 (by omega)⟩
  unfold ResolvesMillis
  dsimp only
  generalize Nat.log2 (n / 1000) = length at from_length to_length bounds
  obtain ⟨p, hp⟩ : ∃ p, p = 52 - length := ⟨_, rfl⟩
  rw [← hp]
  rw [show (length : Int) = -p + 52 by omega] at from_length
  rw [show (length : Int) + 1 = -p + 53 by omega] at to_length
  obtain ⟨m, e, q, rounded, hm, he, units, nearest⟩ :=
    ofRatio_nearest s (by omega) (by omega) from_length to_length
  obtain ⟨k, micros, close, exact⟩ := micros?_spec s hm he
  refine ⟨k, by rw [rounded, micros], ?_, ?_⟩
  · have fine : (2 : ℚ) ^ (-(p : Int)) / 2 ≤ 2 ^ (-15 : Int) / 2 :=
      div_le_div_of_nonneg_right (zpow_le_zpow_right₀ one_le_two (by omega)) zero_le_two
    have apart := apart_of_near ((apart_of_nearest nearest units).trans fine) close
    have less : |((k : Int) : ℚ) - ((1000 * n : Int) : ℚ)| < (16 : Int) :=
      apart.trans_lt (by norm_num)
    rw [← Int.cast_sub, ← Int.cast_abs, Int.cast_lt] at less
    exact Int.lt_add_one_iff.1 less
  · -- the seconds are a multiple of `2 ^ -p`, so that the second rounding is to a nearest integer
    have nearest_micros := exact q (-p) (by omega) units
    have even : Even (1000 * n : Int) := (by decide : Even (1000 : Int)).mul_right _
    have same := nearest_micros.eq_iff_of_even even
    rw [units, nearest_millis_iff nearest] at same
    rw [← same]
    omega

/-- Many milliseconds have no microseconds, or many. -/
theorem micros?_ofRatio_large (s : Bool) {n : Nat} (h : 1000 * 2 ^ 38 ≤ n) :
    (ofRatio s n 1000).micros? = none ∨
      ∃ t : Int, (ofRatio s n 1000).micros? = some t ∧ 1000000 * 2 ^ 38 ≤ |t| := by
  have low : (2 : ℚ) ^ (38 : Int) ≤ (n : ℚ) / (1000 : Nat) := by
    rw [le_div_iff₀ (by norm_num)]
    exact_mod_cast (by omega : 2 ^ 38 * 1000 ≤ n)
  obtain infinite | ⟨m, e, rounded, hm, he, large⟩ := le_ofRatio s (by omega) (by omega) low
  · rw [infinite]
    exact .inl rfl
  · obtain ⟨k, micros, close, -⟩ := micros?_spec s hm he
    rw [rounded]
    refine .inr ⟨_, micros, ?_⟩
    have least : (k : ℚ) > (1000000 * 2 ^ 38 - 1 : Nat) := by
      have tiny : (1 : ℚ) / 2 + 2 ^ (-34 : Int) < 1 := by norm_num
      have near := (abs_le.1 close).1
      rw [zpow_ofNat] at large
      push_cast
      linarith
    have many := Nat.cast_lt.1 least
    have size : |if s = true then -(k : Int) else k| = k := by
      cases s
      · exact Nat.abs_cast k
      · exact (abs_neg _).trans (Nat.abs_cast k)
    rw [size]
    omega

/-- **The microseconds that milliseconds are taken to**, when they are not many: at most 15 off, and
exactly as many if they are resolved. -/
theorem micros?_ofRatio_millis {n : Int} (h : n.natAbs < 1000 * 2 ^ 38) :
    ∃ t : Int, (ofRatio (decide (n < 0)) n.natAbs 1000).micros? = some t ∧
      |t - 1000 * n| ≤ 15 ∧ (t = 1000 * n ↔ ResolvesMillis n.natAbs) := by
  have magnitude : ∃ k : Nat, (ofRatio (decide (n < 0)) n.natAbs 1000).micros? =
        some (if decide (n < 0) then -(k : Int) else k) ∧
      |(k : Int) - 1000 * n.natAbs| ≤ 15 ∧ (k = 1000 * n.natAbs ↔ ResolvesMillis n.natAbs) := by
    by_cases low : n.natAbs < 1000 * 2 ^ 33
    · refine ⟨1000 * n.natAbs, micros?_of_millis_lt _ low, ?_,
        iff_of_true rfl (resolvesMillis_of_lt low)⟩
      rw [Nat.cast_mul, Nat.cast_ofNat, sub_self, abs_zero]
      decide
    · exact micros?_of_millis_between _ (not_lt.1 low) h
  obtain ⟨k, micros, apart, same⟩ := magnitude
  refine ⟨_, micros, ?_, ?_⟩
  · rw [abs_le] at apart ⊢
    by_cases negative : n < 0
    · rw [decide_eq_true negative, if_pos rfl]
      omega
    · rw [decide_eq_false negative, if_neg Bool.false_ne_true]
      omega
  · rw [← same]
    by_cases negative : n < 0
    · rw [decide_eq_true negative, if_pos rfl]
      omega
    · rw [decide_eq_false negative, if_neg Bool.false_ne_true]
      omega

end Binary64

/-! ### Moments -/

/-- **The moment that milliseconds are taken to**: found just if they lie in the years 1 to 9999,
and at most 15 microseconds off. -/
theorem Moment.ofTimestamp?_millis (n : Int) :
    (∃ m, AtMicros m (1000 * n)) ∧
      (∃ m t, ofTimestamp? (Binary64.ofRatio (decide (n < 0)) n.natAbs 1000) = some m ∧
        m.AtMicros t ∧ |t - 1000 * n| ≤ 15 ∧ (t = 1000 * n ↔ ResolvesMillis n.natAbs)) ∨
    (¬ ∃ m, AtMicros m (1000 * n)) ∧
      ofTimestamp? (Binary64.ofRatio (decide (n < 0)) n.natAbs 1000) = none := by
  rw [exists_atMicros_iff, ofTimestamp?]
  by_cases small : n.natAbs < 1000 * 2 ^ 38
  · obtain ⟨t, micros, apart, same⟩ := Binary64.micros?_ofRatio_millis small
    -- the ends of the calendar are whole seconds, so that the microseconds pass no end
    have ends : n % 1000 = 0 → t = 1000 * n :=
      fun whole => same.2 (resolvesMillis_of_dvd (by omega))
    have near := abs_le.1 apart
    rw [micros, Option.bind_some]
    rcases ofMicros?_cases t with ⟨inside, m, found, at_t⟩ | ⟨outside, none⟩
    · exact .inl ⟨by omega, m, t, found, at_t, apart, same⟩
    · exact .inr ⟨by omega, none⟩
  · refine .inr ⟨by omega, ?_⟩
    rcases Binary64.micros?_ofRatio_large (decide (n < 0)) (not_lt.1 small)
      with none | ⟨t, micros, many⟩
    · rw [none]
      rfl
    · rw [micros, Option.bind_some]
      rcases ofMicros?_cases t with ⟨inside, -⟩ | ⟨-, none⟩
      · rw [le_abs] at many
        omega
      · exact none

/-! ### Decoding -/

namespace Loading

/-- **Decoding an integer to a day or moment.**  If the instant that many milliseconds after the
start of 1970 lies in the years 1 to 9999, a moment in UTC is made that is at most 15 microseconds
from it.  It is that instant, and its microseconds are a multiple of 1000, just where the integer is
resolved, and so for all milliseconds of 272 years either way.  Any other integer is refused, and is
told then unless it has more than 4300 digits. -/
theorem decode_millis (r : Bool) (n : Int) (s : Session) :
    (∃ m, Moment.AtMicros m (1000 * n)) ∧
      (∃ m t, Session.outcome (decode (.date r) (.int n)) s = (.ok (.moment m), s) ∧
        m.AtMicros t ∧ |t - 1000 * n| ≤ 15 ∧
        (t = 1000 * n ↔ ResolvesMillis n.natAbs) ∧ (m.micro % 1000 = 0 ↔ t = 1000 * n) ∧
        (n.natAbs ≤ 8589934592000 → t = 1000 * n)) ∨
    (¬ ∃ m, Moment.AtMicros m (1000 * n)) ∧
      (n.natAbs < 10 ^ Value.mostDigits → Session.outcome (decode (.date r) (.int n)) s =
        (.error (.check (.undecodable "date" (.outOfRange (Value.int n).toText))), s)) ∧
      (10 ^ Value.mostDigits ≤ n.natAbs → Session.outcome (decode (.date r) (.int n)) s =
        (.error (.misuse .tooManyDigits), s)) := by
  rw [outcome_decode_date, Value.toMoment]
  rcases Moment.ofTimestamp?_millis n with ⟨inside, m, t, found, at_t, near, same⟩ | ⟨outside, none⟩
  · have micro := at_t.micro_eq
    have near' := abs_le.1 near
    refine .inl ⟨inside, m, t, by rw [found], at_t, near, same, by omega, fun few => same.2 ?_⟩
    rcases few.lt_or_eq with few | last
    · exact resolvesMillis_of_lt (by omega)
    · exact resolvesMillis_of_dvd (by rw [last])
  · refine .inr ⟨outside, fun told => ?_, fun long => ?_⟩ <;> rw [none]
    · exact congrArg (Except.error ·, s) (if_pos told)
    · exact congrArg (Except.error ·, s) (if_neg (Nat.not_lt.2 long))

/-- A millisecond after 272 years the moment is one microsecond short. -/
theorem decode_millis_late : ¬ ResolvesMillis 8589934592001 ∧ ∃ m t,
    Session.outcome (decode (.date true) (.int 8589934592001)) .initial =
      (.ok (.moment m), .initial) ∧
    m.AtMicros t ∧ t ≠ 1000 * 8589934592001 := by
  have off : ¬ ResolvesMillis 8589934592001 := by decide +kernel
  refine ⟨off, ?_⟩
  rcases decode_millis true 8589934592001 .initial with
    ⟨-, m, t, decoded, at_t, -, same, -⟩ | ⟨outside, -⟩
  · exact ⟨m, t, decoded, at_t, fun exact => off (same.1 exact)⟩
  · exact absurd (Moment.exists_atMicros_iff.2 (by decide)) outside

end Loading

end EntitySchema
