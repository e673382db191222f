/-
**How far rounding goes.**

A quotient is rounded to the nearest number of the format: a significand of 53 bits, or fewer where
the exponent is the least one.  Between two powers of two the numbers of the format are evenly
spaced, so the significand is the integer nearest to the quotient in units of their distance.  What
is a number of the format already is not changed, and anything else is at most half a unit away.

Main definitions:

* `Nearest` — an integer nearest to a rational number, a tie being even.

Main results:

* `nearest_roundHalfEven`, `Nearest.unique` — there is one nearest integer, and rounding finds it;
* `Binary64.exponentOf_spec` — **the exponent at which a quotient has 53 bits**;
* `Binary64.ofRatio_nearest`, `Binary64.ofRatio_exact`, `Binary64.ofRatio_near` — **rounding a
  quotient**: between two powers of two, of a number of the format, and in general;
* `Binary64.micros?_spec` — a number of seconds in microseconds.
-/

import EntitySchema.Calendar.Epoch
import Mathlib.Algebra.Order.Field.Power
import Mathlib.Algebra.Order.Ring.Rat
import Mathlib.Data.Nat.Cast.Order.Field
import Mathlib.Tactic.FieldSimp
import Mathlib.Tactic.Linarith
import Mathlib.Tactic.NormNum
import Mathlib.Tactic.Positivity
import Mathlib.Tactic.Ring

set_option autoImplicit false

namespace EntitySchema

/-! ### The nearest integer -/

/-- An integer is nearest to a rational number, a tie being even. -/
def Nearest (q : Int) (x : ℚ) : Prop :=
  |(q : ℚ) - x| ≤ 1 / 2 ∧ (|(q : ℚ) - x| = 1 / 2 → Even q)

theorem nearest_of_even {q : Int} {x : ℚ} (even : Even q) (near : |(q : ℚ) - x| ≤ 1 / 2) :
    Nearest q x := ⟨near, fun _ => even⟩

/-- Integers that are less than one apart are the same. -/
theorem eq_of_apart_lt_one {a b : Int} (h : |(a : ℚ) - b| < 1) : a = b := by
  rw [← Int.cast_sub, ← Int.cast_abs] at h
  exact sub_eq_zero.1 (Int.abs_lt_one_iff.1 (by exact_mod_cast h))

/-- How far the whole part of a quotient is from the quotient. -/
theorem div_sub_whole (num : Nat) {den : Nat} (h : 0 < den) :
    (num : ℚ) / den - (num / den : Nat) = (num % den : Nat) / den := by
  have hd : (den : ℚ) ≠ 0 := (Nat.cast_pos.2 h).ne'
  have parts : (num : ℚ) = (num / den : Nat) * den + (num % den : Nat) := by
    exact_mod_cast (Nat.div_add_mod' num den).symm
  rw [div_sub' hd, div_left_inj' hd, mul_comm (den : ℚ)]
  exact sub_eq_iff_eq_add'.2 parts

theorem fraction_lt_one (num : Nat) {den : Nat} (h : 0 < den) :
    ((num % den : Nat) : ℚ) / den < 1 := by
  rw [div_lt_one (Nat.cast_pos.2 h)]
  exact Nat.cast_lt.2 (Nat.mod_lt num h)

/-- Rounding finds a nearest integer. -/
theorem nearest_roundHalfEven (num : Nat) {den : Nat} (h : 0 < den) :
    Nearest (roundHalfEven num den) ((num : ℚ) / den) := by
  have hd : (0 : ℚ) < den := Nat.cast_pos.2 h
  have part := div_sub_whole num h
  have rest := fraction_lt_one num h
  -- how far the whole part and the integer after it are from the quotient
  have below : |((num / den : Nat) : ℚ) - num / den| = (num % den : Nat) / den := by
    rw [abs_sub_comm, part, abs_of_nonneg (by positivity)]
  have above : |((num / den + 1 : Nat) : ℚ) - num / den| = 1 - (num % den : Nat) / den := by
    rw [Nat.cast_succ, add_sub_right_comm, ← neg_sub, part, neg_add_eq_sub,
      abs_of_nonneg (sub_nonneg.2 rest.le)]
  unfold roundHalfEven
  dsimp only
  split
  · next less =>
    have less' : 2 * ((num % den : Nat) : ℚ) < den := by exact_mod_cast less
    have near : ((num % den : Nat) : ℚ) / den < 1 / 2 := by
      rw [div_lt_div_iff₀ hd two_pos]
      linarith
    exact ⟨by rw [Int.cast_natCast, below]; exact near.le,
      fun tie => absurd tie (by rw [Int.cast_natCast, below]; exact near.ne)⟩
  · split
    · next _ more =>
      have more' : (den : ℚ) < 2 * (num % den : Nat) := by exact_mod_cast more
      have near : 1 / 2 < ((num % den : Nat) : ℚ) / den := by
        rw [div_lt_div_iff₀ two_pos hd]
        linarith
      refine ⟨?_, fun tie => absurd tie ?_⟩ <;> rw [Int.cast_natCast, above]
      · linarith
      · exact fun same => by linarith
    · next least most =>
      have same : 2 * ((num % den : Nat) : ℚ) = den := by
        exact_mod_cast (by omega : 2 * (num % den) = den)
      have half : ((num % den : Nat) : ℚ) / den = 1 / 2 := by
        rw [div_eq_div_iff hd.ne' two_ne_zero]
        linarith
      split
      · next even =>
        refine nearest_of_even ?_ ?_
        · exact_mod_cast Nat.even_iff.2 even
        · rw [Int.cast_natCast, below, half]
      · next odd =>
        refine nearest_of_even ?_ ?_
        · exact_mod_cast Nat.even_iff.2 (by omega : (num / den + 1) % 2 = 0)
        · rw [Int.cast_natCast, above, half]
          norm_num

namespace Nearest

variable {q r : Int} {x : ℚ}

/-- There is only one nearest integer. -/
theorem unique (hq : Nearest q x) (hr : Nearest r x) : q = r := by
  obtain ⟨q_near, q_even⟩ := hq
  obtain ⟨r_near, r_even⟩ := hr
  rw [abs_le] at q_near r_near
  have apart : q - r ≤ 1 ∧ r - q ≤ 1 := by
    constructor <;> exact_mod_cast (by push_cast; linarith : ((_ : Int) : ℚ) ≤ (1 : Int))
  rcases (by omega : q = r ∨ q = r + 1 ∨ r = q + 1) with same | rfl | rfl
  · exact same
  · -- of two neighbours that are equally near, only one is even
    push_cast at q_near q_even
    have hq := q_even (by rw [abs_of_nonneg] <;> linarith)
    have hr := r_even (by rw [abs_of_nonpos] <;> linarith)
    exact absurd hq (Int.not_even_iff_odd.2 hr.add_one)
  · push_cast at r_near r_even
    have hr := r_even (by rw [abs_of_nonneg] <;> linarith)
    have hq := q_even (by rw [abs_of_nonpos] <;> linarith)
    exact absurd hr (Int.not_even_iff_odd.2 hq.add_one)

/-- The integer nearest to an integer is that integer. -/
theorem eq_of_int (hq : Nearest q (r : ℚ)) : q = r :=
  eq_of_apart_lt_one (hq.1.trans_lt (by norm_num))

/-- An even integer is nearest if it is near. -/
theorem eq_iff_of_even (hq : Nearest q x) (even : Even r) : q = r ↔ |(r : ℚ) - x| ≤ 1 / 2 :=
  ⟨fun same => same ▸ hq.1, fun near => hq.unique (nearest_of_even even near)⟩

/-- An even integer can be added on both sides. -/
theorem add_even (hq : Nearest q x) (even : Even r) : Nearest (q + r) (x + r) := by
  have same : ((q + r : Int) : ℚ) - (x + r) = q - x := by push_cast; ring
  exact ⟨same ▸ hq.1, fun tie => (hq.2 (same ▸ tie)).add even⟩

end Nearest

/-! ### Quotients in units of a power of two -/

namespace Binary64

theorem two_zpow_pos (e : Int) : (0 : ℚ) < 2 ^ e := zpow_pos two_pos e

theorem natPow_eq_zpow {e : Int} (h : 0 ≤ e) : ((Nat.pow 2 e.toNat : Nat) : ℚ) = 2 ^ e := by
  rw [Nat.pow_eq, Nat.cast_pow, Nat.cast_ofNat, ← zpow_natCast, Int.toNat_of_nonneg h]

/-- The magnitude of a number is told as an exact quotient. -/
theorem ratio_spec (m : Nat) (e : Int) : 0 < (ratio m e).2 ∧
    ((ratio m e).1 : ℚ) / (ratio m e).2 = m * 2 ^ e := by
  unfold ratio
  split
  · next h =>
    refine ⟨Nat.one_pos, ?_⟩
    rw [Nat.cast_mul, natPow_eq_zpow h, Nat.cast_one, div_one]
  · next h =>
    refine ⟨Nat.two_pow_pos _, ?_⟩
    rw [natPow_eq_zpow (by omega), zpow_neg, div_inv_eq_mul]

/-- A quotient in units of a power of two. -/
theorem shifted_spec (num : Nat) {den : Nat} (hd : 0 < den) (e : Int) :
    0 < (shifted num den e).2 ∧
      ((shifted num den e).1 : ℚ) / (shifted num den e).2 = (num : ℚ) / den / 2 ^ e := by
  unfold shifted
  split
  · next h =>
    refine ⟨Nat.mul_pos hd (Nat.two_pow_pos _), ?_⟩
    rw [Nat.cast_mul, natPow_eq_zpow h, div_div]
  · next h =>
    refine ⟨hd, ?_⟩
    rw [Nat.cast_mul, natPow_eq_zpow (by omega), zpow_neg, mul_div_right_comm, div_eq_mul_inv _
      ((2 : ℚ) ^ e)]

/-- A positive number lies between the powers of two that its binary length tells. -/
theorem zpow_log2_le {n : Nat} (h : 0 < n) :
    (2 : ℚ) ^ (Nat.log2 n : Int) ≤ n ∧ (n : ℚ) < 2 ^ ((Nat.log2 n : Int) + 1) := by
  constructor
  · rw [zpow_natCast]
    exact_mod_cast Nat.log2_self_le h.ne'
  · rw [← Nat.cast_succ, zpow_natCast]
    exact_mod_cast Nat.lt_log2_self

/-- A quotient lies within a factor of two of the power that the difference of the lengths tells. -/
theorem zpow_log2_sub_le {num den : Nat} (hn : 0 < num) (hd : 0 < den) :
    let k : Int := Nat.log2 num - Nat.log2 den
    (2 : ℚ) ^ (k - 1) ≤ (num : ℚ) / den ∧ (num : ℚ) / den < 2 ^ (k + 1) := by
  intro k
  have hden : (0 : ℚ) < den := Nat.cast_pos.2 hd
  obtain ⟨num_le, num_lt⟩ := zpow_log2_le hn
  obtain ⟨den_le, den_lt⟩ := zpow_log2_le hd
  constructor
  · rw [le_div_iff₀ hden]
    calc (2 : ℚ) ^ (k - 1) * den ≤ 2 ^ (k - 1) * 2 ^ ((Nat.log2 den : Int) + 1) :=
          mul_le_mul_of_nonneg_left den_lt.le (two_zpow_pos _).le
      _ = 2 ^ (Nat.log2 num : Int) := by rw [← zpow_add₀ two_ne_zero]; congr 1; omega
      _ ≤ num := num_le
  · rw [div_lt_iff₀ hden]
    calc (num : ℚ) < 2 ^ ((Nat.log2 num : Int) + 1) := num_lt
      _ = 2 ^ (k + 1) * 2 ^ (Nat.log2 den : Int) := by
          rw [← zpow_add₀ two_ne_zero]; congr 1; omega
      _ ≤ 2 ^ (k + 1) * den := mul_le_mul_of_nonneg_left den_le (two_zpow_pos _).le

/-- **The exponent at which a quotient has 53 bits**, or the least one. -/
theorem exponentOf_spec {num den : Nat} (hn : 0 < num) (hd : 0 < den) :
    -1074 ≤ exponentOf num den ∧ (num : ℚ) / den < 2 ^ (exponentOf num den + 53) ∧
      (exponentOf num den = -1074 ∨ (2 : ℚ) ^ (exponentOf num den + 52) ≤ (num : ℚ) / den) := by
  obtain ⟨low, high⟩ := zpow_log2_sub_le hn hd
  generalize hk : (Nat.log2 num : Int) - (Nat.log2 den : Int) = k at low high
  obtain ⟨scaled_pos, scaled⟩ := shifted_spec num hd k
  have below : (shifted num den k).1 < (shifted num den k).2 ↔ (num : ℚ) / den < 2 ^ k := by
    rw [← Nat.cast_lt (α := ℚ), ← div_lt_one (Nat.cast_pos.2 scaled_pos), scaled,
      div_lt_one (two_zpow_pos k)]
  have exponent : exponentOf num den =
      max (if (num : ℚ) / den < 2 ^ k then k - 53 else k - 52) (-1074) := by
    unfold exponentOf minExponent
    dsimp only
    rw [hk]
    exact congrArg (max · _) (if_congr below rfl rfl)
  rw [exponent]
  refine ⟨le_max_right _ _, ?_, ?_⟩
  · refine lt_of_lt_of_le ?_ (zpow_le_zpow_right₀ one_le_two (Int.add_le_add_right
      (le_max_left _ _) 53))
    split
    · next less => rwa [sub_add_cancel]
    · refine high.trans_le (zpow_le_zpow_right₀ one_le_two (by omega))
  · by_cases least : (if (num : ℚ) / den < 2 ^ k then k - 53 else k - 52) ≤ -1074
    · exact .inl (max_eq_right least)
    · right
      rw [max_eq_left (by omega)]
      split
      · exact le_trans (zpow_le_zpow_right₀ one_le_two (by omega)) low
      · next more =>
        exact le_trans (zpow_le_zpow_right₀ one_le_two (by omega)) (not_lt.1 more)

/-- A number of units that is nearest to a number is at most half a unit away. -/
theorem apart_of_nearest {q E : Int} {v x : ℚ} (nearest : Nearest q (x / 2 ^ E))
    (value : v = q * 2 ^ E) : |v - x| ≤ 2 ^ E / 2 := by
  have unit := two_zpow_pos E
  have scaled : v - x = (q - x / 2 ^ E) * 2 ^ E := by
    rw [value, sub_mul, div_mul_cancel₀ _ unit.ne']
  calc |v - x| = |q - x / 2 ^ E| * 2 ^ E := by rw [scaled, abs_mul, abs_of_pos unit]
    _ ≤ 1 / 2 * 2 ^ E := mul_le_mul_of_nonneg_right nearest.1 unit.le
    _ = 2 ^ E / 2 := by ring

/-- What rounding makes of a positive quotient: if the significand gets a 54th bit, it is halved. -/
theorem ofRatio_eq (s : Bool) {num den q : Nat} {e : Int} (hn : 0 < num)
    (he : exponentOf num den = e)
    (hq : roundHalfEven (shifted num den e).1 (shifted num den e).2 = q) :
    ofRatio s num den = if maxExponent < (if q = 2 ^ 53 then e + 1 else e) then .infinite s
      else .finite s (if q = 2 ^ 53 then 2 ^ 52 else q) (if q = 2 ^ 53 then e + 1 else e) := by
  rw [ofRatio, if_neg hn.ne', he]
  dsimp only
  rw [hq]
  by_cases carry : q = 2 ^ 53
  · have carry' : q = Nat.pow 2 53 := carry
    rw [if_pos carry, if_pos carry, if_pos carry']
    rfl
  · have small : ¬ q = Nat.pow 2 53 := carry
    rw [if_neg carry, if_neg carry, if_neg small]

/-- A significand has at most 53 bits, or is the least number of 54 bits. -/
theorem le_of_nearest {q : Nat} {x : ℚ} (nearest : Nearest q x) (less : x < 2 ^ 53) :
    q ≤ 2 ^ 53 := by
  have near := (abs_le.1 nearest.1).2
  rw [Int.cast_natCast] at near
  have close : (q : ℚ) < (2 ^ 53 + 1 : Nat) := by push_cast; linarith
  exact Nat.lt_succ_iff.1 (Nat.cast_lt.1 close)

/-- A positive quotient is rounded to the integer nearest to it in units of the last place, or to an
infinity if it is large. -/
theorem ofRatio_spec (s : Bool) {num den : Nat} (hn : 0 < num) (hd : 0 < den) :
    ∃ q : Int, Nearest q ((num : ℚ) / den / 2 ^ exponentOf num den) ∧
      ((ofRatio s num den = .infinite s ∧ 971 ≤ exponentOf num den) ∨
        ∃ (m : Nat) (e : Int), ofRatio s num den = .finite s m e ∧ m < 2 ^ 53 ∧ -1074 ≤ e ∧
          (m : ℚ) * 2 ^ e = q * 2 ^ exponentOf num den) := by
  obtain ⟨least, bound, -⟩ := exponentOf_spec hn hd
  generalize he : exponentOf num den = e at least bound
  obtain ⟨scaled_pos, scaled⟩ := shifted_spec num hd e
  have nearest := nearest_roundHalfEven (shifted num den e).1 scaled_pos
  rw [scaled] at nearest
  generalize hq : roundHalfEven (shifted num den e).1 (shifted num den e).2 = q at nearest
  have le : q ≤ 2 ^ 53 := by
    refine le_of_nearest nearest ?_
    rw [div_lt_iff₀ (two_zpow_pos e), ← zpow_natCast, ← zpow_add₀ two_ne_zero, Int.add_comm]
    exact bound
  refine ⟨q, nearest, ?_⟩
  rw [ofRatio_eq s hn he hq]
  unfold maxExponent
  by_cases large : 971 < if q = 2 ^ 53 then e + 1 else e
  · rw [if_pos large]
    refine .inl ⟨rfl, ?_⟩
    split at large <;> omega
  · rw [if_neg large]
    refine .inr ⟨_, _, rfl, ?_, ?_, ?_⟩
    · split
      · exact Nat.pow_lt_pow_right (by omega) (by omega)
      · omega
    · split <;> omega
    · split
      · next carry =>
        rw [carry, zpow_add₀ two_ne_zero]
        norm_num
        ring
      · rw [Int.cast_natCast]

variable {s : Bool} {num den : Nat} {E : Int}

/-- The exponent of a quotient that is not large. -/
theorem exponentOf_le (hn : 0 < num) (hd : 0 < den) (hE : -1074 ≤ E)
    (high : (num : ℚ) / den < 2 ^ (E + 53)) : exponentOf num den ≤ E := by
  obtain ⟨-, -, least | low⟩ := exponentOf_spec hn hd
  · omega
  · have := (zpow_lt_zpow_iff_right₀ (one_lt_two (α := ℚ))).1 (low.trans_lt high)
    omega

/-- **Between two powers of two** a quotient is rounded to the nearest number in units of the last
place. -/
theorem ofRatio_nearest (s : Bool) (hd : 0 < den) (hE : -1074 ≤ E ∧ E ≤ 970)
    (low : (2 : ℚ) ^ (E + 52) ≤ (num : ℚ) / den) (high : (num : ℚ) / den < 2 ^ (E + 53)) :
    ∃ (m : Nat) (e : Int) (q : Int), ofRatio s num den = .finite s m e ∧ m < 2 ^ 53 ∧ -1074 ≤ e ∧
      (m : ℚ) * 2 ^ e = q * 2 ^ E ∧ Nearest q ((num : ℚ) / den / 2 ^ E) := by
  have hn : 0 < num := by
    by_contra none
    obtain rfl : num = 0 := by omega
    rw [Nat.cast_zero, zero_div] at low
    exact absurd low (not_le.2 (two_zpow_pos _))
  have le := exponentOf_le hn hd hE.1 high
  obtain ⟨-, bound, -⟩ := exponentOf_spec hn hd
  have ge := (zpow_lt_zpow_iff_right₀ (one_lt_two (α := ℚ))).1 (low.trans_lt bound)
  obtain ⟨q, nearest, ⟨-, large⟩ | ⟨m, e, rounded, hm, he, value⟩⟩ := ofRatio_spec s hn hd
  · omega
  · obtain rfl : exponentOf num den = E := by omega
    exact ⟨m, e, q, rounded, hm, he, value, nearest⟩

/-- **A number of the format is not changed.** -/
theorem ofRatio_exact (s : Bool) (hd : 0 < den) {c : Nat} (hc : c < 2 ^ 53)
    (hE : -1074 ≤ E ∧ E ≤ 970) (exact : (num : ℚ) / den = c * 2 ^ E) :
    ∃ (m : Nat) (e : Int), ofRatio s num den = .finite s m e ∧ m < 2 ^ 53 ∧ -1074 ≤ e ∧
      (m : ℚ) * 2 ^ e = (num : ℚ) / den := by
  by_cases hn : 0 < num
  · have high : (num : ℚ) / den < 2 ^ (E + 53) := by
      rw [exact, Int.add_comm, zpow_add₀ two_ne_zero]
      exact mul_lt_mul_of_pos_right (by exact_mod_cast hc) (two_zpow_pos E)
    have le := exponentOf_le hn hd hE.1 high
    obtain ⟨q, nearest, ⟨-, large⟩ | ⟨m, e, rounded, hm, he, value⟩⟩ := ofRatio_spec s hn hd
    · omega
    · refine ⟨m, e, rounded, hm, he, ?_⟩
      -- in units of the last place the quotient is an integer
      have units : (num : ℚ) / den / 2 ^ exponentOf num den =
          ((c * 2 ^ (E - exponentOf num den).toNat : Int) : ℚ) := by
        rw [exact, mul_div_assoc, ← zpow_sub₀ two_ne_zero]
        push_cast
        rw [← zpow_natCast, Int.toNat_of_nonneg (by omega)]
      rw [units] at nearest
      rw [value, nearest.eq_of_int, ← units, div_mul_cancel₀ _ (two_zpow_pos _).ne']
  · obtain rfl : num = 0 := by omega
    exact ⟨0, -1074, rfl, by norm_num, le_refl _, by simp⟩

/-- **Rounding goes at most half a unit of the last place far.** -/
theorem ofRatio_near (s : Bool) (hd : 0 < den) (hE : -1074 ≤ E ∧ E ≤ 970)
    (high : (num : ℚ) / den < 2 ^ (E + 53)) :
    ∃ (m : Nat) (e : Int), ofRatio s num den = .finite s m e ∧ m < 2 ^ 53 ∧ -1074 ≤ e ∧
      |(m : ℚ) * 2 ^ e - num / den| ≤ 2 ^ E / 2 := by
  by_cases hn : 0 < num
  · have le := exponentOf_le hn hd hE.1 high
    obtain ⟨q, nearest, ⟨-, large⟩ | ⟨m, e, rounded, hm, he, value⟩⟩ := ofRatio_spec s hn hd
    · omega
    · refine ⟨m, e, rounded, hm, he, (apart_of_nearest nearest value).trans ?_⟩
      exact div_le_div_of_nonneg_right (zpow_le_zpow_right₀ one_le_two le) zero_le_two
  · obtain rfl : num = 0 := by omega
    refine ⟨0, -1074, rfl, by norm_num, le_refl _, ?_⟩
    rw [Nat.cast_zero, zero_mul, zero_div, sub_zero, abs_zero]
    exact (half_pos (two_zpow_pos E)).le

/-- A large quotient stays at least as large as a power of two below it. -/
theorem le_ofRatio (s : Bool) (hd : 0 < den) (hE : -1022 < E)
    (low : (2 : ℚ) ^ E ≤ (num : ℚ) / den) :
    ofRatio s num den = .infinite s ∨
      ∃ (m : Nat) (e : Int), ofRatio s num den = .finite s m e ∧ m < 2 ^ 53 ∧ -1074 ≤ e ∧
        (2 : ℚ) ^ E ≤ m * 2 ^ e := by
  have hn : 0 < num := by
    by_contra none
    obtain rfl : num = 0 := by omega
    rw [Nat.cast_zero, zero_div] at low
    exact absurd low (not_le.2 (two_zpow_pos _))
  obtain ⟨-, bound, within⟩ := exponentOf_spec hn hd
  have ge := (zpow_lt_zpow_iff_right₀ (one_lt_two (α := ℚ))).1 (low.trans_lt bound)
  replace within := within.resolve_left (by omega)
  obtain ⟨q, nearest, ⟨infinite, -⟩ | ⟨m, e, rounded, hm, he, value⟩⟩ := ofRatio_spec s hn hd
  · exact .inl infinite
  · refine .inr ⟨m, e, rounded, hm, he, ?_⟩
    have unit := two_zpow_pos (exponentOf num den)
    have many : ((2 ^ 52 : Int) : ℚ) ≤ (num : ℚ) / den / 2 ^ exponentOf num den := by
      rw [le_div_iff₀ unit, Int.cast_pow, Int.cast_ofNat, ← zpow_natCast,
        ← zpow_add₀ two_ne_zero, Int.add_comm]
      exact within
    have bits : (2 ^ 52 : Int) ≤ q := by
      have near := (abs_le.1 nearest.1).1
      have close : ((2 ^ 52 - 1 : Int) : ℚ) < q := by push_cast at many ⊢; linarith
      have := Int.cast_lt.1 close
      omega
    rw [value]
    calc (2 : ℚ) ^ E ≤ 2 ^ ((52 : Nat) + exponentOf num den) :=
          zpow_le_zpow_right₀ one_le_two (by omega)
      _ = (2 ^ 52 : Int) * 2 ^ exponentOf num den := by
          rw [zpow_add₀ two_ne_zero, zpow_natCast, Int.cast_pow, Int.cast_ofNat]
      _ ≤ q * 2 ^ exponentOf num den :=
          mul_le_mul_of_nonneg_right (Int.cast_le.2 bits) unit.le

/-! ### Seconds in microseconds -/

/-- The part of a number behind its whole part is a number of the format. -/
theorem exists_fraction {m : Nat} {e : Int} (hm : m < 2 ^ 53) (he : -1074 ≤ e) :
    ∃ (c : Nat) (E : Int), c < 2 ^ 53 ∧ (-1074 ≤ E ∧ E ≤ 970) ∧
      (((ratio m e).1 % (ratio m e).2 : Nat) : ℚ) / (ratio m e).2 = c * 2 ^ E := by
  unfold ratio
  split
  · refine ⟨0, 0, by omega, by omega, ?_⟩
    rw [Nat.mod_one, Nat.cast_zero, zero_div, zero_mul]
  · next h =>
    refine ⟨m % Nat.pow 2 (-e).toNat, e, (Nat.mod_le _ _).trans_lt hm, by omega, ?_⟩
    rw [natPow_eq_zpow (by omega), zpow_neg, div_inv_eq_mul]

theorem split?_finite (s : Bool) (m : Nat) (e : Int) : split? (.finite s m e) =
    some (if s then -(((ratio m e).1 / (ratio m e).2 : Nat) : Int)
      else ((ratio m e).1 / (ratio m e).2 : Nat),
        ofRatio s ((ratio m e).1 % (ratio m e).2) (ratio m e).2) := rfl

theorem scaleUp_finite (s : Bool) (m : Nat) (e : Int) (k : Nat) :
    scaleUp (.finite s m e) k = ofRatio s ((ratio m e).1 * k) (ratio m e).2 := rfl

theorem nearestInt?_finite (s : Bool) (m : Nat) (e : Int) : nearestInt? (.finite s m e) =
    some (if s then -(roundHalfEven (ratio m e).1 (ratio m e).2 : Int)
      else roundHalfEven (ratio m e).1 (ratio m e).2) := rfl

/-- The whole part of a number of seconds and its part behind that are taken apart. -/
theorem micros?_of_split {x part : Binary64} {whole : Int} (h : split? x = some (whole, part)) :
    micros? x = (nearestInt? (part.scaleUp 1000000)).bind fun k => some (whole * 1000000 + k) := by
  rw [micros?, h]
  rfl

/-- The whole part of a number of seconds is taken as it is, the rest times a million to an integer
nearest to a number `w`, which is close to that product, and is the product if this is a number of
the format. -/
theorem micros?_parts (s : Bool) {m : Nat} {e : Int} (hm : m < 2 ^ 53) (he : -1074 ≤ e) :
    ∃ (whole k : Nat) (w : ℚ), micros? (.finite s m e) =
        some (if s then -((whole * 1000000 + k : Nat) : Int) else (whole * 1000000 + k : Nat)) ∧
      ((whole : ℚ) ≤ m * 2 ^ e ∧ (m : ℚ) * 2 ^ e < whole + 1) ∧ Nearest k w ∧
      |w - (m * 2 ^ e - whole) * 1000000| ≤ 2 ^ (-34 : Int) ∧
      ∀ (c : Nat) (E : Int), c < 2 ^ 53 → -1074 ≤ E ∧ E ≤ 970 →
        ((m : ℚ) * 2 ^ e - whole) * 1000000 = c * 2 ^ E → w = (m * 2 ^ e - whole) * 1000000 := by
  obtain ⟨positive, value⟩ := ratio_spec m e
  obtain ⟨c, E, hc, hE, fraction⟩ := exists_fraction hm he
  have part := div_sub_whole (ratio m e).1 positive
  have less := fraction_lt_one (ratio m e).1 positive
  rw [value] at part
  rw [← part] at less
  -- the part behind the whole one is exact
  obtain ⟨m₁, e₁, split, -, -, value₁⟩ := ofRatio_exact s positive hc hE fraction
  rw [← part] at value₁
  obtain ⟨positive₁, ratio₁⟩ := ratio_spec m₁ e₁
  have product : (((ratio m₁ e₁).1 * 1000000 : Nat) : ℚ) / (ratio m₁ e₁).2 =
      (m * 2 ^ e - ((ratio m e).1 / (ratio m e).2 : Nat)) * 1000000 := by
    rw [Nat.cast_mul, mul_div_right_comm, ratio₁, value₁, Nat.cast_ofNat]
  have small : (((ratio m₁ e₁).1 * 1000000 : Nat) : ℚ) / (ratio m₁ e₁).2 < 2 ^
      (-33 + 53 : Int) := by
    rw [product]
    norm_num
    linarith
  -- the product with a million is rounded
  obtain ⟨m₂, e₂, scaled, -, -, near⟩ := ofRatio_near s positive₁ (by omega) small
  obtain ⟨positive₂, ratio₂⟩ := ratio_spec m₂ e₂
  have nearest := nearest_roundHalfEven (ratio m₂ e₂).1 positive₂
  rw [ratio₂] at nearest
  rw [product] at near
  refine ⟨(ratio m e).1 / (ratio m e).2, roundHalfEven (ratio m₂ e₂).1 (ratio m₂ e₂).2, m₂ * 2 ^ e₂,
    ?_, ⟨?_, by linarith⟩, nearest, near.trans (by norm_num), fun c E hc hE exact => ?_⟩
  · rw [micros?_of_split (split?_finite s m e), split, scaleUp_finite, scaled, nearestInt?_finite,
      Option.bind_some]
    push_cast
    split_ifs
    · rw [neg_mul, neg_add]
    · rfl
  · rw [← sub_nonneg, part]
    positivity
  · obtain ⟨m₃, e₃, scaled', -, -, same⟩ := ofRatio_exact s positive₁ hc hE (product.trans exact)
    rw [scaled] at scaled'
    injection scaled' with _ hm₃ he₃
    rw [hm₃, he₃, same, product]

/-- The part of a multiple of a power of two behind its whole part, in units of that power. -/
theorem exists_short_rest {v : ℚ} {q : Int} {n whole : Nat} (units : v = q * 2 ^ (-(n : Int)))
    (low : (whole : ℚ) ≤ v) (high : v < whole + 1) :
    ∃ c : Nat, c < 2 ^ n ∧ v - whole = c * 2 ^ (-(n : Int)) := by
  have power : (0 : ℚ) < 2 ^ n := by positivity
  have rest : ((q - whole * 2 ^ n : Int) : ℚ) = (v - whole) * 2 ^ n := by
    rw [units, zpow_neg, zpow_natCast, sub_mul, inv_mul_cancel_right₀ power.ne']
    push_cast
    rfl
  have nonneg : (0 : ℚ) ≤ (q - whole * 2 ^ n : Int) := by
    rw [rest]
    exact mul_nonneg (sub_nonneg.2 low) power.le
  obtain ⟨c, hc⟩ := Int.eq_ofNat_of_zero_le (Int.cast_nonneg_iff.1 nonneg)
  rw [hc, Int.cast_natCast] at rest
  have less : (c : ℚ) < 2 ^ n := by
    rw [rest]
    exact mul_lt_of_lt_one_left power (by linarith)
  refine ⟨c, by exact_mod_cast less, ?_⟩
  rw [rest, zpow_neg, zpow_natCast, mul_inv_cancel_right₀ power.ne']

/-- **A number of seconds in microseconds**: hardly more than half a microsecond away, and the
nearest integer if the number is a multiple of a power of two that is not too small. -/
theorem micros?_spec (s : Bool) {m : Nat} {e : Int} (hm : m < 2 ^ 53) (he : -1074 ≤ e) :
    ∃ k : Nat, micros? (.finite s m e) = some (if s then -(k : Int) else k) ∧
      |(k : ℚ) - m * 2 ^ e * 1000000| ≤ 1 / 2 + 2 ^ (-34 : Int) ∧
      ∀ (q E : Int), -33 ≤ E ∧ E ≤ 0 → (m : ℚ) * 2 ^ e = q * 2 ^ E →
        Nearest k (m * 2 ^ e * 1000000) := by
  obtain ⟨whole, k, w, micros, ⟨low, high⟩, nearest, near, exact⟩ := micros?_parts s hm he
  refine ⟨_, micros, ?_, fun q E hE units => ?_⟩
  · have apart : ((whole * 1000000 + k : Nat) : ℚ) - m * 2 ^ e * 1000000 =
        (k - w) + (w - (m * 2 ^ e - whole) * 1000000) := by
      push_cast
      ring
    rw [apart]
    exact (abs_add_le _ _).trans (add_le_add nearest.1 near)
  · obtain ⟨n, rfl⟩ : ∃ n : Nat, E = -n := ⟨(-E).toNat, by omega⟩
    obtain ⟨c, short, rest⟩ := exists_short_rest units low high
    have bits : c * 1000000 < 2 ^ 53 :=
      calc c * 1000000 ≤ 2 ^ 33 * 1000000 := Nat.mul_le_mul_right _
            (short.le.trans (Nat.pow_le_pow_right (by omega) (by omega)))
        _ < 2 ^ 53 := by norm_num
    have w_eq : w = (m * 2 ^ e - whole) * 1000000 := by
      refine exact (c * 1000000) (-n) bits (by omega) ?_
      rw [rest, Nat.cast_mul, Nat.cast_ofNat, mul_right_comm]
    have even : Even ((whole * 1000000 : Nat) : Int) := by
      exact_mod_cast (by decide : Even 1000000).mul_left whole
    have sum := nearest.add_even even
    rw [w_eq] at sum
    have same : (m * 2 ^ e - whole) * 1000000 + (((whole * 1000000 : Nat) : Int) : ℚ) =
        m * 2 ^ e * 1000000 := by
      push_cast
      ring
    rw [same] at sum
    rwa [Nat.add_comm, Nat.cast_add]

end Binary64

end EntitySchema
