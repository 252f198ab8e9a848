import CircuitNotes.Number.Binary64
import Mathlib.Algebra.Order.Field.Power
import Mathlib.Data.Nat.Log
import Mathlib.Data.Rat.Cast.Order
import Mathlib.Tactic.FieldSimp
import Mathlib.Tactic.Linarith
import Mathlib.Tactic.NormNum
import Mathlib.Tactic.Positivity
import Mathlib.Tactic.Ring

/-! Which fractions are rounded to a natural number. A binary64 number has 53 digits, so the fractions
that are rounded to a number lie between the middles of its neighbours. The neighbours of a power of two
are not at the same distance, and around zero the distance is that of the least numbers of all. -/
namespace CircuitNotes
namespace Binary64

theorem zpow_two_pos (e : ℤ) : (0 : ℚ) < 2 ^ e := zpow_pos two_pos e

theorem zpow_two_lt_iff {a b : ℤ} : (2 : ℚ) ^ a < 2 ^ b ↔ a < b :=
  zpow_lt_zpow_iff_right₀ one_lt_two

theorem zpow_two_le_iff {a b : ℤ} : (2 : ℚ) ^ a ≤ 2 ^ b ↔ a ≤ b :=
  zpow_le_zpow_iff_right₀ one_lt_two

theorem zpow_le_half {j : ℤ} (hj : j ≤ -1) : (2 : ℚ) ^ j ≤ 1 / 2 := by
  calc (2 : ℚ) ^ j ≤ 2 ^ (-1 : ℤ) := zpow_two_le_iff.mpr hj
    _ = 1 / 2 := by norm_num

theorem zpow_log2_le {n : Nat} (hn : 0 < n) : (2 : ℚ) ^ (n.log2 : ℤ) ≤ n := by
  exact_mod_cast Nat.log2_self_le hn.ne'

theorem lt_zpow_log2 (n : Nat) : (n : ℚ) < 2 ^ ((n.log2 : ℤ) + 1) := by
  exact_mod_cast Nat.lt_log2_self

/-! ### Quotients at an exponent -/

/-- Numerator and denominator of a fraction divided by a power of two. -/
def shifted (num den : Nat) (e : ℤ) : Nat × Nat :=
  if 0 ≤ e then (num,den <<< e.toNat) else (num <<< (-e).toNat,den)

variable {num den : Nat}

theorem shifted_pos (hden : 0 < den) (e : ℤ) : 0 < (shifted num den e).2 := by
  unfold shifted
  split_ifs
  · rw [Nat.shiftLeft_eq]
    exact Nat.mul_pos hden (Nat.two_pow_pos _)
  · exact hden

theorem shifted_quotient (num den : Nat) (e : ℤ) :
    ((shifted num den e).1 : ℚ) / (shifted num den e).2 = num / den / 2 ^ e := by
  unfold shifted
  split_ifs with he
  · obtain ⟨k,rfl⟩ := Int.eq_ofNat_of_zero_le he
    rw [Int.toNat_natCast,Nat.shiftLeft_eq,zpow_natCast]
    push_cast
    rw [div_div]
  · obtain ⟨k,hk⟩ := Int.eq_ofNat_of_zero_le (show 0 ≤ -e by omega)
    obtain rfl : e = -(k : ℤ) := by omega
    rw [Int.neg_neg,Int.toNat_natCast,Nat.shiftLeft_eq,zpow_neg,zpow_natCast,div_inv_eq_mul]
    push_cast
    rw [mul_div_right_comm]

theorem scaled_eq (num den : Nat) (e : ℤ) :
    scaled num den e = roundDiv (shifted num den e).1 (shifted num den e).2 := by
  unfold scaled shifted
  split_ifs <;> rfl

/-- The guess of the magnitude is right if its power of two is not above the fraction. -/
theorem magnitude_eq (num den : Nat) : magnitude num den =
    if (shifted num den (num.log2 - den.log2)).2 ≤ (shifted num den (num.log2 - den.log2)).1
    then (num.log2 : ℤ) - den.log2 else (num.log2 : ℤ) - den.log2 - 1 := by
  unfold magnitude shifted
  by_cases hguess : (0 : ℤ) ≤ num.log2 - den.log2
  · simp only [if_pos hguess]
  · simp only [if_neg hguess]

theorem magnitude_spec (hnum : 0 < num) (hden : 0 < den) :
    (2 : ℚ) ^ magnitude num den ≤ num / den ∧ (num : ℚ) / den < 2 ^ (magnitude num den + 1) := by
  have hd : (0 : ℚ) < den := Nat.cast_pos.mpr hden
  have hlow : (2 : ℚ) ^ ((num.log2 : ℤ) - den.log2 - 1) ≤ num / den := by
    rw [le_div_iff₀ hd]
    calc (2 : ℚ) ^ ((num.log2 : ℤ) - den.log2 - 1) * den
        ≤ 2 ^ ((num.log2 : ℤ) - den.log2 - 1) * 2 ^ ((den.log2 : ℤ) + 1) :=
          mul_le_mul_of_nonneg_left (lt_zpow_log2 den).le (zpow_two_pos _).le
      _ = 2 ^ (num.log2 : ℤ) := by
          rw [← zpow_add₀ two_ne_zero]
          congr 1
          ring
      _ ≤ num := zpow_log2_le hnum
  have hhigh : (num : ℚ) / den < 2 ^ ((num.log2 : ℤ) - den.log2 + 1) := by
    rw [div_lt_iff₀ hd]
    calc (num : ℚ) < 2 ^ ((num.log2 : ℤ) + 1) := lt_zpow_log2 num
      _ = 2 ^ ((num.log2 : ℤ) - den.log2 + 1) * 2 ^ (den.log2 : ℤ) := by
          rw [← zpow_add₀ two_ne_zero]
          congr 1
          ring
      _ ≤ 2 ^ ((num.log2 : ℤ) - den.log2 + 1) * den :=
          mul_le_mul_of_nonneg_left (zpow_log2_le hden) (zpow_two_pos _).le
  have hfits (e : ℤ) : (shifted num den e).2 ≤ (shifted num den e).1 ↔ (2 : ℚ) ^ e ≤ num / den := by
    rw [← one_le_div₀ (zpow_two_pos e),← shifted_quotient,
      one_le_div₀ (Nat.cast_pos.mpr (shifted_pos hden e)),Nat.cast_le]
  rw [magnitude_eq]
  split_ifs with hguess
  · exact ⟨(hfits _).mp hguess,hhigh⟩
  · rw [hfits,not_le] at hguess
    exact ⟨hlow,by simpa using hguess⟩

/-! ### The nearest integer -/

/-- The quotient is rounded by no more than a half, and a half to an even integer. -/
theorem roundDiv_spec (num : Nat) (hden : 0 < den) :
    2 * num ≤ 2 * (roundDiv num den * den) + den ∧ 2 * (roundDiv num den * den) ≤ 2 * num + den ∧
    (2 * num = 2 * (roundDiv num den * den) + den ∨ 2 * (roundDiv num den * den) = 2 * num + den →
      Even (roundDiv num den)) := by
  have hmod := Nat.mod_lt num hden
  have hsum : num / den * den + num % den = num := Nat.div_add_mod' num den
  simp only [roundDiv]
  split_ifs with hless hmore
  · refine ⟨by omega,by omega,?_⟩
    omega
  · rw [Nat.add_one_mul (num / den) den]
    refine ⟨by omega,by omega,?_⟩
    omega
  · rcases Nat.mod_two_eq_zero_or_one (num / den) with hq | hq
    · rw [hq,Nat.add_zero]
      exact ⟨by omega,by omega,fun _ => Nat.even_iff.mpr hq⟩
    · rw [hq,Nat.add_one_mul (num / den) den]
      exact ⟨by omega,by omega,fun _ => Nat.even_iff.mpr (by omega)⟩

theorem abs_sub_le_half_iff (hden : 0 < den) (q : Nat) : |(num : ℚ) / den - q| ≤ 1 / 2 ↔
    2 * num ≤ 2 * (q * den) + den ∧ 2 * (q * den) ≤ 2 * num + den := by
  have hd : (0 : ℚ) < den := Nat.cast_pos.mpr hden
  have hhigh : (num : ℚ) / den - q ≤ 1 / 2 ↔ 2 * num ≤ 2 * (q * den) + den := by
    rw [sub_le_iff_le_add,div_le_iff₀ hd,← Nat.cast_le (α:=ℚ)]
    push_cast
    constructor <;> intro h <;> linarith
  have hlow : -(1 / 2) ≤ (num : ℚ) / den - q ↔ 2 * (q * den) ≤ 2 * num + den := by
    rw [neg_le_sub_iff_le_add,← sub_le_iff_le_add,le_div_iff₀ hd,← Nat.cast_le (α:=ℚ)]
    push_cast
    constructor <;> intro h <;> linarith
  rw [abs_le,hlow,hhigh,and_comm]

theorem roundDiv_near (hden : 0 < den) : |(num : ℚ) / den - roundDiv num den| ≤ 1 / 2 :=
  (abs_sub_le_half_iff hden _).mpr ⟨(roundDiv_spec num hden).1,(roundDiv_spec num hden).2.1⟩

theorem roundDiv_eq_of_even (hden : 0 < den) {q : Nat} (hq : Even q)
    (h : |(num : ℚ) / den - q| ≤ 1 / 2) : roundDiv num den = q := by
  obtain ⟨hhigh,hlow⟩ := (abs_sub_le_half_iff hden q).mp h
  obtain ⟨hhigh',hlow',htie⟩ := roundDiv_spec num hden
  generalize roundDiv num den = p at hhigh' hlow' htie
  rcases Nat.lt_trichotomy p q with hlt | heq | hgt
  · have hle : (p + 1) * den ≤ q * den := Nat.mul_le_mul_right den hlt
    rw [Nat.add_one_mul] at hle
    have heven := htie (Or.inl (by omega))
    have hnext : q * den = (p + 1) * den := by
      rw [Nat.add_one_mul]
      omega
    obtain rfl := Nat.eq_of_mul_eq_mul_right hden hnext
    exact absurd heven (Nat.even_add_one.mp hq)
  · exact heq
  · have hle : (q + 1) * den ≤ p * den := Nat.mul_le_mul_right den hgt
    rw [Nat.add_one_mul] at hle
    have heven := htie (Or.inr (by omega))
    have hnext : p * den = (q + 1) * den := by
      rw [Nat.add_one_mul]
      omega
    obtain rfl := Nat.eq_of_mul_eq_mul_right hden hnext
    exact absurd hq (Nat.even_add_one.mp heven)

/-! ### Rounding a positive fraction -/

/-- How a positive fraction is rounded: its magnitude, the exponent and the significand. -/
structure Rounding (r : ℚ) (k e : ℤ) (m : Nat) : Prop where
  low : 2 ^ k ≤ r
  high : r < 2 ^ (k + 1)
  exponent : e = max (k - 52) minExponent
  near : |r / 2 ^ e - m| ≤ 1 / 2
  even : ∀ q : Nat, Even q → |r / 2 ^ e - q| ≤ 1 / 2 → m = q

theorem rounding (hnum : 0 < num) (hden : 0 < den) : Rounding (num / den) (magnitude num den)
    (max (magnitude num den - 52) minExponent)
    (scaled num den (max (magnitude num den - 52) minExponent)) where
  low := (magnitude_spec hnum hden).1
  high := (magnitude_spec hnum hden).2
  exponent := rfl
  near := by
    rw [scaled_eq,← shifted_quotient]
    exact roundDiv_near (shifted_pos hden _)
  even q hq h := by
    rw [← shifted_quotient] at h
    rw [scaled_eq]
    exact roundDiv_eq_of_even (shifted_pos hden _) hq h

/-- Half of the distance from a number to the next binary64 number. -/
def slackAbove (n : Nat) : ℚ := if n = 0 then 2 ^ (-1075 : ℤ) else 2 ^ ((n.log2 : ℤ) - 53)

/-- Half of the distance from a number to the binary64 number before it, which is nearer if the number is
a power of two. -/
def slackBelow (n : Nat) : ℚ :=
  if n = 0 then 2 ^ (-1075 : ℤ)
  else if n = 2 ^ n.log2 then 2 ^ ((n.log2 : ℤ) - 54) else 2 ^ ((n.log2 : ℤ) - 53)

/-- No binary64 number is nearer to the fraction than `n` is. -/
def Near (n : Nat) (r : ℚ) : Prop := n - slackBelow n ≤ r ∧ r ≤ n + slackAbove n

theorem near_zero_iff (r : ℚ) : Near 0 r ↔ |r| ≤ 2 ^ (-1075 : ℤ) := by
  rw [Near,slackBelow,slackAbove,if_pos rfl,if_pos rfl,Nat.cast_zero,zero_sub,zero_add,abs_le]

theorem near_iff {n : Nat} (hn : 0 < n) (r : ℚ) : Near n r ↔
    (n : ℚ) - (if n = 2 ^ n.log2 then 2 ^ ((n.log2 : ℤ) - 54) else 2 ^ ((n.log2 : ℤ) - 53)) ≤ r ∧
      r ≤ n + 2 ^ ((n.log2 : ℤ) - 53) := by
  rw [Near,slackBelow,slackAbove,if_neg hn.ne',if_neg hn.ne']

theorem Near.pos {n : Nat} {r : ℚ} (hn : 0 < n) (h : Near n r) : 0 < r := by
  have hle := ((near_iff hn r).mp h).1
  have hslack {j : ℤ} (hj : j < n.log2) : (2 : ℚ) ^ j < n :=
    (zpow_two_lt_iff.mpr hj).trans_le (zpow_log2_le hn)
  split_ifs at hle
  · linarith [hslack (show (n.log2 : ℤ) - 54 < n.log2 by omega)]
  · linarith [hslack (show (n.log2 : ℤ) - 53 < n.log2 by omega)]

namespace Rounding

variable {r : ℚ} {k e : ℤ} {m : Nat}

theorem abs_div_sub_le_iff (r : ℚ) (e : ℤ) (q : ℚ) :
    |r / 2 ^ e - q| ≤ 1 / 2 ↔ |r - q * 2 ^ e| ≤ 2 ^ (e - 1) := by
  have he := zpow_two_pos e
  have hsub : r / 2 ^ e - q = (r - q * 2 ^ e) / 2 ^ e := by
    rw [sub_div,mul_div_cancel_right₀ _ he.ne']
  have hhalf : (1 / 2 : ℚ) * 2 ^ e = 2 ^ (e - 1) := by
    rw [zpow_sub_one₀ two_ne_zero]
    ring
  rw [hsub,abs_div,abs_of_pos he,div_le_iff₀ he,hhalf]

theorem error_le (h : Rounding r k e m) : |r - m * 2 ^ e| ≤ 2 ^ (e - 1) :=
  (abs_div_sub_le_iff r e m).mp h.near

theorem eq_of_even (h : Rounding r k e m) {q : Nat} (hq : Even q) (hnear : |r - q * 2 ^ e| ≤ 2 ^ (e - 1)) :
    m = q :=
  h.even q hq ((abs_div_sub_le_iff r e q).mpr hnear)

theorem le_two_pow (h : Rounding r k e m) : m ≤ 2 ^ 53 := by
  have hquotient : r / 2 ^ e < 2 ^ (53 : ℤ) := by
    rw [div_lt_iff₀ (zpow_two_pos e),← zpow_add₀ two_ne_zero]
    refine h.high.trans_le (zpow_two_le_iff.mpr ?_)
    have := h.exponent
    omega
  have hlow := (abs_le.mp h.near).1
  have hm : (m : ℚ) < 2 ^ 53 + 1 := by
    rw [show (2 : ℚ) ^ (53 : ℤ) = 2 ^ 53 from rfl] at hquotient
    linarith
  exact Nat.le_of_lt_succ (by exact_mod_cast hm)

theorem two_pow_le (h : Rounding r k e m) (he : e = k - 52) : 2 ^ 52 ≤ m := by
  have hquotient : 2 ^ (52 : ℤ) ≤ r / 2 ^ e := by
    rw [le_div_iff₀ (zpow_two_pos e),← zpow_add₀ two_ne_zero,he,add_sub_cancel]
    exact h.low
  have hhigh := (abs_le.mp h.near).2
  have hm : (2 ^ 52 : ℚ) < m + 1 := by
    rw [show (2 : ℚ) ^ (52 : ℤ) = 2 ^ 52 from rfl] at hquotient
    linarith
  exact Nat.le_of_lt_succ (by exact_mod_cast hm)

theorem magnitude_unique (h : Rounding r k e m) {j : ℤ} (hlow : 2 ^ j ≤ r) (hhigh : r < 2 ^ (j + 1)) :
    k = j := by
  have hle := zpow_two_lt_iff.mp (h.low.trans_lt hhigh)
  have hge := zpow_two_lt_iff.mp (hlow.trans_lt h.high)
  omega

theorem eq_zero_iff (h : Rounding r k e m) : m = 0 ↔ r ≤ 2 ^ (-1075 : ℤ) := by
  have hexponent := h.exponent
  rw [minExponent] at hexponent
  constructor
  · rintro rfl
    have he : e ≠ k - 52 := by
      intro he
      have := h.two_pow_le he
      omega
    obtain rfl : e = -1074 := by omega
    have herror := (abs_le.mp h.error_le).2
    rwa [Nat.cast_zero,zero_mul,sub_zero] at herror
  · intro hr
    have hk := zpow_two_le_iff.mp (h.low.trans hr)
    obtain rfl : e = -1074 := by omega
    refine h.eq_of_even (by decide) ?_
    have hpos : 0 < r := (zpow_two_pos k).trans_le h.low
    rwa [Nat.cast_zero,zero_mul,sub_zero,abs_of_pos hpos]

/-- The exponent at which a positive number is reached: its own or, from below a power of two, the one
before it. -/
theorem exponent_of_eq (h : Rounding r k e m) {n : Nat} (hn : 0 < n) (heq : m * 2 ^ e = (n : ℚ)) :
    (k = n.log2 ∧ e = n.log2 - 52) ∨ (n = 2 ^ n.log2 ∧ k = n.log2 - 1 ∧ e = n.log2 - 53) := by
  have hexponent := h.exponent
  rw [minExponent] at hexponent
  have hm : (m : ℚ) ≤ 2 ^ (53 : ℤ) := by exact_mod_cast h.le_two_pow
  have hone : (2 : ℚ) ^ (0 : ℤ) ≤ n := by
    rw [zpow_zero]
    exact_mod_cast hn
  have he : e = k - 52 := by
    have hle : (n : ℚ) ≤ 2 ^ (53 + e) := by
      rw [← heq,zpow_add₀ two_ne_zero]
      exact mul_le_mul_of_nonneg_right hm (zpow_two_pos e).le
    have := zpow_two_le_iff.mp (hone.trans hle)
    omega
  have hlow : (2 : ℚ) ^ k ≤ n := by
    have hm' : (2 : ℚ) ^ (52 : ℤ) ≤ m := by exact_mod_cast h.two_pow_le he
    rw [← heq,show k = 52 + e by omega,zpow_add₀ two_ne_zero]
    exact mul_le_mul_of_nonneg_right hm' (zpow_two_pos e).le
  have hlogLow := zpow_log2_le hn
  have hlogHigh := lt_zpow_log2 n
  have hk := zpow_two_lt_iff.mp (hlow.trans_lt hlogHigh)
  rcases h.le_two_pow.lt_or_eq with hlt | hcarry
  · left
    have hhigh : (n : ℚ) < 2 ^ (k + 1) := by
      have hlt' : (m : ℚ) < 2 ^ (53 : ℤ) := by exact_mod_cast hlt
      rw [← heq,show k + 1 = 53 + e by omega,zpow_add₀ two_ne_zero]
      exact mul_lt_mul_of_pos_right hlt' (zpow_two_pos e)
    have := zpow_two_lt_iff.mp (hlogLow.trans_lt hhigh)
    omega
  · right
    have hpower : (n : ℚ) = 2 ^ (k + 1) := by
      rw [← heq,hcarry,show k + 1 = 53 + e by omega,zpow_add₀ two_ne_zero]
      rfl
    have hlogGe := zpow_two_le_iff.mp (hpower ▸ hlogLow)
    have hlogLt := zpow_two_lt_iff.mp (hpower ▸ hlogHigh)
    obtain rfl : k = n.log2 - 1 := by omega
    refine ⟨?_,rfl,by omega⟩
    rw [sub_add_cancel] at hpower
    exact_mod_cast hpower

theorem near_of_eq (h : Rounding r k e m) {n : Nat} (hn : 0 < n) (heq : m * 2 ^ e = (n : ℚ)) :
    Near n r := by
  have herror := h.error_le
  rw [heq,abs_le] at herror
  rw [near_iff hn]
  rcases h.exponent_of_eq hn heq with ⟨rfl,rfl⟩ | ⟨hpower,rfl,rfl⟩
  · rw [show (n.log2 : ℤ) - 52 - 1 = n.log2 - 53 by ring] at herror
    refine ⟨?_,by linarith⟩
    split_ifs with hpower
    · -- The fraction is not below the power of two, as its magnitude is the same.
      have hlow : (n : ℚ) ≤ r := by
        rw [hpower]
        exact_mod_cast h.low
      linarith [zpow_two_pos ((n.log2 : ℤ) - 54)]
    · linarith
  · rw [show (n.log2 : ℤ) - 53 - 1 = n.log2 - 54 by ring] at herror
    have hhigh : r < n := by
      rw [hpower]
      have := h.high
      rw [sub_add_cancel] at this
      exact_mod_cast this
    rw [if_pos hpower]
    exact ⟨by linarith,by linarith [zpow_two_pos ((n.log2 : ℤ) - 53)]⟩

/-- A fraction with the magnitude of the number: the number has an even significand at its exponent. -/
theorem eq_of_near_of_le (h : Rounding r k e m) {n : Nat} (hn : 0 < n) (hlog : n.log2 < 52)
    (hnear : Near n r) (hlow : (2 : ℚ) ^ (n.log2 : ℤ) ≤ r) : m * 2 ^ e = (n : ℚ) := by
  rw [near_iff hn] at hnear
  have hhigh : r < 2 ^ ((n.log2 : ℤ) + 1) := by
    have hnext : (n : ℚ) + 1 ≤ 2 ^ ((n.log2 : ℤ) + 1) := by exact_mod_cast Nat.lt_log2_self
    linarith [zpow_le_half (show (n.log2 : ℤ) - 53 ≤ -1 by omega)]
  obtain rfl := h.magnitude_unique hlow hhigh
  obtain rfl : e = n.log2 - 52 := by
    have := h.exponent
    rw [minExponent] at this
    omega
  have hvalue : ((n * 2 ^ (52 - n.log2) : Nat) : ℚ) * 2 ^ ((n.log2 : ℤ) - 52) = n := by
    rw [show (n.log2 : ℤ) - 52 = -((52 - n.log2 : Nat) : ℤ) by omega,zpow_neg,zpow_natCast]
    push_cast
    rw [mul_assoc,mul_inv_cancel₀ (by positivity),mul_one]
  have heven : Even (n * 2 ^ (52 - n.log2)) := (Nat.even_pow.mpr ⟨even_two,by omega⟩).mul_left n
  rw [h.eq_of_even heven,hvalue]
  rw [hvalue,show (n.log2 : ℤ) - 52 - 1 = n.log2 - 53 by ring,abs_le]
  refine ⟨?_,by linarith⟩
  have hbelow : (2 : ℚ) ^ ((n.log2 : ℤ) - 54) ≤ 2 ^ ((n.log2 : ℤ) - 53) :=
    zpow_two_le_iff.mpr (by omega)
  split_ifs at hnear <;> linarith

/-- A fraction with a smaller magnitude is rounded up to a power of two, its significand to 2^53. -/
theorem eq_of_near_of_lt (h : Rounding r k e m) {n : Nat} (hn : 0 < n) (hlog : n.log2 < 52)
    (hnear : Near n r) (hlow : r < (2 : ℚ) ^ (n.log2 : ℤ)) : m * 2 ^ e = (n : ℚ) := by
  rw [near_iff hn] at hnear
  have hpower : n = 2 ^ n.log2 := by
    by_contra hne
    rw [if_neg hne] at hnear
    have hgt : 2 ^ n.log2 + 1 ≤ n := Nat.lt_of_le_of_ne (Nat.log2_self_le hn.ne') (Ne.symm hne)
    have hgt' : (2 : ℚ) ^ (n.log2 : ℤ) + 1 ≤ n := by exact_mod_cast hgt
    linarith [zpow_le_half (show (n.log2 : ℤ) - 53 ≤ -1 by omega)]
  rw [if_pos hpower] at hnear
  have hn' : (n : ℚ) = 2 ^ (n.log2 : ℤ) := by exact_mod_cast hpower
  have hhalf : (2 : ℚ) ^ (n.log2 : ℤ) = 2 * 2 ^ ((n.log2 : ℤ) - 1) := by
    rw [← zpow_one_add₀ two_ne_zero,add_sub_cancel]
  have hbelow : (2 : ℚ) ^ ((n.log2 : ℤ) - 54) ≤ 2 ^ ((n.log2 : ℤ) - 1) :=
    zpow_two_le_iff.mpr (by omega)
  obtain rfl := h.magnitude_unique (j:=n.log2 - 1) (by linarith) (by rwa [sub_add_cancel])
  obtain rfl : e = n.log2 - 53 := by
    have := h.exponent
    rw [minExponent] at this
    omega
  have hvalue : ((2 ^ 53 : Nat) : ℚ) * 2 ^ ((n.log2 : ℤ) - 53) = n := by
    rw [hn',Nat.cast_pow,← zpow_natCast,Nat.cast_two,← zpow_add₀ two_ne_zero]
    congr 1
    omega
  have heven : Even (2 ^ 53) := by decide
  rw [h.eq_of_even heven,hvalue]
  rw [hvalue,show (n.log2 : ℤ) - 53 - 1 = n.log2 - 54 by ring,abs_le]
  exact ⟨by linarith,by linarith [zpow_two_pos ((n.log2 : ℤ) - 54)]⟩

theorem eq_iff_near (h : Rounding r k e m) {n : Nat} (hsmall : n < 2 ^ 52) :
    m * 2 ^ e = (n : ℚ) ↔ Near n r := by
  rcases Nat.eq_zero_or_pos n with rfl | hn
  · have hpos : 0 < r := (zpow_two_pos k).trans_le h.low
    rw [Nat.cast_zero,mul_eq_zero,or_iff_left (zpow_two_pos e).ne',Nat.cast_eq_zero,h.eq_zero_iff,
      near_zero_iff,abs_of_pos hpos]
  · have hlog : n.log2 < 52 := (Nat.log2_lt hn.ne').mpr hsmall
    refine ⟨h.near_of_eq hn,fun hnear => ?_⟩
    rcases le_or_gt ((2 : ℚ) ^ (n.log2 : ℤ)) r with hlow | hlow
    · exact h.eq_of_near_of_le hn hlog hnear hlow
    · exact h.eq_of_near_of_lt hn hlog hnear hlow

theorem ne_of_exponent (h : Rounding r k e m) (he : 0 ≤ e) {n : Nat} (hsmall : n < 2 ^ 52) :
    m * 2 ^ e ≠ (n : ℚ) := by
  intro heq
  have hm : 2 ^ 52 ≤ m := by
    refine h.two_pow_le ?_
    have := h.exponent
    rw [minExponent] at this
    omega
  have hm' : (n : ℚ) < m := by exact_mod_cast hsmall.trans_le hm
  have hscale : (m : ℚ) * 1 ≤ m * 2 ^ e :=
    mul_le_mul_of_nonneg_left (one_le_zpow₀ one_le_two he) (Nat.cast_nonneg m)
  linarith

end Rounding

/-! ### Rounding to a natural number -/

theorem toNat?_eq_some_iff (negative : Bool) (m : Nat) (e : ℤ) (n : Nat) :
    toNat? ⟨negative,m,e⟩ = some n ↔ (negative = true → m = 0) ∧ m * 2 ^ e = (n : ℚ) := by
  by_cases hsign : (negative && m != 0) = true
  · rw [toNat?,if_pos hsign]
    rw [Bool.and_eq_true,bne_iff_ne] at hsign
    simp [hsign]
  · have hsign' : negative = true → m = 0 := by simpa using hsign
    rw [toNat?,if_neg hsign,and_iff_right hsign']
    by_cases he : 0 ≤ e
    · rw [if_pos he]
      obtain ⟨k,rfl⟩ := Int.eq_ofNat_of_zero_le he
      rw [Option.some.injEq,Nat.shiftLeft_eq,Int.toNat_natCast,zpow_natCast]
      norm_cast
    · rw [if_neg he]
      obtain ⟨k,hk⟩ := Int.eq_ofNat_of_zero_le (show 0 ≤ -e by omega)
      obtain rfl : e = -(k : ℤ) := by omega
      have hvalue : (m : ℚ) * 2 ^ (-(k : ℤ)) = n ↔ m = n * 2 ^ k := by
        rw [zpow_neg,zpow_natCast,← div_eq_mul_inv,div_eq_iff (by positivity)]
        norm_cast
      simp only [hvalue,Int.neg_neg,Int.toNat_natCast,Nat.one_shiftLeft]
      split_ifs with hmod
      · rw [Option.some.injEq,Nat.div_eq_iff_eq_mul_left (Nat.two_pow_pos k) (Nat.dvd_of_mod_eq_zero hmod)]
      · refine iff_of_false (by simp) ?_
        rintro rfl
        exact hmod (Nat.mul_mod_left n _)

/-- The value of a rounded fraction, also where its significand is halved. -/
theorem toNat?_round_eq_some_iff (negative : Bool) (hnum : 0 < num) {k e : ℤ} {m : Nat}
    (h : Rounding (num / den) k e m) (he : max (magnitude num den - 52) minExponent = e)
    (hm : scaled num den e = m) {n : Nat} (hsmall : n < 2 ^ 52) :
    (round negative num den).bind toNat? = some n ↔
      (negative = true → m = 0) ∧ m * 2 ^ e = (n : ℚ) := by
  simp only [round,if_neg hnum.ne',he,hm]
  by_cases hcarry : m = 1 <<< 53
  · simp only [if_pos hcarry]
    split_ifs with hinfinite
    · rw [maxExponent] at hinfinite
      exact iff_of_false (by simp) fun hvalue => h.ne_of_exponent (by omega) hsmall hvalue.2
    · have hvalue : (((1 <<< 52 : Nat)) : ℚ) * 2 ^ (e + 1) = m * 2 ^ e := by
        have hdouble : ((1 <<< 53 : Nat) : ℚ) = (1 <<< 52 : Nat) * 2 := by norm_cast
        rw [hcarry,hdouble,zpow_add_one₀ two_ne_zero]
        ring
      have hm' : m ≠ 0 := by
        rw [hcarry]
        decide
      have hhalf : (1 <<< 52 : Nat) ≠ 0 := by decide
      rw [Option.bind_some,toNat?_eq_some_iff,hvalue,iff_false_intro hhalf,iff_false_intro hm']
  · simp only [if_neg hcarry]
    split_ifs with hinfinite
    · rw [maxExponent] at hinfinite
      exact iff_of_false (by simp) fun hvalue => h.ne_of_exponent (by omega) hsmall hvalue.2
    · rw [Option.bind_some,toNat?_eq_some_iff]

def signed (negative : Bool) (r : ℚ) : ℚ := if negative then -r else r

theorem abs_signed (negative : Bool) (r : ℚ) : |signed negative r| = |r| := by
  cases negative <;> simp [signed]

/-- A fraction is rounded to the natural number that it is near to. -/
theorem toNat?_round_iff (negative : Bool) (num : Nat) (hden : 0 < den) {n : Nat}
    (hsmall : n < 2 ^ 52) :
    (round negative num den).bind toNat? = some n ↔ Near n (signed negative (num / den)) := by
  rcases Nat.eq_zero_or_pos num with rfl | hnum
  · have hzero : signed negative (((0 : Nat) : ℚ) / den) = 0 := by
      cases negative <;> simp [signed]
    rw [hzero]
    have hround : (round negative 0 den).bind toNat? = some 0 := by
      cases negative <;> rfl
    rw [hround,Option.some.injEq]
    rcases Nat.eq_zero_or_pos n with rfl | hn
    · rw [near_zero_iff,abs_zero]
      exact iff_of_true rfl (zpow_two_pos _).le
    · exact iff_of_false hn.ne fun hnear => absurd (hnear.pos hn) (lt_irrefl 0)
  · have h := rounding hnum hden
    have hpos : (0 : ℚ) < num / den := (zpow_two_pos _).trans_le h.low
    rw [toNat?_round_eq_some_iff negative hnum h rfl rfl hsmall,h.eq_iff_near hsmall]
    cases negative with
    | false => simp [signed]
    | true =>
      -- A negative fraction is near to no other number than zero.
      simp only [signed,if_true,forall_const]
      rcases Nat.eq_zero_or_pos n with rfl | hn
      · rw [near_zero_iff,near_zero_iff,abs_neg,h.eq_zero_iff,abs_of_pos hpos,and_self]
      · refine iff_of_false ?_ fun hnear => absurd (hnear.pos hn) (by linarith)
        rintro ⟨hzero,hnear⟩
        have hvalue := (h.eq_iff_near hsmall).mpr hnear
        rw [hzero,Nat.cast_zero,zero_mul] at hvalue
        exact hn.ne (by exact_mod_cast hvalue)

end Binary64
end CircuitNotes
