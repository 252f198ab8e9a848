import CircuitNotes.Gate.Argument
import CircuitNotes.Proofs.BinaryRounding
import CircuitNotes.Proofs.NumeralGrammar

/-! Which arguments are qubits. A numeral is rounded to a binary64 number before it is asked whether it is
an index. So an index stands for all the numbers that are rounded to it, and not only for itself; a numeral
with so few digits that rounding cannot reach an integer from elsewhere is the index that it denotes. -/
namespace CircuitNotes

/-! ### Numbers near an index -/

namespace Binary64

theorem near_self (n : Nat) : Near n n := by
  have hbelow : 0 < slackBelow n := by
    unfold slackBelow
    split_ifs <;> exact zpow_two_pos _
  have habove : 0 < slackAbove n := by
    unfold slackAbove
    split_ifs <;> exact zpow_two_pos _
  exact ⟨by linarith,by linarith⟩

/-- What is near a positive number differs from it by no more than one part in 2^53. -/
theorem Near.abs_sub_le {n : Nat} {r : ℚ} (hn : 0 < n) (h : Near n r) : |r - n| ≤ n / 2 ^ 53 := by
  have hslack : (2 : ℚ) ^ ((n.log2 : ℤ) - 53) ≤ n / 2 ^ 53 := by
    rw [zpow_sub₀ two_ne_zero]
    exact div_le_div_of_nonneg_right (zpow_log2_le hn) (by positivity)
  have hsmaller : (2 : ℚ) ^ ((n.log2 : ℤ) - 54) ≤ 2 ^ ((n.log2 : ℤ) - 53) :=
    zpow_two_le_iff.mpr (by omega)
  obtain ⟨hlow,hhigh⟩ := (near_iff hn r).mp h
  rw [abs_le]
  refine ⟨?_,by linarith⟩
  split_ifs at hlow <;> linarith

theorem near_iff_of_tiny {n : Nat} {r : ℚ} (h : |r| ≤ 2 ^ (-1075 : ℤ)) : Near n r ↔ n = 0 := by
  rcases Nat.eq_zero_or_pos n with rfl | hn
  · exact iff_of_true ((near_zero_iff r).mpr h) rfl
  · refine iff_of_false (fun hnear => ?_) hn.ne'
    have hone : (1 : ℚ) ≤ n := by exact_mod_cast hn
    have hclose := (abs_le.mp (hnear.abs_sub_le hn)).1
    have htiny := zpow_le_half (show (-1075 : ℤ) ≤ -1 by decide)
    linarith [le_abs_self r]

theorem not_near_of_large {n : Nat} (hsmall : n < 2 ^ 52) {r : ℚ} (h : 2 ^ 53 ≤ |r|) : ¬Near n r := by
  intro hnear
  rcases Nat.eq_zero_or_pos n with rfl | hn
  · have htiny := zpow_le_half (show (-1075 : ℤ) ≤ -1 by decide)
    linarith [(near_zero_iff r).mp hnear]
  · have hsmall' : (n : ℚ) < 2 ^ 52 := by exact_mod_cast hsmall
    have hclose := (abs_le.mp (hnear.abs_sub_le hn)).2
    rw [abs_of_pos (hnear.pos hn)] at h
    linarith

/-- From a numeral with few digits no other number than its own is near. -/
theorem Near.eq_of_digits {n digits base : Nat} {e : ℤ} (hn : 0 < n) (hsmall : n < 2 ^ 52)
    (hbase : 0 < base) (hdigits : digits < 2 ^ 53 - 1) (h : Near n (digits * (base : ℚ) ^ e)) :
    digits * (base : ℚ) ^ e = n := by
  have hclose := h.abs_sub_le hn
  rcases le_or_gt 0 e with he | he
  · -- Two integers that differ by less than one.
    obtain ⟨k,rfl⟩ := Int.eq_ofNat_of_zero_le he
    have hsmall' : (n : ℚ) < 2 ^ 52 := by exact_mod_cast hsmall
    have hless : |((digits * base ^ k : Nat) : ℤ) - (n : ℤ)| < 1 := by
      have hless' : |((digits * base ^ k : Nat) : ℚ) - n| < 1 := by
        push_cast
        rw [zpow_natCast] at hclose
        linarith
      exact_mod_cast hless'
    rw [Int.abs_lt_one_iff,sub_eq_zero] at hless
    rw [zpow_natCast]
    exact_mod_cast hless
  · obtain ⟨k,hk⟩ := Int.eq_ofNat_of_zero_le (show 0 ≤ -e by omega)
    obtain rfl : e = -(k : ℤ) := by omega
    have hpow : (0 : ℚ) < base ^ k := by positivity
    rw [zpow_neg,zpow_natCast,← div_eq_mul_inv] at hclose ⊢
    rw [div_eq_iff hpow.ne']
    have hscaled : |(digits : ℚ) - n * base ^ k| ≤ n * base ^ k / 2 ^ 53 := by
      have hsub : (digits : ℚ) / base ^ k - n = (digits - n * base ^ k) / base ^ k := by
        rw [sub_div,mul_div_cancel_right₀ _ hpow.ne']
      rw [hsub,abs_div,abs_of_pos hpow,div_le_iff₀ hpow] at hclose
      linarith
    by_contra hne
    -- Otherwise the numerators differ by one at least, and both are as large as 2^53.
    have hone : (1 : ℚ) ≤ |(digits : ℚ) - n * base ^ k| := by
      have hne' : (digits : ℤ) - n * base ^ k ≠ 0 := by
        rw [sub_ne_zero]
        exact_mod_cast hne
      exact_mod_cast Int.one_le_abs hne'
    have hdigits' : (digits : ℚ) < 2 ^ 53 - 1 := by
      have : digits + 1 < 2 ^ 53 := by omega
      have : (digits : ℚ) + 1 < 2 ^ 53 := by exact_mod_cast this
      linarith
    linarith [(abs_le.mp hscaled).1]

end Binary64

/-! ### The value of a numeral -/

namespace Numeral

open Binary64 (Near signed)

def base (n : Numeral) : Nat := if n.binary then 2 else 10

theorem two_le_base (n : Numeral) : 2 ≤ n.base := by
  unfold base
  split_ifs <;> decide

def rational (n : Numeral) : ℚ := signed n.negative (n.digits * (n.base : ℚ) ^ n.exponent)

theorem fraction_pos (n : Numeral) : 0 < n.fraction.2 := by
  unfold fraction
  split_ifs <;> first | exact one_pos | exact Nat.pow_pos (by decide)

theorem fraction_quotient (n : Numeral) :
    (n.fraction.1 : ℚ) / n.fraction.2 = n.digits * (n.base : ℚ) ^ n.exponent := by
  simp only [fraction,Nat.pow_eq,base]
  generalize (if n.binary = true then 2 else 10) = base
  split_ifs with he
  · obtain ⟨k,hk⟩ := Int.eq_ofNat_of_zero_le he
    rw [hk,Int.toNat_natCast,zpow_natCast]
    push_cast
    rw [div_one]
  · obtain ⟨k,hk⟩ := Int.eq_ofNat_of_zero_le (show 0 ≤ -n.exponent by omega)
    rw [hk,Int.toNat_natCast,show n.exponent = -(k : ℤ) by omega,zpow_neg,zpow_natCast,
      ← div_eq_mul_inv]
    push_cast
    rfl

theorem toNat?_toBinary64?_iff (n : Numeral) {k : Nat} (hsmall : k < 2 ^ 52) :
    n.toBinary64?.bind Binary64.toNat? = some k ↔ Near k n.rational := by
  rw [toBinary64?,Binary64.toNat?_round_iff _ _ n.fraction_pos hsmall,fraction_quotient,rational]

/-! ### Long exponents -/

theorem valueOf_concat (base : Nat) (ds : Text) (b : UInt8) :
    valueOf base (ds ++ [b]) = valueOf base ds * base + (Integer.digit? b).getD 0 := by
  simp [valueOf]

theorem exponentValue_concat (ds : Text) (b : UInt8) : exponentValue (ds ++ [b]) =
    if exponentValue ds < 10000 then exponentValue ds * 10 + (Integer.digit? b).getD 0
    else exponentValue ds := by
  rw [exponentValue,List.foldl_append]
  rfl

theorem digit_lt {base : Nat} {b : UInt8} (h : isDigit base b = true) :
    (Integer.digit? b).getD 0 < base := by
  unfold isDigit at h
  split at h
  · rename_i d hd
    simpa [hd] using h
  · cases h

theorem valueOf_lt {base : Nat} {ds : Text} (h : ∀ b ∈ ds, isDigit base b = true) :
    valueOf base ds < base ^ ds.length := by
  induction ds using List.reverseRecOn with
  | nil => simp [valueOf]
  | append_singleton ds b ih =>
    have hds := ih fun c hc => h c (List.mem_append_left _ hc)
    have hb := digit_lt (h b (by simp))
    rw [valueOf_concat,List.length_append,List.length_singleton,Nat.pow_succ]
    calc valueOf base ds * base + (Integer.digit? b).getD 0
        < valueOf base ds * base + base := Nat.add_lt_add_left hb _
      _ = (valueOf base ds + 1) * base := (Nat.add_one_mul _ _).symm
      _ ≤ base ^ ds.length * base := Nat.mul_le_mul_right base hds

/-- Up to five digits count; of what is longer the first five are left. -/
theorem exponentValue_spec {ds : Text} (h : ∀ b ∈ ds, isDigit 10 b = true) :
    (valueOf 10 ds < 100000 ∧ exponentValue ds = valueOf 10 ds) ∨
      (100000 ≤ valueOf 10 ds ∧ 10000 ≤ exponentValue ds) := by
  induction ds using List.reverseRecOn with
  | nil => exact Or.inl ⟨by decide,rfl⟩
  | append_singleton ds b ih =>
    have hds := ih fun c hc => h c (List.mem_append_left _ hc)
    have hb := digit_lt (h b (by simp))
    rw [valueOf_concat,exponentValue_concat]
    split_ifs <;> omega

example : exponentValue (Text.ofString "100001") = 10000 := by decide

/-! ### Short numerals -/

theorem abs_rational (n : Numeral) : |n.rational| = n.digits * (n.base : ℚ) ^ n.exponent := by
  rw [rational,Binary64.abs_signed,abs_of_nonneg (by positivity)]

theorem abs_rational_le {n : Numeral} {k : Nat} (hdigits : n.digits ≤ 2 ^ k) (he : n.exponent ≤ 0) :
    |n.rational| ≤ 2 ^ (k + n.exponent) := by
  have hbase : (2 : ℚ) ≤ n.base := by exact_mod_cast n.two_le_base
  have hpow : (n.base : ℚ) ^ n.exponent ≤ 2 ^ n.exponent := by
    obtain ⟨j,hj⟩ := Int.eq_ofNat_of_zero_le (show 0 ≤ -n.exponent by omega)
    rw [show n.exponent = -(j : ℤ) by omega,zpow_neg,zpow_neg,zpow_natCast,zpow_natCast]
    exact inv_anti₀ (by positivity) (pow_le_pow_left₀ two_pos.le hbase j)
  have hdigits' : (n.digits : ℚ) ≤ 2 ^ (k : ℤ) := by exact_mod_cast hdigits
  rw [abs_rational,zpow_add₀ two_ne_zero]
  exact mul_le_mul hdigits' hpow (by positivity) (by positivity)

theorem le_abs_rational {n : Numeral} (hdigits : 0 < n.digits) (he : 0 ≤ n.exponent) :
    2 ^ n.exponent ≤ |n.rational| := by
  have hbase : (2 : ℚ) ≤ n.base := by exact_mod_cast n.two_le_base
  have hone : (1 : ℚ) ≤ n.digits := by exact_mod_cast hdigits
  rw [abs_rational]
  calc (2 : ℚ) ^ n.exponent ≤ (n.base : ℚ) ^ n.exponent := zpow_le_zpow_left₀ he two_pos.le hbase
    _ ≤ n.digits * (n.base : ℚ) ^ n.exponent := le_mul_of_one_le_left (by positivity) hone

theorem rational_eq_zero {n : Numeral} (h : n.digits = 0) : n.rational = 0 := by
  rw [← abs_eq_zero,abs_rational,h,Nat.cast_zero,zero_mul]

theorem near_rational_iff {m : Numeral} (hdigits : m.digits < 2 ^ 53 - 1)
    (hsize : m.digits = 0 ∨ 2 ^ (-1075 : ℤ) < |m.rational|) {n : Nat} (hsmall : n < 2 ^ 52) :
    Near n m.rational ↔ m.rational = n := by
  refine ⟨fun hnear => ?_,fun heq => heq ▸ Binary64.near_self n⟩
  rcases Nat.eq_zero_or_pos n with rfl | hn
  · have hzero := hsize.resolve_right (not_lt.mpr ((Binary64.near_zero_iff _).mp hnear))
    rw [rational_eq_zero hzero,Nat.cast_zero]
  · have hpos := hnear.pos hn
    have hvalue := m.abs_rational
    rw [abs_of_pos hpos] at hvalue
    rw [hvalue] at hnear ⊢
    exact hnear.eq_of_digits hn hsmall (two_pos.trans_le m.two_le_base) hdigits

namespace Spelling

variable (s : Spelling)

def exponent : Nat := (s.power.map fun p => valueOf 10 (digitsOf 10 p.digits)).getD 0

theorem length_digits_le : s.digits.length ≤ s.text.length := by
  have hwhole : (digitsOf s.base s.whole).length ≤ s.whole.length := List.length_filter_le _ _
  have hfrac : (digitsOf s.base (s.frac.getD [])).length ≤ s.pointText.length := by
    refine (List.length_filter_le _ _).trans ?_
    unfold pointText
    cases s.frac <;> simp
  simp only [digits,text,body,List.length_append]
  omega

theorem valueOf_digits_lt : valueOf s.base s.digits < 2 ^ (4 * s.text.length) := by
  have hdigits : ∀ b ∈ s.digits, isDigit s.base b = true := by
    intro b hb
    rcases List.mem_append.mp hb with hb | hb
    · exact (List.mem_filter.mp hb).2
    · exact (List.mem_filter.mp hb).2
  have hbase : s.base ≤ 16 := by
    unfold base radix
    split_ifs <;> decide
  calc valueOf s.base s.digits < s.base ^ s.digits.length := valueOf_lt hdigits
    _ ≤ 16 ^ s.digits.length := Nat.pow_le_pow_left hbase _
    _ ≤ 16 ^ s.text.length := Nat.pow_le_pow_right (by decide) s.length_digits_le
    _ = 2 ^ (4 * s.text.length) := by rw [Nat.pow_mul]

theorem places_bounds : 0 ≤ s.places ∧ s.places ≤ 4 * s.text.length := by
  have hlength := s.length_digits_le
  rw [digits,List.length_append] at hlength
  unfold places
  split_ifs <;> omega

variable {s}

/-- With an exponent from 10000 on, the number of a short text is zero, or so small that it is rounded to
zero, or larger than all indices. Which of these it is does not depend on the exponent. -/
theorem near_numeralBy_iff {read : Text → Nat} (hlength : s.text.length ≤ 2000) {p : Power}
    (hp : s.power = some p) (hread : 10000 ≤ read (digitsOf 10 p.digits)) {n : Nat}
    (hsmall : n < 2 ^ 52) : Near n (s.numeralBy read).rational ↔
      n = 0 ∧ (valueOf s.base s.digits = 0 ∨ p.sign = .minus) := by
  have hplaces := s.places_bounds
  have hexponent : (s.numeralBy read).exponent = p.valueBy read - s.places := by
    simp [numeralBy,hp]
  by_cases hzero : valueOf s.base s.digits = 0
  · have htiny : |(s.numeralBy read).rational| ≤ 2 ^ (-1075 : ℤ) := by
      rw [rational_eq_zero hzero,abs_zero]
      exact (Binary64.zpow_two_pos _).le
    rw [Binary64.near_iff_of_tiny htiny,and_iff_left (Or.inl hzero)]
  · by_cases hsign : p.sign = .minus
    · rw [Power.valueBy,if_pos hsign] at hexponent
      have htiny : |(s.numeralBy read).rational| ≤ 2 ^ (-1075 : ℤ) := by
        have hle := abs_rational_le (n:=s.numeralBy read) s.valueOf_digits_lt.le (by omega)
        refine hle.trans (Binary64.zpow_two_le_iff.mpr ?_)
        omega
      rw [Binary64.near_iff_of_tiny htiny,and_iff_left (Or.inr hsign)]
    · rw [Power.valueBy,if_neg hsign] at hexponent
      have hlarge : 2 ^ (53 : ℤ) ≤ |(s.numeralBy read).rational| := by
        have hle := le_abs_rational (n:=s.numeralBy read) (Nat.pos_of_ne_zero hzero) (by omega)
        refine le_trans (Binary64.zpow_two_le_iff.mpr ?_) hle
        omega
      refine iff_of_false (Binary64.not_near_of_large hsmall hlarge) ?_
      rintro ⟨-,h | h⟩
      · exact hzero h
      · exact hsign h

/-- The way in which long exponents are read changes no index of a short text. -/
theorem near_asRead_iff (h : s.exponent < 100000 ∨ s.text.length ≤ 2000) {n : Nat}
    (hsmall : n < 2 ^ 52) : Near n s.asRead.rational ↔ Near n s.meant.rational := by
  cases hp : s.power with
  | none =>
    have heq : s.asRead = s.meant := by simp [asRead,meant,numeralBy,hp]
    rw [heq]
  | some p =>
    have hdigits : ∀ b ∈ digitsOf 10 p.digits, isDigit 10 b = true :=
      fun b hb => (List.mem_filter.mp hb).2
    rcases exponentValue_spec hdigits with ⟨-,heq⟩ | ⟨hlong,hread⟩
    · have heq' : s.asRead = s.meant := by simp [asRead,meant,numeralBy,Power.valueBy,hp,heq]
      rw [heq']
    · have hlength := h.resolve_left (by simp [exponent,hp,hlong])
      rw [asRead,meant,near_numeralBy_iff hlength hp hread hsmall,
        near_numeralBy_iff hlength hp (le_trans (by decide) hlong) hsmall]

end Spelling
end Numeral

/-! ### Indices -/

namespace Argument

open Binary64 (Near)

theorem exists_ofText {raw : Text} {a : Argument} (h : a ∈ split raw) : ∃ t, a = ofText t := by
  simp only [split] at h
  split_ifs at h
  · cases h
  · obtain ⟨piece,-,rfl⟩ := List.mem_map.mp h
    exact ⟨_,rfl⟩

theorem qubit?_eq_some_iff (t : Text) (n : Nat) : (ofText t).qubit? = some n ↔
    ∃ m, Numeral.read? t = some m ∧ n ≤ maxQubit ∧ Near n m.rational := by
  have hqubit : (ofText t).qubit? = (Numeral.read? t).bind fun m =>
      (m.toBinary64?.bind Binary64.toNat?).bind fun n => if n ≤ maxQubit then some n else none := by
    simp only [Option.bind_assoc]
    rw [← Option.bind_assoc]
    rfl
  rw [hqubit,Option.bind_eq_some_iff]
  refine exists_congr fun m => and_congr_right fun _ => ?_
  rw [Option.bind_eq_some_iff]
  constructor
  · rintro ⟨k,hk,hle⟩
    split_ifs at hle with hmax
    obtain rfl := Option.some.inj hle
    exact ⟨hmax,(m.toNat?_toBinary64?_iff (by rw [maxQubit] at hmax; omega)).mp hk⟩
  · rintro ⟨hmax,hnear⟩
    exact ⟨n,(m.toNat?_toBinary64?_iff (by rw [maxQubit] at hmax; omega)).mpr hnear,if_pos hmax⟩

end Argument

open Binary64 (Near)

/-- An argument that is no numeral is no qubit. A numeral is the qubit that the number read from it is
rounded to, and no qubit if that is no index. The number read is the one denoted, unless the exponent is
from 100000 on; it makes no difference then either if the text is short. Where the digits denote a number
below 2^53-1 and the numeral is zero or not too small, the qubit is the number itself. -/
theorem numerals_denote_qubits {raw : Text} {a : Argument} (ha : a ∈ Argument.split raw) :
    ((¬∃ s : Numeral.Spelling, s.Proper ∧ s.text = a.text) → a.qubit? = none) ∧
    ∀ s : Numeral.Spelling, s.Proper → s.text = a.text →
      (∀ n, a.qubit? = some n ↔ n ≤ 2147483647 ∧ Near n s.asRead.rational) ∧
      (s.exponent < 100000 ∨ a.text.length ≤ 2000 →
        (∀ n, a.qubit? = some n ↔ n ≤ 2147483647 ∧ Near n s.meant.rational) ∧
        (s.meant.digits < 2 ^ 53 - 1 →
          s.meant.digits = 0 ∨ 2 ^ (-1075 : ℤ) < |s.meant.rational| →
          ∀ n, a.qubit? = some n ↔ n ≤ 2147483647 ∧ s.meant.rational = n)) := by
  obtain ⟨t,rfl⟩ := Argument.exists_ofText ha
  refine ⟨?_,?_⟩
  · intro hnone
    rw [Option.eq_none_iff_forall_not_mem]
    intro n hn
    obtain ⟨m,hm,-⟩ := (Argument.qubit?_eq_some_iff t n).mp hn
    obtain ⟨s,hs,htext,-⟩ := Numeral.read?_eq_some_iff.mp hm
    exact hnone ⟨s,hs,htext⟩
  · intro s hs htext
    have hread : Numeral.read? t = some s.asRead := Numeral.read?_eq_some_iff.mpr ⟨s,hs,htext,rfl⟩
    have hqubit (n : Nat) : (Argument.ofText t).qubit? = some n ↔
        n ≤ 2147483647 ∧ Near n s.asRead.rational := by
      rw [Argument.qubit?_eq_some_iff,hread]
      simp [Argument.maxQubit]
    have hbound {n : Nat} (hn : n ≤ 2147483647) : n < 2 ^ 52 := by omega
    refine ⟨hqubit,fun hshort => ?_⟩
    rw [← htext] at hshort
    have hmeant (n : Nat) : (Argument.ofText t).qubit? = some n ↔
        n ≤ 2147483647 ∧ Near n s.meant.rational := by
      rw [hqubit]
      exact and_congr_right fun hn => Numeral.Spelling.near_asRead_iff hshort (hbound hn)
    refine ⟨hmeant,fun hdigits hsize n => ?_⟩
    rw [hmeant]
    exact and_congr_right fun hn => Numeral.near_rational_iff hdigits hsize (hbound hn)

def Numeral.Spelling.wholeFraction : Numeral.Spelling :=
  ⟨.none,none,Text.ofString "1_0",some (Text.ofString "50"),
    some ⟨'e'.toUInt8,.none,Text.ofString "1"⟩⟩

theorem Numeral.Spelling.proper_wholeFraction : wholeFraction.Proper := by
  refine ⟨⟨by simp [wholeFraction],?_,by simp [wholeFraction]⟩,?_,?_,Or.inl (by decide),?_⟩
  · rintro p ⟨rfl⟩
    decide
  · exact Or.inr (Or.inl (.line (by decide) (.last (by decide))))
  · rintro f ⟨rfl⟩
    exact Or.inr (.digit (by decide) (.last (by decide)))
  · rintro p ⟨rfl⟩
    exact .last (by decide)

/-- A fraction that is an integer is the qubit that it denotes. -/
theorem numerals_denote_qubits_sample :
    Argument.split (Text.ofString "1_0.50e1") = [Argument.ofText (Text.ofString "1_0.50e1")] ∧
    (Argument.ofText (Text.ofString "1_0.50e1")).qubit? = some 105 := by
  have hsplit : Argument.split (Text.ofString "1_0.50e1") =
      [Argument.ofText (Text.ofString "1_0.50e1")] := by decide +kernel
  have hmem : Argument.ofText (Text.ofString "1_0.50e1") ∈
      Argument.split (Text.ofString "1_0.50e1") := by
    rw [hsplit]
    exact List.mem_singleton_self _
  have hmeant : Numeral.Spelling.wholeFraction.meant = ⟨false,false,1050,-1⟩ := by decide
  have hvalue : Numeral.Spelling.wholeFraction.meant.rational = 105 := by
    rw [hmeant]
    norm_num [Numeral.rational,Binary64.signed,Numeral.base]
  have hsize : (2 : ℚ) ^ (-1075 : ℤ) < |Numeral.Spelling.wholeFraction.meant.rational| := by
    rw [hvalue,abs_of_pos (by norm_num)]
    linarith [Binary64.zpow_le_half (show (-1075 : ℤ) ≤ -1 by decide)]
  have hqubit := ((numerals_denote_qubits hmem).2 _ Numeral.Spelling.proper_wholeFraction
    (by decide)).2 (Or.inr (by decide))
  refine ⟨hsplit,(hqubit.2 ?_ (Or.inr hsize) 105).mpr ⟨by decide,hvalue⟩⟩
  rw [hmeant]
  decide

def Numeral.Spelling.belowOne : Numeral.Spelling :=
  ⟨.none,none,Text.ofString "0",some (List.replicate 20 57),none⟩

theorem Numeral.Spelling.proper_belowOne : belowOne.Proper := by
  refine ⟨⟨by simp [belowOne],by simp [belowOne],by simp [belowOne]⟩,?_,?_,Or.inl (by decide),
    by simp [belowOne]⟩
  · exact Or.inr (Or.inl (.last (by decide)))
  · rintro f ⟨rfl⟩
    refine Or.inr (run_of_digits (by decide) fun b hb => ?_)
    rw [List.eq_of_mem_replicate hb]
    decide

/-- A number below one that is rounded to one, and so the qubit one. -/
theorem fraction_read_as_qubit : Numeral.Spelling.belowOne.Proper ∧
    Numeral.Spelling.belowOne.text = Text.ofString "0.99999999999999999999" ∧
    (∀ n : Nat, Numeral.Spelling.belowOne.meant.rational ≠ n) ∧
    (Argument.split (Text.ofString "0.99999999999999999999")).map Argument.qubit? = [some 1] := by
  refine ⟨Numeral.Spelling.proper_belowOne,by decide,fun n hn => ?_,by decide +kernel⟩
  have hmeant : Numeral.Spelling.belowOne.meant = ⟨false,false,99999999999999999999,-20⟩ := by decide
  have hvalue : Numeral.Spelling.belowOne.meant.rational = 99999999999999999999 / 10 ^ 20 := by
    rw [hmeant]
    norm_num [Numeral.rational,Binary64.signed,Numeral.base]
  rw [hvalue] at hn
  have hpos : (0 : ℚ) < n := by
    rw [← hn]
    norm_num
  have hlt : (n : ℚ) < 1 := by
    rw [← hn]
    norm_num
  have hpos' : 0 < n := by exact_mod_cast hpos
  have hlt' : n < 1 := by exact_mod_cast hlt
  omega

end CircuitNotes
