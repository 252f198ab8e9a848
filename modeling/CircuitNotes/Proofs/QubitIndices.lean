import CircuitNotes.Proofs.ArgumentTexts

/-! Qubit indices written with decimal digits. A natural number below 2^53 is a binary64 number, so
rounding leaves it as it is; a larger one does not get below 2^52 by rounding, or is too large for a
binary64 number. So digits are read as the index that they denote, and no larger number comes back into
the range of the indices. -/
namespace CircuitNotes

/-! ### Rounding natural numbers -/

namespace Binary64

theorem roundDiv_one (n : Nat) : roundDiv n 1 = n := by
  simp [roundDiv,Nat.mod_one]

theorem div_le_roundDiv (num den : Nat) : num / den ≤ roundDiv num den := by
  simp only [roundDiv]
  split_ifs <;> omega

theorem magnitude_natural {n : Nat} (hn : n ≠ 0) : magnitude n 1 = n.log2 := by
  have hfits : 1 <<< n.log2 ≤ n := by
    rw [Nat.one_shiftLeft]
    exact Nat.log2_self_le hn
  have hone : Nat.log2 1 = 0 := by decide
  simp [magnitude,hone,hfits]

theorem scaled_natural (n k : Nat) : scaled n 1 (-(k : Int)) = n <<< k := by
  unfold scaled
  split_ifs with hk
  · obtain rfl : k = 0 := by omega
    exact roundDiv_one n
  · rw [roundDiv_one,Int.neg_neg,Int.toNat_natCast]

theorem toNat?_shiftLeft (n k : Nat) : toNat? ⟨false,n <<< k,-(k : Int)⟩ = some n := by
  unfold toNat?
  simp only [Bool.false_and,Bool.false_eq_true,if_false]
  split_ifs with hk hrest
  · obtain rfl : k = 0 := by omega
    rfl
  · rw [Int.neg_neg,Int.toNat_natCast,Nat.one_shiftLeft,Nat.shiftLeft_eq,
      Nat.mul_div_cancel _ (Nat.two_pow_pos k)]
  · rw [Int.neg_neg,Int.toNat_natCast,Nat.one_shiftLeft,Nat.shiftLeft_eq,Nat.mul_mod_left] at hrest
    exact absurd rfl hrest

theorem round_of_lt {n : Nat} (hn : n ≠ 0) (h : n < 2 ^ 53) :
    round false n 1 = some ⟨false,n <<< (52 - n.log2),-((52 - n.log2 : Nat) : Int)⟩ := by
  have hlog : n.log2 ≤ 52 := Nat.le_of_lt_succ ((Nat.log2_lt hn).mpr h)
  have hexponent : max (magnitude n 1 - 52) minExponent = -((52 - n.log2 : Nat) : Int) := by
    rw [magnitude_natural hn,minExponent]
    omega
  have hsmall : n <<< (52 - n.log2) ≠ 1 <<< 53 := by
    refine Nat.ne_of_lt ?_
    calc n <<< (52 - n.log2) = n * 2 ^ (52 - n.log2) := Nat.shiftLeft_eq _ _
      _ < 2 ^ (n.log2 + 1) * 2 ^ (52 - n.log2) :=
        Nat.mul_lt_mul_of_pos_right Nat.lt_log2_self (Nat.two_pow_pos _)
      _ = 1 <<< 53 := by
        rw [← Nat.pow_add,show n.log2 + 1 + (52 - n.log2) = 53 by omega,Nat.one_shiftLeft]
  have hfinite : ¬maxExponent < -((52 - n.log2 : Nat) : Int) := by
    rw [maxExponent]
    omega
  simp only [round,if_neg hn,hexponent,scaled_natural,if_neg hsmall,if_neg hfinite]

theorem toNat?_round_of_lt {n : Nat} (h : n < 2 ^ 53) : (round false n 1).bind toNat? = some n := by
  by_cases hn : n = 0
  · subst hn
    decide
  · rw [round_of_lt hn h]
    exact toNat?_shiftLeft n _

theorem toNat?_of_nonneg (m e : Nat) : toNat? ⟨false,m,(e : Int)⟩ = some (m <<< e) := by
  simp [toNat?]

/-- A natural number from 2^53 on does not get below 2^52 by rounding. -/
theorem toNat?_round_of_ge {n : Nat} (h : 2 ^ 53 ≤ n) {x : Binary64} (hx : round false n 1 = some x) :
    ∃ m, x.toNat? = some m ∧ 2 ^ 52 ≤ m := by
  have hn : n ≠ 0 := by omega
  have hlog : 53 ≤ n.log2 := (Nat.le_log2 hn).mpr h
  obtain ⟨e,he⟩ : ∃ e, n.log2 = e + 52 := ⟨n.log2 - 52,by omega⟩
  have hexponent : max (magnitude n 1 - 52) minExponent = (e : Int) := by
    rw [magnitude_natural hn,minExponent]
    omega
  have hscaled : 2 ^ 52 ≤ scaled n 1 e := by
    rw [scaled,if_pos (Int.natCast_nonneg e),Int.toNat_natCast,Nat.one_shiftLeft]
    refine le_trans ?_ (div_le_roundDiv _ _)
    rw [Nat.le_div_iff_mul_le (Nat.two_pow_pos e),← Nat.pow_add,Nat.add_comm,← he]
    exact Nat.log2_self_le hn
  have hlarge {m : Nat} (e : Nat) (hm : 2 ^ 52 ≤ m) : 2 ^ 52 ≤ m <<< e := by
    rw [Nat.shiftLeft_eq]
    exact hm.trans (Nat.le_mul_of_pos_right m (Nat.two_pow_pos e))
  simp only [round,if_neg hn,hexponent] at hx
  -- A significand that is rounded up to 2^53 is halved.
  split_ifs at hx with hcarry
  · obtain rfl := Option.some.inj hx
    exact ⟨_,toNat?_of_nonneg (1 <<< 52) (e + 1),hlarge _ (by decide)⟩
  · obtain rfl := Option.some.inj hx
    exact ⟨_,toNat?_of_nonneg _ e,hlarge _ hscaled⟩

end Binary64

/-! ### Digits as numerals -/

open Line Outline

namespace Numeral

theorem hexBody?_digits {s : Text} (hs : ∀ b ∈ s, Digit b) : hexBody? s = none := by
  unfold hexBody?
  split
  · rename_i x d rest
    have hx : Digit x := hs x (by simp)
    have hlower : Integer.lower x = x := by
      refine if_neg ?_
      simp only [Digit,UInt8.le_iff_toNat_le,Bool.and_eq_true,decide_eq_true_eq] at hx ⊢
      intro hletter
      have hfirst : 65 ≤ x.toNat := hletter.1
      have hlast : x.toNat ≤ 57 := hx.2
      omega
    rw [hlower,if_neg]
    rw [beq_iff_eq]
    rintro rfl
    exact absurd hx (by decide)
  · rfl

theorem isDigit_of_digit {b : UInt8} (h : Digit b) : isDigit 10 b = true := by
  have hlt : b.toNat - 48 < 10 := by
    have hlast : b.toNat ≤ 57 := UInt8.le_iff_toNat_le.mp h.2
    omega
  simp only [isDigit,digit?_of_digit h,decide_eq_true hlt]

theorem readFraction_digits {s : Text} (hs : ∀ b ∈ s, Digit b) : readFraction 10 s = (s,[],[]) := by
  have hall : ∀ b ∈ s, isDigitOrUnderscore 10 b = true := by
    intro b hb
    rw [isDigitOrUnderscore,isDigit_of_digit (hs b hb),Bool.true_or]
  have hdigits : digitsOf 10 s = s := List.filter_eq_self.mpr fun b hb => isDigit_of_digit (hs b hb)
  have hspan : s.span (isDigitOrUnderscore 10) = (s,[]) := by
    rw [List.span_eq_takeWhile_dropWhile,List.takeWhile_eq_self_iff.mpr hall,
      List.dropWhile_eq_nil_iff.mpr hall]
  simp only [readFraction,hspan,hdigits]

theorem read?_digits {s : Text} (hne : s ≠ []) (hs : ∀ b ∈ s, Digit b) :
    read? s = some ⟨false,false,decimal s,0⟩ := by
  obtain ⟨hsign,hpositive⟩ := Integer.sign_digits hs
  have hplain : ('_'.toUInt8 ∈ s) = False := by
    refine eq_false fun hmem => ?_
    exact absurd (hs _ hmem) (by decide)
  simp [read?,hsign,hpositive,hexBody?_digits hs,readFraction_digits hs,readExponent?,hne,hplain,
    valueOf_eq_decimal hs]

end Numeral

namespace Argument

/-- Digits are the qubit index that they denote, or none at all if it is too large. -/
theorem qubit?_digits {s : Text} (hne : s ≠ []) (hs : ∀ b ∈ s, Digit b) :
    (ofText s).qubit? = if decimal s ≤ maxQubit then some (decimal s) else none := by
  have hvalue : (ofText s).value = Binary64.round false (decimal s) 1 := by
    simp only [ofText,Numeral.read?_digits hne hs,Option.bind_some,Numeral.toBinary64?,
      Numeral.fraction]
    simp
  have hqubit : (ofText s).qubit? = ((Binary64.round false (decimal s) 1).bind Binary64.toNat?).bind
      fun n => if n ≤ maxQubit then some n else none := by
    rw [qubit?,hvalue,Option.bind_assoc]
    rfl
  rw [hqubit]
  by_cases hsmall : decimal s < 2 ^ 53
  · rw [Binary64.toNat?_round_of_lt hsmall,Option.bind_some]
  · have hlarge : ¬decimal s ≤ maxQubit := by
      rw [maxQubit]
      omega
    rw [if_neg hlarge]
    cases hround : Binary64.round false (decimal s) 1 with
    | none => rfl
    | some x =>
      obtain ⟨m,hm,hle⟩ := Binary64.toNat?_round_of_ge (Nat.le_of_not_lt hsmall) hround
      rw [Option.bind_some,hm,Option.bind_some,if_neg]
      rw [maxQubit]
      omega

end Argument

/-! ### Indices in lists -/

namespace Text

theorem trim_of_solid {t : Text} (h : ∀ b ∈ t, Solid b) : trim t = t := by
  have hleft : trimLeft t = t := by
    cases t with
    | nil => rfl
    | cons b t => exact trimLeft_cons (h b List.mem_cons_self) t
  rw [trim,hleft]
  induction t using List.reverseRecOn with
  | nil => rfl
  | append_singleton t b _ => exact trimRight_concat (h b (by simp)) t

theorem joinWith_cons_append (sep front t : Text) (ts : List Text) :
    joinWith sep ((front ++ t) :: ts) = front ++ joinWith sep (t :: ts) := by
  cases ts with
  | nil => rfl
  | cons u ts => simp [joinWith]

/-- What a separator ends with may as well stand before the texts that follow. -/
theorem joinWith_append (sep front t : Text) (ts : List Text) :
    joinWith (sep ++ front) (t :: ts) = joinWith sep (t :: ts.map (front ++ ·)) := by
  induction ts generalizing t with
  | nil => rfl
  | cons u ts ih =>
    rw [joinWith,ih,List.map_cons,joinWith,joinWith_cons_append]
    simp

end Text

theorem Argument.split_joinWith_digits {texts : List Text}
    (h : ∀ t ∈ texts, t ≠ [] ∧ ∀ b ∈ t, Digit b) :
    split (Text.joinWith (Text.ofString ", ") texts) = texts.map ofText := by
  have htrim : ∀ t ∈ texts, t.trim = t := by
    intro t ht
    exact Text.trim_of_solid fun b hb => solid_of_word (Or.inr ((h t ht).2 b hb))
  cases texts with
  | nil => rfl
  | cons t ts =>
    have hsep : Text.ofString ", " = [comma] ++ [32] := by decide
    have hblank : Text.Blank [32] := List.forall_mem_singleton.mpr rfl
    rw [hsep,Text.joinWith_append]
    refine split_joinWith_of_trims ((Text.forall₂_trims_iff _ _).mpr ?_) ?_ ?_
    · obtain ⟨ht,hts⟩ := List.forall_mem_cons.mp htrim
      rw [List.map_cons,ht,List.map_map]
      refine congrArg (t :: ·) ((List.map_congr_left ?_).trans (List.map_id ts))
      intro u hu
      rw [Function.comp_apply,← Text.trim_trimLeft,hblank.trimLeft_append,Text.trim_trimLeft]
      exact hts u hu
    · intro u hu hcomma
      exact absurd ((h u hu).2 _ hcomma) (by decide)
    · intro hlast
      exact (h [] (List.mem_of_getLast? hlast)).1 rfl

theorem split_qubitList {qubits : List Int} (h : ∀ q ∈ qubits, 0 ≤ q ∧ q ≤ 2 ^ 31 - 1) :
    (Argument.split (qubitList qubits)).map (fun a => a.qubit?.map Int.ofNat) = qubits.map some := by
  have hnumeral : ∀ q ∈ qubits, Text.ofInt q = Text.ofNat q.toNat := by
    intro q hq
    rw [← Text.ofInt_natCast,Int.toNat_of_nonneg (h q hq).1]
  rw [qubitList,Argument.split_joinWith_digits,List.map_map,List.map_map]
  · refine List.map_congr_left fun q hq => ?_
    have hle : q.toNat ≤ Argument.maxQubit := by
      have := h q hq
      rw [Argument.maxQubit]
      omega
    rw [Function.comp_apply,Function.comp_apply,hnumeral q hq,
      Argument.qubit?_digits (Text.ofNat_ne_nil _) (Text.digit_of_mem_ofNat _),decimal_ofNat,
      if_pos hle,Option.map_some,Int.ofNat_eq_natCast,Int.toNat_of_nonneg (h q hq).1]
  · intro t ht
    obtain ⟨q,hq,rfl⟩ := List.mem_map.mp ht
    rw [hnumeral q hq]
    exact ⟨Text.ofNat_ne_nil _,Text.digit_of_mem_ofNat _⟩

/-- Digits, however many there are and also with zeros before them, are one argument. It is the qubit
that they denote, or none if that is too large, also where the number cannot be kept exactly or at all.
So the qubits of a call are read back from the list that shows them. -/
theorem digits_denote_qubits :
    (∀ (n : Nat) (s : Text), s ≠ [] → (∀ b ∈ s, Digit b) → decimal s = n →
      ∃ a, Argument.split s = [a] ∧ a.text = s ∧ (n ≤ 2147483647 → a.qubit? = some n) ∧
        (2147483647 < n → a.qubit? = none)) ∧
    ∀ (arity : Arity) (args : List Argument),
      (Argument.split (qubitList (Operands.classify arity args).qubits)).map
          (fun a => a.qubit?.map Int.ofNat) =
        (Operands.classify arity args).qubits.map some := by
  refine ⟨?_,?_⟩
  · rintro n s hne hs rfl
    have hone : ∀ t ∈ [s], t ≠ [] ∧ ∀ b ∈ t, Digit b := List.forall_mem_singleton.mpr ⟨hne,hs⟩
    have hsplit := Argument.split_joinWith_digits hone
    have hqubit := Argument.qubit?_digits hne hs
    rw [Argument.maxQubit] at hqubit
    refine ⟨Argument.ofText s,hsplit,rfl,?_,?_⟩
    · intro hle
      rw [hqubit,if_pos hle]
    · intro hlt
      rw [hqubit,if_neg (Nat.not_le.mpr hlt)]
  · intro arity args
    exact split_qubitList (Operands.accounts_classify arity args).range

/-- Seven with zeros before it, and a number that lies between two binary64 numbers. -/
theorem digits_denote_qubits_sample :
    (∃ a, Argument.split [48,48,55] = [a] ∧ a.text = [48,48,55] ∧ a.qubit? = some 7) ∧
    ∃ a, Argument.split (Text.ofNat (2 ^ 53 + 1)) = [a] ∧ a.text = Text.ofNat (2 ^ 53 + 1) ∧
      a.qubit? = none := by
  have hseven : ∀ b ∈ ([48,48,55] : Text), Digit b := by
    simp only [List.forall_mem_cons,List.not_mem_nil,false_implies,implies_true,and_true]
    decide
  obtain ⟨a,hsplit,htext,hqubit,-⟩ := digits_denote_qubits.1 7 [48,48,55] (by decide) hseven (by decide)
  obtain ⟨b,hsplit',htext',-,hqubit'⟩ := digits_denote_qubits.1 (2 ^ 53 + 1) _ (Text.ofNat_ne_nil _)
    (Text.digit_of_mem_ofNat _) (decimal_ofNat _)
  exact ⟨⟨a,hsplit,htext,hqubit (by decide)⟩,b,hsplit',htext',hqubit' (by decide)⟩

end CircuitNotes
