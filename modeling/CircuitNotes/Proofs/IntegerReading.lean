import CircuitNotes.Proofs.SectionDocuments
import CircuitNotes.Proofs.TextParts

/-! Integers of 64 bits are read as what they are from their decimal numerals, also where the numeral
stands as a scalar without quotes. -/
namespace CircuitNotes
namespace Integer

open Line Outline

/-! ### Digits -/

theorem readDigits_append (base : Nat) (underscores : Bool) (acc : Nat) (s t : Text) :
    readDigits base underscores acc (s ++ t) =
      (readDigits base underscores acc s).bind fun a => readDigits base underscores a t := by
  induction s generalizing acc with
  | nil => rfl
  | cons b s ih =>
    rw [List.cons_append,readDigits,readDigits]
    split_ifs with hb
    · exact ih acc
    · cases digit? b with
      | none => rfl
      | some d =>
        dsimp only
        split_ifs
        · rfl
        · rfl
        · exact ih _

theorem readDigits_singleton {acc d : Nat} (hd : d < 10) (h : 10 * acc + d < 2 ^ 64) :
    readDigits 10 true acc [UInt8.ofNat (48 + d)] = .ok (10 * acc + d) := by
  obtain ⟨hdigit,hvalue⟩ := digit_ofNat hd
  have hline : ¬(true && UInt8.ofNat (48 + d) == '_'.toUInt8) = true := by
    intro heq
    rw [eq_of_beq heq] at hdigit
    exact absurd hdigit (by decide)
  rw [readDigits,if_neg hline,digit?_of_digit hdigit,hvalue]
  dsimp only
  rw [if_neg (by omega),if_neg (by rw [Nat.one_shiftLeft]; omega),Nat.mul_comm]
  rfl

theorem readDigits_ofNat {n : Nat} (h : n < 2 ^ 64) :
    readDigits 10 true 0 (Text.ofNat n) = .ok n := by
  induction n using Text.ofNat_induction with
  | digit n hn => simpa using readDigits_singleton hn (show 10 * 0 + n < 2 ^ 64 by omega)
  | more n d t hd ih =>
    rw [readDigits_append,ih (by omega)]
    exact readDigits_singleton hd h

theorem head?_ofNat {n : Nat} (hn : n ≠ 0) : (Text.ofNat n).head? ≠ some 48 := by
  induction n using Nat.strongRecOn with
  | ind n ih =>
    by_cases hsmall : n < 10
    · rw [Text.ofNat_of_lt n hsmall]
      intro h
      have hvalue := (digit_ofNat hsmall).2
      rw [Option.some.inj h] at hvalue
      exact hn hvalue.symm
    · rw [Text.ofNat_of_ge (by omega),List.head?_append_of_ne_nil _ (Text.ofNat_ne_nil _)]
      exact ih _ (by omega) (by omega)

/-! ### Numerals -/

/-- A numeral announces no base, but for that of zero, which has no digit after it. -/
theorem readDigits_announced {n : Nat} (h : n < 2 ^ 64) :
    readDigits (announcedBase (Text.ofNat n)).1 true 0 (announcedBase (Text.ofNat n)).2 = .ok n := by
  by_cases hn : n = 0
  · rw [hn]
    rfl
  · have hbase : announcedBase (Text.ofNat n) = (10,Text.ofNat n) := by
      have hhead := head?_ofNat hn
      rw [announcedBase]
      · intro c d rest ht
        rw [ht] at hhead
        exact hhead rfl
      · intro rest ht
        rw [ht] at hhead
        exact hhead rfl
    rw [hbase]
    exact readDigits_ofNat h

theorem ofInt_eq (i : Int) :
    Text.ofInt i = (if i < 0 then ['-'.toUInt8] else []) ++ Text.ofNat i.natAbs := by
  rw [Text.ofInt]
  split_ifs
  · rw [Text.ofString_append]
    rfl
  · rfl

theorem sign_ofInt (i : Int) : dropSign (Text.ofInt i) = Text.ofNat i.natAbs ∧
    isNegative (Text.ofInt i) = decide (i < 0) := by
  rw [ofInt_eq]
  split_ifs with hi
  · rw [decide_eq_true hi]
    exact ⟨rfl,rfl⟩
  · rw [decide_eq_false hi]
    exact sign_digits (Text.digit_of_mem_ofNat i.natAbs)

theorem not_mem_ofInt (i : Int) : '_'.toUInt8 ∉ Text.ofInt i := by
  rw [ofInt_eq,List.mem_append,not_or]
  constructor
  · split_ifs <;> decide
  · exact fun h => absurd (Text.digit_of_mem_ofNat _ _ h) (by decide)

theorem ofMagnitude_natAbs {i : Int} (hmin : Integer.min ≤ i) (hmax : i ≤ Integer.max) :
    ofMagnitude (decide (i < 0)) i.natAbs = .ok i := by
  have hsize : 1 <<< 63 = 9223372036854775808 := rfl
  rw [Integer.min] at hmin
  rw [Integer.max] at hmax
  by_cases hi : i < 0
  · rw [decide_eq_true hi,ofMagnitude,if_pos rfl,hsize,if_neg (by omega)]
    congr 1
    omega
  · rw [decide_eq_false hi,ofMagnitude,if_neg (by decide),hsize,if_neg (by omega)]
    congr 1
    omega

theorem readAnyBase_ofInt {i : Int} (hmin : Integer.min ≤ i) (hmax : i ≤ Integer.max) :
    readAnyBase (Text.ofInt i) = .ok i := by
  have hmagnitude := ofMagnitude_natAbs hmin hmax
  have hlt : i.natAbs < 2 ^ 64 := by
    rw [Integer.min] at hmin
    rw [Integer.max] at hmax
    omega
  have hline : (Text.ofInt i).contains '_'.toUInt8 = false := by
    simpa using not_mem_ofInt i
  have hne : (Text.ofNat i.natAbs).isEmpty = false := by
    simpa using Text.ofNat_ne_nil i.natAbs
  rw [readAnyBase,(sign_ofInt i).1,(sign_ofInt i).2]
  dsimp only
  rw [hne,readDigits_announced hlt,hline]
  exact hmagnitude

end Integer

namespace Yaml

/-! ### Numerals as scalars -/

theorem intChars_cons (i : Int) : ∃ c cs, intChars i = c :: cs ∧ (c.isDigit = true ∨ c = '-') ∧
    ∀ d ∈ cs, d.isDigit = true := by
  have hdigits : ∀ c ∈ Nat.toDigits 10 i.natAbs, c.isDigit = true :=
    fun c hc => Nat.isDigit_of_mem_toDigits (by decide) (by decide) hc
  obtain ⟨c,cs,hcs⟩ := List.exists_cons_of_ne_nil (Nat.toDigits_ne_nil (n := i.natAbs) (b := 10))
  rw [intChars,Nat.toList_repr,hcs]
  rw [hcs] at hdigits
  split_ifs
  · exact ⟨'-',c :: cs,rfl,Or.inr rfl,hdigits⟩
  · exact ⟨c,cs,rfl,Or.inl (hdigits c List.mem_cons_self),
      fun d hd => hdigits d (List.mem_cons_of_mem c hd)⟩

/-- Every word with a meaning of its own has a character that no numeral has. -/
theorem ofWord?_of_digits {s : String} (hne : s ≠ "")
    (h : ∀ c ∈ s.toList, c.isDigit = true ∨ c = '-') : Meaning.ofWord? s = none := by
  have hnot : ∀ words : List String,
      (∀ w ∈ words, w.toList.any (fun c => !c.isDigit && c != '-') = true) → s ∉ words := by
    intro words hwords hs
    obtain ⟨c,hc,hother⟩ := List.any_eq_true.mp (hwords s hs)
    rcases h c hc with hdigit | rfl
    · rw [hdigit] at hother
      cases hother
    · cases hother
  rw [Meaning.ofWord?,if_neg,if_neg,if_neg,if_neg,if_neg,if_neg]
  · exact hnot _ (by decide)
  · exact hnot _ (by decide)
  · exact hnot _ (by decide)
  · exact hnot _ (by decide)
  · exact hnot _ (by decide)
  · exact fun hs => (List.mem_cons.mp hs).elim hne (hnot _ (by decide))

theorem afterDate?_of_digits {cs : List Char} (h : ∀ c ∈ cs.tail, c.isDigit = true) :
    afterDate? cs = none := by
  have hdash : ∀ rest, cs.drop 4 ≠ '-' :: rest := by
    intro rest hrest
    have hmem : '-' ∈ cs.tail.drop 3 := by
      rw [List.drop_tail,hrest]
      exact List.mem_cons_self
    exact absurd (h '-' (List.mem_of_mem_drop hmem)) (by decide)
  rw [afterDate?]
  cases Instant.digits? (cs.take 4) with
  | none => rfl
  | some year =>
    rw [Option.bind_eq_bind,Option.bind_some]
    split_ifs
    · rfl
    · split
      · next rest hrest => exact absurd hrest (hdash rest)
      · rfl

theorem ofString_intChars (i : Int) : Text.ofString (String.ofList (intChars i)) = Text.ofInt i := by
  rw [Text.ofInt]
  congr 1
  refine String.toList_injective ?_
  rw [String.toList_ofList,intChars]
  split_ifs
  · rw [String.toList_append]
    rfl
  · rfl

theorem meaning_intChars (times : Bool) {i : Int} (hmin : Integer.min ≤ i) (hmax : i ≤ Integer.max) :
    meaning times (String.ofList (intChars i)) = .int i := by
  obtain ⟨c,cs,hchars,hc,hcs⟩ := intChars_cons i
  have htoList : (String.ofList (intChars i)).toList = c :: cs := by
    rw [String.toList_ofList,hchars]
  have hall : ∀ d ∈ c :: cs, d.isDigit = true ∨ d = '-' :=
    List.forall_mem_cons.mpr ⟨hc,fun d hd => Or.inl (hcs d hd)⟩
  have hword : Meaning.ofWord? (String.ofList (intChars i)) = none := by
    refine ofWord?_of_digits ?_ (htoList ▸ hall)
    intro hnil
    rw [hnil] at htoList
    cases htoList
  have htime : isTimestamp (String.ofList (intChars i)) = false := by
    have hdate : afterDate? (c :: cs) = none := afterDate?_of_digits hcs
    rw [isTimestamp,htoList,hdate]
  have hnumber : number? (String.ofList (intChars i)) = some (.int i) := by
    have hkept : (c :: cs).filter (· != '_') = c :: cs := by
      refine List.filter_eq_self.mpr fun d hd => ?_
      rcases hall d hd with hdigit | rfl
      · refine bne_iff_ne.mpr ?_
        rintro rfl
        exact absurd hdigit (by decide)
      · rfl
    rw [number?,htoList,hkept,← hchars,ofString_intChars,Integer.readAnyBase_ofInt hmin hmax]
  have hdot : ¬(c == '.') = true := by
    intro heq
    rw [eq_of_beq heq] at hc
    exact absurd hc (by decide)
  have hstart : (c.isDigit || c == '+' || c == '-') = true := by
    rcases hc with hc | rfl
    · rw [hc]
      rfl
    · rfl
  rw [meaning,hword,htoList]
  dsimp only [List.head?_cons]
  rw [if_neg hdot,if_pos hstart,htime,Bool.and_false,if_neg (by decide),hnumber]
  rfl

end Yaml
end CircuitNotes
