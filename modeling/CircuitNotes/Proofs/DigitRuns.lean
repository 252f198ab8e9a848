import CircuitNotes.Number.Numeral
import Mathlib.Tactic.SplitIfs

/-! Underscores between digits. They are looked at only after a number has been read, by one pass over
its bytes that tells digits, underscores and other bytes apart. So the text is accepted if each stretch of
digits and underscores in it has single underscores between digits. -/
namespace CircuitNotes
namespace Numeral

open Integer (Seen digit? lower dropSign underscoresOk)

/-! ### Bytes -/

theorem digit?_eq (b : UInt8) : digit? b =
    if 48 ≤ b.toNat ∧ b.toNat ≤ 57 then some (b.toNat - 48)
    else if 97 ≤ b.toNat ∧ b.toNat ≤ 122 then some (b.toNat - 87)
    else if 65 ≤ b.toNat ∧ b.toNat ≤ 90 then some (b.toNat - 55) else none := by
  have hzero : '0'.toUInt8.toNat = 48 := rfl
  have hnine : '9'.toUInt8.toNat = 57 := rfl
  have ha : 'a'.toUInt8.toNat = 97 := rfl
  have hz : 'z'.toUInt8.toNat = 122 := rfl
  have hA : 'A'.toUInt8.toNat = 65 := rfl
  have hZ : 'Z'.toUInt8.toNat = 90 := rfl
  simp only [digit?,UInt8.le_iff_toNat_le,Bool.and_eq_true,decide_eq_true_eq,hzero,hnine,ha,hz,hA,hZ]
  split_ifs
  · rfl
  · congr 1
    omega
  · congr 1
    omega
  · rfl

theorem isDigit_ten_iff (b : UInt8) : isDigit 10 b = true ↔ 48 ≤ b.toNat ∧ b.toNat ≤ 57 := by
  rw [isDigit,digit?_eq]
  split_ifs <;> simp <;> omega

theorem isDigit_sixteen_iff (b : UInt8) : isDigit 16 b = true ↔
    48 ≤ b.toNat ∧ b.toNat ≤ 57 ∨ 97 ≤ b.toNat ∧ b.toNat ≤ 102 ∨ 65 ≤ b.toNat ∧ b.toNat ≤ 70 := by
  rw [isDigit,digit?_eq]
  split_ifs <;> simp <;> omega

theorem toNat_lower (b : UInt8) : (lower b).toNat =
    if 65 ≤ b.toNat ∧ b.toNat ≤ 90 then b.toNat + 32 else b.toNat := by
  have hA : 'A'.toUInt8.toNat = 65 := rfl
  have hZ : 'Z'.toUInt8.toNat = 90 := rfl
  have hstep : UInt8.toNat 32 = 32 := rfl
  simp only [lower,UInt8.le_iff_toNat_le,Bool.and_eq_true,decide_eq_true_eq,hA,hZ]
  split_ifs
  · rw [UInt8.toNat_add]
    omega
  · rfl

def radix (hex : Bool) : Nat := if hex then 16 else 10

def mark (hex : Bool) : UInt8 := if hex then 'p'.toUInt8 else 'e'.toUInt8

theorem isDigit_radix_iff (hex : Bool) (b : UInt8) : isDigit (radix hex) b = true ↔
    48 ≤ b.toNat ∧ b.toNat ≤ 57 ∨
      hex = true ∧ (97 ≤ b.toNat ∧ b.toNat ≤ 102 ∨ 65 ≤ b.toNat ∧ b.toNat ≤ 70) := by
  cases hex with
  | false => simp [radix,isDigit_ten_iff]
  | true => simp [radix,isDigit_sixteen_iff]

theorem isDigit_radix_of_ten {hex : Bool} {b : UInt8} (h : isDigit 10 b = true) :
    isDigit (radix hex) b = true :=
  (isDigit_radix_iff hex b).mpr (Or.inl ((isDigit_ten_iff b).mp h))

theorem isDigit_of_mark {hex : Bool} {b : UInt8} (h : lower b = mark hex) :
    isDigit (radix hex) b = false := by
  have hnat := congrArg UInt8.toNat h
  rw [toNat_lower] at hnat
  refine Bool.eq_false_iff.mpr fun hdigit => ?_
  rw [isDigit_radix_iff] at hdigit
  cases hex with
  | false =>
    have hmark : (mark false).toNat = 101 := rfl
    simp only [Bool.false_eq_true,false_and,or_false] at hdigit
    rw [hmark] at hnat
    split_ifs at hnat <;> omega
  | true =>
    have hmark : (mark true).toNat = 112 := rfl
    simp only [true_and] at hdigit
    rw [hmark] at hnat
    split_ifs at hnat <;> omega

theorem ne_underscore_of_mark {hex : Bool} {b : UInt8} (h : lower b = mark hex) : b ≠ '_'.toUInt8 := by
  rintro rfl
  cases hex <;> exact absurd h (by decide)

theorem isDigitOrUnderscore_iff (base : Nat) (b : UInt8) :
    isDigitOrUnderscore base b = true ↔ isDigit base b = true ∨ b = '_'.toUInt8 := by
  simp [isDigitOrUnderscore]

theorem ne_sign_of_isDigitOrUnderscore {hex : Bool} {b : UInt8}
    (h : isDigitOrUnderscore (radix hex) b = true) : b ≠ '+'.toUInt8 ∧ b ≠ '-'.toUInt8 := by
  refine ⟨?_,?_⟩
  · rintro rfl
    cases hex <;> exact absurd h (by decide)
  · rintro rfl
    cases hex <;> exact absurd h (by decide)

theorem isDigitOrUnderscore_of_mark {hex : Bool} {b : UInt8} (h : lower b = mark hex) :
    isDigitOrUnderscore (radix hex) b = false := by
  refine Bool.eq_false_iff.mpr fun hb => ?_
  rcases (isDigitOrUnderscore_iff _ _).mp hb with hdigit | hline
  · rw [isDigit_of_mark h] at hdigit
    cases hdigit
  · exact ne_underscore_of_mark h hline

/-! ### Underscores between digits -/

/-- Digits of a base, with single underscores between them. -/
inductive Run (base : Nat) : Text → Prop
  | last {b : UInt8} (hb : isDigit base b = true) : Run base [b]
  | digit {b : UInt8} {t : Text} (hb : isDigit base b = true) (ht : Run base t) : Run base (b :: t)
  | line {b : UInt8} {t : Text} (hb : isDigit base b = true) (ht : Run base t) :
      Run base (b :: '_'.toUInt8 :: t)

theorem run_of_digits {base : Nat} {t : Text} (hne : t ≠ []) (h : ∀ b ∈ t, isDigit base b = true) :
    Run base t := by
  induction t with
  | nil => exact absurd rfl hne
  | cons b t ih =>
    obtain ⟨hb,ht⟩ := List.forall_mem_cons.mp h
    cases t with
    | nil => exact .last hb
    | cons c t => exact .digit hb (ih (List.cons_ne_nil c t) ht)

theorem Run.allowed {base : Nat} {t : Text} (h : Run base t) :
    ∀ b ∈ t, isDigitOrUnderscore base b = true := by
  induction h with
  | last hb => simpa [isDigitOrUnderscore_iff] using Or.inl hb
  | digit hb _ ih =>
    exact List.forall_mem_cons.mpr ⟨(isDigitOrUnderscore_iff _ _).mpr (Or.inl hb),ih⟩
  | line hb _ ih =>
    exact List.forall_mem_cons.mpr ⟨(isDigitOrUnderscore_iff _ _).mpr (Or.inl hb),
      List.forall_mem_cons.mpr ⟨(isDigitOrUnderscore_iff _ _).mpr (Or.inr rfl),ih⟩⟩

theorem Run.exists_cons {base : Nat} {t : Text} (h : Run base t) :
    ∃ d rest, t = d :: rest ∧ isDigit base d = true := by
  cases h with
  | last hb => exact ⟨_,_,rfl,hb⟩
  | digit hb _ => exact ⟨_,_,rfl,hb⟩
  | line hb _ => exact ⟨_,_,rfl,hb⟩

theorem Run.digitsOf_ne_nil {base : Nat} {t : Text} (h : Run base t) : digitsOf base t ≠ [] := by
  obtain ⟨d,rest,rfl,hd⟩ := h.exists_cons
  simp [digitsOf,hd]

theorem next_eq (hex : Bool) (seen : Seen) (b : UInt8) : Seen.next hex seen b =
    if isDigit (radix hex) b = true then some .digit
    else if b = '_'.toUInt8 then if seen = .digit then some .underscore else none
    else if seen = .underscore then none else some .other := by
  have hzero : '0'.toUInt8.toNat = 48 := rfl
  have hnine : '9'.toUInt8.toNat = 57 := rfl
  have ha : 'a'.toUInt8.toNat = 97 := rfl
  have hf : 'f'.toUInt8.toNat = 102 := rfl
  have htest : ('0'.toUInt8 ≤ b && b ≤ '9'.toUInt8 ||
      hex && 'a'.toUInt8 ≤ lower b && lower b ≤ 'f'.toUInt8) = true ↔
        isDigit (radix hex) b = true := by
    simp only [isDigit_radix_iff,UInt8.le_iff_toNat_le,Bool.or_eq_true,Bool.and_eq_true,
      decide_eq_true_eq,hzero,hnine,ha,hf,toNat_lower]
    split_ifs <;> cases hex <;> simp <;> omega
  simp only [Seen.next,htest,beq_iff_eq]

/-- Whether the underscores of a text are right, up to its end, after what has been seen before it. -/
def ends (hex : Bool) (first : Seen) (t : Text) : Bool :=
  match t.foldlM (Seen.next hex) first with
  | none => false
  | some seen => seen != .underscore

theorem ends_nil (hex : Bool) (first : Seen) : ends hex first [] = (first != .underscore) := rfl

theorem ends_cons {hex : Bool} {first seen : Seen} {b : UInt8} (h : Seen.next hex first b = some seen)
    (t : Text) : ends hex first (b :: t) = ends hex seen t := by
  simp [ends,List.foldlM_cons,h]

theorem ends_cons_of_none {hex : Bool} {first : Seen} {b : UInt8} (h : Seen.next hex first b = none)
    (t : Text) : ends hex first (b :: t) = false := by
  simp [ends,List.foldlM_cons,h]

/-- Around a byte that is neither digit nor underscore the two sides are right on their own. -/
theorem ends_append {hex : Bool} {b : UInt8} (hdigit : isDigit (radix hex) b = false)
    (hline : b ≠ '_'.toUInt8) (first : Seen) (t rest : Text) :
    ends hex first (t ++ b :: rest) = (ends hex first t && ends hex .other rest) := by
  induction t generalizing first with
  | nil =>
    have hnext : Seen.next hex first b = if first = .underscore then none else some .other := by
      rw [next_eq,hdigit,if_neg (by simp),if_neg hline]
    rw [List.nil_append,ends_nil]
    by_cases hfirst : first = .underscore
    · rw [ends_cons_of_none (hnext.trans (if_pos hfirst)),hfirst]
      rfl
    · rw [ends_cons (hnext.trans (if_neg hfirst)),bne_iff_ne.mpr hfirst,Bool.true_and]
  | cons c t ih =>
    rw [List.cons_append]
    cases hnext : Seen.next hex first c with
    | none => rw [ends_cons_of_none hnext,ends_cons_of_none hnext,Bool.false_and]
    | some seen => rw [ends_cons hnext,ends_cons hnext,ih]

theorem ends_of_not_mem {hex : Bool} {first : Seen} {t : Text} (h : '_'.toUInt8 ∉ t)
    (hfirst : first ≠ .underscore) : ends hex first t = true := by
  induction t generalizing first with
  | nil => exact bne_iff_ne.mpr hfirst
  | cons b t ih =>
    obtain ⟨hb,ht⟩ := not_or.mp (mt List.mem_cons.mpr h)
    by_cases hdigit : isDigit (radix hex) b = true
    · have hnext : Seen.next hex first b = some .digit := by rw [next_eq,if_pos hdigit]
      rw [ends_cons hnext,ih ht (by simp)]
    · have hnext : Seen.next hex first b = some .other := by
        rw [next_eq,if_neg hdigit,if_neg (Ne.symm hb),if_neg hfirst]
      rw [ends_cons hnext,ih ht (by simp)]

section Run

variable {hex : Bool} {base : Nat} (hbase : ∀ b, isDigit base b = true → isDigit (radix hex) b = true)
include hbase

theorem Run.ends {t : Text} (h : Run base t) (first : Seen) : ends hex first t = true := by
  have hnext {b : UInt8} (hb : isDigit base b = true) (seen : Seen) :
      Seen.next hex seen b = some .digit := by rw [next_eq,if_pos (hbase b hb)]
  have hline : Seen.next hex .digit '_'.toUInt8 = some .underscore := by cases hex <;> rfl
  induction h generalizing first with
  | last hb => rw [ends_cons (hnext hb first),ends_nil]; rfl
  | digit hb _ ih => rw [ends_cons (hnext hb first),ih]
  | line hb _ ih => rw [ends_cons (hnext hb first),ends_cons hline,ih]

/-- Digits and underscores that are right make a run; after a digit the first of them may be an
underscore. -/
theorem run_of_ends {t : Text} (ht : ∀ b ∈ t, isDigitOrUnderscore base b = true) (hne : t ≠ [])
    {first : Seen} (h : Numeral.ends hex first t = true) :
    Run base t ∨ first = .digit ∧ ∃ t', t = '_'.toUInt8 :: t' ∧ Run base t' := by
  induction t generalizing first with
  | nil => exact absurd rfl hne
  | cons b t ih =>
    obtain ⟨hb,ht'⟩ := List.forall_mem_cons.mp ht
    rcases (isDigitOrUnderscore_iff base b).mp hb with hdigit | rfl
    · left
      have hnext : Seen.next hex first b = some .digit := by rw [next_eq,if_pos (hbase b hdigit)]
      rw [ends_cons hnext] at h
      by_cases hnil : t = []
      · exact hnil ▸ .last hdigit
      · rcases ih ht' hnil h with hrun | ⟨_,t',rfl,hrun⟩
        · exact .digit hdigit hrun
        · exact .line hdigit hrun
    · have hnext : Seen.next hex first '_'.toUInt8 =
          if first = .digit then some .underscore else none := by cases hex <;> cases first <;> rfl
      by_cases hfirst : first = .digit
      · rw [ends_cons (hnext.trans (if_pos hfirst))] at h
        have hnil : t ≠ [] := by
          rintro rfl
          cases h
        rcases ih ht' hnil h with hrun | ⟨hdigit,_⟩
        · exact Or.inr ⟨hfirst,t,rfl,hrun⟩
        · cases hdigit
      · rw [ends_cons_of_none (hnext.trans (if_neg hfirst))] at h
        cases h

end Run

/-- What has been seen before the digits of a text without its sign, whether letters are digits of it,
and the digits with all that follows them. -/
def opening (body : Text) : Seen × Bool × Text :=
  match body with
  | 48 :: c :: rest =>
    if lower c == 'b'.toUInt8 || lower c == 'o'.toUInt8 || lower c == 'x'.toUInt8
    then (.digit,lower c == 'x'.toUInt8,rest) else (.start,false,body)
  | _ => (.start,false,body)

theorem underscoresOk_eq (t : Text) : underscoresOk t =
    ends (opening (dropSign t)).2.1 (opening (dropSign t)).1 (opening (dropSign t)).2.2 := rfl

theorem opening_announced {x : UInt8} (hx : lower x = 'x'.toUInt8) (t : Text) :
    opening (48 :: x :: t) = (.digit,true,t) := by
  simp [opening,hx]

theorem opening_plain {t : Text} (h : ∀ b ∈ t,
      lower b ≠ 'b'.toUInt8 ∧ lower b ≠ 'o'.toUInt8 ∧ lower b ≠ 'x'.toUInt8) :
    opening t = (.start,false,t) := by
  unfold opening
  split
  · next c rest =>
    obtain ⟨hb,ho,hx⟩ := h c (by simp)
    simp [hb,ho,hx]
  · rfl

theorem mem_of_mem_dropSign {t : Text} {b : UInt8} (h : b ∈ dropSign t) : b ∈ t := by
  cases t with
  | nil => exact h
  | cons c t =>
    rw [dropSign] at h
    split_ifs at h
    · exact List.mem_cons_of_mem c h
    · exact h

theorem underscoresOk_of_not_mem {t : Text} (h : '_'.toUInt8 ∉ t) : underscoresOk t = true := by
  have hbody : '_'.toUInt8 ∉ dropSign t := mt mem_of_mem_dropSign h
  rw [underscoresOk_eq]
  generalize dropSign t = body at hbody
  unfold opening
  split
  · split_ifs
    · exact ends_of_not_mem (fun hmem => hbody (by simp [hmem])) (by simp)
    · exact ends_of_not_mem hbody (by simp)
  · exact ends_of_not_mem hbody (by simp)

end Numeral
end CircuitNotes
