import CircuitNotes.Proofs.DigitRuns
import Mathlib.Data.List.TakeDrop
import Mathlib.Data.List.TakeWhile

/-! The texts that are numerals. A numeral has a sign, an announcement of its base, digits around a
point and an exponent, and single underscores between digits. Reading goes through these parts and
passes over all underscores; only then is it looked whether they stand where they may. So the texts are
taken apart first, and the underscores follow. -/
namespace CircuitNotes
namespace Numeral

open Integer (Seen digit? lower dropSign isNegative underscoresOk)

/-! ### The parts of a numeral -/

inductive Sign
  | none
  | plus
  | minus
  deriving DecidableEq

def Sign.text : Sign → Text
  | none => []
  | plus => ['+'.toUInt8]
  | minus => ['-'.toUInt8]

structure Power where
  letter : UInt8
  sign : Sign
  digits : Text

namespace Power

def text (p : Power) : Text := p.letter :: (p.sign.text ++ p.digits)

def valueBy (read : Text → Nat) (p : Power) : Int :=
  if p.sign = .minus then -(read (digitsOf 10 p.digits) : Int) else read (digitsOf 10 p.digits)

end Power

/-- The parts of a numeral as they are written: its sign, the letter after the zero that announces the
base sixteen, the digits before the point, the point with the digits after it, and the exponent. -/
structure Spelling where
  sign : Sign
  hex : Option UInt8
  whole : Text
  frac : Option Text
  power : Option Power

namespace Spelling

def announcement (s : Spelling) : Text :=
  match s.hex with
  | some x => [48,x]
  | none => []

def pointText (s : Spelling) : Text :=
  match s.frac with
  | some f => 46 :: f
  | none => []

def powerText (s : Spelling) : Text :=
  match s.power with
  | some p => p.text
  | none => []

def body (s : Spelling) : Text := s.whole ++ (s.pointText ++ s.powerText)

def text (s : Spelling) : Text := s.sign.text ++ (s.announcement ++ s.body)

def base (s : Spelling) : Nat := radix s.hex.isSome

def digits (s : Spelling) : Text := digitsOf s.base s.whole ++ digitsOf s.base (s.frac.getD [])

/-- By how many powers of two or ten the digits are moved behind the point. -/
def places (s : Spelling) : Int :=
  (digitsOf s.base (s.frac.getD [])).length * (if s.hex.isSome then 4 else 1)

/-- The numeral, when the digits of its exponent are read in some way. -/
def numeralBy (read : Text → Nat) (s : Spelling) : Numeral :=
  ⟨s.sign = .minus,s.hex.isSome,valueOf s.base s.digits,
    ((s.power.map (Power.valueBy read)).getD 0) - s.places⟩

def meant (s : Spelling) : Numeral := s.numeralBy (valueOf 10)

/-- The numeral that is read: of a long exponent only the first digits count. -/
def asRead (s : Spelling) : Numeral := s.numeralBy exponentValue

/-- The letters are right, and an exponent is there if the base is sixteen. -/
structure Marked (s : Spelling) : Prop where
  announces : ∀ x ∈ s.hex, lower x = 'x'.toUInt8
  marks : ∀ p ∈ s.power, lower p.letter = mark s.hex.isSome
  needed : s.hex.isSome = true → s.power.isSome = true

/-- A spelling with underscores anywhere among its digits, but not before those of the exponent. -/
structure Loose (s : Spelling) : Prop extends s.Marked where
  whole : ∀ b ∈ s.whole, isDigitOrUnderscore s.base b = true
  frac : ∀ f ∈ s.frac, ∀ b ∈ f, isDigitOrUnderscore s.base b = true
  digits : s.digits ≠ []
  power : ∀ p ∈ s.power, (∃ d rest, p.digits = d :: rest ∧ isDigit 10 d = true) ∧
    ∀ b ∈ p.digits, isDigitOrUnderscore 10 b = true

/-- A numeral by the rules: single underscores stand between digits, or between the announcement of the
base and a digit, and there are digits before the point or after it. -/
structure Proper (s : Spelling) : Prop extends s.Marked where
  whole : s.whole = [] ∨ Run s.base s.whole ∨
    s.hex.isSome = true ∧ ∃ t, s.whole = '_'.toUInt8 :: t ∧ Run s.base t
  frac : ∀ f ∈ s.frac, f = [] ∨ Run s.base f
  written : s.whole ≠ [] ∨ ∃ f ∈ s.frac, f ≠ []
  power : ∀ p ∈ s.power, Run 10 p.digits

end Spelling

/-! ### Reading the parts -/

theorem span_append {p : UInt8 → Bool} {t rest : Text} (ht : ∀ b ∈ t, p b = true)
    (hrest : ∀ b ∈ rest.head?, p b = false) : (t ++ rest).span p = (t,rest) := by
  rw [List.span_eq_takeWhile_dropWhile,List.takeWhile_append_of_pos ht,
    List.dropWhile_append_of_pos ht]
  cases rest with
  | nil => simp
  | cons b rest =>
    have hb : p b = false := hrest b rfl
    simp [hb]

theorem sign_text (sign : Sign) {t : Text}
    (ht : ∀ b ∈ t.head?, b ≠ '+'.toUInt8 ∧ b ≠ '-'.toUInt8) :
    dropSign (sign.text ++ t) = t ∧ isNegative (sign.text ++ t) = decide (sign = .minus) := by
  cases sign with
  | plus | minus => exact ⟨rfl,rfl⟩
  | none =>
    cases t with
    | nil => exact ⟨rfl,rfl⟩
    | cons b t =>
      obtain ⟨hplus,hminus⟩ := ht b rfl
      simp [Sign.text,dropSign,isNegative,hplus,hminus]

theorem exists_sign (t : Text) : ∃ sign : Sign, t = sign.text ++ dropSign t := by
  cases t with
  | nil => exact ⟨.none,rfl⟩
  | cons b t =>
    by_cases hminus : b = '-'.toUInt8
    · exact ⟨.minus,by rw [hminus]; rfl⟩
    · by_cases hplus : b = '+'.toUInt8
      · exact ⟨.plus,by rw [hplus]; rfl⟩
      · exact ⟨.none,by simp [Sign.text,dropSign,hplus,hminus]⟩

theorem hexBody?_announced {x : UInt8} {t : Text} (hx : lower x = 'x'.toUInt8) (ht : t ≠ []) :
    hexBody? (48 :: x :: t) = some t := by
  cases t with
  | nil => exact absurd rfl ht
  | cons d t => simp [hexBody?,hx]

theorem hexBody?_eq_none {t : Text} (h : ∀ b ∈ t, lower b ≠ 'x'.toUInt8) : hexBody? t = none := by
  unfold hexBody?
  split
  · rw [if_neg]
    simpa using h _ (List.mem_cons_of_mem _ List.mem_cons_self)
  · rfl

namespace Spelling

variable {s : Spelling}

theorem Proper.loose (h : s.Proper) : s.Loose where
  toMarked := h.toMarked
  whole := by
    rcases h.whole with hnil | hrun | ⟨_,t,ht,hrun⟩
    · simp [hnil]
    · exact hrun.allowed
    · rw [ht]
      exact List.forall_mem_cons.mpr ⟨(isDigitOrUnderscore_iff _ _).mpr (Or.inr rfl),hrun.allowed⟩
  frac := by
    intro f hf
    rcases h.frac f hf with hnil | hrun
    · simp [hnil]
    · exact hrun.allowed
  digits := by
    rw [Spelling.digits,ne_eq,List.append_eq_nil_iff,not_and_or]
    rcases h.written with hwhole | ⟨f,hf,hne⟩
    · left
      rcases h.whole with hnil | hrun | ⟨_,t,ht,hrun⟩
      · exact absurd hnil hwhole
      · exact hrun.digitsOf_ne_nil
      · have hdigits := hrun.digitsOf_ne_nil
        rw [ht]
        simp only [digitsOf,List.filter_cons] at hdigits ⊢
        split_ifs
        · simp
        · exact hdigits
    · right
      have hsome : s.frac = some f := hf
      rw [hsome]
      exact ((h.frac f hf).resolve_left hne).digitsOf_ne_nil
  power := fun p hp => ⟨(h.power p hp).exists_cons,(h.power p hp).allowed⟩

namespace Loose

/-- A numeral does not start with the point unless digits follow it, and never with a second sign. -/
theorem head_ne_sign (h : s.Loose) :
    ∀ b ∈ (s.announcement ++ s.body).head?, b ≠ '+'.toUInt8 ∧ b ≠ '-'.toUInt8 := by
  intro b hb
  cases hhex : s.hex with
  | some x =>
    simp only [announcement,hhex,List.cons_append,List.head?_cons,Option.mem_some_iff] at hb
    subst hb
    decide
  | none =>
    simp only [announcement,hhex,List.nil_append,body] at hb
    cases hwhole : s.whole with
    | cons d rest =>
      rw [hwhole] at hb
      cases hb
      exact ne_sign_of_isDigitOrUnderscore (h.whole b (by simp [hwhole]))
    | nil =>
      have hdigits := h.digits
      cases hfrac : s.frac with
      | none => simp [Spelling.digits,digitsOf,hwhole,hfrac] at hdigits
      | some f =>
        simp only [hwhole,List.nil_append,pointText,hfrac,List.cons_append,List.head?_cons,
          Option.mem_some_iff] at hb
        subst hb
        decide

theorem sign_eq (h : s.Loose) : dropSign s.text = s.announcement ++ s.body ∧
    isNegative s.text = decide (s.sign = .minus) := sign_text s.sign h.head_ne_sign

theorem readFraction_body (h : s.Loose) : readFraction s.base s.body =
    (digitsOf s.base s.whole,digitsOf s.base (s.frac.getD []),s.powerText) := by
  have hpower : ∀ b ∈ s.powerText.head?, isDigitOrUnderscore s.base b = false ∧ b ≠ 46 := by
    intro b hb
    cases hp : s.power with
    | none => simp [powerText,hp] at hb
    | some p =>
      have hmark := h.marks p hp
      simp only [powerText,hp,Power.text,List.head?_cons,Option.mem_some_iff] at hb
      subst hb
      refine ⟨isDigitOrUnderscore_of_mark hmark,?_⟩
      intro hpoint
      rw [hpoint] at hmark
      generalize s.hex.isSome = hex at hmark
      cases hex <;> exact absurd hmark (by decide)
  cases hfrac : s.frac with
  | some f =>
    have hpoint : isDigitOrUnderscore s.base 46 = false := by
      unfold base radix
      cases s.hex.isSome <;> decide
    have hwhole : s.body.span (isDigitOrUnderscore s.base) = (s.whole,46 :: (f ++ s.powerText)) := by
      rw [body,pointText,hfrac]
      exact span_append h.whole (by simpa using hpoint)
    have hrest : (f ++ s.powerText).span (isDigitOrUnderscore s.base) = (f,s.powerText) :=
      span_append (h.frac f hfrac) fun b hb => (hpower b hb).1
    simp only [readFraction,hwhole,hrest,Option.getD_some]
  | none =>
    have hwhole : s.body.span (isDigitOrUnderscore s.base) = (s.whole,s.powerText) := by
      rw [body,pointText,hfrac]
      exact span_append h.whole fun b hb => (hpower b hb).1
    simp only [readFraction,hwhole,Option.getD_none]
    split
    · next heq =>
      rw [heq] at hpower
      exact absurd rfl (hpower 46 rfl).2
    · rfl

theorem readExponent?_powerText (h : s.Loose) : readExponent? (mark s.hex.isSome) s.powerText =
    some ((s.power.map (Power.valueBy exponentValue)).getD 0,s.power.isSome,[]) := by
  cases hp : s.power with
  | none => simp [powerText,hp,readExponent?]
  | some p =>
    obtain ⟨⟨d,rest,hdigits,hd⟩,hall⟩ := h.power p hp
    have hsign := sign_text p.sign (t:=p.digits) fun b hb => by
      have hallowed : isDigitOrUnderscore (radix false) b = true := hall b (List.mem_of_mem_head? hb)
      exact ne_sign_of_isDigitOrUnderscore hallowed
    have hspan : (p.digits ++ []).span (isDigitOrUnderscore 10) = (p.digits,[]) :=
      span_append hall (by simp)
    rw [List.append_nil] at hspan
    have hmark : (lower p.letter == mark s.hex.isSome) = true := by simpa using h.marks p hp
    simp only [powerText,hp,Power.text,readExponent?,hmark,if_true,hsign.1,hsign.2]
    rw [hdigits] at hspan ⊢
    simp only [hd,if_true,hspan,Option.map_some,Option.getD_some,Option.isSome_some,Power.valueBy,
      decide_eq_true_eq,hdigits]

theorem plain (h : s.Loose) (hhex : s.hex = none) : ∀ b ∈ s.body,
    lower b ≠ 'b'.toUInt8 ∧ lower b ≠ 'o'.toUInt8 ∧ lower b ≠ 'x'.toUInt8 := by
  have hdigit {b : UInt8} (hb : isDigitOrUnderscore 10 b = true) :
      lower b ≠ 'b'.toUInt8 ∧ lower b ≠ 'o'.toUInt8 ∧ lower b ≠ 'x'.toUInt8 := by
    have hsmall : b.toNat ≤ 57 ∨ b.toNat = 95 := by
      rcases (isDigitOrUnderscore_iff 10 b).mp hb with hdigit | rfl
      · exact Or.inl ((isDigit_ten_iff b).mp hdigit).2
      · exact Or.inr rfl
    have hlower : (lower b).toNat ≤ 95 := by
      rw [toNat_lower]
      split_ifs <;> omega
    refine ⟨?_,?_,?_⟩ <;> intro heq <;> rw [heq] at hlower <;> exact absurd hlower (by decide)
  have hbase : s.base = 10 := by simp [base,radix,hhex]
  intro b hb
  rw [body,List.mem_append,List.mem_append] at hb
  rcases hb with hb | hb | hb
  · exact hdigit (hbase ▸ h.whole b hb)
  · cases hfrac : s.frac with
    | none => simp [pointText,hfrac] at hb
    | some f =>
      rw [pointText,hfrac] at hb
      rcases List.mem_cons.mp hb with rfl | hb
      · decide
      · exact hdigit (hbase ▸ h.frac f hfrac b hb)
  · cases hp : s.power with
    | none => simp [powerText,hp] at hb
    | some p =>
      rw [powerText,hp] at hb
      rcases List.mem_cons.mp hb with rfl | hb
      · rw [h.marks p hp,hhex]
        decide
      · rcases List.mem_append.mp hb with hb | hb
        · cases hsign : p.sign with
          | none => simp [Sign.text,hsign] at hb
          | plus =>
            rw [hsign,Sign.text,List.mem_singleton] at hb
            subst hb
            decide
          | minus =>
            rw [hsign,Sign.text,List.mem_singleton] at hb
            subst hb
            decide
        · exact hdigit ((h.power p hp).2 b hb)

theorem body_ne_nil (h : s.Loose) : s.body ≠ [] := by
  intro hnil
  have hdigits := h.digits
  obtain ⟨hwhole,hrest⟩ := List.append_eq_nil_iff.mp hnil
  cases hfrac : s.frac with
  | none => simp [Spelling.digits,digitsOf,hwhole,hfrac] at hdigits
  | some f => simp [pointText,hfrac] at hrest

theorem hexBody?_eq (h : s.Loose) : hexBody? (s.announcement ++ s.body) = s.hex.map fun _ => s.body := by
  cases hhex : s.hex with
  | some x =>
    rw [announcement,hhex]
    exact hexBody?_announced (h.announces x hhex) h.body_ne_nil
  | none =>
    rw [announcement,hhex]
    exact hexBody?_eq_none fun b hb => (h.plain hhex b hb).2.2

theorem underscoresOk_text (h : s.Loose) : underscoresOk s.text =
    ends s.hex.isSome (if s.hex.isSome then .digit else .start) s.body := by
  rw [underscoresOk_eq,h.sign_eq.1]
  cases hhex : s.hex with
  | some x =>
    rw [announcement,hhex]
    change ends (opening (48 :: x :: s.body)).2.1 (opening (48 :: x :: s.body)).1
      (opening (48 :: x :: s.body)).2.2 = _
    rw [opening_announced (h.announces x hhex)]
    rfl
  | none =>
    rw [announcement,hhex,List.nil_append,opening_plain (h.plain hhex)]
    rfl

theorem ends_body (h : s.Loose) (first : Seen) : ends s.hex.isSome first s.body = true ↔
    ends s.hex.isSome first s.whole = true ∧ (∀ f ∈ s.frac, ends s.hex.isSome .other f = true) ∧
      ∀ p ∈ s.power, ends s.hex.isSome .other p.digits = true := by
  have hsign (sign : Sign) (t : Text) :
      ends s.hex.isSome .other (sign.text ++ t) = ends s.hex.isSome .other t := by
    cases sign with
    | none => rfl
    | plus => exact (ends_append (by cases s.hex.isSome <;> decide) (by decide) .other [] t)
    | minus => exact (ends_append (by cases s.hex.isSome <;> decide) (by decide) .other [] t)
  have hpower (first : Seen) (t : Text) : ends s.hex.isSome first (t ++ s.powerText) = true ↔
      ends s.hex.isSome first t = true ∧ ∀ p ∈ s.power, ends s.hex.isSome .other p.digits = true := by
    cases hp : s.power with
    | none => simp [powerText,hp]
    | some p =>
      have hmark := h.marks p hp
      rw [powerText,hp]
      change ends _ first (t ++ p.letter :: (p.sign.text ++ p.digits)) = true ↔ _
      rw [ends_append (isDigit_of_mark hmark) (ne_underscore_of_mark hmark),hsign]
      simp
  rw [body]
  cases hfrac : s.frac with
  | none => simpa [pointText,hfrac] using hpower first s.whole
  | some f =>
    rw [pointText,hfrac,List.cons_append,ends_append (by cases s.hex.isSome <;> decide) (by decide),
      Bool.and_eq_true,hpower]
    simp

/-- The underscores are right exactly if the spelling is by the rules. -/
theorem underscoresOk_iff (h : s.Loose) : underscoresOk s.text = true ↔ s.Proper := by
  have hten (b : UInt8) (hb : isDigit 10 b = true) : isDigit (radix s.hex.isSome) b = true :=
    isDigit_radix_of_ten hb
  have hsame (b : UInt8) (hb : isDigit s.base b = true) : isDigit (radix s.hex.isSome) b = true := hb
  rw [h.underscoresOk_text,h.ends_body]
  constructor
  · rintro ⟨hwhole,hfrac,hpower⟩
    refine ⟨h.toMarked,?_,?_,?_,?_⟩
    · by_cases hnil : s.whole = []
      · exact Or.inl hnil
      · refine Or.inr ((run_of_ends hsame h.whole hnil hwhole).imp_right ?_)
        rintro ⟨hfirst,hline⟩
        refine ⟨?_,hline⟩
        by_contra hhex
        rw [if_neg hhex] at hfirst
        cases hfirst
    · intro f hf
      by_cases hnil : f = []
      · exact Or.inl hnil
      · refine Or.inr ((run_of_ends hsame (h.frac f hf) hnil (hfrac f hf)).resolve_right ?_)
        rintro ⟨⟨⟩,_⟩
    · by_contra hnone
      obtain ⟨hwhole,hfrac⟩ := not_or.mp hnone
      apply h.digits
      cases hf : s.frac with
      | none => simp [Spelling.digits,not_not.mp hwhole,hf,digitsOf]
      | some f =>
        have hnil : f = [] := by_contra fun hne => hfrac ⟨f,hf,hne⟩
        simp [Spelling.digits,not_not.mp hwhole,hf,hnil,digitsOf]
    · intro p hp
      obtain ⟨⟨d,rest,hdigits,_⟩,hall⟩ := h.power p hp
      refine (run_of_ends hten hall (by simp [hdigits]) (hpower p hp)).resolve_right ?_
      rintro ⟨⟨⟩,_⟩
  · intro hproper
    refine ⟨?_,?_,fun p hp => (hproper.power p hp).ends hten .other⟩
    · rcases hproper.whole with hnil | hrun | ⟨hhex,t,ht,hrun⟩
      · rw [hnil,ends_nil]
        split_ifs <;> rfl
      · exact hrun.ends hsame _
      · rw [if_pos hhex,ht]
        have hline : Seen.next s.hex.isSome .digit '_'.toUInt8 = some .underscore := by
          cases s.hex.isSome <;> rfl
        rw [ends_cons hline,hrun.ends hsame]
    · intro f hf
      rcases hproper.frac f hf with hnil | hrun
      · rw [hnil]
        rfl
      · exact hrun.ends hsame .other

theorem read?_text (h : s.Loose) :
    read? s.text = if underscoresOk s.text = true then some s.asRead else none := by
  have hmark : (if s.hex.isSome then 'p'.toUInt8 else 'e'.toUInt8) = mark s.hex.isSome := rfl
  have hradix : (if s.hex.isSome then 16 else 10) = s.base := rfl
  have hbody : (s.hex.map fun _ => s.body).getD (s.announcement ++ s.body) = s.body := by
    cases hhex : s.hex <;> simp [announcement,hhex]
  have hdigits : ((digitsOf s.base s.whole).isEmpty &&
      (digitsOf s.base (s.frac.getD [])).isEmpty) = false := by
    simpa [Spelling.digits] using h.digits
  have hneeded : (s.hex.isSome && !s.power.isSome) = false := by
    simpa using h.needed
  have hlines : (s.text.contains '_'.toUInt8 && !underscoresOk s.text) = !underscoresOk s.text := by
    by_cases hmem : '_'.toUInt8 ∈ s.text
    · simp [hmem]
    · simp [underscoresOk_of_not_mem hmem]
  unfold read?
  simp only [h.sign_eq.1,h.sign_eq.2,h.hexBody?_eq,Option.isSome_map,hmark,hradix,hbody,
    h.readFraction_body,hdigits,Bool.false_eq_true,if_false,h.readExponent?_powerText,hneeded,hlines]
  cases underscoresOk s.text <;> rfl

end Loose
end Spelling

/-! ### Taking a text apart -/

theorem span_eq (p : UInt8 → Bool) (t : Text) : (t.span p).1 ++ (t.span p).2 = t ∧
    ∀ b ∈ (t.span p).1, p b = true := by
  rw [List.span_eq_takeWhile_dropWhile]
  exact ⟨List.takeWhile_append_dropWhile,fun b hb => List.mem_takeWhile_imp hb⟩

theorem of_hexBody? {t d : Text} (h : hexBody? t = some d) :
    ∃ x, lower x = 'x'.toUInt8 ∧ t = 48 :: x :: d := by
  unfold hexBody? at h
  split at h
  · split_ifs at h with hx
    cases h
    exact ⟨_,by simpa using hx,rfl⟩
  · cases h

theorem of_readFraction {base : Nat} {t whole frac rest : Text}
    (h : readFraction base t = (whole,frac,rest)) : ∃ (w : Text) (f : Option Text),
    t = w ++ ((f.map (46 :: ·)).getD [] ++ rest) ∧ whole = digitsOf base w ∧
      frac = digitsOf base (f.getD []) ∧ (∀ b ∈ w, isDigitOrUnderscore base b = true) ∧
      ∀ g ∈ f, ∀ b ∈ g, isDigitOrUnderscore base b = true := by
  obtain ⟨ht,hw⟩ := span_eq (isDigitOrUnderscore base) t
  unfold readFraction at h
  rcases hspan : t.span (isDigitOrUnderscore base) with ⟨w,after⟩
  rw [hspan] at ht hw
  simp only [hspan] at h
  split at h
  · next after' =>
    obtain ⟨hafter,hf⟩ := span_eq (isDigitOrUnderscore base) after'
    rcases hspan' : after'.span (isDigitOrUnderscore base) with ⟨f,rest'⟩
    rw [hspan'] at hafter hf
    rw [hspan'] at h
    cases h
    exact ⟨w,some f,by simp [← ht,← hafter],rfl,rfl,hw,by simpa using hf⟩
  · cases h
    exact ⟨w,none,by simp [← ht],rfl,rfl,hw,by simp⟩

theorem of_readExponent? {letter : UInt8} {t : Text} {e : Int} {written : Bool}
    (h : readExponent? letter t = some (e,written,[])) : ∃ power : Option Power,
    t = (power.map Power.text).getD [] ∧ written = power.isSome ∧
      ∀ p ∈ power, lower p.letter = letter ∧
        (∃ d rest, p.digits = d :: rest ∧ isDigit 10 d = true) ∧
        ∀ b ∈ p.digits, isDigitOrUnderscore 10 b = true := by
  cases t with
  | nil =>
    cases h
    exact ⟨none,rfl,rfl,by simp⟩
  | cons b rest =>
    rw [readExponent?] at h
    by_cases hletter : (lower b == letter) = true
    · obtain ⟨sign,hrest⟩ := exists_sign rest
      obtain ⟨hspan,hall⟩ := span_eq (isDigitOrUnderscore 10) (dropSign rest)
      rcases hsplit : (dropSign rest).span (isDigitOrUnderscore 10) with ⟨run,after⟩
      rw [hsplit] at hspan hall
      simp only [if_pos hletter,hsplit] at h
      split at h
      · cases h
      · next d more hdigits =>
        by_cases hd : isDigit 10 d = true
        · rw [if_pos hd] at h
          cases h
          rw [List.append_nil] at hspan
          refine ⟨some ⟨b,sign,dropSign rest⟩,?_,rfl,?_⟩
          · simp [Power.text,← hrest]
          · simp only [Option.mem_some_iff,forall_eq']
            exact ⟨by simpa using hletter,⟨d,more,hdigits,hd⟩,hspan ▸ hall⟩
        · rw [if_neg hd] at h
          cases h
    · rw [if_neg hletter] at h
      cases h

theorem exists_loose {t : Text} {n : Numeral} (h : read? t = some n) :
    ∃ s : Spelling, s.Loose ∧ s.text = t := by
  obtain ⟨sign,hsign⟩ := exists_sign t
  obtain ⟨hex,hannounces,hhex,hbody⟩ : ∃ hex : Option UInt8, (∀ x ∈ hex, lower x = 'x'.toUInt8) ∧
      (hexBody? (dropSign t)).isSome = hex.isSome ∧
      dropSign t = (hex.map ([48,·])).getD [] ++ (hexBody? (dropSign t)).getD (dropSign t) := by
    cases hsome : hexBody? (dropSign t) with
    | none => exact ⟨none,by simp,rfl,by simp⟩
    | some d =>
      obtain ⟨x,hx,ht⟩ := of_hexBody? hsome
      exact ⟨some x,by simpa using hx,rfl,by simpa using ht⟩
  have hradix : (if hex.isSome then 16 else 10) = radix hex.isSome := rfl
  have hmark : (if hex.isSome then 'p'.toUInt8 else 'e'.toUInt8) = mark hex.isSome := rfl
  simp only [read?,hhex,hradix,hmark] at h
  rcases hfraction : readFraction (radix hex.isSome)
    ((hexBody? (dropSign t)).getD (dropSign t)) with ⟨whole,frac,rest⟩
  obtain ⟨w,f,hparts,rfl,rfl,hw,hf⟩ := of_readFraction hfraction
  rw [hfraction] at h
  by_cases hempty : ((digitsOf (radix hex.isSome) w).isEmpty &&
      (digitsOf (radix hex.isSome) (f.getD [])).isEmpty) = true
  · simp only [if_pos hempty] at h
    cases h
  · simp only [if_neg hempty] at h
    split at h
    · next e written hexponent =>
      obtain ⟨power,rfl,rfl,hpower⟩ := of_readExponent? hexponent
      by_cases hneeded : (hex.isSome && !power.isSome) = true
      · rw [if_pos hneeded] at h
        cases h
      · refine ⟨⟨sign,hex,w,f,power⟩,?_,?_⟩
        · refine ⟨⟨hannounces,fun p hp => (hpower p hp).1,fun hsome => ?_⟩,hw,hf,?_,
            fun p hp => (hpower p hp).2⟩
          · exact Option.isSome_iff_ne_none.mpr (by simpa [hsome] using hneeded)
          · simpa [Spelling.digits,Spelling.base] using hempty
        · conv_rhs => rw [hsign,hbody,hparts]
          cases hex <;> cases f <;> cases power <;> rfl
    · cases h

/-- What is read as a numeral is what is spelled by the rules, and it is read as it is spelled, but for
long exponents. -/
theorem read?_eq_some_iff {t : Text} {n : Numeral} :
    read? t = some n ↔ ∃ s : Spelling, s.Proper ∧ s.text = t ∧ s.asRead = n := by
  constructor
  · intro h
    obtain ⟨s,hs,rfl⟩ := exists_loose h
    rw [hs.read?_text] at h
    split_ifs at h with hlines
    exact ⟨s,hs.underscoresOk_iff.mp hlines,rfl,Option.some.inj h⟩
  · rintro ⟨s,hs,rfl,rfl⟩
    rw [hs.loose.read?_text,if_pos (hs.loose.underscoresOk_iff.mpr hs)]

end Numeral
end CircuitNotes
