import CircuitNotes.Proofs.AsciiStreams
import CircuitNotes.Yaml.Plain
import CircuitNotes.Yaml.Printer
import CircuitNotes.Yaml.Quoted
import Mathlib.Data.List.Basic

/-! Texts of printable ASCII characters as scalars. In whatever style a text is written, it is read back
as itself. -/
namespace CircuitNotes
namespace Yaml

open Printer (hasAdjacent hasKeyEnd)

theorem Pos.along_along (p : Pos) (m n : Nat) : (p.along m).along n = p.along (m + n) := by
  simp [Pos.along,Nat.add_assoc]

theorem asciiLines_replicate_append (k : Nat) {cs : List Char} (h : AsciiLines cs) :
    AsciiLines (List.replicate k ' ' ++ cs) := by
  refine asciiLines_append.mpr ⟨?_,h⟩
  intro c hc
  rw [List.eq_of_mem_replicate hc]
  exact Or.inr (by decide)

/-! ### Gaps -/

namespace Gap

theorem isBroken_addSpacing {gap : Gap} (h : gap.isBroken = false) (c : Char) :
    (gap.addSpacing c).isBroken = false := by
  cases gap <;> first | rfl | cases h

theorem fill_addSpacing {gap : Gap} (h : gap.isBroken = false) (c : Char) :
    (gap.addSpacing c).fill = gap.fill ++ [c] := by
  cases gap <;> first | rfl | cases h

end Gap

theorem Cursor.Calm.needAfter {cur : Cursor} {p : Pos} {rest : List Char} (h : cur.Calm p) (gap : Gap)
    (hrest : AsciiLines rest) :
    ∃ cur', (if gap == .none then some cur else cur.need 4 rest) = some cur' ∧ cur'.Calm p := by
  split_ifs
  · exact ⟨cur,rfl,h⟩
  · exact h.need hrest 4

theorem ite_bind_of_eq {α β : Type} {b : Prop} [Decidable b] {a a' : α} {x : Option α}
    (h : (if b then some a else x) = some a') (f : α → Option β) :
    (if b then f a else x.bind f) = f a' := by
  split_ifs at h ⊢
  · cases h
    rfl
  · rw [h,Option.bind_some]

/-! ### Without quotes -/

section Plain

variable {n : Nat} {gap : Gap} {cur : Cursor} {p : Pos} {c : Char} {cs tail : List Char}

theorem prepend_prepend (cs cs' : List Char) (x : Option PlainLexeme) :
    (x.map (PlainLexeme.prepend cs')).map (PlainLexeme.prepend cs) =
      x.map (PlainLexeme.prepend (cs ++ cs')) := by
  cases x with
  | none => rfl
  | some x => simp [PlainLexeme.prepend,Lexeme.prepend]

/-- No colon in a text that ends no key ends a scalar. -/
theorem of_hasKeyEnd_eq_false (hcs : ∀ d ∈ cs, IsAscii d)
    (h : hasKeyEnd (c :: cs) = false) (tail : List Char) :
    endsPlain false c (cs ++ tail) = false ∧ hasKeyEnd cs = false := by
  cases cs with
  | nil =>
    simp only [hasKeyEnd,Bool.and_true,Bool.or_false] at h
    exact ⟨by simp [endsPlain,h],rfl⟩
  | cons d cs =>
    rw [hasKeyEnd,Bool.or_eq_false_iff] at h
    have hd := (hcs d List.mem_cons_self).isBreak
    refine ⟨?_,h.2⟩
    simpa [endsPlain,endsWord,hd] using h.1

theorem of_hasAdjacent_eq_false
    (h : hasAdjacent isSpacing (· == '#') (c :: cs) = false) :
    (isSpacing c = true → cs.head? ≠ some '#') ∧ hasAdjacent isSpacing (· == '#') cs = false := by
  cases cs with
  | nil => exact ⟨fun _ => nofun,rfl⟩
  | cons d cs =>
    rw [hasAdjacent,Bool.or_eq_false_iff] at h
    refine ⟨?_,h.2⟩
    intro hc hd
    cases hd
    simp [hc] at h

theorem plain_space (hcur : cur.Calm p) (hc : IsAscii c) (hspace : isSpacing c = true)
    (hrest : AsciiLines tail) (hgap : gap.isBroken = false) :
    ∃ cur', cur'.Calm (p.along 1) ∧
      plain false n gap cur (c :: tail) = plain false n (gap.addSpacing c) cur' tail := by
  obtain ⟨cur',hneed,hcur'⟩ := (hcur.next hc).need hrest 1
  refine ⟨cur',hcur',?_⟩
  rw [plain,if_pos hspace,hgap]
  simp only [Bool.false_and,Bool.false_eq_true,if_false,hneed,Option.bind_eq_bind,Option.bind_some]

theorem plain_inked (hcur : cur.Calm p) (hc : IsAscii c) (hspace : isSpacing c = false)
    (hends : endsPlain false c tail = false) (htail : AsciiLines tail)
    (hspaced : gap ≠ .none → n ≤ p.column ∧ 0 < p.column ∧ c ≠ '#') :
    ∃ cur', cur'.Calm (p.along 1) ∧ plain false n gap cur (c :: tail) =
      (plain false n .none cur' tail).map (PlainLexeme.prepend (gap.fill ++ [c])) := by
  have hhere : (gap != .none && !false && decide (cur.column < n)) = false := by
    by_cases hnone : gap = .none
    · simp [hnone]
    · rw [show cur.column = p.column from congrArg Pos.column hcur.pos]
      simp [Nat.not_lt.mpr (hspaced hnone).1]
  obtain ⟨cur₁,hfar,hcur₁⟩ := hcur.needAfter gap (asciiLines_cons.mpr ⟨Or.inr hc,htail⟩)
  obtain ⟨cur₂,hneed,hcur₂⟩ := (hcur₁.next hc).need htail 2
  have hgoes : endsAfterGap gap cur₁ (c :: tail) = false := by
    by_cases hnone : gap = .none
    · simp [endsAfterGap,hnone]
    · obtain ⟨-,hpos,hhash⟩ := hspaced hnone
      have hcolumn : cur₁.column ≠ 0 := by
        rw [show cur₁.column = p.column from congrArg Pos.column hcur₁.pos]
        exact Nat.ne_of_gt hpos
      simp_all [endsAfterGap]
  refine ⟨cur₂,hcur₂,?_⟩
  rw [plain,if_neg (ne_true_of_eq_false hspace),if_neg (by simp [hc.isBreak]),hhere]
  simp only [Bool.false_eq_true,if_false,Option.bind_eq_bind]
  refine (ite_bind_of_eq hfar _).trans ?_
  simp only [hgoes,hends,Bool.or_self,Bool.false_eq_true,if_false,hneed,Option.bind_some]

theorem plain_append (hcur : cur.Calm p) (hcs : ∀ c ∈ cs, IsAscii c) (htail : AsciiLines tail)
    (hcolumn : ' ' ∈ cs → n ≤ p.column) (hkey : hasKeyEnd cs = false)
    (hcomment : hasAdjacent isSpacing (· == '#') cs = false) (hlast : cs.getLast? ≠ some ' ')
    (hgap : gap.isBroken = false)
    (hspaced : gap ≠ .none → n ≤ p.column ∧ 0 < p.column ∧ cs ≠ [] ∧ cs.head? ≠ some '#') :
    ∃ cur', cur'.Calm (p.along cs.length) ∧ plain false n gap cur (cs ++ tail) =
      (plain false n .none cur' tail).map (PlainLexeme.prepend (gap.fill ++ cs)) := by
  induction cs generalizing gap cur p with
  | nil =>
    obtain rfl : gap = .none := by
      by_contra hne
      exact (hspaced hne).2.2.1 rfl
    refine ⟨cur,hcur,?_⟩
    rw [List.nil_append]
    cases plain false n .none cur tail <;> rfl
  | cons c cs ih =>
    have hc := hcs c List.mem_cons_self
    have hcs' : ∀ d ∈ cs, IsAscii d := fun d hd => hcs d (List.mem_cons_of_mem c hd)
    have hrest : AsciiLines (cs ++ tail) :=
      asciiLines_append.mpr ⟨fun d hd => Or.inr (hcs' d hd),htail⟩
    obtain ⟨hends,hkey'⟩ := of_hasKeyEnd_eq_false hcs' hkey tail
    obtain ⟨hmark,hcomment'⟩ := of_hasAdjacent_eq_false hcomment
    have hcolumn' : ' ' ∈ cs → n ≤ (p.along 1).column :=
      fun h => Nat.le_succ_of_le (hcolumn (List.mem_cons_of_mem c h))
    cases hspace : isSpacing c with
    | true =>
      have hblank : c = ' ' := by simpa [hc.isSpacing] using hspace
      have hmore : cs ≠ [] := by
        rintro rfl
        exact hlast (by simpa using hblank)
      have hlast' : cs.getLast? ≠ some ' ' := by
        rwa [List.getLast?_cons_of_ne_nil hmore] at hlast
      obtain ⟨cur₁,hcur₁,hstep⟩ := plain_space (n := n) hcur hc hspace hrest hgap
      obtain ⟨cur',hcur',hplain⟩ := ih hcur₁ hcs' hcolumn' hkey' hcomment' hlast'
        (gap.isBroken_addSpacing hgap c) fun _ =>
          ⟨Nat.le_succ_of_le (hcolumn (by simp [hblank])),Nat.succ_pos _,hmore,hmark hspace⟩
      refine ⟨cur',by simpa [Pos.along_along,Nat.add_comm] using hcur',?_⟩
      rw [List.cons_append,hstep,hplain,gap.fill_addSpacing hgap,List.append_assoc,
        List.singleton_append]
    | false =>
      have hlast' : cs.getLast? ≠ some ' ' := by
        cases cs with
        | nil => nofun
        | cons d cs => rwa [List.getLast?_cons_cons] at hlast
      obtain ⟨cur₁,hcur₁,hstep⟩ := plain_inked hcur hc hspace hends hrest fun hnone =>
        ⟨(hspaced hnone).1,(hspaced hnone).2.1,by simpa using (hspaced hnone).2.2.2⟩
      obtain ⟨cur',hcur',hplain⟩ := ih hcur₁ hcs' hcolumn' hkey' hcomment' hlast'
        (rfl : Gap.none.isBroken = false) fun h => absurd rfl h
      refine ⟨cur',by simpa [Pos.along_along,Nat.add_comm] using hcur',?_⟩
      rw [List.cons_append,hstep,hplain,prepend_prepend,List.append_assoc]
      rfl

def StartsInked (cs : List Char) : Prop := ∀ c ∈ cs.head?, c ≠ ' ' ∧ c ≠ '\n' ∧ c ≠ '#'

theorem plain_indent {first : Option Char} {more : List Char} {k : Nat} (hcur : cur.Calm p)
    (hk : p.column + k < n) (htail : AsciiLines tail) (hinked : StartsInked tail) :
    ∃ cur', cur'.Calm (p.along k) ∧ plain false n (.broken first more) cur
      (List.replicate k ' ' ++ tail) = some ⟨⟨[],cur',tail⟩,true⟩ := by
  induction k generalizing cur p with
  | zero =>
    refine ⟨cur,hcur,?_⟩
    cases tail with
    | nil => rfl
    | cons c tail =>
      obtain ⟨hspace,hbreak,-⟩ := hinked c rfl
      have hascii := (htail c List.mem_cons_self).resolve_left hbreak
      have hhere : cur.column < n := by
        rw [show cur.column = p.column from congrArg Pos.column hcur.pos]
        exact hk
      rw [List.replicate_zero,List.nil_append,plain,if_neg (by simpa [hascii.isSpacing] using hspace),
        if_neg (by simp [hascii.isBreak]),if_pos (by simp [hhere])]
      rfl
  | succ k ih =>
    have hrest := asciiLines_replicate_append k htail
    have hspace : IsAscii ' ' := by decide
    obtain ⟨cur₁,hneed,hcur₁⟩ := (hcur.next hspace).need hrest 1
    obtain ⟨cur',hcur',hplain⟩ := ih hcur₁ (by simp only [Pos.along]; omega)
    refine ⟨cur',by simpa [Pos.along_along,Nat.add_comm] using hcur',?_⟩
    rw [List.replicate_succ,List.cons_append,plain,if_pos (by decide)]
    simp only [Gap.isBroken,Bool.true_and,show (' ' == '\t') = false from rfl,Bool.and_false,
      Bool.false_eq_true,if_false,Option.bind_eq_bind,hneed,Option.bind_some]
    exact hplain

/-- A plain scalar ends with its line, if the next line is not indented further than its own block. -/
theorem plain_end {k : Nat} (hcur : cur.Calm p) (hk : k < n) (htail : AsciiLines tail)
    (hinked : StartsInked tail) :
    ∃ cur', cur'.Calm (p.broken.along k) ∧ plain false n .none cur
      ('\n' :: (List.replicate k ' ' ++ tail)) = some ⟨⟨[],cur',tail⟩,true⟩ := by
  have hrest := asciiLines_replicate_append k htail
  obtain ⟨cur₁,hfirst,hcur₁⟩ := hcur.need (asciiLines_cons.mpr ⟨Or.inl rfl,hrest⟩) 2
  obtain ⟨cur₂,hsecond,hcur₂⟩ := hcur₁.nextLine.need hrest 1
  obtain ⟨cur',hcur',hplain⟩ := plain_indent hcur₂
    (by simpa [Pos.broken] using hk) htail hinked
  refine ⟨cur',hcur',?_⟩
  rw [plain,if_neg (by decide),if_pos (by decide)]
  simp only [Option.bind_eq_bind,hfirst,Option.bind_some,hsecond]
  exact hplain

end Plain

/-! ### Between quotes -/

section Quoted

variable {gap : Gap} {cur : Cursor} {p : Pos} {c : Char} {cs tail : List Char}

theorem asciiLines_flatMap {f : Char → List Char} (hf : ∀ c, IsAscii c → ∀ d ∈ f c, IsAscii d)
    (hcs : ∀ c ∈ cs, IsAscii c) (htail : AsciiLines tail) : AsciiLines (cs.flatMap f ++ tail) := by
  refine asciiLines_append.mpr ⟨?_,htail⟩
  intro d hd
  obtain ⟨c,hc,hd⟩ := List.mem_flatMap.mp hd
  exact Or.inr (hf c (hcs c hc) d hd)

def singleForm (c : Char) : List Char := if c == '\'' then ['\'','\''] else [c]

theorem isAscii_singleForm (c : Char) (hc : IsAscii c) : ∀ d ∈ singleForm c, IsAscii d := by
  unfold singleForm
  split_ifs
  · exact isAscii_of_all (by decide)
  · simpa using hc

theorem singleQuoted_read (hcur : cur.Calm p) (hcs : ∀ c ∈ cs, IsAscii c) (htail : AsciiLines tail)
    (hquote : tail.head? ≠ some '\'') (hgap : gap.isBroken = false) :
    ∃ cur' q, cur'.Calm q ∧ singleQuoted gap cur (cs.flatMap singleForm ++ '\'' :: tail) =
      some ⟨gap.fill ++ cs,cur',tail⟩ := by
  have hend : AsciiLines ('\'' :: tail) := asciiLines_cons.mpr ⟨Or.inr (by decide),htail⟩
  induction cs generalizing gap cur p with
  | nil =>
    obtain ⟨cur₁,hfar,hcur₁⟩ := hcur.needAfter gap hend
    refine ⟨_,_,hcur₁.next (by decide : IsAscii '\''),?_⟩
    rw [List.flatMap_nil,List.nil_append,singleQuoted,if_neg (by decide),if_neg (by decide),hfar]
    simp only [hgap,Bool.false_and,Bool.false_eq_true,if_false,beq_self_eq_true,if_true,
      List.append_nil]
    split
    · exact absurd rfl hquote
    · rfl
  | cons c cs ih =>
    have hc := hcs c List.mem_cons_self
    have hcs' : ∀ d ∈ cs, IsAscii d := fun d hd => hcs d (List.mem_cons_of_mem c hd)
    have hrest := asciiLines_flatMap isAscii_singleForm hcs' hend
    rw [List.flatMap_cons,List.append_assoc]
    by_cases hquoted : c = '\''
    · subst hquoted
      obtain ⟨cur₁,hfar,hcur₁⟩ := hcur.needAfter gap
        (asciiLines_cons.mpr ⟨Or.inr hc,asciiLines_cons.mpr ⟨Or.inr hc,hrest⟩⟩)
      obtain ⟨cur₂,hneed,hcur₂⟩ := ((hcur₁.next hc).next hc).need hrest 2
      obtain ⟨cur',q,hcur',hread⟩ := ih hcur₂ hcs' (rfl : Gap.none.isBroken = false)
      refine ⟨cur',q,hcur',?_⟩
      rw [show singleForm '\'' = ['\'','\''] from rfl,List.cons_append,List.singleton_append,
        singleQuoted,if_neg (by decide),if_neg (by decide),hfar]
      simp only [hgap,Bool.false_and,Bool.false_eq_true,if_false,beq_self_eq_true,if_true,
        Option.bind_eq_bind,hneed,Option.bind_some,hread]
      simp [Lexeme.prepend,Gap.fill]
    · rw [singleForm,if_neg (by simpa using hquoted),List.singleton_append,singleQuoted]
      by_cases hspace : isSpacing c = true
      · obtain ⟨cur₁,hneed,hcur₁⟩ := (hcur.next hc).need hrest 1
        obtain ⟨cur',q,hcur',hread⟩ := ih hcur₁ hcs' (gap.isBroken_addSpacing hgap c)
        refine ⟨cur',q,hcur',?_⟩
        rw [if_pos hspace]
        simp only [Option.bind_eq_bind,hneed,Option.bind_some,hread]
        rw [gap.fill_addSpacing hgap,List.append_assoc,List.singleton_append]
      · obtain ⟨cur₁,hfar,hcur₁⟩ := hcur.needAfter gap (asciiLines_cons.mpr ⟨Or.inr hc,hrest⟩)
        obtain ⟨cur₂,hneed,hcur₂⟩ := (hcur₁.next hc).need hrest 2
        obtain ⟨cur',q,hcur',hread⟩ := ih hcur₂ hcs' (rfl : Gap.none.isBroken = false)
        refine ⟨cur',q,hcur',?_⟩
        rw [if_neg hspace,if_neg (by simp [hc.isBreak]),hfar]
        simp only [hgap,Bool.false_and,Bool.false_eq_true,if_false,beq_iff_eq,hquoted,
          Option.bind_eq_bind,hneed,Option.bind_some,hread]
        simp [Lexeme.prepend,Gap.fill]

def doubleForm (c : Char) : List Char := if c == '"' || c == '\\' then ['\\',c] else [c]

theorem isAscii_doubleForm (c : Char) (hc : IsAscii c) : ∀ d ∈ doubleForm c, IsAscii d := by
  unfold doubleForm
  split_ifs
  · simpa using ⟨by decide,hc⟩
  · simpa using hc

theorem doubleQuoted_escape (hcur : cur.Calm p) (hc : c = '"' ∨ c = '\\') (htail : AsciiLines tail) :
    ∃ cur', cur'.Calm (p.along 1) ∧ ∀ gap, doubleQuoted .escape gap cur (c :: tail) =
      (doubleQuoted .text .none cur' tail).map (Lexeme.prepend [c]) := by
  have hascii : IsAscii c := by rcases hc with rfl | rfl <;> decide
  obtain ⟨cur',hneed,hcur'⟩ := (hcur.next hascii).need htail 2
  refine ⟨cur',hcur',fun gap => ?_⟩
  rw [doubleQuoted,if_neg (by simp [hascii.isBreak])]
  have hcode : codeLength? c = none := by rcases hc with rfl | rfl <;> rfl
  have hlookup : escapes.lookup c = some c := by rcases hc with rfl | rfl <;> rfl
  simp only [hcode,hlookup,Option.bind_eq_bind,hneed,Option.bind_some]

theorem doubleQuoted_read (hcur : cur.Calm p) (hcs : ∀ c ∈ cs, IsAscii c) (htail : AsciiLines tail)
    (hgap : gap.isBroken = false) :
    ∃ cur' q, cur'.Calm q ∧ doubleQuoted .text gap cur (cs.flatMap doubleForm ++ '"' :: tail) =
      some ⟨gap.fill ++ cs,cur',tail⟩ := by
  have hend : AsciiLines ('"' :: tail) := asciiLines_cons.mpr ⟨Or.inr (by decide),htail⟩
  induction cs generalizing gap cur p with
  | nil =>
    obtain ⟨cur₁,hfar,hcur₁⟩ := hcur.needAfter gap hend
    refine ⟨_,_,hcur₁.next (by decide : IsAscii '"'),?_⟩
    rw [List.flatMap_nil,List.nil_append,doubleQuoted,if_neg (by decide),if_neg (by decide)]
    refine (ite_bind_of_eq hfar _).trans ?_
    simp only [hgap,Bool.false_and,Bool.false_eq_true,if_false,beq_self_eq_true,if_true,
      List.append_nil]
  | cons c cs ih =>
    have hc := hcs c List.mem_cons_self
    have hcs' : ∀ d ∈ cs, IsAscii d := fun d hd => hcs d (List.mem_cons_of_mem c hd)
    have hrest := asciiLines_flatMap isAscii_doubleForm hcs' hend
    rw [List.flatMap_cons,List.append_assoc]
    by_cases hescaped : c = '"' ∨ c = '\\'
    · obtain ⟨cur₁,hfar,hcur₁⟩ := hcur.needAfter gap
        (asciiLines_cons.mpr ⟨Or.inr (by decide : IsAscii '\\'),asciiLines_cons.mpr ⟨Or.inr hc,hrest⟩⟩)
      obtain ⟨cur₂,hcur₂,hescape⟩ := doubleQuoted_escape (hcur₁.next (by decide : IsAscii '\\'))
        hescaped hrest
      obtain ⟨cur',q,hcur',hread⟩ := ih hcur₂ hcs' (rfl : Gap.none.isBroken = false)
      refine ⟨cur',q,hcur',?_⟩
      rw [doubleForm,if_pos (by simpa using hescaped),List.cons_append,List.singleton_append,
        doubleQuoted,if_neg (by decide),if_neg (by decide)]
      refine (ite_bind_of_eq hfar _).trans ?_
      simp only [hgap,Bool.false_and,Bool.false_eq_true,if_false,beq_self_eq_true,if_true,
        show ('\\' == '"') = false from rfl,List.head?_cons,Option.any_some,hc.isBreak,
        Option.bind_eq_bind,Option.bind_some,hescape,hread]
      simp [Lexeme.prepend,Gap.fill]
    · rw [doubleForm,if_neg (by simpa using hescaped),List.singleton_append,doubleQuoted]
      rw [not_or] at hescaped
      by_cases hspace : isSpacing c = true
      · obtain ⟨cur₁,hneed,hcur₁⟩ := (hcur.next hc).need hrest 1
        obtain ⟨cur',q,hcur',hread⟩ := ih hcur₁ hcs' (gap.isBroken_addSpacing hgap c)
        refine ⟨cur',q,hcur',?_⟩
        rw [if_pos hspace]
        simp only [Option.bind_eq_bind,hneed,Option.bind_some,hread]
        rw [gap.fill_addSpacing hgap,List.append_assoc,List.singleton_append]
      · obtain ⟨cur₁,hfar,hcur₁⟩ := hcur.needAfter gap (asciiLines_cons.mpr ⟨Or.inr hc,hrest⟩)
        obtain ⟨cur₂,hneed,hcur₂⟩ := (hcur₁.next hc).need hrest 2
        obtain ⟨cur',q,hcur',hread⟩ := ih hcur₂ hcs' (rfl : Gap.none.isBroken = false)
        refine ⟨cur',q,hcur',?_⟩
        rw [if_neg hspace,if_neg (by simp [hc.isBreak])]
        refine (ite_bind_of_eq hfar _).trans ?_
        simp only [hgap,Bool.false_and,Bool.false_eq_true,if_false,beq_iff_eq,hescaped,
          Option.bind_eq_bind,hneed,Option.bind_some,hread]
        simp [Lexeme.prepend,Gap.fill]

end Quoted

/-! ### Written forms -/

section Written

variable {c : Char} {cs : List Char} {s : String}

/-- Printable texts that may stand without quotes, apart from what they would mean. -/
structure IsPlain (cs : List Char) : Prop where
  ne_nil : cs ≠ []
  ascii : ∀ c ∈ cs, IsAscii c
  allowed : Printer.allowsPlain cs = true

/-- A form that a text is written in, and whether it is one without quotes. -/
inductive Written : List Char → List Char → Bool → Prop
  | plain {cs : List Char} (h : IsPlain cs) : Written cs cs true
  | single {cs : List Char} (h : ∀ c ∈ cs, IsAscii c) :
    Written ('\'' :: (cs.flatMap singleForm ++ ['\''])) cs false
  | double {cs : List Char} (h : ∀ c ∈ cs, IsAscii c) :
    Written ('"' :: (cs.flatMap doubleForm ++ ['"'])) cs false

theorem isPrintable_of_isAscii (h : IsAscii c) : Printer.isPrintable c = true := by
  simp [Printer.isPrintable,h.1,h.2]

theorem hasAdjacent_isBreak (p : Char → Bool) (h : ∀ c ∈ cs, IsAscii c) :
    hasAdjacent p isBreak cs = false ∧ hasAdjacent isBreak p cs = false := by
  induction cs with
  | nil => exact ⟨rfl,rfl⟩
  | cons c cs ih =>
    obtain ⟨ih₁,ih₂⟩ := ih fun d hd => h d (List.mem_cons_of_mem c hd)
    cases cs with
    | nil => exact ⟨rfl,rfl⟩
    | cons d cs =>
      have hc := (h c List.mem_cons_self).isBreak
      have hd := (h d (List.mem_cons_of_mem c List.mem_cons_self)).isBreak
      simp [hasAdjacent,hc,hd,ih₁,ih₂]

theorem allowsSingle_of_isAscii (h : ∀ c ∈ cs, IsAscii c) : Printer.allowsSingle cs = true := by
  have hprintable : cs.all Printer.isPrintable = true :=
    List.all_eq_true.mpr fun c hc => isPrintable_of_isAscii (h c hc)
  simp [Printer.allowsSingle,hprintable,(hasAdjacent_isBreak _ h).1,(hasAdjacent_isBreak _ h).2]

theorem indented_of_isBreak_eq_false (width : Nat) (h : ∀ c ∈ cs, isBreak c = false) :
    Printer.indented width false cs = cs := by
  induction cs with
  | nil => rfl
  | cons c cs ih =>
    rw [Printer.indented,h c List.mem_cons_self,ih fun d hd => h d (List.mem_cons_of_mem c hd)]
    rfl

theorem doubleForm_eq (h : IsAscii c) :
    (if Printer.standsAlone c && !false then [c] else Printer.escape c) = doubleForm c := by
  have hprintable := isPrintable_of_isAscii h
  by_cases hc : c = '"' ∨ c = '\\'
  · rcases hc with rfl | rfl <;> rfl
  · have hform : doubleForm c = [c] := if_neg (by simpa using hc)
    rw [not_or] at hc
    rw [hform,if_pos]
    simp [Printer.standsAlone,hprintable,h.isBreak,hc]

theorem double_eq (h : ∀ c ∈ cs, IsAscii c) :
    Printer.double cs = '"' :: (cs.flatMap doubleForm ++ ['"']) := by
  have hmarked : (cs.head? == some byteOrderMark) = false :=
    AsciiLines.head?_ne fun c hc => Or.inr (h c hc)
  rw [Printer.double,hmarked]
  simp only [List.cons_append]
  congr 2
  exact List.flatMap_congr fun c hc => doubleForm_eq (h c hc)

theorem single_eq (width : Nat) (h : ∀ c ∈ cs, IsAscii c) :
    Printer.single width cs = '\'' :: (cs.flatMap singleForm ++ ['\'']) := by
  have hbreaks : ∀ c ∈ cs.flatMap singleForm, isBreak c = false := by
    intro d hd
    obtain ⟨c,hc,hd⟩ := List.mem_flatMap.mp hd
    exact (isAscii_singleForm c (h c hc) d hd).isBreak
  rw [Printer.single]
  exact congrArg (fun cs => '\'' :: cs ++ ['\'']) (indented_of_isBreak_eq_false width hbreaks)

namespace IsPlain

theorem head?_ne (h : IsPlain cs) : cs.head? ≠ some ' ' := by
  have := h.allowed
  simp_all [Printer.allowsPlain]

theorem getLast?_ne (h : IsPlain cs) : cs.getLast? ≠ some ' ' := by
  have := h.allowed
  simp_all [Printer.allowsPlain]

theorem startsOtherwise (h : IsPlain cs) : Printer.startsOtherwise cs = false := by
  have := h.allowed
  simp_all [Printer.allowsPlain]

theorem hasKeyEnd (h : IsPlain cs) : hasKeyEnd cs = false := by
  have := h.allowed
  simp_all [Printer.allowsPlain]

theorem hasComment (h : IsPlain cs) : hasAdjacent isSpacing (· == '#') cs = false := by
  have := h.allowed
  simp_all [Printer.allowsPlain]

/-- A plain scalar at the end of a line is read with the indentation of the next line, if that is not
indented further than the block. -/
theorem read_line {n k : Nat} {cur : Cursor} {p : Pos} {tail : List Char} (h : IsPlain cs)
    (hcur : cur.Calm p) (hcolumn : n ≤ p.column) (hk : k < n) (htail : AsciiLines tail)
    (hinked : StartsInked tail) :
    ∃ cur' q, cur'.Calm q ∧ q.column = k ∧ plain false n .none cur
      (cs ++ '\n' :: (List.replicate k ' ' ++ tail)) = some ⟨⟨cs,cur',tail⟩,true⟩ := by
  have hrest : AsciiLines ('\n' :: (List.replicate k ' ' ++ tail)) :=
    asciiLines_cons.mpr ⟨Or.inl rfl,asciiLines_replicate_append k htail⟩
  obtain ⟨cur₁,hcur₁,happend⟩ := plain_append hcur h.ascii hrest (fun _ => hcolumn) h.hasKeyEnd
    h.hasComment h.getLast?_ne (rfl : Gap.none.isBroken = false) fun h => absurd rfl h
  obtain ⟨cur',hcur',hend⟩ := plain_end hcur₁ hk htail hinked
  refine ⟨cur',_,hcur',Nat.zero_add k,?_⟩
  rw [happend,hend]
  simp [PlainLexeme.prepend,Lexeme.prepend,Gap.fill]

theorem read_key {n : Nat} {cur : Cursor} {p : Pos} {tail : List Char} (h : IsPlain cs)
    (hcur : cur.Calm p) (hcolumn : ' ' ∈ cs → n ≤ p.column) (htail : AsciiLines tail)
    (hword : endsWord tail = true) :
    ∃ cur', cur'.Calm (p.along cs.length) ∧ plain false n .none cur (cs ++ ':' :: tail) =
      some ⟨⟨cs, cur', ':' :: tail⟩,false⟩ := by
  have hrest : AsciiLines (':' :: tail) := asciiLines_cons.mpr ⟨Or.inr (by decide),htail⟩
  obtain ⟨cur',hcur',happend⟩ := plain_append hcur h.ascii hrest hcolumn h.hasKeyEnd h.hasComment
    h.getLast?_ne (rfl : Gap.none.isBroken = false) fun h => absurd rfl h
  refine ⟨cur',hcur',?_⟩
  rw [happend,plain,if_neg (by decide),if_neg (by decide)]
  simp [endsPlain,hword,PlainLexeme.prepend,Lexeme.prepend,Gap.fill,Gap.isBroken]

end IsPlain

def isWordChar (c : Char) : Bool := c.isAlphanum || c == '_'

theorem isAscii_of_isWordChar (h : isWordChar c = true) : IsAscii c := by
  rw [isWordChar,Bool.or_eq_true,beq_iff_eq] at h
  rcases h with h | rfl
  · have hranges : ((decide (c.val ≥ 65 ∧ c.val ≤ 90) ||
        decide (c.val ≥ 97) && decide (c.val ≤ 122)) ||
        decide (c.val ≥ 48) && decide (c.val ≤ 57)) = true := h
    have hnat : c.val.toNat = c.toNat := rfl
    simp only [Bool.or_eq_true,Bool.and_eq_true,decide_eq_true_eq,ge_iff_le,
      UInt32.le_iff_toNat_le,UInt32.reduceToNat] at hranges
    unfold IsAscii
    omega
  · decide

theorem hasKeyEnd_of_forall (h : ∀ c ∈ cs, c ≠ ':') : hasKeyEnd cs = false := by
  induction cs with
  | nil => rfl
  | cons c cs ih =>
    have hrest := ih fun d hd => h d (List.mem_cons_of_mem c hd)
    cases cs <;> simp_all [hasKeyEnd]

theorem hasComment_of_forall (h : ∀ c ∈ cs, c ≠ '#') : hasAdjacent isSpacing (· == '#') cs = false := by
  induction cs with
  | nil => rfl
  | cons c cs ih =>
    have hrest := ih fun d hd => h d (List.mem_cons_of_mem c hd)
    cases cs <;> simp_all [hasAdjacent]

theorem isPlain_of_startsOtherwise (hne : cs ≠ [])
    (hcs : ∀ c ∈ cs, isWordChar c = true ∨ c = '-') (hstart : Printer.startsOtherwise cs = false) :
    IsPlain cs := by
  have hascii : ∀ c ∈ cs, IsAscii c := by
    intro c hc
    rcases hcs c hc with hc | rfl
    · exact isAscii_of_isWordChar hc
    · decide
  have hnot : ∀ d, isWordChar d = false → d ≠ '-' → ∀ c ∈ cs, c ≠ d := by
    rintro d hd hminus c hc rfl
    rcases hcs c hc with hc | hc
    · simp [hd] at hc
    · exact hminus hc
  have hbreaks : cs.any isBreak = false := by
    rw [List.any_eq_false]
    exact fun c hc => by simp [(hascii c hc).isBreak]
  have hspace := hnot ' ' rfl (by decide)
  have hhead : cs.head? ≠ some ' ' := fun h => hspace ' ' (List.mem_of_head? h) rfl
  have hlast : cs.getLast? ≠ some ' ' := fun h => hspace ' ' (List.mem_of_getLast? h) rfl
  refine ⟨hne,hascii,?_⟩
  simp [Printer.allowsPlain,allowsSingle_of_isAscii hascii,hbreaks,hhead,hlast,hstart,
    hasKeyEnd_of_forall (hnot ':' rfl (by decide)),hasComment_of_forall (hnot '#' rfl (by decide))]

theorem isPlain_of_word (hc : isWordChar c = true) (hcs : ∀ d ∈ cs, isWordChar d = true) :
    IsPlain (c :: cs) := by
  have hall : ∀ d ∈ c :: cs, isWordChar d = true := List.forall_mem_cons.mpr ⟨hc,hcs⟩
  refine isPlain_of_startsOtherwise (List.cons_ne_nil c cs) (fun d hd => Or.inl (hall d hd)) ?_
  have hnot : ∀ d, isWordChar d = false → c ≠ d := by
    rintro d hd rfl
    simp [hd] at hc
  rw [Printer.startsOtherwise.eq_def]
  split <;> rename_i heq <;> cases heq
  · exact absurd hc (by decide)
  · exact absurd hc (by decide)
  · simp (disch := decide) [hnot]

theorem isPlain_minus (hc : isWordChar c = true) (hcs : ∀ d ∈ cs, isWordChar d = true) :
    IsPlain ('-' :: c :: cs) := by
  have hall : ∀ d ∈ c :: cs, isWordChar d = true := List.forall_mem_cons.mpr ⟨hc,hcs⟩
  refine isPlain_of_startsOtherwise (List.cons_ne_nil _ _) ?_ ?_
  · intro d hd
    rcases List.mem_cons.mp hd with rfl | hd
    · exact Or.inr rfl
    · exact Or.inl (hall d hd)
  · have hspace : isSpacing c = false := by
      rw [(isAscii_of_isWordChar hc).isSpacing,beq_eq_false_iff_ne]
      rintro rfl
      exact absurd hc (by decide)
    rw [Printer.startsOtherwise]
    · simp [hspace]
    · rintro rest - hrest
      cases hrest
      exact absurd hc (by decide)
    · nofun

/-- However a printable text is written, it is in one of the forms; and without quotes only if it means
nothing but itself. -/
theorem written_text (width : Nat) (h : ∀ c ∈ s.toList, IsAscii c) :
    Written (Printer.text width s) s.toList (Printer.styleOf s == .plain) ∧
      (Printer.styleOf s = .plain → meaning true s = .text) := by
  have hline : s.toList.contains '\n' = false := by
    rw [List.contains_eq_mem,decide_eq_false_iff_not]
    exact fun hbreak => absurd (h _ hbreak) (by decide)
  unfold Printer.text Printer.styleOf
  simp only [hline,Bool.false_eq_true,if_false]
  by_cases hmeans : (meaning true s == .text && !Printer.isSexagesimal s &&
      !Printer.isOldBool s) = true
  · rw [if_pos hmeans]
    simp only [Bool.and_eq_true,beq_iff_eq] at hmeans
    by_cases hplain : Printer.allowsPlain s.toList = true
    · rw [if_pos hplain]
      refine ⟨.plain ⟨?_,h,hplain⟩,fun _ => hmeans.1.1⟩
      intro hnil
      rw [String.toList_eq_nil_iff.mp hnil] at hmeans
      exact absurd hmeans.1.1 (by decide)
    · rw [if_neg hplain,if_pos (allowsSingle_of_isAscii h)]
      exact ⟨single_eq width h ▸ .single h,fun hstyle => by cases hstyle⟩
  · rw [if_neg hmeans]
    exact ⟨double_eq h ▸ .double h,fun hstyle => by cases hstyle⟩

theorem Written.ascii {form text : List Char} {b : Bool} (h : Written form text b) :
    ∀ c ∈ form, IsAscii c := by
  have hquoted : ∀ {f : Char → List Char} {q : Char} {cs : List Char}, IsAscii q →
      (∀ c, IsAscii c → ∀ d ∈ f c, IsAscii d) → (∀ c ∈ cs, IsAscii c) →
      ∀ c ∈ q :: (cs.flatMap f ++ [q]), IsAscii c := by
    intro f q cs hq hf hcs c hc
    simp only [List.mem_cons,List.mem_append,List.mem_flatMap,List.not_mem_nil,or_false] at hc
    rcases hc with rfl | ⟨d,hd,hc⟩ | rfl
    · exact hq
    · exact hf d (hcs d hd) c hc
    · exact hq
  cases h with
  | plain h => exact h.ascii
  | single h => exact hquoted (by decide) isAscii_singleForm h
  | double h => exact hquoted (by decide) isAscii_doubleForm h

end Written

end Yaml
end CircuitNotes
