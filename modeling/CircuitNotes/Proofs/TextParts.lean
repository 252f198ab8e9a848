import CircuitNotes.Proofs.LineGrammar
import Mathlib.Data.List.DropRight

/-! Texts taken apart and put together: the pieces between separators, the blanks at the ends, and
the decimal numerals of numbers. -/
namespace CircuitNotes
namespace Text

/-! ### Pieces -/

theorem splitOn_of_not_mem {sep : UInt8} {t : Text} (h : sep ∉ t) : splitOn sep t = [t] := by
  induction t with
  | nil => rfl
  | cons b t ih =>
    obtain ⟨hb,ht⟩ := not_or.mp (mt List.mem_cons.mpr h)
    rw [splitOn,if_neg (by simpa using Ne.symm hb),ih ht]

theorem splitOn_append (sep : UInt8) (s t : Text) :
    splitOn sep (s ++ sep :: t) = splitOn sep s ++ splitOn sep t := by
  induction s with
  | nil => simp [splitOn]
  | cons b s ih =>
    rw [List.cons_append,splitOn,splitOn,ih]
    split_ifs with hb
    · rfl
    · cases hs : splitOn sep s with
      | nil => exact absurd hs (splitOn_ne_nil sep s)
      | cons piece pieces => rfl

theorem splitOn_joinWith {sep : UInt8} {ts : List Text} (hne : ts ≠ []) (h : ∀ t ∈ ts, sep ∉ t) :
    splitOn sep (joinWith [sep] ts) = ts := by
  induction ts with
  | nil => exact absurd rfl hne
  | cons t ts ih =>
    obtain ⟨ht,hts⟩ := List.forall_mem_cons.mp h
    cases ts with
    | nil => exact splitOn_of_not_mem ht
    | cons u ts =>
      rw [joinWith,List.append_assoc,List.singleton_append,splitOn_append,splitOn_of_not_mem ht,
        ih (List.cons_ne_nil _ _) hts,List.singleton_append]

theorem mem_joinWith {sep : Text} {ts : List Text} {b : UInt8} (h : b ∈ joinWith sep ts) :
    b ∈ sep ∨ ∃ t ∈ ts, b ∈ t := by
  induction ts with
  | nil => cases h
  | cons t ts ih =>
    cases ts with
    | nil => exact Or.inr ⟨t,List.mem_cons_self,h⟩
    | cons u ts =>
      rcases List.mem_append.mp h with h | h
      · rcases List.mem_append.mp h with h | h
        · exact Or.inr ⟨t,List.mem_cons_self,h⟩
        · exact Or.inl h
      · exact (ih h).imp_right fun ⟨t',ht',hb⟩ => ⟨t',List.mem_cons_of_mem t ht',hb⟩

theorem mem_of_mem_splitOn {sep b : UInt8} {t piece : Text} (hpiece : piece ∈ splitOn sep t)
    (hb : b ∈ piece) : b ∈ t := by
  induction t generalizing piece with
  | nil =>
    rw [splitOn,List.mem_singleton] at hpiece
    exact hpiece ▸ hb
  | cons a t ih =>
    rw [splitOn] at hpiece
    split_ifs at hpiece
    · rcases List.mem_cons.mp hpiece with rfl | hpiece
      · cases hb
      · exact List.mem_cons_of_mem a (ih hpiece hb)
    · cases hs : splitOn sep t with
      | nil => exact absurd hs (splitOn_ne_nil sep t)
      | cons first pieces =>
        rw [hs] at hpiece ih
        rcases List.mem_cons.mp hpiece with rfl | hpiece
        · rcases List.mem_cons.mp hb with rfl | hb
          · exact List.mem_cons_self
          · exact List.mem_cons_of_mem a (ih List.mem_cons_self hb)
        · exact List.mem_cons_of_mem a (ih (List.mem_cons_of_mem _ hpiece) hb)

/-! ### Blanks at the ends -/

theorem mem_of_mem_trimLeft {t : Text} {b : UInt8} (h : b ∈ trimLeft t) : b ∈ t := by
  obtain ⟨g,hg,hb⟩ := List.mem_flatten.mp h
  exact mem_of_mem_glyph ((List.dropWhile_sublist _).mem hg) hb

theorem mem_of_mem_trimRight {t : Text} {b : UInt8} (h : b ∈ trimRight t) : b ∈ t := by
  obtain ⟨g,hg,hb⟩ := List.mem_flatten.mp h
  have hkept := (List.dropWhile_sublist _).mem (List.mem_reverse.mp hg)
  exact mem_of_mem_glyph (List.mem_reverse.mp hkept) hb

theorem mem_of_mem_trim {t : Text} {b : UInt8} (h : b ∈ trim t) : b ∈ t :=
  mem_of_mem_trimLeft (mem_of_mem_trimRight h)

def Solid (b : UInt8) : Prop := b < 0x80 ∧ isBlank (Char.ofNat b.toNat) = false

theorem Solid.dropWhile {b : UInt8} (h : Solid b) (gs : List Text) :
    ([b] :: gs).dropWhile (fun g => isBlank (glyphChar g)) = [b] :: gs := by
  refine List.dropWhile_cons_of_neg ?_
  simp only [glyphChar,if_pos h.1,h.2]
  decide

theorem trimLeft_cons {b : UInt8} (h : Solid b) (t : Text) : trimLeft (b :: t) = b :: t := by
  rw [trimLeft,glyphs_cons h.1,h.dropWhile,← glyphs_cons h.1,flatten_glyphs]

theorem trimRight_concat {b : UInt8} (h : Solid b) (t : Text) : trimRight (t ++ [b]) = t ++ [b] := by
  have hglyphs : glyphs (t ++ [b]) = glyphs t ++ [[b]] := by
    rw [glyphs_append t h.1,glyphs_cons h.1]
    rfl
  have hreverse : (glyphs (t ++ [b])).reverse = [b] :: (glyphs t).reverse := by
    rw [hglyphs,List.reverse_append,List.reverse_singleton,List.singleton_append]
  rw [trimRight,hreverse,h.dropWhile,← hreverse,List.reverse_reverse,flatten_glyphs]

theorem trim_solid {a b : UInt8} (ha : Solid a) (hb : Solid b) (t : Text) :
    trim (a :: (t ++ [b])) = a :: (t ++ [b]) := by
  rw [trim,trimLeft_cons ha,← List.cons_append,trimRight_concat hb]

theorem glyphs_trimLeft (t : Text) :
    glyphs (trimLeft t) = (glyphs t).dropWhile fun g => isBlank (glyphChar g) :=
  (glyphs_flatten List.takeWhile_append_dropWhile.symm).2

theorem glyphs_trimRight (t : Text) :
    glyphs (trimRight t) = (glyphs t).rdropWhile fun g => isBlank (glyphChar g) := by
  obtain ⟨more,hmore⟩ := List.rdropWhile_prefix (fun g => isBlank (glyphChar g)) (glyphs t)
  exact (glyphs_flatten hmore.symm).1

theorem dropWhile_rdropWhile {α : Type} (p : α → Bool) (l : List α) :
    (l.rdropWhile p).dropWhile p = (l.dropWhile p).rdropWhile p := by
  induction l using List.reverseRecOn with
  | nil => rfl
  | append_singleton l x ih =>
    rw [List.rdropWhile_concat,List.dropWhile_append]
    split_ifs with hx hempty hempty
    · rw [ih,List.isEmpty_iff.mp hempty,List.dropWhile_cons_of_pos hx]
      rfl
    · rw [ih,List.rdropWhile_concat_pos _ _ _ hx]
    · rw [List.dropWhile_append,if_pos hempty,List.dropWhile_cons_of_neg hx,
        List.rdropWhile_singleton,if_neg hx]
    · rw [List.dropWhile_append,if_neg hempty,List.rdropWhile_concat_neg _ _ _ hx]

@[simp] theorem trim_trimLeft (t : Text) : trim (trimLeft t) = trim t := by
  refine congrArg trimRight (glyphs_injective ?_)
  rw [glyphs_trimLeft,glyphs_trimLeft,List.dropWhile_idempotent]

@[simp] theorem trim_trimRight (t : Text) : trim (trimRight t) = trim t := by
  refine glyphs_injective ?_
  rw [trim,trim,glyphs_trimRight,glyphs_trimLeft,glyphs_trimRight,glyphs_trimRight,glyphs_trimLeft,
    dropWhile_rdropWhile,List.rdropWhile_idempotent]

theorem trimLeft_append (s : Text) {b : UInt8} (h : Solid b) (t : Text) :
    trimLeft (s ++ b :: t) = trimLeft s ++ b :: t := by
  refine glyphs_injective ?_
  rw [glyphs_trimLeft,glyphs_append _ h.1,glyphs_append _ h.1,glyphs_trimLeft,glyphs_cons h.1,
    List.dropWhile_append,h.dropWhile]
  split_ifs with hempty
  · rw [List.isEmpty_iff.mp hempty,List.nil_append]
  · rfl

theorem trimRight_append (s : Text) {b : UInt8} (h : Solid b) (t : Text) :
    trimRight (s ++ b :: t) = s ++ b :: trimRight t := by
  refine glyphs_injective ?_
  rw [glyphs_trimRight,glyphs_append _ h.1,glyphs_append _ h.1,glyphs_cons h.1,glyphs_cons h.1,
    glyphs_trimRight,List.rdropWhile,List.rdropWhile,List.reverse_append,List.reverse_cons,
    List.append_assoc,List.singleton_append,List.dropWhile_append,h.dropWhile]
  split_ifs with hempty
  · rw [List.isEmpty_iff.mp hempty]
    simp
  · simp

/-- Blanks at the ends of a text are at the ends of its pieces. -/
theorem map_trim_splitOn_trimLeft {sep : UInt8} (h : Solid sep) (t : Text) :
    (splitOn sep (trimLeft t)).map trim = (splitOn sep t).map trim := by
  by_cases hsep : sep ∈ t
  · obtain ⟨piece,rest,rfl,hpiece⟩ := List.eq_append_cons_of_mem hsep
    rw [trimLeft_append _ h,splitOn_append,splitOn_append,splitOn_of_not_mem hpiece,
      splitOn_of_not_mem (mt mem_of_mem_trimLeft hpiece)]
    simp
  · rw [splitOn_of_not_mem hsep,splitOn_of_not_mem (mt mem_of_mem_trimLeft hsep)]
    simp

theorem map_trim_splitOn_trimRight {sep : UInt8} (h : Solid sep) (t : Text) :
    (splitOn sep (trimRight t)).map trim = (splitOn sep t).map trim := by
  induction hlength : t.length using Nat.strongRecOn generalizing t with
  | ind n ih =>
    by_cases hsep : sep ∈ t
    · obtain ⟨piece,rest,rfl,hpiece⟩ := List.eq_append_cons_of_mem hsep
      rw [List.length_append,List.length_cons] at hlength
      rw [trimRight_append _ h,splitOn_append,splitOn_append,List.map_append,List.map_append,
        ih rest.length (by omega) rest rfl]
    · rw [splitOn_of_not_mem hsep,splitOn_of_not_mem (mt mem_of_mem_trimRight hsep)]
      simp

theorem map_trim_splitOn_trim {sep : UInt8} (h : Solid sep) (t : Text) :
    (splitOn sep (trim t)).map trim = (splitOn sep t).map trim := by
  rw [trim,map_trim_splitOn_trimRight h,map_trim_splitOn_trimLeft h]

/-! ### White space around a text -/

def Blank (t : Text) : Prop := ∀ c ∈ t.chars, isBlank c = true

theorem blank_iff (t : Text) : Blank t ↔ ∀ g ∈ glyphs t, isBlank (glyphChar g) = true :=
  List.forall_mem_map

namespace Blank

variable {t : Text}

/-- No stray byte is white space. -/
theorem utf8EncodeChar_glyphChar (h : Blank t) {g : Text} (hg : g ∈ glyphs t) :
    String.utf8EncodeChar (glyphChar g) = g := by
  refine Text.utf8EncodeChar_glyphChar hg fun hbad => ?_
  have hblank := (blank_iff t).mp h g hg
  rw [hbad] at hblank
  exact absurd hblank (by decide)

theorem glyphs_append (h : Blank t) (rest : Text) : glyphs (t ++ rest) = glyphs t ++ glyphs rest := by
  have hflatten (gs : List Text) (hgs : ∀ g ∈ gs, String.utf8EncodeChar (glyphChar g) = g) :
      glyphs (gs.flatten ++ rest) = gs ++ glyphs rest := by
    induction gs with
    | nil => rfl
    | cons g gs ih =>
      obtain ⟨hg,hgs⟩ := List.forall_mem_cons.mp hgs
      rw [List.flatten_cons,List.append_assoc,← hg,glyphs_utf8EncodeChar,ih hgs,List.cons_append]
  have hglyphs := hflatten (glyphs t) fun g hg => h.utf8EncodeChar_glyphChar hg
  rwa [flatten_glyphs] at hglyphs

theorem append_glyphs (h : Blank t) (front : Text) :
    glyphs (front ++ t) = glyphs front ++ glyphs t := by
  cases hglyphs : glyphs t with
  | nil =>
    rw [← flatten_glyphs t,hglyphs,List.flatten_nil,List.append_nil,List.append_nil]
  | cons g gs =>
    have hg := h.utf8EncodeChar_glyphChar (hglyphs ▸ List.mem_cons_self)
    rw [← hglyphs,← flatten_glyphs t,hglyphs,List.flatten_cons,← hg,glyphs_append_utf8EncodeChar]

theorem notMem (h : Blank t) {b : UInt8} (hb : Solid b) : b ∉ t := by
  intro hmem
  obtain ⟨s,rest,rfl⟩ := List.append_of_mem hmem
  have hblank := (blank_iff _).mp h [b] (by simp [Text.glyphs_append s hb.1,glyphs_cons hb.1])
  simp [glyphChar,hb.1,hb.2] at hblank

theorem trimLeft_append (h : Blank t) (rest : Text) : trimLeft (t ++ rest) = trimLeft rest := by
  refine glyphs_injective ?_
  rw [glyphs_trimLeft,glyphs_trimLeft,h.glyphs_append,
    List.dropWhile_append_of_pos ((blank_iff t).mp h)]

theorem trimRight_append (h : Blank t) (front : Text) : trimRight (front ++ t) = trimRight front := by
  have hall : ∀ g ∈ (glyphs t).reverse, isBlank (glyphChar g) = true := by
    simpa using (blank_iff t).mp h
  refine glyphs_injective ?_
  rw [glyphs_trimRight,glyphs_trimRight,h.append_glyphs,List.rdropWhile,List.reverse_append,
    List.dropWhile_append_of_pos hall,List.rdropWhile]

end Blank

structure Trimmed (t : Text) : Prop where
  first : ∀ c ∈ t.chars.head?, isBlank c = false
  last : ∀ c ∈ t.chars.getLast?, isBlank c = false

/-- The text `t` is what remains of `u` without the white space at its ends. -/
structure Trims (u t : Text) : Prop where
  padded : ∃ front back, Blank front ∧ Blank back ∧ u = front ++ t ++ back
  trimmed : Trimmed t

theorem Trimmed.trim_eq {t : Text} (h : Trimmed t) : trim t = t := by
  have hleft : trimLeft t = t := by
    refine glyphs_injective ?_
    rw [glyphs_trimLeft]
    cases hglyphs : glyphs t with
    | nil => rfl
    | cons g gs =>
      have hg := h.first (glyphChar g) (by rw [chars,hglyphs]; rfl)
      rw [List.dropWhile_cons_of_neg (by simp [hg])]
  rw [trim,hleft]
  refine glyphs_injective ?_
  rw [glyphs_trimRight,List.rdropWhile_eq_self_iff]
  intro hne
  have hlast := h.last (glyphChar ((glyphs t).getLast hne))
    (by rw [chars,List.getLast?_map,List.getLast?_eq_some_getLast hne]; rfl)
  simp [hlast]

theorem exists_blank_trimLeft (t : Text) : ∃ front, Blank front ∧ t = front ++ trimLeft t := by
  have hglyphs : glyphs t = (glyphs t).takeWhile (fun g => isBlank (glyphChar g)) ++ _ :=
    List.takeWhile_append_dropWhile.symm
  refine ⟨((glyphs t).takeWhile fun g => isBlank (glyphChar g)).flatten,(blank_iff _).mpr ?_,?_⟩
  · rw [(glyphs_flatten hglyphs).1]
    intro g hg
    have hblank := List.mem_takeWhile_imp hg
    exact hblank
  · rw [trimLeft,← List.flatten_append,← hglyphs,flatten_glyphs]

theorem exists_blank_trimRight (t : Text) : ∃ back, Blank back ∧ t = trimRight t ++ back := by
  have hglyphs : glyphs t = _ ++ (glyphs t).rtakeWhile fun g => isBlank (glyphChar g) :=
    List.rdropWhile_append_rtakeWhile.symm
  refine ⟨((glyphs t).rtakeWhile fun g => isBlank (glyphChar g)).flatten,(blank_iff _).mpr ?_,?_⟩
  · rw [(glyphs_flatten hglyphs).2]
    intro g hg
    have hblank := List.mem_takeWhile_imp (List.mem_reverse.mp hg)
    exact hblank
  · rw [trimRight,← List.rdropWhile,← List.flatten_append,← hglyphs,flatten_glyphs]

theorem trimmed_trim (t : Text) : Trimmed (trim t) := by
  have hglyphs : glyphs (trim t) = ((glyphs t).dropWhile _).rdropWhile _ :=
    (glyphs_trimRight _).trans (congrArg _ (glyphs_trimLeft t))
  refine ⟨?_,?_⟩
  · intro c hc
    rw [chars,hglyphs,← dropWhile_rdropWhile,List.head?_map] at hc
    obtain ⟨g,hg,rfl⟩ := Option.map_eq_some_iff.mp hc
    have hfirst := List.head?_dropWhile_not (fun g => isBlank (glyphChar g))
      ((glyphs t).rdropWhile fun g => isBlank (glyphChar g))
    rw [hg] at hfirst
    exact hfirst
  · intro c hc
    rw [chars,hglyphs,List.getLast?_map] at hc
    obtain ⟨g,hg,rfl⟩ := Option.map_eq_some_iff.mp hc
    have hne := List.ne_nil_of_mem (List.mem_of_getLast? hg)
    rw [List.getLast?_eq_some_getLast hne,Option.some.injEq] at hg
    rw [← hg,← Bool.not_eq_true]
    exact List.rdropWhile_last_not _ _ hne

theorem trims_trim (t : Text) : Trims t (trim t) := by
  obtain ⟨front,hfront,hleft⟩ := exists_blank_trimLeft t
  obtain ⟨back,hback,hright⟩ := exists_blank_trimRight (trimLeft t)
  refine ⟨⟨front,back,hfront,hback,?_⟩,trimmed_trim t⟩
  rw [List.append_assoc,trim,← hright,← hleft]

/-- Trimming leaves exactly what stands between the white space at the ends. -/
theorem trim_eq_iff (u t : Text) : trim u = t ↔ Trims u t := by
  refine ⟨fun h => h ▸ trims_trim u,?_⟩
  rintro ⟨⟨front,back,hfront,hback,rfl⟩,ht⟩
  rw [← trim_trimRight,hback.trimRight_append,trim_trimRight,← trim_trimLeft,hfront.trimLeft_append,
    trim_trimLeft,ht.trim_eq]

/-! ### Decimal numerals -/

theorem ofNat_of_lt : ∀ n < 10, ofNat n = [UInt8.ofNat (48 + n)] := by decide

theorem ofNat_of_ge {n : Nat} (h : 10 ≤ n) : ofNat n = ofNat (n / 10) ++ ofNat (n % 10) := by
  rw [ofNat,Nat.repr_eq_repr_append_repr h,ofString_append]
  rfl

theorem ofInt_natCast (n : Nat) : ofInt n = ofNat n := by
  rw [ofInt,if_neg (Int.not_lt.mpr (Int.natCast_nonneg n))]
  rfl

theorem ofNat_induction {motive : Nat → Text → Prop}
    (digit : ∀ n < 10, motive n [UInt8.ofNat (48 + n)])
    (more : ∀ n d t, d < 10 → motive n t → motive (10 * n + d) (t ++ [UInt8.ofNat (48 + d)]))
    (n : Nat) : motive n (ofNat n) := by
  induction n using Nat.strongRecOn with
  | ind n ih =>
    by_cases hn : n < 10
    · rw [ofNat_of_lt n hn]
      exact digit n hn
    · have hd : n % 10 < 10 := Nat.mod_lt n (by decide)
      have h := more (n / 10) (n % 10) (ofNat (n / 10)) hd (ih _ (by omega))
      rw [ofNat_of_ge (by omega),ofNat_of_lt _ hd]
      rwa [Nat.div_add_mod] at h

theorem ofNat_ne_nil (n : Nat) : ofNat n ≠ [] := by
  induction n using ofNat_induction with
  | digit n hn => exact List.cons_ne_nil _ _
  | more n d t hd ih => exact List.append_ne_nil_of_right_ne_nil t (List.cons_ne_nil _ _)

end Text

open Line Outline

theorem digit_ofNat {d : Nat} (h : d < 10) : Digit (UInt8.ofNat (48 + d)) ∧
    (UInt8.ofNat (48 + d)).toNat - 48 = d := by
  have hbyte : (UInt8.ofNat (48 + d)).toNat = 48 + d := by
    rw [UInt8.toNat_ofNat']
    omega
  simp only [Digit,UInt8.le_iff_toNat_le,hbyte,UInt8.reduceToNat]
  omega

theorem Text.digit_of_mem_ofNat (n : Nat) : ∀ b ∈ ofNat n, Digit b := by
  induction n using ofNat_induction with
  | digit n hn => exact List.forall_mem_singleton.mpr (digit_ofNat hn).1
  | more n d t hd ih =>
    exact List.forall_mem_append.mpr ⟨ih,List.forall_mem_singleton.mpr (digit_ofNat hd).1⟩

theorem Integer.sign_digits {t : Text} (h : ∀ b ∈ t, Digit b) :
    dropSign t = t ∧ isNegative t = false := by
  cases t with
  | nil => exact ⟨rfl,rfl⟩
  | cons b t =>
    have hb := h b List.mem_cons_self
    have hminus : (b == '-'.toUInt8) = false := by
      refine beq_false_of_ne ?_
      rintro rfl
      exact absurd hb (by decide)
    have hplus : (b == '+'.toUInt8) = false := by
      refine beq_false_of_ne ?_
      rintro rfl
      exact absurd hb (by decide)
    exact ⟨by rw [dropSign,hminus,hplus]; rfl,hminus⟩

theorem Outline.decimal_ofNat (n : Nat) : decimal (Text.ofNat n) = n := by
  induction n using Text.ofNat_induction with
  | digit n hn =>
    rw [← List.nil_append [_],decimal_concat,(digit_ofNat hn).2]
    exact Nat.zero_add n
  | more n d t hd ih => rw [decimal_concat,ih,(digit_ofNat hd).2,Nat.mul_comm]

end CircuitNotes
