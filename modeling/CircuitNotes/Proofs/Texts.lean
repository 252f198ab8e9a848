import CircuitNotes.Text.Basic
import Mathlib.Data.List.Basic

/-! Texts of strings, and how a text is cut into glyphs. A byte of ASCII is always a glyph of its
own, so that texts may be cut before it and taken apart piece by piece. Every other glyph is a stray
byte or the encoding of a character beyond ASCII, so that strings are read back from their bytes. -/
namespace CircuitNotes
namespace Text

theorem ofString_injective {s t : String} (h : ofString s = ofString t) : s = t := by
  have he : s.toList.utf8Encode = t.toList.utf8Encode := by
    simpa [List.utf8Encode,ofString] using h
  rw [String.utf8Encode_toList,String.utf8Encode_toList] at he
  exact String.toByteArray_inj.mp he

/-! ### Encodings -/

theorem lead_eq_none {b : UInt8} (hb : b < 0x80) : lead b = none := by
  grind [lead]

theorem lead_two {b : UInt8} (h : 0xC2 ≤ b ∧ b ≤ 0xDF) : lead b = some (1,0x80,0xBF) := by
  simp [lead,h]

theorem lead_three {b : UInt8} (h : 0xE0 ≤ b ∧ b ≤ 0xEF) :
    lead b = some (2,if b = 0xE0 then 0xA0 else 0x80,if b = 0xED then 0x9F else 0xBF) := by
  grind [lead]

theorem lead_four {b : UInt8} (h : 0xF0 ≤ b ∧ b ≤ 0xF4) :
    lead b = some (3,if b = 0xF0 then 0x90 else 0x80,if b = 0xF4 then 0x8F else 0xBF) := by
  grind [lead]

/-- The leading bytes by the lengths of their encodings, with what keeps these from being overlong,
surrogates or too large. -/
theorem lead_bounds {b lo hi : UInt8} {n : Nat} (h : lead b = some (n,lo,hi)) :
    128 ≤ lo.toNat ∧ hi.toNat ≤ 191 ∧
      (n = 1 ∧ 194 ≤ b.toNat ∧ b.toNat ≤ 223 ∨
        n = 2 ∧ 224 ≤ b.toNat ∧ b.toNat ≤ 239 ∧ (b.toNat = 224 → 160 ≤ lo.toNat) ∧
          (b.toNat = 237 → hi.toNat ≤ 159) ∨
        n = 3 ∧ 240 ≤ b.toNat ∧ b.toNat ≤ 244 ∧ (b.toNat = 240 → 144 ≤ lo.toNat) ∧
          (b.toNat = 244 → hi.toNat ≤ 143)) := by
  unfold lead at h
  simp only [UInt8.le_iff_toNat_le,beq_iff_eq,Bool.and_eq_true,decide_eq_true_eq,
    UInt8.reduceToNat,← UInt8.toNat_inj] at h
  split_ifs at h <;> cases h <;> simp only [UInt8.reduceToNat,true_and] <;> omega

def Continues (b : UInt8) : Prop := 0x80 ≤ b ∧ b ≤ 0xBF

/-- The encoding of a character beyond ASCII: a leading byte and the bytes that it asks for. -/
inductive Encoding : Text → Prop
  | intro {a b lo hi : UInt8} {more : Text} (hlead : lead a = some (more.length + 1,lo,hi))
      (hb : lo ≤ b ∧ b ≤ hi) (hmore : ∀ c ∈ more, Continues c) : Encoding (a :: b :: more)

/-- A byte is a glyph of its own, or starts an encoding with the bytes that follow it. -/
theorem following_cases (a : UInt8) (rest : Text) :
    following a rest = 0 ∨ Encoding (a :: rest.take (following a rest)) := by
  unfold following
  split
  · rename_i n lo hi b more hlead
    split_ifs with hfits
    · simp only [Bool.and_eq_true,decide_eq_true_eq,List.all_eq_true] at hfits
      obtain ⟨⟨hb,hn⟩,hmore⟩ := hfits
      have hpos : 0 < n := by
        have := lead_bounds hlead
        omega
      obtain ⟨m,rfl⟩ := Nat.exists_eq_add_one.mpr hpos
      have hlength : (more.take m).length = m := List.length_take_of_le (by omega)
      exact Or.inr (.intro (hlength.symm ▸ hlead) hb hmore)
    · exact Or.inl rfl
  · exact Or.inl rfl

theorem following_of_encoding {a : UInt8} {rest : Text} (h : Encoding (a :: rest)) (t : Text) :
    following a (rest ++ t) = rest.length := by
  cases h with
  | @intro _ b lo hi more hlead hb hmore =>
    have hall : (more.all fun d => 0x80 ≤ d && d ≤ 0xBF) = true := by
      simpa [Continues] using hmore
    simp [following,hlead,hb,hall]

/-! ### Glyphs -/

theorem not_continues {b : UInt8} (hb : b < 0x80) : ¬Continues b := by
  simp only [Continues,UInt8.le_iff_toNat_le,UInt8.lt_iff_toNat_lt,UInt8.reduceToNat] at hb ⊢
  omega

theorem following_append (a : UInt8) (t : Text) {b : UInt8} (hb : ¬Continues b) (rest : Text) :
    following a (t ++ b :: rest) = following a t := by
  unfold following
  cases hlead : lead a with
  | none => rfl
  | some bounds =>
    obtain ⟨n,lo,hi⟩ := bounds
    cases t with
    | nil =>
      have hout : ¬(lo ≤ b ∧ b ≤ hi) := by
        have hbounds := lead_bounds hlead
        simp only [Continues,UInt8.le_iff_toNat_le,UInt8.reduceToNat] at hb ⊢
        omega
      simp [hout]
    | cons c cs =>
      simp only [List.cons_append]
      by_cases hn : n ≤ cs.length + 1
      · have htake : (cs ++ b :: rest).take (n-1) = cs.take (n-1) := by
          rw [List.take_append_of_le_length (by omega)]
        have hlength : n ≤ (cs ++ b :: rest).length + 1 := by
          simp only [List.length_append,List.length_cons]
          omega
        simp only [htake,hn,hlength]
      · -- The byte is among those that would have to go on with the character.
        have hmem : b ∈ (cs ++ b :: rest).take (n-1) := by
          rw [List.take_append,List.mem_append]
          right
          obtain ⟨m,hm⟩ : ∃ m, n - 1 - cs.length = m + 1 := ⟨n-1-cs.length-1,by omega⟩
          rw [hm,List.take_succ_cons]
          exact List.mem_cons_self
        have hall : ((cs ++ b :: rest).take (n-1)).all (fun d => 0x80 ≤ d && d ≤ 0xBF) = false := by
          rw [List.all_eq_false]
          refine ⟨b,hmem,?_⟩
          simpa [Continues] using hb
        simp [hall,hn]

theorem following_le (a : UInt8) (t : Text) : following a t ≤ t.length := by
  unfold following
  split
  · split_ifs with h
    · simp only [Bool.and_eq_true,decide_eq_true_eq] at h
      simpa using h.1.2
    · exact Nat.zero_le _
  · exact Nat.zero_le _

theorem glyphsFrom_append {t : Text} {skip : Nat} (hskip : skip ≤ t.length) {b : UInt8}
    (hb : ¬Continues b) (rest : Text) :
    glyphsFrom skip (t ++ b :: rest) = glyphsFrom skip t ++ glyphs (b :: rest) := by
  induction t generalizing skip with
  | nil =>
    obtain rfl : skip = 0 := by simpa using hskip
    rfl
  | cons a t ih =>
    cases skip with
    | zero =>
      have hle := following_le a t
      simp only [List.cons_append,glyphsFrom,following_append a t hb,ih hle]
      rw [List.take_append_of_le_length hle]
    | succ skip =>
      simp only [List.cons_append,glyphsFrom]
      exact ih (by simpa using hskip)

theorem glyphs_append (t : Text) {b : UInt8} (hb : b < 0x80) (rest : Text) :
    glyphs (t ++ b :: rest) = glyphs t ++ glyphs (b :: rest) :=
  glyphsFrom_append (Nat.zero_le _) (not_continues hb) rest

theorem glyphs_cons {b : UInt8} (hb : b < 0x80) (t : Text) : glyphs (b :: t) = [b] :: glyphs t := by
  have hzero : following b t = 0 := by
    unfold following
    rw [lead_eq_none hb]
  simp only [glyphs,glyphsFrom,hzero,List.take_zero]

theorem chars_cons {b : UInt8} (hb : b < 0x80) (t : Text) :
    chars (b :: t) = Char.ofNat b.toNat :: chars t := by
  simp only [chars,glyphs_cons hb,List.map_cons,glyphChar,if_pos hb]

theorem glyphsFrom_length (s t : Text) : glyphsFrom s.length (s ++ t) = glyphs t := by
  induction s with
  | nil => rfl
  | cons b s ih => exact ih

theorem glyphs_encoding {g : Text} (h : Encoding g) (t : Text) :
    glyphs (g ++ t) = g :: glyphs t := by
  cases h with
  | @intro a b lo hi more hlead hb hmore =>
    have hfollowing := following_of_encoding (.intro hlead hb hmore) t
    rw [glyphs,List.cons_append,glyphsFrom,hfollowing,List.take_left,glyphsFrom_length]

theorem singleton_or_encoding {t g : Text} {skip : Nat} (h : g ∈ glyphsFrom skip t) :
    (∃ a, g = [a]) ∨ Encoding g := by
  induction t generalizing skip with
  | nil => cases h
  | cons a t ih =>
    cases skip with
    | zero =>
      rcases List.mem_cons.mp h with rfl | h
      · rcases following_cases a t with hzero | hencoding
        · exact Or.inl ⟨a,by rw [hzero,List.take_zero]⟩
        · exact Or.inr hencoding
      · exact ih h
    | succ skip => exact ih h

theorem ne_nil_of_mem_glyphs {t g : Text} (h : g ∈ glyphs t) : g ≠ [] := by
  rcases singleton_or_encoding h with ⟨a,rfl⟩ | hencoding
  · exact List.cons_ne_nil _ _
  · cases hencoding
    exact List.cons_ne_nil _ _

theorem mem_of_mem_glyph {t g : Text} (hg : g ∈ glyphs t) {b : UInt8} (hb : b ∈ g) : b ∈ t := by
  rw [← flatten_glyphs t]
  exact List.mem_flatten.mpr ⟨g,hg,hb⟩

theorem Encoding.beyond_ascii {g : Text} (h : Encoding g) : ∀ b ∈ g, ¬b < 0x80 := by
  cases h with
  | @intro a b lo hi more hlead hb hmore =>
    have hbounds := lead_bounds hlead
    simp only [Continues,UInt8.le_iff_toNat_le,UInt8.lt_iff_toNat_lt,UInt8.reduceToNat,
      List.forall_mem_cons] at hb hmore ⊢
    refine ⟨by omega,by omega,?_⟩
    intro c hc
    have hcontinues := hmore c hc
    omega

theorem glyphs_injective {s t : Text} (h : glyphs s = glyphs t) : s = t := by
  rw [← flatten_glyphs s,h,flatten_glyphs]

theorem following_append_of_le {b : UInt8} {s t : Text} (h : following b (s ++ t) ≤ s.length) :
    following b s = following b (s ++ t) := by
  have hsame {u : Text} {n : Nat} (hencoding : Encoding (b :: u.take n)) (hn : n ≤ u.length)
      (rest : Text) : following b (u ++ rest) = n := by
    have hfollowing := following_of_encoding hencoding (u.drop n ++ rest)
    rwa [← List.append_assoc,List.take_append_drop,List.length_take_of_le hn] at hfollowing
  rcases following_cases b s with hzero | hencoding
  · rcases following_cases b (s ++ t) with hzero' | hencoding'
    · rw [hzero,hzero']
    · rw [List.take_append_of_le_length h] at hencoding'
      have hstart := hsame hencoding' h []
      rwa [List.append_nil] at hstart
  · exact (hsame hencoding (following_le b s) t).symm

theorem glyphs_eq_cons (b : UInt8) (t : Text) :
    glyphs (b :: t) = (b :: t.take (following b t)) :: glyphs (t.drop (following b t)) := by
  have hskip := glyphsFrom_length (t.take (following b t)) (t.drop (following b t))
  rw [List.take_append_drop,List.length_take_of_le (following_le b t)] at hskip
  rw [glyphs,glyphsFrom,hskip]

theorem glyphs_flatten {gs gs' : List Text} {t : Text} (h : glyphs t = gs ++ gs') :
    glyphs gs.flatten = gs ∧ glyphs gs'.flatten = gs' := by
  induction gs generalizing t with
  | nil =>
    rw [List.nil_append] at h
    refine ⟨rfl,?_⟩
    rw [← h,flatten_glyphs]
  | cons g gs ih =>
    cases t with
    | nil => cases h
    | cons b t =>
      rw [glyphs_eq_cons,List.cons_append,List.cons.injEq] at h
      obtain ⟨rfl,hrest⟩ := h
      obtain ⟨hgs,hgs'⟩ := ih hrest
      refine ⟨?_,hgs'⟩
      have htext : t.take (following b t) ++ gs.flatten ++ gs'.flatten = t := by
        rw [List.append_assoc,← List.flatten_append,← hrest,flatten_glyphs,List.take_append_drop]
      have hlength : (t.take (following b t)).length = following b t :=
        List.length_take_of_le (following_le b t)
      have hfollowing : following b (t.take (following b t) ++ gs.flatten) = following b t := by
        have hle : following b (t.take (following b t) ++ gs.flatten ++ gs'.flatten) ≤
            (t.take (following b t) ++ gs.flatten).length := by
          rw [htext,List.length_append,hlength]
          exact Nat.le_add_right _ _
        rw [following_append_of_le hle,htext]
      rw [List.flatten_cons,List.cons_append,glyphs_eq_cons,hfollowing,List.take_left' hlength,
        List.drop_left' hlength,hgs]

/-! ### Characters -/

theorem val_ofNat {n : Nat} (h : n.isValidChar) : (Char.ofNat n).val.toNat = n := by
  rw [Char.ofNat,dif_pos h]
  rfl

theorem utf8EncodeChar_ascii {c : Char} (h : c.val.toNat ≤ 127) :
    String.utf8EncodeChar c = [UInt8.ofNat c.toNat] := by
  rw [String.utf8EncodeChar,if_pos h]
  rfl

theorem utf8EncodeChar_injective {c d : Char}
    (h : String.utf8EncodeChar c = String.utf8EncodeChar d) : c = d := by
  have hstring : ofString (String.ofList [c]) = ofString (String.ofList [d]) := by
    simpa [ofString] using h
  simpa using String.ofList_injective (ofString_injective hstring)

theorem Encoding.utf8EncodeChar_glyphChar {g : Text} (h : Encoding g) :
    String.utf8EncodeChar (glyphChar g) = g := by
  cases h with
  | @intro a b lo hi more hlead hb hmore =>
    simp only [Continues,UInt8.le_iff_toNat_le,UInt8.reduceToNat] at hb hmore
    obtain ⟨hlo,hhi,⟨hn,ha⟩ | ⟨hn,ha⟩ | ⟨hn,ha⟩⟩ := lead_bounds hlead
    · obtain rfl : more = [] := List.length_eq_zero_iff.mp (by omega)
      rw [glyphChar,String.utf8EncodeChar,val_ofNat (Or.inl (by omega)),if_neg (by omega),
        if_pos (by omega)]
      simp only [List.cons.injEq,← UInt8.toNat_inj,UInt8.toNat_ofNat',and_true]
      omega
    · obtain ⟨c,rfl⟩ := List.length_eq_one_iff.mp (show more.length = 1 by omega)
      have hc := hmore c (by simp)
      rw [glyphChar,String.utf8EncodeChar,val_ofNat (by unfold Nat.isValidChar; omega),
        if_neg (by omega),if_neg (by omega),if_pos (by omega)]
      simp only [List.cons.injEq,← UInt8.toNat_inj,UInt8.toNat_ofNat',and_true]
      omega
    · obtain ⟨c,d,rfl⟩ := List.length_eq_two.mp (show more.length = 2 by omega)
      have hc := hmore c (by simp)
      have hd := hmore d (by simp)
      rw [glyphChar,String.utf8EncodeChar,val_ofNat (by unfold Nat.isValidChar; omega),
        if_neg (by omega),if_neg (by omega),if_neg (by omega)]
      simp only [List.cons.injEq,← UInt8.toNat_inj,UInt8.toNat_ofNat',and_true]
      omega

theorem Encoding.le_toNat {g : Text} (h : Encoding g) : 128 ≤ (glyphChar g).toNat := by
  by_contra hlt
  have hone := utf8EncodeChar_ascii (Nat.le_of_lt_succ (Nat.lt_of_not_le hlt))
  rw [h.utf8EncodeChar_glyphChar] at hone
  cases h
  exact List.cons_ne_nil _ _ (List.cons.inj hone).2

theorem exists_chars_cons {b : UInt8} (hb : ¬b < 0x80) (t : Text) :
    ∃ c cs, chars (b :: t) = c :: cs ∧ 128 ≤ c.toNat := by
  refine ⟨_,_,rfl,?_⟩
  rcases following_cases b t with hzero | hencoding
  · rw [hzero,List.take_zero,glyphChar,if_neg hb]
    decide
  · exact hencoding.le_toNat

theorem continues (n : Nat) : Continues (UInt8.ofNat (n % 64 + 128)) := by
  simp only [Continues,UInt8.le_iff_toNat_le,UInt8.toNat_ofNat',UInt8.reduceToNat]
  omega

theorem within_bounds {a b x y lo hi : UInt8} (hb : Continues b) (hlow : a = x → lo ≤ b)
    (hhigh : a = y → b ≤ hi) :
    (if a = x then lo else 0x80) ≤ b ∧ b ≤ if a = y then hi else 0xBF := by
  refine ⟨?_,?_⟩
  · split_ifs with h
    exacts [hlow h,hb.1]
  · split_ifs with h
    exacts [hhigh h,hb.2]

theorem encoding_utf8EncodeChar {c : Char} (h : ¬c.val.toNat ≤ 127) :
    Encoding (String.utf8EncodeChar c) := by
  have hvalid : c.val.toNat < 0xD800 ∨ 0xDFFF < c.val.toNat ∧ c.val.toNat < 0x110000 := c.valid
  rw [String.utf8EncodeChar,if_neg h]
  split_ifs with htwo hthree
  · refine .intro (lead_two ?_) (continues _) (by simp)
    simp only [UInt8.le_iff_toNat_le,UInt8.toNat_ofNat',UInt8.reduceToNat]
    omega
  · refine .intro (lead_three ?_) (within_bounds (continues _) ?_ ?_)
      (List.forall_mem_singleton.mpr (continues _))
    all_goals
      simp only [UInt8.le_iff_toNat_le,← UInt8.toNat_inj,UInt8.toNat_ofNat',UInt8.reduceToNat]
      omega
  · refine .intro (lead_four ?_) (within_bounds (continues _) ?_ ?_)
      (List.forall_mem_cons.mpr ⟨continues _,List.forall_mem_singleton.mpr (continues _)⟩)
    all_goals
      simp only [UInt8.le_iff_toNat_le,← UInt8.toNat_inj,UInt8.toNat_ofNat',UInt8.reduceToNat]
      omega

theorem toNat_ofNat_ascii {c : Char} (h : c.val.toNat ≤ 127) :
    (UInt8.ofNat c.toNat).toNat = c.toNat := by
  rw [UInt8.toNat_ofNat']
  exact Nat.mod_eq_of_lt (Nat.lt_of_le_of_lt h (by decide))

theorem ofNat_lt_ascii {c : Char} (h : c.val.toNat ≤ 127) : UInt8.ofNat c.toNat < 0x80 := by
  rw [UInt8.lt_iff_toNat_lt,toNat_ofNat_ascii h]
  exact Nat.lt_succ_of_le h

theorem glyphs_utf8EncodeChar (c : Char) (t : Text) :
    glyphs (String.utf8EncodeChar c ++ t) = String.utf8EncodeChar c :: glyphs t := by
  by_cases h : c.val.toNat ≤ 127
  · rw [utf8EncodeChar_ascii h,List.singleton_append,glyphs_cons (ofNat_lt_ascii h)]
  · exact glyphs_encoding (encoding_utf8EncodeChar h) t

/-- The encoding of a character starts a new glyph, whatever comes before it. -/
theorem glyphs_append_utf8EncodeChar (t : Text) (c : Char) (rest : Text) :
    glyphs (t ++ (String.utf8EncodeChar c ++ rest)) =
      glyphs t ++ glyphs (String.utf8EncodeChar c ++ rest) := by
  obtain ⟨b,more,hc,hb⟩ : ∃ b more, String.utf8EncodeChar c = b :: more ∧ ¬Continues b := by
    by_cases h : c.val.toNat ≤ 127
    · exact ⟨_,_,utf8EncodeChar_ascii h,not_continues (ofNat_lt_ascii h)⟩
    · generalize String.utf8EncodeChar c = g,encoding_utf8EncodeChar h = hencoding
      cases hencoding with
      | intro hlead =>
        refine ⟨_,_,rfl,?_⟩
        have hbounds := lead_bounds hlead
        simp only [Continues,UInt8.le_iff_toNat_le,UInt8.reduceToNat]
        omega
  rw [hc]
  exact glyphsFrom_append (Nat.zero_le _) hb _

theorem glyphChar_utf8EncodeChar (c : Char) : glyphChar (String.utf8EncodeChar c) = c := by
  by_cases h : c.val.toNat ≤ 127
  · rw [utf8EncodeChar_ascii h,glyphChar,if_pos (ofNat_lt_ascii h),toNat_ofNat_ascii h,
      Char.ofNat_toNat]
  · exact utf8EncodeChar_injective (encoding_utf8EncodeChar h).utf8EncodeChar_glyphChar

theorem chars_utf8EncodeChar (c : Char) (t : Text) :
    chars (String.utf8EncodeChar c ++ t) = c :: chars t := by
  rw [chars,glyphs_utf8EncodeChar,List.map_cons,glyphChar_utf8EncodeChar,chars]

theorem glyphs_ofString (s : String) : glyphs (ofString s) = s.toList.map String.utf8EncodeChar := by
  rw [ofString]
  induction s.toList with
  | nil => rfl
  | cons c cs ih => rw [List.flatMap_cons,glyphs_utf8EncodeChar,ih,List.map_cons]

theorem chars_ofString_append (s : String) (t : Text) :
    chars (ofString s ++ t) = s.toList ++ chars t := by
  rw [ofString]
  induction s.toList with
  | nil => rfl
  | cons c cs ih => rw [List.flatMap_cons,List.append_assoc,chars_utf8EncodeChar,ih,List.cons_append]

theorem chars_ofString (s : String) : chars (ofString s) = s.toList := by
  have h := chars_ofString_append s []
  rwa [List.append_nil,show chars [] = [] from rfl,List.append_nil] at h

/-- A glyph is the encoding of its character, if this is not what stray bytes show as. -/
theorem utf8EncodeChar_glyphChar {t g : Text} (h : g ∈ glyphs t) (hne : glyphChar g ≠ '\uFFFD') :
    String.utf8EncodeChar (glyphChar g) = g := by
  rcases singleton_or_encoding h with ⟨a,rfl⟩ | hencoding
  · by_cases ha : a < 0x80
    · have hlt : a.toNat < 128 := UInt8.lt_iff_toNat_lt.mp ha
      rw [glyphChar,if_pos ha,String.utf8EncodeChar,val_ofNat (Or.inl (by omega)),
        if_pos (by omega),UInt8.ofNat_toNat]
    · exact absurd (by rw [glyphChar,if_neg ha]) hne
  · exact hencoding.utf8EncodeChar_glyphChar

theorem char_of_mem_ofString {s : String} {b : UInt8} (hb : b < 0x80) (h : b ∈ ofString s) :
    Char.ofNat b.toNat ∈ s.toList := by
  obtain ⟨c,hc,hbc⟩ := List.mem_flatMap.mp h
  by_cases hascii : c.val.toNat ≤ 127
  · rw [utf8EncodeChar_ascii hascii,List.mem_singleton] at hbc
    rwa [hbc,toNat_ofNat_ascii hascii,Char.ofNat_toNat]
  · exact absurd hb ((encoding_utf8EncodeChar hascii).beyond_ascii b hbc)

theorem mem_of_char_mem {t : Text} {c : Char} (hne : c ≠ '\uFFFD') (h : c ∈ t.chars) :
    ∀ b ∈ String.utf8EncodeChar c, b ∈ t := by
  obtain ⟨g,hg,rfl⟩ := List.mem_map.mp h
  intro b hb
  rw [utf8EncodeChar_glyphChar hg hne] at hb
  exact mem_of_mem_glyph hg hb

/-- A text has the characters of a string without U+FFFD exactly if it has the bytes. -/
theorem chars_eq_iff {s : String} (h : '\uFFFD' ∉ s.toList) (t : Text) :
    t.chars = s.toList ↔ t = ofString s := by
  refine ⟨?_,fun ht => ht ▸ chars_ofString s⟩
  intro ht
  have hglyphs : (glyphs t).map (String.utf8EncodeChar ∘ glyphChar) = glyphs t := by
    refine (List.map_congr_left ?_).trans (List.map_id _)
    intro g hg
    refine utf8EncodeChar_glyphChar hg fun hbad => h ?_
    rw [← ht,← hbad]
    exact List.mem_map_of_mem hg
  calc t = (glyphs t).flatten := (flatten_glyphs t).symm
    _ = ((glyphs t).map (String.utf8EncodeChar ∘ glyphChar)).flatten := by rw [hglyphs]
    _ = ofString s := by rw [← List.map_map,ofString,← ht,List.flatMap,chars]

end Text
end CircuitNotes
