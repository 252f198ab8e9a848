import CircuitNotes.Proofs.Texts
import CircuitNotes.Source.Outline
import Mathlib.Data.List.Infix
import Mathlib.Data.List.TakeWhile
import Mathlib.Data.Nat.Digits.Defs

/-! The grammar of source lines. What a declaration and a call are is said by how a line can be
split; the recognizers are then shown to find the leftmost of these splits whenever there is one. -/
namespace CircuitNotes
namespace Line

def Digit (b : UInt8) : Prop := 48 ≤ b ∧ b ≤ 57

def Start (b : UInt8) : Prop := 65 ≤ b ∧ b ≤ 90 ∨ 97 ≤ b ∧ b ≤ 122 ∨ b = 95

def Space (b : UInt8) : Prop := b = 9 ∨ b = 10 ∨ b = 12 ∨ b = 13 ∨ b = 32

instance (b : UInt8) : Decidable (Digit b) := inferInstanceAs (Decidable (_ ∧ _))
instance (b : UInt8) : Decidable (Start b) := inferInstanceAs (Decidable (_ ∨ _))
instance (b : UInt8) : Decidable (Space b) := inferInstanceAs (Decidable (_ ∨ _))

/-- A way to read a line as `w = keyword(d)` after a beginning `u`, with spaces around the equals
sign and anything at the end. The keyword is read character by character. -/
def Splits (keyword : String) (line u w d : Text) : Prop :=
  ∃ s₁ s₂ k v : Text, line = u ++ w ++ s₁ ++ "=" ++ s₂ ++ k ++ "(" ++ d ++ ")" ++ v ∧
    (w ≠ [] ∧ ∀ b ∈ w, Start b ∨ Digit b) ∧ (∀ b ∈ s₁, Space b) ∧ (∀ b ∈ s₂, Space b) ∧
    k.chars = keyword.toList ∧ d ≠ [] ∧ ∀ b ∈ d, Digit b

/-- A line that declares `w` with the count `d`, by the split with the shortest beginning. -/
def Declares (keyword : String) (line w d : Text) : Prop :=
  ∃ u, Splits keyword line u w d ∧
    ∀ u' w' d', Splits keyword line u' w' d' → u.length ≤ u'.length

/-- A line that starts with the call `name.m(a)`. -/
def Calls (name line m a : Text) : Prop :=
  ∃ rest : Text, line = name ++ "." ++ m ++ "(" ++ a ++ ")" ++ rest ∧
    (∃ b more, m = b :: more ∧ Start b ∧ ∀ b ∈ more, Start b ∨ Digit b) ∧ ')'.toUInt8 ∉ a

/-! ### Bytes -/

theorem isDigit_iff (b : UInt8) : isDigit b = true ↔ Digit b := by
  simp only [isDigit,Digit,Bool.and_eq_true,decide_eq_true_eq]
  rfl

theorem isSpace_iff (b : UInt8) : isSpace b = true ↔ Space b := by
  simp [isSpace,Space,or_assoc]

theorem isNameStart_iff (b : UInt8) : isNameStart b = true ↔ Start b := by
  simp only [isNameStart,isLetter,Start,Bool.or_eq_true,Bool.and_eq_true,decide_eq_true_eq,
    beq_iff_eq]
  rw [or_comm (a := 'a'.toUInt8 ≤ b ∧ b ≤ 'z'.toUInt8),or_assoc]
  rfl

theorem isWord_iff (b : UInt8) : isWord b = true ↔ Start b ∨ Digit b := by
  rw [← isNameStart_iff,← isDigit_iff]
  simp only [isWord,isNameStart,Bool.or_eq_true]
  exact or_right_comm

theorem not_isWord_of_isSpace {b : UInt8} (h : isSpace b = true) : isWord b = false := by
  rcases (isSpace_iff b).mp h with rfl | rfl | rfl | rfl | rfl <;> decide

theorem ascii_of_isSpace {b : UInt8} (h : isSpace b = true) : b < 0x80 := by
  rcases (isSpace_iff b).mp h with rfl | rfl | rfl | rfl | rfl <;> decide

theorem takeWhile_run {p : UInt8 → Bool} {l r : Text} {x : UInt8} (hl : ∀ b ∈ l, p b = true)
    (hx : p x = false) : (l ++ x :: r).takeWhile p = l := by
  rw [List.takeWhile_append_of_pos hl,List.takeWhile_cons_of_neg (by simp [hx]),List.append_nil]

theorem dropWhile_run {p : UInt8 → Bool} {l r : Text} {x : UInt8} (hl : ∀ b ∈ l, p b = true)
    (hx : p x = false) : (l ++ x :: r).dropWhile p = x :: r := by
  rw [List.dropWhile_append_of_pos hl,List.dropWhile_cons_of_neg (by simp [hx])]

theorem drop_length_takeWhile (p : UInt8 → Bool) (t : Text) :
    t.drop (t.takeWhile p).length = t.dropWhile p := by
  have h : (t.takeWhile p ++ t.dropWhile p).drop (t.takeWhile p).length = t.dropWhile p :=
    List.drop_left
  rwa [List.takeWhile_append_dropWhile] at h

theorem after?_eq_some_iff (c : Char) (t rest : Text) :
    after? c t = some rest ↔ t = c.toUInt8 :: rest := by
  cases t with
  | nil => simp [after?]
  | cons b t =>
    by_cases hb : b = c.toUInt8 <;> simp [after?,hb]

theorem countInParens?_eq_some_iff (t d : Text) :
    countInParens? t = some d ↔ ∃ v, t = '('.toUInt8 :: (d ++ ')'.toUInt8 :: v) ∧ d ≠ [] ∧
      ∀ b ∈ d, isDigit b = true := by
  simp only [countInParens?,Option.bind_eq_bind,Option.bind_eq_some_iff,after?_eq_some_iff]
  constructor
  · rintro ⟨t',rfl,h⟩
    split_ifs at h with hempty
    · cases h
    · obtain ⟨v,hv,hd⟩ := Option.bind_eq_some_iff.mp h
      rw [after?_eq_some_iff] at hv
      cases hd
      refine ⟨v,?_,by simpa using hempty,?_⟩
      · rw [← hv,List.prefix_iff_eq_append.mp (List.takeWhile_prefix isDigit)]
      · intro b hb
        exact List.mem_takeWhile_imp hb
  · rintro ⟨v,rfl,hne,hdigit⟩
    refine ⟨_,rfl,?_⟩
    rw [takeWhile_run hdigit (by decide),if_neg (by simpa using hne),List.drop_left]
    rfl

/-! ### The keyword -/

theorem afterKeyword?_eq_some_iff (cs : List Char) (gs rest : List Text) :
    afterKeyword? cs gs = some rest ↔ ∃ read, gs = read ++ rest ∧ read.map Text.glyphChar = cs := by
  induction cs generalizing gs with
  | nil => simp [afterKeyword?,eq_comm]
  | cons c cs ih =>
    cases gs with
    | nil =>
      simp only [afterKeyword?,reduceCtorEq,false_iff,not_exists,not_and]
      intro read hread hmap
      rw [(List.append_eq_nil_iff.mp hread.symm).1] at hmap
      cases hmap
    | cons g gs =>
      by_cases hg : Text.glyphChar g = c
      · simp only [afterKeyword?,hg,beq_self_eq_true,if_true,ih]
        constructor
        · rintro ⟨read,rfl,hmap⟩
          exact ⟨g :: read,rfl,by rw [List.map_cons,hg,hmap]⟩
        · rintro ⟨read,hread,hmap⟩
          cases read with
          | nil => cases hmap
          | cons g' read =>
            obtain ⟨_,hmore⟩ := List.cons.inj hmap
            exact ⟨read,(List.cons.inj hread).2,hmore⟩
      · simp only [afterKeyword?,beq_eq_false_iff_ne.mpr hg,Bool.false_eq_true,if_false,reduceCtorEq,
          false_iff,not_exists,not_and]
        intro read hread hmap
        cases read with
        | nil => cases hmap
        | cons g' read =>
          rw [← (List.cons.inj hread).1] at hmap
          exact hg (List.cons.inj hmap).1

/-- Lists of pieces that start two cuts of one text at the same place are the same. -/
theorem eq_of_flatten_eq {xs ys as bs : List Text} (h : xs ++ as = ys ++ bs)
    (hflatten : xs.flatten = ys.flatten) (hxs : ∀ x ∈ xs, x ≠ []) (hys : ∀ y ∈ ys, y ≠ []) :
    xs = ys := by
  rcases List.append_eq_append_iff.mp h with ⟨more,rfl,_⟩ | ⟨more,rfl,_⟩
  · rw [List.flatten_append,List.self_eq_append_right,List.flatten_eq_nil_iff] at hflatten
    have hnil : more = [] := by
      apply List.eq_nil_iff_forall_not_mem.mpr
      intro y hy
      exact hys y (List.mem_append_right _ hy) (hflatten y hy)
    rw [hnil,List.append_nil]
  · rw [List.flatten_append,List.append_right_eq_self,List.flatten_eq_nil_iff] at hflatten
    have hnil : more = [] := by
      apply List.eq_nil_iff_forall_not_mem.mpr
      intro x hx
      exact hxs x (List.mem_append_right _ hx) (hflatten x hx)
    rw [hnil,List.append_nil]

theorem constructed?_eq_some_iff (keyword : String) (t d : Text) :
    constructed? keyword t = some d ↔ ∃ k v : Text,
      t = k ++ '('.toUInt8 :: (d ++ ')'.toUInt8 :: v) ∧ k.chars = keyword.toList ∧ d ≠ [] ∧
        ∀ b ∈ d, isDigit b = true := by
  simp only [constructed?,Option.bind_eq_bind,Option.bind_eq_some_iff,afterKeyword?_eq_some_iff,
    countInParens?_eq_some_iff]
  constructor
  · rintro ⟨rest,⟨read,hread,hmap⟩,v,hrest,hne,hdigit⟩
    have ht : t = read.flatten ++ '('.toUInt8 :: (d ++ ')'.toUInt8 :: v) := by
      rw [← hrest,← List.flatten_append,← hread,Text.flatten_glyphs]
    refine ⟨read.flatten,v,ht,?_,hne,hdigit⟩
    -- The glyphs that were read are those of the text that they make up.
    have hcut : read ++ rest = Text.glyphs read.flatten ++
        Text.glyphs ('('.toUInt8 :: (d ++ ')'.toUInt8 :: v)) := by
      rw [← Text.glyphs_append _ (by decide),← ht,hread]
    have hsame : read = Text.glyphs read.flatten := by
      refine eq_of_flatten_eq hcut (by simp) ?_ fun g hg => Text.ne_nil_of_mem_glyphs hg
      intro g hg
      apply Text.ne_nil_of_mem_glyphs (t:=t)
      rw [hread]
      exact List.mem_append_left _ hg
    rw [Text.chars,← hsame,hmap]
  · rintro ⟨k,v,rfl,hk,hne,hdigit⟩
    refine ⟨Text.glyphs ('('.toUInt8 :: (d ++ ')'.toUInt8 :: v)),⟨Text.glyphs k,?_,hk⟩,v,?_,hne,hdigit⟩
    · exact Text.glyphs_append k (by decide) _
    · exact Text.flatten_glyphs _

/-! ### The spaces before the keyword -/

def isSpaceChar (c : Char) : Bool :=
  c.toNat == 9 || c.toNat == 10 || c.toNat == 12 || c.toNat == 13 || c.toNat == 32

theorem isSpaceChar_ofNat {b : UInt8} (hb : b < 0x80) :
    isSpaceChar (Char.ofNat b.toNat) = isSpace b := by
  have hvalid : (Char.ofNat b.toNat).toNat = b.toNat := Text.val_ofNat
    (Or.inl (Nat.lt_trans (UInt8.lt_iff_toNat_lt.mp hb) (by decide)))
  rw [Bool.eq_iff_iff,isSpace_iff]
  simp only [isSpaceChar,hvalid,Space,Bool.or_eq_true,beq_iff_eq,← UInt8.toNat_inj,
    UInt8.reduceToNat,or_assoc]

/-- A text has as many spaces at its front as characters that are spaces, up to a parenthesis. -/
theorem length_spaces (k v : Text) :
    ((k ++ '('.toUInt8 :: v).takeWhile isSpace).length = (k.chars.takeWhile isSpaceChar).length := by
  induction k with
  | nil => rfl
  | cons b k ih =>
    by_cases hb : b < 0x80
    · rw [Text.chars_cons hb,List.cons_append]
      cases hspace : isSpace b with
      | true =>
        rw [List.takeWhile_cons_of_pos hspace,
          List.takeWhile_cons_of_pos ((isSpaceChar_ofNat hb).trans hspace),List.length_cons,
          List.length_cons,ih]
      | false =>
        rw [List.takeWhile_cons_of_neg (by simp [hspace]),
          List.takeWhile_cons_of_neg (by simp [isSpaceChar_ofNat hb,hspace])]
        rfl
    · have hspace : isSpace b = false := by
        cases h : isSpace b with
        | true => exact absurd (ascii_of_isSpace h) hb
        | false => rfl
      obtain ⟨c,cs,hc,hbeyond⟩ := Text.exists_chars_cons hb k
      have hspaceChar : ¬isSpaceChar c = true := by
        simp only [isSpaceChar,Bool.or_eq_true,beq_iff_eq]
        omega
      rw [hc,List.cons_append,List.takeWhile_cons_of_neg (by simp [hspace]),
        List.takeWhile_cons_of_neg hspaceChar]
      rfl

/-- There is at most one place after a run of spaces where the keyword can stand. -/
theorem spaces_unique {keyword : String} {s s' t t' d d' : Text} (h : s ++ t = s' ++ t')
    (hs : ∀ b ∈ s, isSpace b = true) (hs' : ∀ b ∈ s', isSpace b = true)
    (ht : constructed? keyword t = some d) (ht' : constructed? keyword t' = some d') :
    s = s' ∧ t = t' := by
  obtain ⟨k,v,hk,hkeyword,_⟩ := (constructed?_eq_some_iff keyword t d).mp ht
  obtain ⟨k',v',hk',hkeyword',_⟩ := (constructed?_eq_some_iff keyword t' d').mp ht'
  have hcount := congrArg (fun x => (x.takeWhile isSpace).length) h
  simp only [List.takeWhile_append_of_pos hs,List.takeWhile_append_of_pos hs',
    List.length_append] at hcount
  rw [hk,hk',length_spaces,length_spaces,hkeyword,hkeyword'] at hcount
  exact List.append_inj h (by omega)

theorem constructedAfterSpaces?_eq_some_iff (keyword : String) (t d : Text) :
    constructedAfterSpaces? keyword t = some d ↔ ∃ s rest, t = s ++ rest ∧
      (∀ b ∈ s, isSpace b = true) ∧ constructed? keyword rest = some d := by
  induction t generalizing d with
  | nil =>
    rw [constructedAfterSpaces?]
    constructor
    · intro h
      exact ⟨[],[],rfl,by simp,h⟩
    · rintro ⟨s,rest,hnil,_,h⟩
      rwa [(List.append_eq_nil_iff.mp hnil.symm).2] at h
  | cons b t ih =>
    rw [constructedAfterSpaces?]
    constructor
    · intro h
      split at h
      · rename_i count hcount
        split_ifs at hcount with hspace
        obtain ⟨s,rest,rfl,hs,hrest⟩ := (ih count).mp hcount
        refine ⟨b :: s,rest,rfl,?_,by rw [hrest,h]⟩
        intro x hx
        rcases List.mem_cons.mp hx with rfl | hx
        · exact hspace
        · exact hs x hx
      · exact ⟨[],b :: t,rfl,by simp,h⟩
    · rintro ⟨s,rest,ht,hs,hrest⟩
      cases s with
      | nil =>
        -- The keyword takes the first space itself, so it cannot stand after it.
        have hnone : (if isSpace b = true then constructedAfterSpaces? keyword t else none) = none := by
          split_ifs with hspace
          · by_contra hsome
            obtain ⟨count,hcount⟩ := Option.ne_none_iff_exists'.mp hsome
            obtain ⟨s',rest',rfl,hs',hrest'⟩ := (ih count).mp hcount
            have hboth : ∀ x ∈ b :: s', isSpace x = true := by
              intro x hx
              rcases List.mem_cons.mp hx with rfl | hx
              · exact hspace
              · exact hs' x hx
            have := (spaces_unique (s:=[]) ht.symm hs hboth hrest hrest').1
            cases this
          · rfl
        rw [hnone,ht,List.nil_append]
        exact hrest
      | cons b' s =>
        obtain ⟨rfl,htail⟩ := List.cons.inj ht
        have hcount := (ih d).mpr ⟨s,rest,htail,fun x hx => hs x (List.mem_cons_of_mem _ hx),hrest⟩
        rw [if_pos (hs b List.mem_cons_self),hcount]

/-! ### Declarations -/

theorem assigned?_eq_some_iff (keyword : String) (t d : Text) :
    assigned? keyword t = some d ↔ ∃ s₁ s₂ k v : Text,
      t = s₁ ++ '='.toUInt8 :: (s₂ ++ (k ++ '('.toUInt8 :: (d ++ ')'.toUInt8 :: v))) ∧
        (∀ b ∈ s₁, isSpace b = true) ∧ (∀ b ∈ s₂, isSpace b = true) ∧ k.chars = keyword.toList ∧
        d ≠ [] ∧ ∀ b ∈ d, isDigit b = true := by
  simp only [assigned?,Option.bind_eq_bind,Option.bind_eq_some_iff,after?_eq_some_iff,
    constructedAfterSpaces?_eq_some_iff,constructed?_eq_some_iff]
  constructor
  · rintro ⟨t',ht',s₂,_,rfl,hs₂,k,v,rfl,hk,hne,hdigit⟩
    refine ⟨t.takeWhile isSpace,s₂,k,v,?_,?_,hs₂,hk,hne,hdigit⟩
    · rw [← ht',List.takeWhile_append_dropWhile]
    · intro b hb
      exact List.mem_takeWhile_imp hb
  · rintro ⟨s₁,s₂,k,v,rfl,hs₁,hs₂,hk,hne,hdigit⟩
    exact ⟨_,dropWhile_run hs₁ (by decide),s₂,_,rfl,hs₂,k,v,rfl,hk,hne,hdigit⟩

theorem splits_iff (keyword : String) (line u w d : Text) :
    Splits keyword line u w d ↔ ∃ s₁ s₂ k v : Text,
      line = u ++ (w ++ (s₁ ++ '='.toUInt8 :: (s₂ ++ (k ++ '('.toUInt8 ::
        (d ++ ')'.toUInt8 :: v))))) ∧
      (w ≠ [] ∧ ∀ b ∈ w, isWord b = true) ∧ (∀ b ∈ s₁, isSpace b = true) ∧
      (∀ b ∈ s₂, isSpace b = true) ∧ k.chars = keyword.toList ∧ d ≠ [] ∧
      ∀ b ∈ d, isDigit b = true := by
  have hequals : Text.ofString "=" = ['='.toUInt8] := by decide
  have hopen : Text.ofString "(" = ['('.toUInt8] := by decide
  have hclose : Text.ofString ")" = [')'.toUInt8] := by decide
  simp only [Splits,hequals,hopen,hclose,isWord_iff,isSpace_iff,isDigit_iff,List.append_assoc,
    List.cons_append,List.nil_append]

def front? (keyword : String) : Text → Option (Text × Text)
  | [] => none
  | b :: rest =>
    if isWord b then (assigned? keyword (rest.dropWhile isWord)).map (b :: rest.takeWhile isWord,·)
    else none

theorem front?_eq_some_iff (keyword : String) (t w d : Text) :
    front? keyword t = some (w,d) ↔ Splits keyword t [] w d := by
  simp only [splits_iff,List.nil_append]
  constructor
  · intro h
    cases t with
    | nil => cases h
    | cons b rest =>
      rw [front?] at h
      split_ifs at h with hb
      obtain ⟨d',hd',hpair⟩ := Option.map_eq_some_iff.mp h
      obtain ⟨rfl,rfl⟩ := Prod.mk.inj hpair
      obtain ⟨s₁,s₂,k,v,hrest,hs₁,hs₂,hk,hne,hdigit⟩ := (assigned?_eq_some_iff keyword _ _).mp hd'
      refine ⟨s₁,s₂,k,v,?_,⟨by simp,?_⟩,hs₁,hs₂,hk,hne,hdigit⟩
      · rw [← hrest,List.cons_append,List.takeWhile_append_dropWhile]
      · intro x hx
        rcases List.mem_cons.mp hx with rfl | hx
        · exact hb
        · exact List.mem_takeWhile_imp hx
  · rintro ⟨s₁,s₂,k,v,rfl,⟨hw,hword⟩,hs₁,hs₂,hk,hne,hdigit⟩
    obtain ⟨b,w',rfl⟩ := List.exists_cons_of_ne_nil hw
    have hassigned := (assigned?_eq_some_iff keyword _ d).mpr
      ⟨s₁,s₂,k,v,rfl,hs₁,hs₂,hk,hne,hdigit⟩
    have hword' (x : UInt8) (hx : x ∈ w') : isWord x = true := hword x (List.mem_cons_of_mem _ hx)
    -- A space or the equals sign ends the name.
    obtain ⟨x,r,hxr,hx⟩ : ∃ x r, s₁ ++ '='.toUInt8 :: (s₂ ++ (k ++ '('.toUInt8 ::
        (d ++ ')'.toUInt8 :: v))) = x :: r ∧ isWord x = false := by
      cases s₁ with
      | nil => exact ⟨_,_,rfl,by decide⟩
      | cons x s₁ => exact ⟨_,_,rfl,not_isWord_of_isSpace (hs₁ x List.mem_cons_self)⟩
    rw [hxr] at hassigned ⊢
    rw [List.cons_append,front?,if_pos (hword b List.mem_cons_self),dropWhile_run hword' hx,
      takeWhile_run hword' hx,hassigned]
    rfl

/-- No declaration starts within a name that is not followed by one. -/
theorem findSome?_dropWhile {keyword : String} {t : Text}
    (h : assigned? keyword (t.dropWhile isWord) = none) :
    t.tails.findSome? (front? keyword) = (t.dropWhile isWord).tails.findSome? (front? keyword) := by
  induction t with
  | nil => rfl
  | cons b t ih =>
    by_cases hb : isWord b = true
    · rw [List.dropWhile_cons_of_pos hb] at h ⊢
      have hfront : front? keyword (b :: t) = none := by
        rw [front?,if_pos hb,h]
        rfl
      rw [List.tails_cons,List.findSome?_cons,hfront]
      exact ih h
    · rw [List.dropWhile_cons_of_neg hb]

/-- The recognizer finds the first declaration that stands at the front of an end of the line. -/
theorem declarationFrom?_eq (keyword : String) (skip : Nat) (t : Text) :
    declarationFrom? keyword skip t = (t.drop skip).tails.findSome? (front? keyword) := by
  induction t generalizing skip with
  | nil =>
    rw [List.drop_nil]
    cases skip <;> rfl
  | cons b t ih =>
    cases skip with
    | succ skip => exact ih skip
    | zero =>
      rw [declarationFrom?,List.drop_zero,List.tails_cons,List.findSome?_cons,front?]
      by_cases hb : isWord b = true
      · rw [if_pos hb,if_pos hb]
        cases hassigned : assigned? keyword (t.dropWhile isWord) with
        | some count => simp only [Option.map_some]
        | none =>
          simp only [Option.map_none]
          rw [ih,findSome?_dropWhile hassigned,List.length_cons,Nat.add_sub_cancel,
            drop_length_takeWhile]
      · rw [if_neg hb,if_neg hb]
        exact ih 0

theorem findSome?_tails_eq_some_iff {α : Type} (f : Text → Option α) (t : Text) (a : α) :
    t.tails.findSome? f = some a ↔ ∃ u rest, t = u ++ rest ∧ f rest = some a ∧
      ∀ u' rest', t = u' ++ rest' → f rest' ≠ none → u.length ≤ u'.length := by
  induction t with
  | nil =>
    rw [List.tails,List.findSome?_singleton]
    constructor
    · intro h
      exact ⟨[],[],rfl,h,by simp⟩
    · rintro ⟨u,rest,hnil,h,_⟩
      rwa [(List.append_eq_nil_iff.mp hnil.symm).2] at h
  | cons b t ih =>
    rw [List.tails_cons,List.findSome?_cons]
    cases hfront : f (b :: t) with
    | some a' =>
      simp only [Option.some.injEq]
      constructor
      · rintro rfl
        exact ⟨[],b :: t,rfl,hfront,by simp⟩
      · rintro ⟨u,rest,ht,hrest,hleast⟩
        have hu : u = [] := by
          simpa using hleast [] (b :: t) rfl (by simp [hfront])
        rw [hu,List.nil_append] at ht
        rw [← ht,hfront] at hrest
        exact Option.some.inj hrest
    | none =>
      simp only [ih]
      constructor
      · rintro ⟨u,rest,rfl,hrest,hleast⟩
        refine ⟨b :: u,rest,rfl,hrest,?_⟩
        intro u' rest' ht hsome
        cases u' with
        | nil =>
          rw [List.nil_append] at ht
          rw [← ht,hfront] at hsome
          exact absurd rfl hsome
        | cons b' u' =>
          have := hleast u' rest' (List.cons.inj ht).2 hsome
          simpa using this
      · rintro ⟨u,rest,ht,hrest,hleast⟩
        cases u with
        | nil =>
          rw [List.nil_append] at ht
          rw [← ht,hfront] at hrest
          cases hrest
        | cons b' u =>
          obtain ⟨rfl,rfl⟩ := List.cons.inj ht
          refine ⟨u,rest,rfl,hrest,?_⟩
          intro u' rest' ht' hsome
          have := hleast (b :: u') rest' (by rw [ht',List.cons_append]) hsome
          simpa using this

theorem splits_of_front {keyword : String} {line u w d : Text} :
    Splits keyword line u w d ↔ ∃ rest, line = u ++ rest ∧ front? keyword rest = some (w,d) := by
  simp only [front?_eq_some_iff,splits_iff,List.nil_append]
  constructor
  · rintro ⟨s₁,s₂,k,v,rfl,h⟩
    exact ⟨_,rfl,s₁,s₂,k,v,rfl,h⟩
  · rintro ⟨_,rfl,s₁,s₂,k,v,rfl,h⟩
    exact ⟨s₁,s₂,k,v,rfl,h⟩

/-- The recognizer of declarations finds what a line declares. -/
theorem declaration?_eq_some_iff (keyword : String) (line w d : Text) :
    declaration? keyword line = some (w,d) ↔ Declares keyword line w d := by
  rw [declaration?,declarationFrom?_eq,List.drop_zero,findSome?_tails_eq_some_iff]
  simp only [Declares,splits_of_front]
  constructor
  · rintro ⟨u,rest,hline,hrest,hleast⟩
    refine ⟨u,⟨rest,hline,hrest⟩,?_⟩
    rintro u' w' d' ⟨rest',hline',hrest'⟩
    exact hleast u' rest' hline' (by simp [hrest'])
  · rintro ⟨u,⟨rest,hline,hrest⟩,hleast⟩
    refine ⟨u,rest,hline,hrest,?_⟩
    intro u' rest' hline' hsome
    obtain ⟨⟨w',d'⟩,hrest'⟩ := Option.ne_none_iff_exists'.mp hsome
    exact hleast u' w' d' ⟨rest',hline',hrest'⟩

theorem declaration?_eq_none_iff (keyword : String) (line : Text) :
    declaration? keyword line = none ↔ ∀ u w d, ¬Splits keyword line u w d := by
  rw [declaration?,declarationFrom?_eq,List.drop_zero,List.findSome?_eq_none_iff]
  simp only [List.mem_tails,splits_of_front]
  constructor
  · rintro h u w d ⟨rest,hline,hrest⟩
    rw [h rest ⟨u,hline.symm⟩] at hrest
    cases hrest
  · rintro h rest ⟨u,hline⟩
    by_contra hsome
    obtain ⟨⟨w,d⟩,hrest⟩ := Option.ne_none_iff_exists'.mp hsome
    exact h u w d ⟨rest,hline.symm,hrest⟩

/-! ### Calls -/

theorem calls_iff (name line m a : Text) :
    Calls name line m a ↔ ∃ rest : Text,
      line = name ++ '.'.toUInt8 :: (m ++ '('.toUInt8 :: (a ++ ')'.toUInt8 :: rest)) ∧
      (m.head?.any isNameStart = true ∧ ∀ b ∈ m, isWord b = true) ∧
      ∀ b ∈ a, (b != ')'.toUInt8) = true := by
  have hdot : Text.ofString "." = ['.'.toUInt8] := by decide
  have hopen : Text.ofString "(" = ['('.toUInt8] := by decide
  have hclose : Text.ofString ")" = [')'.toUInt8] := by decide
  have hmethod : (∃ b more, m = b :: more ∧ Start b ∧ ∀ b ∈ more, Start b ∨ Digit b) ↔
      m.head?.any isNameStart = true ∧ ∀ b ∈ m, isWord b = true := by
    cases m with
    | nil => simp
    | cons b more =>
      simp only [List.cons.injEq,List.head?_cons,Option.any_some,isNameStart_iff,isWord_iff,
        List.forall_mem_cons]
      constructor
      · rintro ⟨_,_,⟨rfl,rfl⟩,hstart,hmore⟩
        exact ⟨hstart,Or.inl hstart,hmore⟩
      · rintro ⟨hstart,_,hmore⟩
        exact ⟨b,more,⟨rfl,rfl⟩,hstart,hmore⟩
  have hargs : ')'.toUInt8 ∉ a ↔ ∀ b ∈ a, (b != ')'.toUInt8) = true := by
    simp only [bne_iff_ne]
    constructor
    · rintro h b hb rfl
      exact h hb
    · intro h hmem
      exact h _ hmem rfl
  simp only [Calls,hdot,hopen,hclose,hmethod,hargs,List.append_assoc,List.cons_append,
    List.nil_append]

/-- The recognizer of calls finds the call that a line starts with. -/
theorem call?_eq_some_iff (name line m a : Text) :
    call? name line = some (m,a) ↔ Calls name line m a := by
  rw [calls_iff]
  constructor
  · intro h
    simp only [call?,Option.bind_eq_bind] at h
    split_ifs at h with hprefix
    · cases h
    obtain ⟨t₁,ht₁,h⟩ := Option.bind_eq_some_iff.mp h
    split_ifs at h with hstart
    · cases h
    obtain ⟨t₂,ht₂,h⟩ := Option.bind_eq_some_iff.mp h
    obtain ⟨rest,hrest,h⟩ := Option.bind_eq_some_iff.mp h
    cases h
    rw [after?_eq_some_iff] at ht₁ ht₂ hrest
    have hname : name <+: line := by
      rw [Bool.not_eq_true',Bool.not_eq_false] at hprefix
      exact List.isPrefixOf_iff_prefix.mp hprefix
    refine ⟨rest,?_,⟨by simpa using hstart,?_⟩,?_⟩
    · rw [← hrest,List.prefix_iff_eq_append.mp (List.takeWhile_prefix _),← ht₂,
        List.prefix_iff_eq_append.mp (List.takeWhile_prefix _),← ht₁,
        List.prefix_iff_eq_append.mp hname]
    · intro b hb
      exact List.mem_takeWhile_imp hb
    · intro b hb
      exact List.mem_takeWhile_imp (p:=fun x => x != ')'.toUInt8) hb
  · rintro ⟨rest,rfl,⟨hstart,hword⟩,hargs⟩
    have hprefix : ¬(!name.isPrefixOf
        (name ++ '.'.toUInt8 :: (m ++ '('.toUInt8 :: (a ++ ')'.toUInt8 :: rest)))) = true := by
      simp
    have hmethod := takeWhile_run (r:=a ++ ')'.toUInt8 :: rest) hword (x := '('.toUInt8) (by decide)
    have harguments := takeWhile_run (r:=rest) hargs (x := ')'.toUInt8) (by decide)
    simp only [call?,Option.bind_eq_bind,if_neg hprefix,List.drop_left,
      (after?_eq_some_iff '.' _ _).mpr rfl,Option.bind_some,hmethod,hstart,Bool.not_true,
      Bool.false_eq_true,if_false,(after?_eq_some_iff '(' _ _).mpr rfl,harguments,
      (after?_eq_some_iff ')' _ _).mpr rfl]
    rfl

end Line

namespace Outline

open Line

def decimal (d : Text) : Nat := Nat.ofDigits 10 (d.reverse.map fun b => b.toNat - 48)

theorem digit?_of_digit {b : UInt8} (h : Digit b) : Integer.digit? b = some (b.toNat - 48) := by
  have hrange : ('0'.toUInt8 ≤ b && b ≤ '9'.toUInt8) = true := (isDigit_iff b).mpr h
  rw [Integer.digit?,if_pos hrange]

theorem decimal_concat (d : Text) (b : UInt8) :
    decimal (d ++ [b]) = decimal d * 10 + (b.toNat - 48) := by
  rw [decimal,List.reverse_append,List.reverse_singleton,List.singleton_append,List.map_cons,
    Nat.ofDigits_cons,Nat.add_comm,Nat.mul_comm]
  rfl

theorem valueOf_eq_decimal {d : Text} (h : ∀ b ∈ d, Digit b) : Numeral.valueOf 10 d = decimal d := by
  induction d using List.reverseRecOn with
  | nil => rfl
  | append_singleton d b ih =>
    have hd := ih fun x hx => h x (List.mem_append_left _ hx)
    rw [Numeral.valueOf,List.foldl_append,List.foldl_cons,List.foldl_nil,
      digit?_of_digit (h b (by simp)),Option.getD_some,decimal_concat,← hd]
    rfl

/-- A line that binds the name and the count that it declares. -/
def Binds (keyword : String) (line : Text) (decl : Declaration) : Prop :=
  ∃ d, Declares keyword line decl.name d ∧ decl.qubits = decimal d ∧ decl.qubits < 2 ^ 63

theorem digits_of_declares {keyword : String} {line w d : Text} (h : Declares keyword line w d) :
    ∀ b ∈ d, Digit b := by
  obtain ⟨_,⟨_,_,_,_,_,_,_,_,_,_,hdigit⟩,_⟩ := h
  exact hdigit

theorem binding?_eq_some_iff (keyword : String) (line : Text) (decl : Declaration) :
    binding? keyword line = some decl ↔ Binds keyword line decl := by
  unfold binding?
  constructor
  · intro h
    obtain ⟨⟨w,d⟩,hd,h⟩ := Option.bind_eq_some_iff.mp h
    have hdeclares := (declaration?_eq_some_iff keyword line w d).mp hd
    simp only [valueOf_eq_decimal (digits_of_declares hdeclares)] at h
    split_ifs at h with hlimit
    cases h
    exact ⟨d,hdeclares,rfl,hlimit⟩
  · rintro ⟨d,hdeclares,hvalue,hlimit⟩
    refine Option.bind_eq_some_iff.mpr ⟨_,(declaration?_eq_some_iff keyword line _ d).mpr hdeclares,?_⟩
    simp only [valueOf_eq_decimal (digits_of_declares hdeclares),← hvalue]
    exact if_pos hlimit

theorem binding?_eq_none_iff (keyword : String) (line : Text) :
    binding? keyword line = none ↔ ∀ decl, ¬Binds keyword line decl := by
  rw [Option.eq_none_iff_forall_ne_some]
  exact forall_congr' fun decl => not_congr (binding?_eq_some_iff keyword line decl)

theorem mem_callsFrom_cons (keyword : String) (name : Text) (n : Nat) (line : Text)
    (lines : List Text) (c : Call) :
    c ∈ callsFrom keyword name n (line :: lines) ↔
      (c.line = n ∧ (∀ u w d, ¬Splits keyword line u w d) ∧ Calls name line c.method c.args) ∨
        c ∈ callsFrom keyword name (n + 1) lines := by
  rw [callsFrom,← declaration?_eq_none_iff,← call?_eq_some_iff]
  cases declaration? keyword line with
  | some found => simp
  | none =>
    cases call? name line with
    | none => simp
    | some found =>
      obtain ⟨m,a⟩ := found
      obtain ⟨k,m',a'⟩ := c
      simp only [List.mem_cons,Call.mk.injEq,Option.some.injEq,Prod.mk.injEq,true_and]
      exact or_congr_left (and_congr_right fun _ => and_congr eq_comm eq_comm)

theorem mem_callsFrom (keyword : String) (name : Text) (n : Nat) (lines : List Text) (c : Call) :
    c ∈ callsFrom keyword name n lines ↔ ∃ j line, lines[j]? = some line ∧ c.line = n + j ∧
      (∀ u w d, ¬Splits keyword line u w d) ∧ Calls name line c.method c.args := by
  induction lines generalizing n with
  | nil => simp [callsFrom]
  | cons line lines ih =>
    rw [mem_callsFrom_cons,ih]
    constructor
    · rintro (⟨hline,h⟩ | ⟨j,line',hline',hnumber,h⟩)
      · exact ⟨0,line,rfl,hline,h⟩
      · exact ⟨j+1,line',hline',by omega,h⟩
    · rintro ⟨j,line',hline',hnumber,h⟩
      cases j with
      | zero =>
        cases hline'
        exact Or.inl ⟨hnumber,h⟩
      | succ j => exact Or.inr ⟨j,line',hline',by omega,h⟩

theorem ascending_callsFrom (keyword : String) (name : Text) (n : Nat) (lines : List Text) :
    (callsFrom keyword name n lines).Pairwise fun a b => a.line < b.line := by
  induction lines generalizing n with
  | nil => exact .nil
  | cons line lines ih =>
    rw [callsFrom]
    split
    · refine .cons ?_ (ih (n + 1))
      intro c hc
      obtain ⟨j,_,_,hnumber,_⟩ := (mem_callsFrom keyword name (n + 1) lines c).mp hc
      change n < c.line
      omega
    · exact ih (n + 1)

theorem outlineFrom_cases (keyword : String) (n : Nat) (lines : List Text) :
    (∀ line ∈ lines, ∀ decl, ¬Binds keyword line decl) ∧ outlineFrom keyword n lines = ⟨none,[]⟩ ∨
      ∃ i line decl, lines[i]? = some line ∧ Binds keyword line decl ∧
        (∀ line' ∈ lines.take i, ∀ decl', ¬Binds keyword line' decl') ∧
        outlineFrom keyword n lines =
          ⟨some decl,callsFrom keyword decl.name (n + i + 1) (lines.drop (i + 1))⟩ := by
  induction lines generalizing n with
  | nil => exact Or.inl ⟨by simp,rfl⟩
  | cons line lines ih =>
    cases hbinding : binding? keyword line with
    | some decl =>
      refine Or.inr ⟨0,line,decl,rfl,(binding?_eq_some_iff _ _ _).mp hbinding,by simp,?_⟩
      rw [outlineFrom,hbinding]
      rfl
    | none =>
      have hline := (binding?_eq_none_iff keyword line).mp hbinding
      have hrest : outlineFrom keyword n (line :: lines) = outlineFrom keyword (n + 1) lines := by
        rw [outlineFrom,hbinding]
      rw [hrest]
      rcases ih (n + 1) with ⟨hnone,hempty⟩ | ⟨i,line',decl,hi,hbinds,hearlier,houtline⟩
      · exact Or.inl ⟨List.forall_mem_cons.mpr ⟨hline,hnone⟩,hempty⟩
      · refine Or.inr ⟨i+1,line',decl,hi,hbinds,?_,?_⟩
        · rw [List.take_succ_cons]
          exact List.forall_mem_cons.mpr ⟨hline,hearlier⟩
        · rw [houtline,List.drop_succ_cons,show n + 1 + i + 1 = n + (i + 1) + 1 by omega]

/-- What trimmed lines come to. -/
structure Outlines (keyword : String) (lines : List Text) (o : Outline) : Prop where
  /-- Without a line that binds nothing is declared and nothing is called. -/
  unbound : (∀ line ∈ lines, ∀ decl, ¬Binds keyword line decl) →
    o.declaration = none ∧ o.name = [] ∧ o.qubits = 0 ∧ o.calls = []
  /-- The first line that binds declares the circuit; the calls are those lines after it that are no
  declarations and start with a call on its name, by their numbers from one. -/
  bound : ∀ i line decl, lines[i]? = some line → Binds keyword line decl →
    (∀ line' ∈ lines.take i, ∀ decl', ¬Binds keyword line' decl') →
    o.declaration = some decl ∧ o.name = decl.name ∧ o.qubits = decl.qubits ∧
      (o.calls.Pairwise fun a b => a.line < b.line) ∧
      ∀ c, c ∈ o.calls ↔ ∃ j line', i < j ∧ lines[j]? = some line' ∧ c.line = j + 1 ∧
        (∀ u w d, ¬Splits keyword line' u w d) ∧ Calls decl.name line' c.method c.args

theorem mem_take_of_lt {lines : List Text} {i i' : Nat} {line : Text} (h : lines[i]? = some line)
    (hi : i < i') : line ∈ lines.take i' := by
  apply List.mem_of_getElem? (i:=i)
  rw [List.getElem?_take_of_lt hi,h]

theorem outlines_outlineFrom (keyword : String) (lines : List Text) :
    Outlines keyword lines (outlineFrom keyword 1 lines) := by
  rcases outlineFrom_cases keyword 1 lines with
    ⟨hnone,hempty⟩ | ⟨i,line,decl,hline,hbinds,hearlier,houtline⟩
  · rw [hempty]
    refine ⟨fun _ => ⟨rfl,rfl,rfl,rfl⟩,?_⟩
    intro i line decl hline hbinds
    exact absurd hbinds (hnone line (List.mem_of_getElem? hline) decl)
  · refine ⟨?_,?_⟩
    · intro hnone
      exact absurd hbinds (hnone line (List.mem_of_getElem? hline) decl)
    · intro i' line' decl' hline' hbinds' hearlier'
      have hle : ¬i < i' := fun hlt => hearlier' line (mem_take_of_lt hline hlt) decl hbinds
      have hge : ¬i' < i := fun hlt => hearlier line' (mem_take_of_lt hline' hlt) decl' hbinds'
      obtain rfl : i = i' := by omega
      obtain rfl : line = line' := Option.some.inj (hline.symm.trans hline')
      obtain rfl : decl = decl' := Option.some.inj (((binding?_eq_some_iff _ _ _).mpr hbinds).symm.trans
        ((binding?_eq_some_iff _ _ _).mpr hbinds'))
      rw [houtline]
      refine ⟨rfl,rfl,rfl,ascending_callsFrom ..,?_⟩
      intro c
      rw [mem_callsFrom]
      constructor
      · rintro ⟨j,line₂,hline₂,hnumber,h⟩
        rw [List.getElem?_drop] at hline₂
        exact ⟨i+1+j,line₂,by omega,hline₂,by omega,h⟩
      · rintro ⟨j,line₂,hj,hline₂,hnumber,h⟩
        refine ⟨j-(i+1),line₂,?_,by omega,h⟩
        rw [List.getElem?_drop,show i + 1 + (j - (i + 1)) = j by omega]
        exact hline₂

theorem not_mem_splitOn (sep : UInt8) (t : Text) : ∀ piece ∈ Text.splitOn sep t, sep ∉ piece := by
  induction t with
  | nil => simp [Text.splitOn]
  | cons b t ih =>
    rw [Text.splitOn]
    by_cases hb : (b == sep) = true
    · rw [if_pos hb]
      exact List.forall_mem_cons.mpr ⟨List.not_mem_nil,ih⟩
    · rw [if_neg hb]
      cases hsplit : Text.splitOn sep t with
      | nil => exact absurd hsplit (Text.splitOn_ne_nil sep t)
      | cons piece pieces =>
        rw [hsplit] at ih
        obtain ⟨hpiece,hpieces⟩ := List.forall_mem_cons.mp ih
        refine List.forall_mem_cons.mpr ⟨?_,hpieces⟩
        rw [List.mem_cons,not_or]
        exact ⟨fun h => hb (by simp [h]),hpiece⟩

/-- An outline recognizes exactly the grammar of lines, in the lines of any source: the pieces between
its newlines, trimmed. A keyword without U+FFFD can only be spelled by its own bytes. -/
theorem ofSource_recognizes_grammar (constructor : String) (source : Text) :
    ∃ (keyword : String) (pieces : List Text),
      keyword = (if constructor = "" then "QuantumCircuit" else constructor) ∧
      ('\uFFFD' ∉ keyword.toList → ∀ k : Text, k.chars = keyword.toList ↔ k = keyword) ∧
      (pieces ≠ [] ∧ Text.joinWith "\n" pieces = source ∧ ∀ piece ∈ pieces, newline ∉ piece) ∧
      Outlines keyword (pieces.map Text.trim) (ofSource constructor source) := by
  have hkeyword : constructorOrDefault constructor =
      if constructor = "" then "QuantumCircuit" else constructor := by
    simp [constructorOrDefault,defaultConstructor,String.isEmpty_iff]
  have hbreak : Text.ofString "\n" = [newline] := by decide
  refine ⟨_,source.splitOn newline,hkeyword,Text.chars_eq_iff,?_,outlines_outlineFrom _ _⟩
  refine ⟨Text.splitOn_ne_nil _ _,?_,not_mem_splitOn newline source⟩
  rw [hbreak,Text.joinWith_splitOn]

def sampleStray : Text := [0x71,0x3D,0xFF,0x28,0x31,0x29,0x0A,0x71,0x2E,0x68,0x28,0x30,0x29,0x0A]

/-- A stray byte is taken for the keyword U+FFFD, whose bytes stand nowhere in the source. -/
theorem stray_byte_read_as_keyword :
    (∀ line ∈ (Text.splitOn newline sampleStray).map Text.trim, ∀ u w s₁ s₂ d v : Text,
      line ≠ u ++ w ++ s₁ ++ "=" ++ s₂ ++ "\uFFFD" ++ "(" ++ d ++ ")" ++ v) ∧
    ofSource "\uFFFD" sampleStray = ⟨some ⟨"q",1⟩,[⟨2,"h","0"⟩]⟩ := by
  refine ⟨?_,by decide +kernel⟩
  intro line hline u w s₁ s₂ d v h
  have hlead : (0xEF : UInt8) ∈ Text.ofString "\uFFFD" := by decide
  have hmem : (0xEF : UInt8) ∈ line := by
    rw [h]
    simp only [List.mem_append]
    simp only [hlead,or_true,true_or]
  have hnone : ∀ line ∈ (Text.splitOn newline sampleStray).map Text.trim, (0xEF : UInt8) ∉ line := by
    decide +kernel
  exact hnone line hline hmem

end Outline
end CircuitNotes
