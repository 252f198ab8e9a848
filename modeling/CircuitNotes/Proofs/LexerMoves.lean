import CircuitNotes.Proofs.ScalarReading
import CircuitNotes.Yaml.Token
import Mathlib.Data.List.TakeWhile

/-! What the reader of tokens does in a stream of printable lines, move by move. Of its state only a part
matters: where it is, which blocks are open, where a key may have started, and the kinds of the tokens
that wait. -/
namespace CircuitNotes
namespace Yaml

/-- What matters of the state of a reader of tokens. The columns of the open blocks are given from the
innermost on. -/
structure Situation where
  pos : Pos
  rest : List Char
  blocks : List Nat
  flow : Nat
  keys : List KeyStart
  allowed : Bool
  taken : Nat
  kinds : List TokenKind

structure Lexer.Shows (l : Lexer) (s : Situation) : Prop where
  calm : l.cursor.Calm s.pos
  rest : l.rest = s.rest
  ascii : AsciiLines s.rest
  flow : l.flow = s.flow
  blocks : l.indent :: l.indents = s.blocks.map Int.ofNat ++ [-1]
  keys : l.keys = s.keys
  allowed : l.keyAllowed = s.allowed
  taken : l.taken = s.taken
  kinds : l.tokens.map Token.kind = s.kinds

/-- A move that succeeds and ends in a situation. -/
def Gives (x : Option Lexer) (s : Situation) : Prop := ∃ l, x = some l ∧ l.Shows s

theorem Gives.bind {x : Option Lexer} {f : Lexer → Option Lexer} {s s' : Situation} (h : Gives x s)
    (hf : ∀ l, l.Shows s → Gives (f l) s') : Gives (x.bind f) s' := by
  obtain ⟨l,rfl,hl⟩ := h
  exact hf l hl

/-! ### Between tokens -/

section Between

variable {cur : Cursor} {p : Pos} {c : Char} {rest body : List Char} {between : Lexer.Between}

theorem pass_eq (flow allowed : Bool) (hcur : cur.Calm p) (hrest : AsciiLines (c :: rest))
    (hbetween : between = .start ∨ between = .spacing) :
    ∃ cur', cur'.Calm p ∧ Lexer.pass flow between allowed cur c rest =
      Lexer.passSpacing flow allowed cur' c rest := by
  rcases hbetween with rfl | rfl
  · obtain ⟨cur',hneed,hcur'⟩ := hcur.need hrest 1
    refine ⟨cur',hcur',?_⟩
    simp [Lexer.pass,hneed,hcur'.unmarked]
  · exact ⟨cur,hcur,rfl⟩

theorem passOver_spaces (flow allowed : Bool) (k : Nat) (hcur : cur.Calm p)
    (hbody : AsciiLines body) (hinked : StartsInked body)
    (hbetween : between = .start ∨ between = .spacing) :
    ∃ cur', cur'.Calm (p.along k) ∧ Lexer.passOver flow between allowed cur
      (List.replicate k ' ' ++ body) = some (allowed,cur',body) := by
  induction k generalizing cur p between with
  | zero =>
    cases body with
    | nil =>
      obtain ⟨cur',hneed,hcur'⟩ := hcur.need hbody 1
      refine ⟨cur',hcur',?_⟩
      rcases hbetween with rfl | rfl <;> simp [Lexer.passOver,hneed]
    | cons c body =>
      obtain ⟨cur',hcur',hpass⟩ := pass_eq flow allowed hcur hbody hbetween
      obtain ⟨hspace,hbreak,hhash⟩ := hinked c rfl
      have hascii := (hbody c List.mem_cons_self).resolve_left hbreak
      have htab : c ≠ '\t' := by
        rintro rfl
        exact absurd hascii (by decide)
      refine ⟨cur',hcur',?_⟩
      rw [List.replicate_zero,List.nil_append,Lexer.passOver,hpass]
      simp [Lexer.passSpacing,hspace,hhash,htab,hascii.isBreak]
  | succ k ih =>
    have hrest := asciiLines_replicate_append k hbody
    have hspace : IsAscii ' ' := by decide
    obtain ⟨cur₁,hcur₁,hpass⟩ := pass_eq flow allowed hcur
      (asciiLines_cons.mpr ⟨Or.inr hspace,hrest⟩) hbetween
    obtain ⟨cur₂,hneed,hcur₂⟩ := (hcur₁.next hspace).need hrest 1
    obtain ⟨cur',hcur',hover⟩ := ih hcur₂ (Or.inr rfl)
    refine ⟨cur',by simpa [Pos.along_along,Nat.add_comm] using hcur',?_⟩
    rw [List.replicate_succ,List.cons_append,Lexer.passOver,hpass]
    simp [Lexer.passSpacing,hneed,hover]

theorem passOver_line (allowed : Bool) (k : Nat) (hcur : cur.Calm p) (hbody : AsciiLines body)
    (hinked : StartsInked body) :
    ∃ cur', cur'.Calm (p.broken.along k) ∧ Lexer.passOver false .start allowed cur
      ('\n' :: (List.replicate k ' ' ++ body)) = some (true,cur',body) := by
  have hrest : AsciiLines ('\n' :: (List.replicate k ' ' ++ body)) :=
    asciiLines_cons.mpr ⟨Or.inl rfl,asciiLines_replicate_append k hbody⟩
  obtain ⟨cur₁,hcur₁,hpass⟩ := pass_eq false allowed hcur hrest (Or.inl rfl)
  obtain ⟨cur₂,hneed,hcur₂⟩ := hcur₁.need hrest 2
  obtain ⟨cur',hcur',hover⟩ := passOver_spaces false true k hcur₂.nextLine hbody hinked (Or.inl rfl)
  refine ⟨cur',hcur',?_⟩
  rw [Lexer.passOver,hpass]
  simp [Lexer.passSpacing,hneed,hover,isBreak]

def NoComment (cs : List Char) : Prop := ∀ c ∈ (cs.dropWhile (· == ' ')).head?, c ≠ '#'

theorem commentAhead_of_noComment {here cs : List Char} (offset : Nat) (hcur : cur.Calm p)
    (hhere : AsciiLines here) (hcs : AsciiLines cs) (h : NoComment cs) :
    ∃ cur', cur'.Calm p ∧ Lexer.commentAhead false here offset cur cs = (cur',false) := by
  induction cs generalizing cur offset with
  | nil =>
    obtain ⟨cur',hreach,hcur'⟩ := hcur.reach hhere (offset + 1)
    rw [Lexer.commentAhead,hreach]
    split_ifs
    · exact ⟨cur,hcur,rfl⟩
    · exact ⟨cur',hcur',rfl⟩
  | cons c cs ih =>
    obtain ⟨cur₁,hreach,hcur₁⟩ := hcur.reach hhere (offset + 1)
    rw [Lexer.commentAhead,hreach]
    simp only [Bool.not_true,Bool.false_and,Bool.or_false,Bool.false_eq_true,if_false]
    split_ifs with hlimit hspacing
    · exact ⟨cur,hcur,rfl⟩
    · have hblank : (c == ' ') = true := by
        rcases hcs c List.mem_cons_self with rfl | hascii
        · exact absurd hspacing (by decide)
        · rwa [← hascii.isSpacing]
      refine ih (offset + 1) hcur₁ hcs.tail ?_
      rwa [NoComment,List.dropWhile_cons,if_pos hblank] at h
    · have hblank : ¬(c == ' ') = true := fun h => hspacing (by simp [isSpacing,h])
      rw [NoComment,List.dropWhile_cons,if_neg hblank] at h
      exact ⟨cur₁,hcur₁,by simp [h c rfl]⟩

end Between

/-! ### Moves -/

def KeyStart.Loose (k : KeyStart) : Prop := k.possible = true → k.required = false

/-- The blocks after one was opened at a column, unless there is one. -/
def openedAt (blocks : List Nat) (column : Nat) : List Nat :=
  if blocks.head? = some column then blocks else column :: blocks

def openers (blocks : List Nat) (column : Nat) (kind : TokenKind) : List TokenKind :=
  if blocks.head? = some column then [] else [kind]

def isFurther (column : Int) (block : Nat) : Bool := column < Int.ofNat block

namespace Lexer

theorem closeBlocks_eq (column : Int) (line : Nat) {indent : Int} {indents : List Int}
    {blocks : List Nat}
    (h : indent :: indents = blocks.map Int.ofNat ++ [-1]) :
    ∃ indent' indents', closeBlocks column line indent indents =
        ((blocks.takeWhile (isFurther column)).map fun _ => ⟨.blockEnd,line⟩,indent',indents') ∧
      indent' :: indents' = (blocks.dropWhile (isFurther column)).map Int.ofNat ++ [-1] := by
  induction blocks generalizing indent indents with
  | nil =>
    cases h
    exact ⟨-1,[],rfl,rfl⟩
  | cons b blocks ih =>
    rw [List.map_cons,List.cons_append] at h
    obtain ⟨rfl,hindents⟩ := List.cons.inj h
    obtain ⟨outer,more,hmore⟩ := List.exists_cons_of_ne_nil
      (List.append_ne_nil_of_right_ne_nil (blocks.map Int.ofNat) (List.cons_ne_nil (-1 : Int) []))
    rw [hmore] at hindents
    subst hindents
    rw [closeBlocks]
    by_cases hb : isFurther column b = true
    · obtain ⟨indent',indents',hclose,hrest⟩ := ih hmore.symm
      refine ⟨indent',indents',?_,?_⟩
      · rw [if_pos (of_decide_eq_true hb),hclose,List.takeWhile_cons_of_pos hb]
        rfl
      · rwa [List.dropWhile_cons_of_pos hb]
    · refine ⟨Int.ofNat b,outer :: more,?_,?_⟩
      · rw [if_neg (fun h => hb (decide_eq_true h)),List.takeWhile_cons_of_neg hb]
        rfl
      · rw [List.dropWhile_cons_of_neg hb,List.map_cons,List.cons_append,hmore]

namespace Shows

variable {l : Lexer} {s : Situation}

theorem column (h : l.Shows s) : l.cursor.column = s.pos.column := congrArg Pos.column h.calm.pos

theorem line (h : l.Shows s) : l.cursor.line = s.pos.line := congrArg Pos.line h.calm.pos

theorem nextNumber (h : l.Shows s) : l.nextNumber = s.taken + s.kinds.length := by
  rw [Lexer.nextNumber,h.taken,← h.kinds,List.length_map]

theorem need (h : l.Shows s) (k : Nat) : Gives (l.need k) s := by
  obtain ⟨cur,hneed,hcalm⟩ := h.calm.need h.ascii k
  rw [← h.rest] at hneed
  exact ⟨{ l with cursor := cur },by simp [Lexer.need,hneed],{ h with calm := hcalm }⟩

theorem toToken_spaces {k : Nat} {body : List Char} (h : l.Shows s)
    (hrest : s.rest = List.replicate k ' ' ++ body) (hinked : StartsInked body) :
    Gives l.toToken { s with pos := s.pos.along k, rest := body } := by
  have hbody := (asciiLines_append.mp (hrest ▸ h.ascii)).2
  obtain ⟨cur,hcur,hover⟩ := passOver_spaces (0 < l.flow) l.keyAllowed k h.calm hbody hinked
    (Or.inl rfl)
  refine ⟨{ l with cursor := cur,rest := body },?_,{ h with calm := hcur,rest := rfl,ascii := hbody }⟩
  rw [toToken,h.rest,hrest,hover]
  rfl

theorem toToken_line {k : Nat} {body : List Char} (h : l.Shows s) (hflow : s.flow = 0)
    (hrest : s.rest = '\n' :: (List.replicate k ' ' ++ body)) (hinked : StartsInked body) :
    Gives l.toToken { s with pos := s.pos.broken.along k, rest := body, allowed := true } := by
  have hbody := (asciiLines_append.mp (asciiLines_cons.mp (hrest ▸ h.ascii)).2).2
  obtain ⟨cur,hcur,hover⟩ := passOver_line l.keyAllowed k h.calm hbody hinked
  refine ⟨{ l with cursor := cur,rest := body,keyAllowed := true },?_,
    { h with calm := hcur,rest := rfl,ascii := hbody,allowed := rfl }⟩
  rw [toToken,h.rest,hrest,h.flow,hflow]
  exact congrArg (Option.bind · _) hover

theorem skipLineComment (h : l.Shows s) (hcomment : NoComment s.rest) :
    Gives l.skipLineComment s := by
  obtain ⟨cur,hcur,hahead⟩ := commentAhead_of_noComment 0 h.calm h.ascii h.ascii hcomment
  rw [← h.rest] at hahead
  rw [Lexer.skipLineComment,hahead]
  exact ⟨{ l with cursor := cur },rfl,{ h with calm := hcur }⟩

theorem push (h : l.Shows s) (kind : TokenKind) (line : Nat) :
    (l.push kind line).Shows { s with kinds := s.kinds ++ [kind] } :=
  { h with kinds := by rw [← h.kinds]; simp [Lexer.push] }

theorem skip {c : Char} {rest : List Char} (h : l.Shows s) (hrest : s.rest = c :: rest) :
    (l.skip 1).Shows { s with pos := s.pos.along 1, rest := rest } :=
  { h with
    calm := h.calm.along 1
    rest := by rw [Lexer.skip,h.rest,hrest]; rfl
    ascii := (hrest ▸ h.ascii).tail }

theorem indicator {c : Char} {rest : List Char} (h : l.Shows s) (kind : TokenKind)
    (hrest : s.rest = c :: rest) :
    (l.indicator kind).Shows
      { s with pos := s.pos.along 1, rest := rest, kinds := s.kinds ++ [kind] } :=
  (h.push kind l.cursor.line).skip hrest

theorem insert {q q' : List TokenKind} {number : Nat} (h : l.Shows s) (kind : TokenKind) (line : Nat)
    (hkinds : s.kinds = q ++ q') (hnumber : number = s.taken + q.length) :
    (l.insert number kind line).Shows { s with kinds := q ++ kind :: q' } := by
  have htaken : ¬number < l.taken := by rw [hnumber,h.taken]; omega
  have hplace : number - l.taken = q.length := by rw [hnumber,h.taken]; omega
  rw [Lexer.insert,if_neg htaken,hplace]
  refine { h with kinds := ?_ }
  rw [List.map_append,List.map_cons,List.map_take,List.map_drop,h.kinds,hkinds]
  simp

theorem allow (h : l.Shows s) (allowed : Bool) :
    ({ l with keyAllowed := allowed } : Lexer).Shows { s with allowed := allowed } :=
  { h with allowed := rfl }

theorem note (h : l.Shows s) (keys : List KeyStart) :
    ({ l with keys := keys } : Lexer).Shows { s with keys := keys } := { h with keys := rfl }

theorem dedent (h : l.Shows s) (hflow : s.flow = 0) (column : Int) :
    (l.dedent column).Shows { s with
      blocks := s.blocks.dropWhile (isFurther column)
      kinds := s.kinds ++ (s.blocks.takeWhile (isFurther column)).map fun _ => .blockEnd } := by
  obtain ⟨indent,indents,hclose,hblocks⟩ := closeBlocks_eq column l.cursor.line h.blocks
  rw [Lexer.dedent,if_pos (by rw [h.flow,hflow]; rfl),hclose]
  exact { h with
    blocks := hblocks
    kinds := by rw [← h.kinds]; simp }

theorem indent_eq (h : l.Shows s) : l.indent = s.blocks.head?.elim (-1) Int.ofNat := by
  have hblocks := h.blocks
  cases hs : s.blocks <;> rw [hs] at hblocks <;> exact (List.cons.inj hblocks).1

theorem indent_beq (h : l.Shows s) (column : Nat) :
    (l.indent == column) = (s.blocks.head? == some column) := by
  rw [Bool.eq_iff_iff,beq_iff_eq,beq_iff_eq,h.indent_eq]
  cases s.blocks.head? with
  | none => simp
  | some b => exact ⟨fun h => congrArg some (Int.ofNat.inj h),fun h => by rw [Option.some.inj h]; rfl⟩

theorem indents_length (h : l.Shows s) : l.indents.length = s.blocks.length := by
  have hblocks := congrArg List.length h.blocks
  simpa using hblocks

theorem release (h : l.Shows s) (number : Nat) : (l.release number).Shows s := { h with }

theorem dropKey {k : KeyStart} {outer : List KeyStart} (h : l.Shows s) (hkeys : s.keys = k :: outer)
    (hk : k.Loose) :
    Gives l.dropKey { s with keys := { k with possible := false } :: outer } := by
  rw [Lexer.dropKey,h.keys,hkeys]
  by_cases hpossible : k.possible = true
  · simp only [hpossible,hk hpossible,Bool.not_true,Bool.false_eq_true,if_false]
    exact ⟨_,rfl,{ h with keys := rfl }⟩
  · simp only [hpossible,Bool.not_false,if_true]
    refine ⟨l,rfl,{ h with keys := ?_ }⟩
    rw [h.keys,hkeys]
    cases k
    simp_all

theorem noteKey {k : KeyStart} {outer : List KeyStart} (h : l.Shows s) (hkeys : s.keys = k :: outer)
    (hk : k.Loose) (hallowed : s.allowed = true) :
    Gives l.noteKey { s with keys := ⟨true,s.flow == 0 && s.blocks.head? == some s.pos.column,
      s.taken + s.kinds.length,s.pos⟩ :: outer } := by
  rw [Lexer.noteKey,if_pos (h.allowed.trans hallowed)]
  refine (h.dropKey hkeys hk).bind fun l h => ⟨_,rfl,{ h with keys := ?_ }⟩
  simp only [h.keys,h.flow,h.nextNumber,h.calm.pos,List.drop_succ_cons,List.drop_zero]
  rw [h.indent_beq]

theorem noteKey_of_not_allowed (h : l.Shows s) (hallowed : s.allowed = false) : Gives l.noteKey s := by
  rw [Lexer.noteKey,h.allowed,hallowed]
  exact ⟨l,rfl,h⟩

theorem openBlock {q q' : List TokenKind} {column number : Nat} (h : l.Shows s) (kind : TokenKind)
    (line : Nat) (hflow : s.flow = 0) (hkinds : s.kinds = q ++ q')
    (hnumber : number = s.taken + q.length) (hblocks : ∀ b ∈ s.blocks.head?, b ≤ column)
    (hdepth : s.blocks.length < depthLimit) :
    Gives (l.openBlock column number kind line) { s with
      blocks := openedAt s.blocks column
      kinds := q ++ openers s.blocks column kind ++ q' } := by
  have hindent : l.indent < column ↔ ¬s.blocks.head? = some column := by
    rw [h.indent_eq]
    cases hs : s.blocks.head? with
    | none =>
      simp
      omega
    | some b =>
      have hb := hblocks b hs
      simp
      omega
  rw [Lexer.openBlock,openedAt,openers,h.indents_length]
  by_cases hsame : s.blocks.head? = some column
  · rw [if_neg (by simp [hindent,hsame]),if_pos hsame,if_pos hsame,List.append_nil,← hkinds]
    exact ⟨l,rfl,h⟩
  · have hinsert := h.insert kind line hkinds hnumber
    rw [if_pos (by simp [h.flow,hflow,hindent,hsame]),if_neg (Nat.not_le.mpr hdepth),if_neg hsame,
      if_neg hsame]
    refine ⟨_,rfl,{ hinsert with blocks := ?_, kinds := by simpa using hinsert.kinds }⟩
    rw [h.blocks]
    rfl

end Shows
/-! ### Which token starts -/

section Starts

variable {l : Lexer} {c : Char} {rest : List Char}

theorem readToken_dash (hrest : l.rest = '-' :: rest) (hword : endsWord rest = true) :
    l.readToken = l.readDash := by
  have hmarker : isMarker ('-' :: rest) = false := by
    rw [isMarker.eq_def]
    split
    · rename_i heq
      cases heq
      exact absurd hword Bool.false_ne_true
    · rename_i heq
      cases heq
    · rfl
  simp [readToken,hrest,hword,hmarker]

theorem readToken_value (hrest : l.rest = ':' :: rest) (hword : endsWord rest = true) :
    l.readToken = l.readValue.bind skipLineComment := by
  simp [readToken,hrest,hword,isMarker]

theorem readToken_opening (hrest : l.rest = '[' :: rest) :
    l.readToken = (l.readOpening .openBracket).bind skipLineComment := by
  simp [readToken,hrest,isMarker]

theorem readToken_closing (hrest : l.rest = ']' :: rest) :
    l.readToken = (l.readClosing .closeBracket).bind skipLineComment := by
  simp [readToken,hrest,isMarker]

theorem readToken_single (hrest : l.rest = '\'' :: rest) :
    l.readToken = (l.readQuoted true).bind skipLineComment := by
  simp [readToken,hrest,isMarker]

theorem readToken_double (hrest : l.rest = '"' :: rest) :
    l.readToken = (l.readQuoted false).bind skipLineComment := by
  simp [readToken,hrest,isMarker]

theorem readToken_end (hrest : l.rest = []) : l.readToken = l.readEnd := by
  rw [readToken,hrest]

theorem readToken_plain (hrest : l.rest = c :: rest) (hflow : l.flow = 0)
    (hstart : startsPlain false c rest = true)
    (hmarker : l.cursor.column = 0 → isMarker (c :: rest) = false) :
    l.readToken = l.readPlain.bind fun (l,broken) => if broken then some l else l.skipLineComment := by
  have hmarked : ¬(l.cursor.column = 0 ∧ isMarker (c :: rest) = true) := by
    rintro ⟨hcolumn,hmark⟩
    rw [hmarker hcolumn] at hmark
    cases hmark
  -- a dash, a question mark or a colon is judged by what follows it
  by_cases hspecial : c = '-' ∨ c = '?' ∨ c = ':'
  · have hword : endsWord rest = false := by
      rcases hspecial with rfl | rfl | rfl <;> simpa [startsPlain] using hstart
    cases hread : l.readPlain <;> rcases hspecial with rfl | rfl | rfl <;>
      simp [readToken,hrest,hflow,hword,hmarked,startsPlain,hread]
  · simp only [not_or] at hspecial
    simp only [startsPlain,beq_iff_eq,hspecial] at hstart
    cases hread : l.readPlain <;> simp_all [readToken,startsPlain]

theorem of_startsOtherwise_eq_false {cs : List Char} (h : Printer.startsOtherwise (c :: cs) = false) :
    "#,[]\x7b\x7d&*!|>'\"%@`".contains c = false ∧
      (c = '-' ∨ c = '?' → ∃ d more, cs = d :: more ∧ isSpacing d = false) := by
  rw [Printer.startsOtherwise.eq_def] at h
  split at h
  · cases h
  · cases h
  · rename_i heq
    cases heq
    rw [Bool.or_eq_false_iff] at h
    refine ⟨h.1,fun hc => ?_⟩
    cases cs with
    | nil => rcases hc with rfl | rfl <;> exact absurd h.2 (by decide)
    | cons d more =>
      refine ⟨d,more,rfl,?_⟩
      rcases hc with rfl | rfl <;> simpa using h.2
  · rename_i heq
    cases heq

theorem startsPlain_of_isPlain {cs : List Char} (h : IsPlain (c :: cs)) (tail : List Char) :
    startsPlain false c (cs ++ tail) = true := by
  obtain ⟨hstart,hitem⟩ := of_startsOtherwise_eq_false h.startsOtherwise
  have hword : (c = '-' ∨ c = '?' ∨ c = ':') → endsWord (cs ++ tail) = false := by
    intro hc
    obtain ⟨d,more,rfl,hd⟩ : ∃ d more, cs = d :: more ∧ isSpacing d = false := by
      rcases hc with hc | hc | rfl
      · exact hitem (Or.inl hc)
      · exact hitem (Or.inr hc)
      · have hkey := h.hasKeyEnd
        cases cs with
        | nil => exact absurd hkey (by decide)
        | cons d more =>
          rw [Printer.hasKeyEnd,Bool.or_eq_false_iff] at hkey
          exact ⟨d,more,rfl,by simpa using hkey.1⟩
    simp [endsWord,hd,(h.ascii d (by simp)).isBreak]
  have hspace : c ≠ ' ' := fun hc => h.head?_ne (congrArg some hc)
  have hascii := h.ascii c List.mem_cons_self
  by_cases hspecial : c = '-' ∨ c = '?' ∨ c = ':'
  · rcases hspecial with rfl | rfl | rfl <;> simp [startsPlain,hword]
  · simp only [not_or] at hspecial
    simp_all [startsPlain,hascii.isBreak,hascii.isSpacing]

end Starts

/-! ### Reading tokens -/

namespace Shows

variable {l : Lexer} {s : Situation} {k : KeyStart} {rest : List Char}

theorem readDash {outer : List KeyStart} (h : l.Shows s) (hflow : s.flow = 0)
    (hallowed : s.allowed = true) (hrest : s.rest = '-' :: rest) (hkeys : s.keys = k :: outer)
    (hk : k.Loose)
    (hblocks : ∀ b ∈ s.blocks.head?, b ≤ s.pos.column) (hdepth : s.blocks.length < depthLimit) :
    Gives l.readDash { s with
      pos := s.pos.along 1
      rest := rest
      blocks := openedAt s.blocks s.pos.column
      kinds := s.kinds ++ openers s.blocks s.pos.column .sequenceStart ++ [.dash]
      keys := { k with possible := false } :: outer
      allowed := true } := by
  rw [Lexer.readDash,if_neg (by simp [h.allowed,hallowed]),h.column]
  refine (h.openBlock .sequenceStart l.cursor.line hflow (List.append_nil _).symm h.nextNumber hblocks
    hdepth).bind fun l h => ?_
  refine (h.dropKey hkeys hk).bind fun l h => ?_
  refine ⟨_,rfl,?_⟩
  simpa using (h.allow true).indicator .dash hrest

theorem readValue {outer : List KeyStart} {q : List TokenKind} {t : TokenKind} (h : l.Shows s)
    (hflow : s.flow = 0) (hrest : s.rest = ':' :: rest) (hkeys : s.keys = k :: outer)
    (hpossible : k.possible = true) (hline : k.pos.line = s.pos.line)
    (hindex : s.pos.index ≤ k.pos.index + keyLimit) (hkinds : s.kinds = q ++ [t])
    (hnumber : k.number = s.taken + q.length)
    (hblocks : ∀ b ∈ s.blocks.head?, b ≤ k.pos.column) (hdepth : s.blocks.length < depthLimit) :
    Gives l.readValue { s with
      pos := s.pos.along 1
      rest := rest
      blocks := openedAt s.blocks k.pos.column
      kinds := q ++ openers s.blocks k.pos.column .mappingStart ++ [.key,t,.value]
      keys := { k with possible := false } :: outer
      allowed := false } := by
  have hreaches : l.reaches k = true := by
    have hindex' : l.cursor.index = s.pos.index := congrArg Pos.index h.calm.pos
    simp [Lexer.reaches,h.line,hline,hindex',hindex]
  have hinsert := h.insert .key k.pos.line hkinds hnumber
  rw [Lexer.readValue,h.keys,hkeys]
  simp only [hpossible,hreaches,Bool.not_true,Bool.false_eq_true,if_false,if_true]
  refine (hinsert.openBlock .mappingStart k.pos.line hflow rfl hnumber hblocks hdepth).bind
    fun l h => ⟨_,rfl,?_⟩
  have hread := (((h.note ({ k with possible := false } :: outer)).allow false).release
    k.number).indicator .value hrest
  simpa using hread

theorem noteKey_of_lt (h : l.Shows s) (hkeys : s.keys = [k]) (hk : k.Loose)
    (hblocks : ∀ b ∈ s.blocks.head?, b < s.pos.column) :
    ∃ k' : KeyStart, k'.Loose ∧ Gives l.noteKey { s with keys := [k'] } := by
  by_cases hallowed : s.allowed = true
  · refine ⟨_,fun _ => ?_,h.noteKey hkeys hk hallowed⟩
    have hhead : s.blocks.head? ≠ some s.pos.column :=
      fun hb => Nat.lt_irrefl _ (hblocks _ hb)
    simp [hhead]
  · have hnote := h.noteKey_of_not_allowed (by simpa using hallowed)
    exact ⟨k,hk,by rwa [← hkeys]⟩

theorem readOpening (h : l.Shows s) (hflow : s.flow = 0) (hrest : s.rest = '[' :: rest)
    (hkeys : s.keys = [k]) (hk : k.Loose) (hblocks : ∀ b ∈ s.blocks.head?, b < s.pos.column) :
    ∃ k' inner : KeyStart, k'.Loose ∧ inner.possible = false ∧
      Gives (l.readOpening .openBracket) { s with
        pos := s.pos.along 1
        rest := rest
        flow := 1
        keys := [inner,k']
        allowed := true
        kinds := s.kinds ++ [.openBracket] } := by
  obtain ⟨k',hk',hnote⟩ := h.noteKey_of_lt hkeys hk hblocks
  refine ⟨k',{ number := s.taken + s.kinds.length,pos := s.pos },hk',rfl,?_⟩
  refine hnote.bind fun l h => ?_
  have hlimit : ¬depthLimit ≤ l.flow := by
    rw [h.flow,hflow]
    decide
  have hopen : ({ l with
      keys := { number := l.nextNumber,pos := l.cursor.toPos } :: l.keys
      flow := l.flow + 1
      keyAllowed := true } : Lexer).Shows { s with
      keys := [{ number := s.taken + s.kinds.length,pos := s.pos },k']
      flow := 1
      allowed := true } :=
    { h with
      keys := by rw [h.nextNumber,h.calm.pos,h.keys]
      flow := by rw [h.flow,hflow]
      allowed := rfl }
  rw [if_neg hlimit]
  exact ⟨_,rfl,hopen.indicator .openBracket hrest⟩

theorem readClosing {inner : KeyStart} (h : l.Shows s) (hflow : s.flow = 1)
    (hrest : s.rest = ']' :: rest) (hkeys : s.keys = [inner,k]) (hinner : inner.possible = false) :
    Gives (l.readClosing .closeBracket) { s with
      pos := s.pos.along 1
      rest := rest
      flow := 0
      keys := [k]
      allowed := false
      kinds := s.kinds ++ [.closeBracket] } := by
  have hloose : inner.Loose := fun hpossible => by
    rw [hinner] at hpossible
    cases hpossible
  refine (h.dropKey hkeys hloose).bind fun l h => ⟨_,rfl,?_⟩
  have hclose : l.closeLevel.Shows { s with flow := 0,keys := [k] } := by
    have hlevel : ({ l with flow := 0,keys := [k] } : Lexer).Shows { s with flow := 0,keys := [k] } :=
      { h with flow := rfl,keys := rfl }
    rw [closeLevel,h.keys]
    simp only [h.flow,hflow,Nat.zero_lt_one,if_true]
    exact hlevel.release _
  exact (hclose.allow false).indicator .closeBracket hrest

theorem pushScalar {cur : Cursor} {p : Pos} {text : List Char} (h : l.Shows s) (b : Bool)
    (hcur : cur.Calm p) (hrest : AsciiLines rest) :
    (l.pushScalar b ⟨text,cur,rest⟩).Shows { s with
      pos := p
      rest := rest
      kinds := s.kinds ++ [.scalar (String.ofList text) b] } :=
  { h.push (.scalar (String.ofList text) b) l.cursor.line with
    calm := hcur
    rest := rfl
    ascii := hrest }

theorem readQuoted {single : Bool} {c : Char} {body tail text : List Char} (h : l.Shows s)
    (hkeys : s.keys = [k]) (hk : k.Loose) (hblocks : ∀ b ∈ s.blocks.head?, b < s.pos.column)
    (hrest : s.rest = c :: body) (htail : AsciiLines tail)
    (hread : ∀ cur p, cur.Calm p → ∃ cur' q, cur'.Calm q ∧
      (if single then singleQuoted .none cur body else doubleQuoted .text .none cur body) =
        some ⟨text,cur',tail⟩) :
    ∃ k' q, k'.Loose ∧ Gives (l.readQuoted single) { s with
      pos := q
      rest := tail
      keys := [k']
      allowed := false
      kinds := s.kinds ++ [.scalar (String.ofList text) false] } := by
  obtain ⟨k',hk',l₁,hnote,h₁⟩ := h.noteKey_of_lt hkeys hk hblocks
  have hdrop : l₁.rest.drop 1 = body := by
    rw [h₁.rest,hrest]
    rfl
  obtain ⟨cur₁,hneed,hcur₁⟩ := (h₁.calm.along 1).need (hrest ▸ h₁.ascii).tail 4
  obtain ⟨cur₂,q,hcur₂,hquoted⟩ := hread cur₁ _ hcur₁
  refine ⟨k',q,hk',_,?_,(h₁.allow false).pushScalar false hcur₂ htail⟩
  rw [Lexer.readQuoted,hnote]
  simp only [Option.bind_eq_bind,Option.bind_some,hdrop,hneed]
  split_ifs at hquoted ⊢ <;> rw [hquoted] <;> rfl

/-- A word before a colon: a key may have started there. -/
theorem readPlain_key {name tail : List Char} (h : l.Shows s) (hflow : s.flow = 0)
    (hallowed : s.allowed = true) (hkeys : s.keys = [k]) (hk : k.Loose) (hname : IsPlain name)
    (hspace : ' ' ∉ name) (hrest : s.rest = name ++ ':' :: tail) (hword : endsWord tail = true) :
    ∃ l' : Lexer, l.readPlain = some (l',false) ∧ l'.Shows { s with
      pos := s.pos.along name.length
      rest := ':' :: tail
      keys := [⟨true,s.flow == 0 && s.blocks.head? == some s.pos.column,
        s.taken + s.kinds.length,s.pos⟩]
      allowed := false
      kinds := s.kinds ++ [.scalar (String.ofList name) true] } := by
  obtain ⟨l₁,hnote,h₁⟩ := h.noteKey hkeys hk hallowed
  have htail : AsciiLines (':' :: tail) := (asciiLines_append.mp (hrest ▸ h.ascii)).2
  obtain ⟨cur,hcur,hplain⟩ := hname.read_key (n := (l₁.indent + 1).toNat) h₁.calm
    (fun h => absurd h hspace) htail.tail hword
  refine ⟨_,?_,(h₁.allow false).pushScalar true hcur htail⟩
  rw [Lexer.readPlain,hnote]
  simp only [Option.bind_eq_bind,Option.bind_some,h₁.flow,hflow,h₁.rest,hrest]
  rw [show decide (0 < 0) = false from rfl,hplain]
  rfl

/-- A plain scalar at the end of a line takes the reader to what follows on the next line. -/
theorem readPlain_line {b column : Nat} {text tail : List Char} (h : l.Shows s) (hflow : s.flow = 0)
    (hkeys : s.keys = [k]) (hk : k.Loose) (hhead : s.blocks.head? = some b) (hb : b < s.pos.column)
    (htext : IsPlain text)
    (hrest : s.rest = text ++ '\n' :: (List.replicate column ' ' ++ tail)) (hcolumn : column ≤ b)
    (hinked : StartsInked tail) :
    ∃ l' k' q, l.readPlain = some (l',true) ∧ k'.Loose ∧ q.column = column ∧ l'.Shows { s with
      pos := q
      rest := tail
      keys := [k']
      allowed := true
      kinds := s.kinds ++ [.scalar (String.ofList text) true] } := by
  obtain ⟨k',hk',l₁,hnote,h₁⟩ := h.noteKey_of_lt hkeys hk (by simpa [hhead] using hb)
  have htail : AsciiLines tail :=
    (asciiLines_append.mp (asciiLines_append.mp (hrest ▸ h.ascii)).2.tail).2
  have hindent : (l₁.indent + 1).toNat = b + 1 := by
    rw [h₁.indent_eq,hhead]
    rfl
  obtain ⟨cur,q,hcur,hq,hplain⟩ := htext.read_line (n := b + 1) h₁.calm hb
    (Nat.lt_succ_of_le hcolumn) htail hinked
  refine ⟨_,k',q,?_,hk',hq,(h₁.allow true).pushScalar true hcur htail⟩
  rw [Lexer.readPlain,hnote]
  simp only [Option.bind_eq_bind,Option.bind_some,h₁.flow,hflow,h₁.rest,hrest,hindent]
  rw [show decide (0 < 0) = false from rfl,hplain]
  rfl

theorem readEnd (h : l.Shows s) (hflow : s.flow = 0) (hkeys : s.keys = [k]) (hk : k.Loose) :
    ∃ q, Gives l.readEnd { s with
      pos := q
      blocks := []
      keys := [{ k with possible := false }]
      allowed := false
      kinds := s.kinds ++ s.blocks.map (fun _ => .blockEnd) ++ [.streamEnd] } := by
  have hall : ∀ b ∈ s.blocks, isFurther (-1) b = true := fun b _ => by
    simp only [isFurther,decide_eq_true_eq,Int.ofNat_eq_natCast]
    omega
  obtain ⟨line,hline⟩ : ∃ line,
      line = if l.cursor.column == 0 then l.cursor.line else l.cursor.line + 1 := ⟨_,rfl⟩
  have hmoved : ({ l with cursor.line := line,cursor.column := 0 } : Lexer).Shows
      { s with pos := ⟨line,0,s.pos.index⟩ } :=
    { h with calm := ⟨by rw [← h.calm.pos],h.calm.sound,h.calm.unmarked⟩ }
  have hclosed := hmoved.dedent hflow (-1)
  rw [List.dropWhile_eq_nil_iff.mpr hall,List.takeWhile_eq_self_iff.mpr hall] at hclosed
  refine ⟨⟨line,0,s.pos.index⟩,?_⟩
  rw [Lexer.readEnd,← hline]
  exact (hclosed.dropKey hkeys hk).bind fun l h => ⟨_,rfl,(h.allow false).push .streamEnd line⟩

end Shows

end Lexer

end Yaml
end CircuitNotes
