import CircuitNotes.Proofs.LexerMoves

/-! Documents line by line, and the tokens that are read from them. A line holds a key or an item of a
list, perhaps with a scalar or an empty list behind it; how far it is indented says which blocks end
before it, and whether one starts. -/
namespace CircuitNotes
namespace Yaml

/-- What stands behind a colon or a dash, in the rest of the line. -/
inductive Content
  | nothing
  | scalar (form text : List Char) (plain : Bool)
  | brackets

namespace Content

def chars : Content → List Char
  | nothing => []
  | scalar form _ _ => ' ' :: form
  | brackets => [' ','[',']']

def tokens : Content → List TokenKind
  | nothing => []
  | scalar _ text b => [.scalar (String.ofList text) b]
  | brackets => [.openBracket,.closeBracket]

def Fine : Content → Prop
  | scalar form text b => Written form text b
  | _ => True

end Content

inductive Lead
  | key (name : List Char)
  | dash

namespace Lead

def chars : Lead → List Char
  | key name => name ++ [':']
  | dash => ['-']

def tokens : Lead → List TokenKind
  | key name => [.key,.scalar (String.ofList name) true,.value]
  | dash => [.dash]

def opener : Lead → TokenKind
  | key _ => .mappingStart
  | dash => .sequenceStart

def Fine : Lead → Prop
  | key name => name ≠ [] ∧ (∀ c ∈ name, isWordChar c = true) ∧ name.length ≤ Lexer.keyLimit
  | dash => True

end Lead

structure Line where
  column : Nat
  lead : Lead
  content : Content

def columnOf : List Line → Nat
  | [] => 0
  | line :: _ => line.column

def charsOf : List Line → List Char
  | [] => []
  | line :: more =>
    List.replicate line.column ' ' ++ (line.lead.chars ++ (line.content.chars ++ '\n' :: charsOf more))

/-- The lines without the indentation of the first. -/
def inkOf : List Line → List Char
  | [] => []
  | line :: more => line.lead.chars ++ (line.content.chars ++ '\n' :: charsOf more)

def tokensOf : List Nat → List Line → List TokenKind
  | blocks, [] => blocks.map (fun _ => .blockEnd) ++ [.streamEnd]
  | blocks, line :: more =>
    let outer := blocks.dropWhile (isFurther line.column)
    (blocks.takeWhile (isFurther line.column)).map (fun _ => .blockEnd) ++
      (openers outer line.column line.lead.opener ++
        (line.lead.tokens ++ (line.content.tokens ++ tokensOf (openedAt outer line.column) more)))

/-- Lines that can be read inside of blocks at certain columns. What has content has no lines that are
indented further below it. -/
def Laid : List Nat → List Line → Prop
  | _, [] => True
  | blocks, line :: more =>
    let outer := blocks.dropWhile (isFurther line.column)
    line.lead.Fine ∧ line.content.Fine ∧ outer.length < Lexer.depthLimit ∧
      (line.content ≠ .nothing → columnOf more ≤ line.column) ∧ Laid (openedAt outer line.column) more

theorem charsOf_eq (lines : List Line) :
    charsOf lines = List.replicate (columnOf lines) ' ' ++ inkOf lines := by
  cases lines <;> rfl

theorem startsInked_inkOf {blocks : List Nat} {lines : List Line} (h : Laid blocks lines) :
    StartsInked (inkOf lines) := by
  cases lines with
  | nil => nofun
  | cons line more =>
    intro c hc
    cases hlead : line.lead with
    | dash =>
      rw [inkOf,hlead] at hc
      cases hc
      decide
    | key name =>
      obtain ⟨hne,hword,-⟩ : Lead.Fine (.key name) := hlead ▸ h.1
      obtain ⟨d,name,rfl⟩ := List.exists_cons_of_ne_nil hne
      rw [inkOf,hlead] at hc
      cases hc
      have hd := hword c List.mem_cons_self
      refine ⟨?_,?_,?_⟩ <;> rintro rfl <;> exact absurd hd (by decide)

theorem Written.startsInked {form text : List Char} {b : Bool} (h : Written form text b)
    (tail : List Char) : StartsInked (form ++ tail) := by
  cases h with
  | single h => exact fun c hc => by cases hc; decide
  | double h => exact fun c hc => by cases hc; decide
  | plain h =>
    obtain ⟨c,cs,rfl⟩ := List.exists_cons_of_ne_nil h.ne_nil
    intro d hd
    cases hd
    refine ⟨fun hc => h.head?_ne (congrArg some hc),?_,?_⟩
    · rintro rfl
      exact absurd (h.ascii _ List.mem_cons_self) (by decide)
    · rintro rfl
      exact absurd (Lexer.of_startsOtherwise_eq_false h.startsOtherwise).1 (by simp)

theorem StartsInked.noComment {cs : List Char} (h : StartsInked cs) : NoComment cs := by
  cases cs with
  | nil => nofun
  | cons c cs =>
    obtain ⟨hspace,-,hhash⟩ := h c rfl
    rw [NoComment,List.dropWhile_cons,if_neg (by simpa using hspace)]
    rintro _ ⟨⟩
    exact hhash

theorem Content.Fine.noComment {content : Content} (h : content.Fine) (tail : List Char) :
    NoComment (content.chars ++ '\n' :: tail) := by
  cases content with
  | nothing => exact fun c hc => by cases hc; decide
  | brackets => exact fun c hc => by cases hc; decide
  | scalar form text b =>
    exact (Written.startsInked h ('\n' :: tail)).noComment

/-! ### Where a reader is -/

/-- Before lines: at the first of them, where a key may start, or at the end of the line before. -/
def Situation.Before (s : Situation) (lines : List Line) : Prop :=
  (s.allowed = true ∧ s.rest = inkOf lines ∧ s.pos.column = columnOf lines) ∨
    s.rest = '\n' :: charsOf lines

/-- A situation from which certain tokens will be read, those that wait included. -/
inductive Awaits : Situation → List TokenKind → Prop
  | lines {s : Situation} {k : KeyStart} {lines : List Line} (hflow : s.flow = 0) (hkeys : s.keys = [k])
      (hk : k.Loose) (hbefore : s.Before lines) (hlaid : Laid s.blocks lines) :
    Awaits s (s.kinds ++ tokensOf s.blocks lines)
  /-- Before the colon of a key. -/
  | colon {s : Situation} {k : KeyStart} {q : List TokenKind} {t : TokenKind} {content : Content}
      {lines : List Line} (hflow : s.flow = 0) (hkeys : s.keys = [k]) (hpossible : k.possible = true)
      (hline : k.pos.line = s.pos.line) (hindex : s.pos.index ≤ k.pos.index + Lexer.keyLimit)
      (hcolumn : k.pos.column < s.pos.column) (hkinds : s.kinds = q ++ [t])
      (hnumber : k.number = s.taken + q.length) (hblocks : ∀ b ∈ s.blocks.head?, b ≤ k.pos.column)
      (hdepth : s.blocks.length < Lexer.depthLimit)
      (hrest : s.rest = ':' :: (content.chars ++ '\n' :: charsOf lines)) (hcontent : content.Fine)
      (hnext : content ≠ .nothing → columnOf lines ≤ k.pos.column)
      (hlaid : Laid (openedAt s.blocks k.pos.column) lines) :
    Awaits s (q ++ (openers s.blocks k.pos.column .mappingStart ++
      ([.key,t,.value] ++ (content.tokens ++ tokensOf (openedAt s.blocks k.pos.column) lines))))
  | content {s : Situation} {k : KeyStart} {b : Nat} {content : Content} {lines : List Line}
      (hflow : s.flow = 0) (hkeys : s.keys = [k]) (hk : k.Loose) (hhead : s.blocks.head? = some b)
      (hb : b < s.pos.column) (hrest : s.rest = content.chars ++ '\n' :: charsOf lines)
      (hcontent : content.Fine) (hne : content ≠ .nothing) (hnext : columnOf lines ≤ b)
      (hlaid : Laid s.blocks lines) :
    Awaits s (s.kinds ++ (content.tokens ++ tokensOf s.blocks lines))
  /-- Inside of brackets. -/
  | bracket {s : Situation} {k inner : KeyStart} {lines : List Line} (hflow : s.flow = 1)
      (hkeys : s.keys = [inner,k]) (hinner : inner.possible = false) (hk : k.Loose)
      (hrest : s.rest = ']' :: '\n' :: charsOf lines) (hlaid : Laid s.blocks lines) :
    Awaits s (s.kinds ++ .closeBracket :: tokensOf s.blocks lines)

/-- At the end of the stream, which is announced again whenever more is asked for. -/
structure Ended (s : Situation) (ts : List TokenKind) : Prop where
  rest : s.rest = []
  flow : s.flow = 0
  keys : ∃ k : KeyStart, s.keys = [k] ∧ k.possible = false
  blocks : s.blocks = []
  kinds : ∃ q m n, s.kinds = q ++ List.replicate m .streamEnd ∧ ts = q ++ List.replicate n .streamEnd

/-! ### Steps -/

/-- The blocks that are further in than the place of a token end before it. -/
def Situation.closed (s : Situation) : Situation :=
  { s with
    blocks := s.blocks.dropWhile (isFurther s.pos.column)
    kinds := s.kinds ++ (s.blocks.takeWhile (isFurther s.pos.column)).map fun _ => .blockEnd }

theorem isFurther_of_le {blocks : List Nat} {column : Nat} (h : ∀ b ∈ blocks.head?, b ≤ column) :
    blocks.takeWhile (isFurther column) = [] ∧ blocks.dropWhile (isFurther column) = blocks := by
  cases blocks with
  | nil => exact ⟨rfl,rfl⟩
  | cons b blocks =>
    have hb : isFurther column b = false := by simpa [isFurther] using h b rfl
    rw [List.takeWhile_cons,List.dropWhile_cons,hb]
    exact ⟨rfl,rfl⟩

theorem Situation.closed_eq {s : Situation} (h : ∀ b ∈ s.blocks.head?, b ≤ s.pos.column) :
    s.closed = s := by
  obtain ⟨htake,hdrop⟩ := isFurther_of_le h
  rw [closed,htake,hdrop,List.map_nil,List.append_nil]

theorem head?_openedAt (blocks : List Nat) (column : Nat) :
    (openedAt blocks column).head? = some column := by
  unfold openedAt
  split_ifs with h
  · exact h
  · rfl

theorem head?_dropWhile_isFurther (blocks : List Nat) (column : Nat) :
    ∀ b ∈ (blocks.dropWhile (isFurther column)).head?, b ≤ column := by
  intro b hb
  have hstop := List.head?_dropWhile_not (isFurther column) blocks
  rw [hb] at hstop
  simpa [isFurther] using hstop

theorem isMarker_of_isWordChar {c : Char} {rest : List Char} (h : isWordChar c = true) :
    isMarker (c :: rest) = false := by
  rw [isMarker.eq_def]
  split
  · rename_i heq
    cases heq
    exact absurd h (by decide)
  · rename_i heq
    cases heq
    exact absurd h (by decide)
  · rfl

namespace Lexer.Shows

variable {l : Lexer} {s s₁ : Situation} {k : KeyStart}

theorem step {P : Situation → Prop} (h : l.Shows s)
    (htoken : ∀ l' : Lexer, l'.Shows s → Gives l'.toToken s₁) (hflow : s₁.flow = 0)
    (hread : ∀ l' : Lexer, l'.Shows s₁.closed → ∃ s₂, Gives l'.readToken s₂ ∧ P s₂) :
    ∃ s₂, Gives l.step s₂ ∧ P s₂ := by
  obtain ⟨l₁,hl₁,h₁⟩ := h.need 1
  obtain ⟨l₂,hl₂,h₂⟩ := htoken l₁ h₁
  have hclosed := h₂.dedent hflow l₂.cursor.column
  rw [h₂.column] at hclosed
  obtain ⟨l₃,hl₃,h₃⟩ := hclosed.need 4
  obtain ⟨s₂,hs₂,hP⟩ := hread l₃ h₃
  refine ⟨s₂,?_,hP⟩
  rw [← h₂.column] at hl₃
  simpa [Lexer.step,hl₁,hl₂,hl₃] using hs₂

theorem step_along {P : Situation → Prop} {n : Nat} {body : List Char} (h : l.Shows s)
    (hflow : s.flow = 0) (hrest : s.rest = List.replicate n ' ' ++ body) (hinked : StartsInked body)
    (hblocks : ∀ b ∈ s.blocks.head?, b ≤ s.pos.column)
    (hread : ∀ l' : Lexer, l'.Shows { s with pos := s.pos.along n, rest := body } →
      ∃ s₂, Gives l'.readToken s₂ ∧ P s₂) :
    ∃ s₂, Gives l.step s₂ ∧ P s₂ := by
  refine h.step (fun l h => h.toToken_spaces hrest hinked) hflow fun l h => hread l ?_
  have hclosed : Situation.closed { s with pos := s.pos.along n, rest := body } = _ :=
    Situation.closed_eq fun b hb => Nat.le_add_right_of_le (hblocks b hb)
  rwa [hclosed] at h

theorem step_flow {P : Situation → Prop} (h : l.Shows s)
    (htoken : ∀ l' : Lexer, l'.Shows s → Gives l'.toToken s₁) (hflow : s₁.flow ≠ 0)
    (hread : ∀ l' : Lexer, l'.Shows s₁ → ∃ s₂, Gives l'.readToken s₂ ∧ P s₂) :
    ∃ s₂, Gives l.step s₂ ∧ P s₂ := by
  obtain ⟨l₁,hl₁,h₁⟩ := h.need 1
  obtain ⟨l₂,hl₂,h₂⟩ := htoken l₁ h₁
  obtain ⟨l₃,hl₃,h₃⟩ := h₂.need 4
  obtain ⟨s₂,hs₂,hP⟩ := hread l₃ h₃
  have hstay : l₂.dedent l₂.cursor.column = l₂ := if_neg (by simpa [h₂.flow] using hflow)
  refine ⟨s₂,?_,hP⟩
  simpa [Lexer.step,hl₁,hl₂,hstay,hl₃] using hs₂

theorem readToken_key {c : Char} {name tail : List Char} (h : l.Shows s) (hflow : s.flow = 0)
    (hallowed : s.allowed = true) (hkeys : s.keys = [k]) (hk : k.Loose)
    (hname : ∀ d ∈ c :: name, isWordChar d = true) (hrest : s.rest = (c :: name) ++ ':' :: tail)
    (hword : endsWord tail = true) :
    Gives l.readToken { s with
      pos := s.pos.along (name.length + 1)
      rest := ':' :: tail
      keys := [⟨true,s.flow == 0 && s.blocks.head? == some s.pos.column,
        s.taken + s.kinds.length,s.pos⟩]
      allowed := false
      kinds := s.kinds ++ [.scalar (String.ofList (c :: name)) true] } := by
  have hc := hname c List.mem_cons_self
  have hplain := isPlain_of_word hc fun d hd => hname d (List.mem_cons_of_mem c hd)
  obtain ⟨l',hread,hl'⟩ := h.readPlain_key hflow hallowed hkeys hk hplain
    (fun hmem => absurd (hname _ hmem) (by decide)) hrest hword
  rw [readToken_plain (h.rest.trans hrest) (h.flow.trans hflow) (startsPlain_of_isPlain hplain _)
    fun _ => isMarker_of_isWordChar hc,hread]
  exact hl'.skipLineComment (by simp [NoComment])

end Lexer.Shows

theorem Situation.Before.toToken {s : Situation} {lines : List Line} (h : s.Before lines)
    (hflow : s.flow = 0) (hlaid : Laid s.blocks lines) :
    ∃ q, q.column = columnOf lines ∧ ∀ l : Lexer, l.Shows s →
      Gives l.toToken { s with pos := q, rest := inkOf lines, allowed := true } := by
  have hinked := startsInked_inkOf hlaid
  rcases h with ⟨hallowed,hrest,hcolumn⟩ | hrest
  · refine ⟨s.pos,hcolumn,fun l hl => ?_⟩
    have hread := hl.toToken_spaces (k := 0) hrest hinked
    rw [← hallowed]
    exact hread
  · rw [charsOf_eq] at hrest
    exact ⟨_,Nat.zero_add _,fun l hl => hl.toToken_line hflow hrest hinked⟩

theorem Situation.Before.length_le {s : Situation} {lines : List Line} (h : s.Before lines) :
    (inkOf lines).length ≤ s.rest.length := by
  rcases h with ⟨-,hrest,-⟩ | hrest
  · rw [hrest]
  · rw [hrest,charsOf_eq]
    simp
    omega

section Step

variable {l : Lexer} {s : Situation} {k : KeyStart}

def StepsOn (l : Lexer) (s : Situation) (ts : List TokenKind) : Prop :=
  ∃ s', Gives l.step s' ∧ Awaits s' ts ∧ s'.rest.length < s.rest.length

theorem endsWord_content (content : Content) (tail : List Char) :
    endsWord (content.chars ++ '\n' :: tail) = true := by
  cases content <;> rfl

theorem stepsOn_key {column : Nat} {name : List Char} {content : Content} {more : List Line}
    (h : l.Shows s) (hflow : s.flow = 0) (hkeys : s.keys = [k]) (hk : k.Loose)
    (hbefore : s.Before (⟨column,.key name,content⟩ :: more))
    (hlaid : Laid s.blocks (⟨column,.key name,content⟩ :: more)) :
    StepsOn l s (s.kinds ++ tokensOf s.blocks (⟨column,.key name,content⟩ :: more)) := by
  obtain ⟨q,hq,htoken⟩ := hbefore.toToken hflow hlaid
  have hlength := hbefore.length_le
  obtain ⟨⟨hne,hword,hlimit⟩,hcontent,hdepth,hnext,hmore⟩ := hlaid
  obtain ⟨c,cs,rfl⟩ := List.exists_cons_of_ne_nil hne
  obtain rfl : q.column = column := hq
  have hrest : inkOf (⟨q.column,.key (c :: cs),content⟩ :: more) =
      (c :: cs) ++ ':' :: (content.chars ++ '\n' :: charsOf more) := by
    simp [inkOf,Lead.chars]
  refine h.step htoken hflow fun l h => ⟨_,h.readToken_key hflow rfl hkeys hk hword hrest
    (endsWord_content content _),?_,?_⟩
  · rw [tokensOf,← List.append_assoc]
    refine Awaits.colon (k := ⟨true,_,_,q⟩) ?_ rfl rfl rfl (Nat.add_le_add_left hlimit _) ?_ rfl rfl
      (head?_dropWhile_isFurther _ _) hdepth rfl hcontent hnext hmore
    · exact hflow
    · exact Nat.lt_add_of_pos_right (Nat.succ_pos _)
  · refine Nat.lt_of_lt_of_le ?_ hlength
    rw [hrest,List.length_append]
    exact Nat.lt_add_of_pos_left (Nat.succ_pos _)

theorem awaits_content {b : Nat} {content : Content} {lines : List Line} (hflow : s.flow = 0)
    (hkeys : s.keys = [k]) (hk : k.Loose) (hhead : s.blocks.head? = some b) (hb : b < s.pos.column)
    (hrest : s.rest = content.chars ++ '\n' :: charsOf lines) (hcontent : content.Fine)
    (hnext : content ≠ .nothing → columnOf lines ≤ b) (hlaid : Laid s.blocks lines) :
    Awaits s (s.kinds ++ (content.tokens ++ tokensOf s.blocks lines)) := by
  by_cases hne : content = .nothing
  · subst hne
    exact .lines hflow hkeys hk (Or.inr hrest) hlaid
  · exact .content hflow hkeys hk hhead hb hrest hcontent hne (hnext hne) hlaid

theorem stepsOn_colon {q : List TokenKind} {t : TokenKind} {content : Content} {lines : List Line}
    (h : l.Shows s) (hflow : s.flow = 0) (hkeys : s.keys = [k]) (hpossible : k.possible = true)
    (hline : k.pos.line = s.pos.line) (hindex : s.pos.index ≤ k.pos.index + Lexer.keyLimit)
    (hcolumn : k.pos.column < s.pos.column) (hkinds : s.kinds = q ++ [t])
    (hnumber : k.number = s.taken + q.length) (hblocks : ∀ b ∈ s.blocks.head?, b ≤ k.pos.column)
    (hdepth : s.blocks.length < Lexer.depthLimit)
    (hrest : s.rest = ':' :: (content.chars ++ '\n' :: charsOf lines)) (hcontent : content.Fine)
    (hnext : content ≠ .nothing → columnOf lines ≤ k.pos.column)
    (hlaid : Laid (openedAt s.blocks k.pos.column) lines) :
    StepsOn l s (q ++ (openers s.blocks k.pos.column .mappingStart ++
      ([.key,t,.value] ++ (content.tokens ++ tokensOf (openedAt s.blocks k.pos.column) lines)))) := by
  have hinked : StartsInked (':' :: (content.chars ++ '\n' :: charsOf lines)) := by
    rintro _ ⟨⟩
    decide
  refine h.step_along (n := 0) hflow hrest hinked
    (fun b hb => Nat.le_of_lt (Nat.lt_of_le_of_lt (hblocks b hb) hcolumn)) fun l h => ?_
  have hread := (h.readValue hflow rfl hkeys hpossible hline hindex hkinds hnumber hblocks hdepth).bind
    fun l h => h.skipLineComment (hcontent.noComment _)
  rw [← Lexer.readToken_value h.rest (endsWord_content content _)] at hread
  refine ⟨_,hread,?_,by simp [hrest]⟩
  rw [← List.append_assoc,← List.append_assoc]
  refine awaits_content (k := { k with possible := false }) ?_ rfl nofun (head?_openedAt _ _) ?_ rfl
    hcontent hnext hlaid
  · exact hflow
  · exact Nat.lt_succ_of_lt hcolumn

theorem stepsOn_dash {column : Nat} {content : Content} {more : List Line} (h : l.Shows s)
    (hflow : s.flow = 0) (hkeys : s.keys = [k]) (hk : k.Loose)
    (hbefore : s.Before (⟨column,.dash,content⟩ :: more))
    (hlaid : Laid s.blocks (⟨column,.dash,content⟩ :: more)) :
    StepsOn l s (s.kinds ++ tokensOf s.blocks (⟨column,.dash,content⟩ :: more)) := by
  obtain ⟨q,hq,htoken⟩ := hbefore.toToken hflow hlaid
  have hlength := hbefore.length_le
  obtain ⟨-,hcontent,hdepth,hnext,hmore⟩ := hlaid
  obtain rfl : q.column = column := hq
  refine h.step htoken hflow fun l h => ?_
  have hread := h.readDash hflow rfl rfl hkeys hk (head?_dropWhile_isFurther _ _) hdepth
  rw [← Lexer.readToken_dash h.rest (endsWord_content content _)] at hread
  refine ⟨_,hread,?_,Nat.lt_of_lt_of_le (Nat.lt_succ_self _) hlength⟩
  rw [tokensOf,← List.append_assoc,← List.append_assoc,← List.append_assoc]
  refine awaits_content (k := { k with possible := false }) ?_ rfl nofun (head?_openedAt _ _) ?_ rfl
    hcontent hnext hmore
  · exact hflow
  · exact Nat.lt_succ_self _

theorem noComment_break (tail : List Char) : NoComment ('\n' :: tail) := by
  rintro _ ⟨⟩
  decide

theorem exists_readToken_quoted (single : Bool) {c : Char} {body text : List Char} {lines : List Line}
    (h : l.Shows s) (hflow : s.flow = 0) (hkeys : s.keys = [k]) (hk : k.Loose)
    (hblocks : ∀ b ∈ s.blocks.head?, b < s.pos.column)
    (hstart : l.readToken = (l.readQuoted single).bind Lexer.skipLineComment)
    (hrest : s.rest = c :: (body ++ '\n' :: charsOf lines)) (hline : AsciiLines ('\n' :: charsOf lines))
    (hread : ∀ cur p, cur.Calm p → ∃ cur' q, cur'.Calm q ∧
      (if single then singleQuoted .none cur (body ++ '\n' :: charsOf lines)
        else doubleQuoted .text .none cur (body ++ '\n' :: charsOf lines)) =
        some ⟨text, cur', '\n' :: charsOf lines⟩)
    (hlaid : Laid s.blocks lines) :
    ∃ s', Gives l.readToken s' ∧
      Awaits s' (s.kinds ++ [.scalar (String.ofList text) false] ++ tokensOf s.blocks lines) ∧
      s'.rest.length < s.rest.length := by
  obtain ⟨k',q,hk',hquoted⟩ := h.readQuoted hkeys hk hblocks hrest hline hread
  have hread := hquoted.bind fun l h => h.skipLineComment (noComment_break _)
  rw [← hstart] at hread
  refine ⟨_,hread,.lines ?_ rfl hk' (Or.inr rfl) hlaid,?_⟩
  · exact hflow
  · rw [hrest]
    simp only [List.length_append,List.length_cons]
    omega

theorem exists_readToken_scalar {b : Nat} {form text : List Char} {p : Bool} {lines : List Line}
    (h : l.Shows s) (hflow : s.flow = 0) (hkeys : s.keys = [k]) (hk : k.Loose)
    (hhead : s.blocks.head? = some b) (hb : b < s.pos.column)
    (hrest : s.rest = form ++ '\n' :: charsOf lines) (hform : Written form text p)
    (hnext : columnOf lines ≤ b) (hlaid : Laid s.blocks lines) :
    ∃ s', Gives l.readToken s' ∧
      Awaits s' (s.kinds ++ (.scalar (String.ofList text) p :: tokensOf s.blocks lines)) ∧
      s'.rest.length < s.rest.length := by
  have hline : AsciiLines ('\n' :: charsOf lines) := (asciiLines_append.mp (hrest ▸ h.ascii)).2
  have hblocks : ∀ b ∈ s.blocks.head?, b < s.pos.column := by simpa [hhead] using hb
  rw [List.append_cons]
  cases hform with
  | plain htext =>
    obtain ⟨c,cs,rfl⟩ := List.exists_cons_of_ne_nil htext.ne_nil
    obtain ⟨l',k',q,hread,hk',hq,hl'⟩ := h.readPlain_line hflow hkeys hk hhead hb htext
      (by rw [hrest,charsOf_eq]) hnext (startsInked_inkOf hlaid)
    have hcolumn : l.cursor.column ≠ 0 := by
      rw [h.column]
      exact Nat.ne_of_gt (Nat.lt_of_le_of_lt (Nat.zero_le b) hb)
    refine ⟨_,⟨l',?_,hl'⟩,.lines ?_ rfl hk' (Or.inl ⟨rfl,rfl,hq⟩) hlaid,?_⟩
    · rw [Lexer.readToken_plain (h.rest.trans hrest) (h.flow.trans hflow)
        (Lexer.startsPlain_of_isPlain htext _) fun h => absurd h hcolumn,hread]
      rfl
    · exact hflow
    · rw [hrest,charsOf_eq]
      simp
      omega
  | single htext =>
    rw [List.cons_append] at hrest
    refine exists_readToken_quoted true h hflow hkeys hk hblocks
      (Lexer.readToken_single (h.rest.trans hrest)) hrest hline (fun cur p hcur => ?_) hlaid
    rw [List.append_assoc]
    exact singleQuoted_read hcur htext hline (by simp) (rfl : Gap.none.isBroken = false)
  | double htext =>
    rw [List.cons_append] at hrest
    refine exists_readToken_quoted false h hflow hkeys hk hblocks
      (Lexer.readToken_double (h.rest.trans hrest)) hrest hline (fun cur p hcur => ?_) hlaid
    rw [List.append_assoc]
    exact doubleQuoted_read hcur htext hline (rfl : Gap.none.isBroken = false)

theorem stepsOn_content {b : Nat} {content : Content} {lines : List Line} (h : l.Shows s)
    (hflow : s.flow = 0) (hkeys : s.keys = [k]) (hk : k.Loose) (hhead : s.blocks.head? = some b)
    (hb : b < s.pos.column) (hrest : s.rest = content.chars ++ '\n' :: charsOf lines)
    (hcontent : content.Fine) (hne : content ≠ .nothing) (hnext : columnOf lines ≤ b)
    (hlaid : Laid s.blocks lines) :
    StepsOn l s (s.kinds ++ (content.tokens ++ tokensOf s.blocks lines)) := by
  have hblocks : ∀ b ∈ s.blocks.head?, b ≤ s.pos.column := by simpa [hhead] using Nat.le_of_lt hb
  cases content with
  | nothing => exact absurd rfl hne
  | scalar form text p =>
    refine h.step_along (n := 1) hflow hrest (Written.startsInked hcontent _) hblocks fun l h => ?_
    obtain ⟨s',hread,hs',hlength⟩ := exists_readToken_scalar h hflow hkeys hk hhead
      (Nat.lt_succ_of_lt hb) rfl hcontent hnext hlaid
    refine ⟨s',hread,hs',Nat.lt_trans hlength ?_⟩
    rw [hrest]
    exact Nat.lt_succ_self _
  | brackets =>
    refine h.step_along (n := 1) hflow hrest (fun c hc => by cases hc; decide) hblocks fun l h => ?_
    obtain ⟨k',inner,hk',hinner,hread⟩ := h.readOpening hflow rfl hkeys hk fun c hc => by
      cases hhead.symm.trans hc
      exact Nat.lt_succ_of_lt hb
    have hopen := hread.bind fun l h => h.skipLineComment fun c hc => by cases hc; decide
    rw [← Lexer.readToken_opening h.rest] at hopen
    refine ⟨_,hopen,?_,by simp [hrest,Content.chars]⟩
    have hinside := Awaits.bracket (s := { s with
      pos := (s.pos.along 1).along 1
      rest := ']' :: '\n' :: charsOf lines
      flow := 1
      keys := [inner,k']
      allowed := true
      kinds := s.kinds ++ [.openBracket] }) rfl rfl hinner hk' rfl hlaid
    simpa [Content.tokens] using hinside

theorem stepsOn_bracket {inner : KeyStart} {lines : List Line} (h : l.Shows s) (hflow : s.flow = 1)
    (hkeys : s.keys = [inner,k]) (hinner : inner.possible = false) (hk : k.Loose)
    (hrest : s.rest = ']' :: '\n' :: charsOf lines) (hlaid : Laid s.blocks lines) :
    StepsOn l s (s.kinds ++ .closeBracket :: tokensOf s.blocks lines) := by
  refine h.step_flow (fun l h => h.toToken_spaces (k := 0) hrest fun c hc => by cases hc; decide)
    (by simp [hflow]) fun l h => ?_
  have hread := (h.readClosing hflow rfl hkeys hinner).bind fun l h =>
    h.skipLineComment (noComment_break _)
  rw [← Lexer.readToken_closing h.rest] at hread
  refine ⟨_,hread,?_,by simp [hrest]⟩
  rw [List.append_cons s.kinds _ (tokensOf s.blocks lines)]
  exact .lines rfl rfl hk (Or.inr rfl) hlaid

theorem step_end (h : l.Shows s) (hflow : s.flow = 0) (hkeys : s.keys = [k]) (hk : k.Loose)
    (hbefore : s.Before []) :
    ∃ s', Gives l.step s' ∧ Ended s' (s.kinds ++ tokensOf s.blocks []) ∧ 0 < s'.kinds.length := by
  obtain ⟨q,-,htoken⟩ := hbefore.toToken hflow trivial
  refine h.step htoken hflow fun l h => ?_
  obtain ⟨q',hread⟩ := h.readEnd hflow hkeys hk
  rw [← Lexer.readToken_end h.rest] at hread
  have hsplit : s.blocks.map (fun _ => TokenKind.blockEnd) =
      (s.blocks.takeWhile (isFurther q.column)).map (fun _ => .blockEnd) ++
        (s.blocks.dropWhile (isFurther q.column)).map (fun _ => .blockEnd) := by
    rw [← List.map_append,List.takeWhile_append_dropWhile]
  refine ⟨_,hread,⟨rfl,hflow,⟨_,rfl,rfl⟩,rfl,_,1,1,rfl,?_⟩,?_⟩
  · rw [tokensOf,hsplit]
    simp [Situation.closed]
  · rw [List.length_append]
    exact Nat.succ_pos _

theorem Ended.step {ts : List TokenKind} (hs : Ended s ts) (h : l.Shows s) :
    ∃ s', Gives l.step s' ∧ Ended s' ts ∧ s'.kinds.length = s.kinds.length + 1 := by
  obtain ⟨k,hkeys,hpossible⟩ := hs.keys
  refine h.step_along (n := 0) hs.flow hs.rest nofun (by simp [hs.blocks]) fun l h => ?_
  obtain ⟨q,hread⟩ := h.readEnd hs.flow hkeys fun hk => by simp [hpossible] at hk
  rw [← Lexer.readToken_end h.rest] at hread
  obtain ⟨q,m,n,hkinds,hts⟩ := hs.kinds
  refine ⟨_,hread,⟨rfl,hs.flow,⟨_,rfl,rfl⟩,rfl,q,m + 1,n,?_,hts⟩,?_⟩
  · simp [hs.blocks,hkinds,List.replicate_succ']
  · simp [hs.blocks]

/-- From every situation on the way to certain tokens, a step goes on towards them. -/
theorem Awaits.step {ts : List TokenKind} (hs : Awaits s ts) (h : l.Shows s) :
    StepsOn l s ts ∨ ∃ s', Gives l.step s' ∧ Ended s' ts ∧ 0 < s'.kinds.length := by
  cases hs with
  | lines hflow hkeys hk hbefore hlaid =>
    rename_i lines
    cases lines with
    | nil => exact Or.inr (step_end h hflow hkeys hk hbefore)
    | cons line more =>
      obtain ⟨column,lead,content⟩ := line
      cases lead with
      | key name => exact Or.inl (stepsOn_key h hflow hkeys hk hbefore hlaid)
      | dash => exact Or.inl (stepsOn_dash h hflow hkeys hk hbefore hlaid)
  | colon hflow hkeys hpossible hline hindex hcolumn hkinds hnumber hblocks hdepth hrest hcontent hnext
      hlaid =>
    exact Or.inl (stepsOn_colon h hflow hkeys hpossible hline hindex hcolumn hkinds hnumber hblocks
      hdepth hrest hcontent hnext hlaid)
  | content hflow hkeys hk hhead hb hrest hcontent hne hnext hlaid =>
    exact Or.inl (stepsOn_content h hflow hkeys hk hhead hb hrest hcontent hne hnext hlaid)
  | bracket hflow hkeys hinner hk hrest hlaid =>
    exact Or.inl (stepsOn_bracket h hflow hkeys hinner hk hrest hlaid)

end Step

end Yaml
end CircuitNotes
