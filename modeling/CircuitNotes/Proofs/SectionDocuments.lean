import CircuitNotes.Proofs.NodeReading

/-! Documents of sections. What is written section by section is read back as mappings of mappings, with
the same keys in the same order and, as values, the scalars and lists that were written. -/
namespace CircuitNotes
namespace Yaml

/-! ### Layouts -/

/-- Lines that can be read inside of blocks, and the tokens that are read from them. -/
def Lays (blocks : List Nat) (lines : List Line) (ts : List TokenKind) : Prop :=
  Laid blocks lines ∧ tokensOf blocks lines = ts

theorem isFurther_cons_self (column : Nat) (blocks : List Nat) :
    (column :: blocks).takeWhile (isFurther column) = [] ∧
      (column :: blocks).dropWhile (isFurther column) = column :: blocks := by
  refine isFurther_of_le ?_
  rintro _ ⟨⟩
  exact Nat.le_refl column

namespace Lays

variable {blocks : List Nat} {b : Nat} {line : Line} {more : List Line} {ts : List TokenKind}

theorem opening (hblocks : ∀ b ∈ blocks.head?, b < line.column)
    (h : Lays (line.column :: blocks) (line :: more) ts) :
    Lays blocks (line :: more) (line.lead.opener :: ts) := by
  obtain ⟨htake,hdrop⟩ := isFurther_of_le fun b hb => Nat.le_of_lt (hblocks b hb)
  obtain ⟨htake',hdrop'⟩ := isFurther_cons_self line.column blocks
  have hnew : blocks.head? ≠ some line.column := fun hb => Nat.lt_irrefl _ (hblocks _ hb)
  obtain ⟨⟨hlead,hcontent,hdepth,hnext,hmore⟩,rfl⟩ := h
  rw [hdrop'] at hdepth hmore
  refine ⟨⟨hlead,hcontent,?_,hnext,?_⟩,?_⟩
  · rw [hdrop]
    exact Nat.lt_of_succ_lt hdepth
  · rw [hdrop]
    simpa [openedAt,hnew] using hmore
  · rw [tokensOf,tokensOf,htake,hdrop,htake',hdrop']
    simp [openers,openedAt,hnew]

theorem closing (hb : columnOf more < b) (h : Lays blocks more ts) :
    Lays (b :: blocks) more (.blockEnd :: ts) := by
  obtain ⟨hlaid,rfl⟩ := h
  cases more with
  | nil => exact ⟨trivial,rfl⟩
  | cons line more =>
    have hfurther : isFurther line.column b = true := by
      simpa [isFurther,columnOf] using hb
    rw [Lays,Laid,tokensOf,tokensOf,List.takeWhile_cons_of_pos hfurther,
      List.dropWhile_cons_of_pos hfurther]
    exact ⟨hlaid,rfl⟩

theorem next {column : Nat} {lead : Lead} {content : Content} (hlead : lead.Fine)
    (hcontent : content.Fine) (hdepth : blocks.length + 1 < Lexer.depthLimit)
    (hnext : content ≠ .nothing → columnOf more ≤ column) (h : Lays (column :: blocks) more ts) :
    Lays (column :: blocks) (⟨column,lead,content⟩ :: more)
      (lead.tokens ++ (content.tokens ++ ts)) := by
  obtain ⟨htake,hdrop⟩ := isFurther_cons_self column blocks
  obtain ⟨hlaid,rfl⟩ := h
  rw [Lays,Laid,tokensOf,htake,hdrop]
  simp only [openedAt,openers,List.head?_cons,if_true]
  exact ⟨⟨hlead,hcontent,hdepth,hnext,hlaid⟩,rfl⟩

end Lays

/-! ### Sections -/

/-- The value of a key in a section, in writing. -/
inductive Entry
  | scalar (w : Shown)
  | items (ws : List Shown)

namespace Entry

def Fine : Entry → Prop
  | scalar w => w.Fine
  | items ws => ∀ w ∈ ws, w.Fine

/-- An empty list stands behind its key, any other below it. -/
def lines (key : String) : Entry → List Line
  | scalar w => [⟨4,.key key.toList,w.content⟩]
  | items [] => [⟨4,.key key.toList,.brackets⟩]
  | items ws => ⟨4,.key key.toList,.nothing⟩ :: ws.map fun w => ⟨8,.dash,w.content⟩

def tokens : Entry → List TokenKind
  | scalar w => [w.token]
  | items [] => [.openBracket,.closeBracket]
  | items ws => .sequenceStart :: ((ws.flatMap fun w => [.dash,w.token]) ++ [.blockEnd])

def IsNode : Entry → Node → Prop
  | scalar w, m => w.IsNode m
  | items ws, m => ∃ items line, m = .sequence "!!seq" items line ∧ List.Forall₂ Shown.IsNode ws items

end Entry

def IsName (name : String) : Prop := Lead.Fine (.key name.toList)

theorem lead_tokens (name : String) :
    Lead.tokens (.key name.toList) = [.key,.scalar name true,.value] := by
  rw [Lead.tokens,String.ofList_toList]

section Layout

variable {more : List Line} {ts : List TokenKind}

theorem lays_items {ws : List Shown} (hws : ∀ w ∈ ws, w.Fine) (hmore : columnOf more ≤ 4)
    (h : Lays [4,0] more ts) :
    Lays [8,4,0] ((ws.map fun w => ⟨8,.dash,w.content⟩) ++ more)
      ((ws.flatMap fun w => [.dash,w.token]) ++ .blockEnd :: ts) := by
  induction ws with
  | nil => exact h.closing (Nat.lt_of_le_of_lt hmore (by decide))
  | cons w ws ih =>
    refine Lays.next trivial (hws w List.mem_cons_self) (by decide) (fun _ => ?_)
      (ih fun w hw => hws w (List.mem_cons_of_mem _ hw))
    cases ws with
    | nil => exact Nat.le_trans hmore (by decide)
    | cons w ws => exact Nat.le_refl 8

theorem Entry.lays {key : String} {e : Entry} (hkey : IsName key) (he : e.Fine)
    (hmore : columnOf more ≤ 4) (h : Lays [4,0] more ts) :
    Lays [4,0] (e.lines key ++ more) (pairTokens key e.tokens ++ ts) := by
  have hline : ∀ {content : Content} {lines : List Line} {us : List TokenKind}, content.Fine →
      (content ≠ .nothing → columnOf lines ≤ 4) → Lays [4,0] lines us →
      Lays [4,0] (⟨4,.key key.toList,content⟩ :: lines) (pairTokens key (content.tokens ++ us)) := by
    intro content lines us hcontent hnext h
    have := Lays.next hkey hcontent (by decide) hnext h
    rwa [lead_tokens] at this
  match e with
  | .scalar w => exact hline he (fun _ => hmore) h
  | .items [] => exact hline trivial (fun _ => hmore) h
  | .items (w :: ws) =>
    have hitems := hline (show Content.nothing.Fine from trivial) (fun hne => absurd rfl hne)
      (Lays.opening (by simp) (lays_items he hmore h))
    simpa [pairTokens,Entry.tokens,Entry.lines,Content.tokens,Lead.opener] using hitems

abbrev Pairs := List (String × Entry)

def Pairs.lines (ps : Pairs) : List Line := ps.flatMap fun p => p.2.lines p.1

def Pairs.tokens (ps : Pairs) : List TokenKind := ps.flatMap fun p => pairTokens p.1 p.2.tokens

def Pairs.Fine (ps : Pairs) : Prop := ∀ p ∈ ps, IsName p.1 ∧ p.2.Fine

theorem Entry.exists_lines (key : String) (e : Entry) :
    ∃ content rest, e.lines key = ⟨4,.key key.toList,content⟩ :: rest := by
  match e with
  | .scalar _ | .items [] | .items (_ :: _) => exact ⟨_,_,rfl⟩

theorem Pairs.lays {ps : Pairs} (hps : ps.Fine) (hmore : columnOf more ≤ 4) (h : Lays [4,0] more ts) :
    Lays [4,0] (ps.lines ++ more) (ps.tokens ++ ts) := by
  induction ps with
  | nil => exact h
  | cons p ps ih =>
    obtain ⟨hkey,he⟩ := hps p List.mem_cons_self
    have hrest := ih fun q hq => hps q (List.mem_cons_of_mem _ hq)
    have hcolumn : columnOf (Pairs.lines ps ++ more) ≤ 4 := by
      cases ps with
      | nil => exact hmore
      | cons q ps =>
        obtain ⟨content,rest,hlines⟩ := q.2.exists_lines q.1
        rw [Pairs.lines,List.flatMap_cons,hlines]
        exact Nat.le_refl 4
    rw [Pairs.lines,Pairs.tokens,List.flatMap_cons,List.flatMap_cons,List.append_assoc,
      List.append_assoc]
    exact Entry.lays hkey he hcolumn hrest

abbrev Sections := List (String × Pairs)

def Sections.lines (ss : Sections) : List Line :=
  ss.flatMap fun s => ⟨0,.key s.1.toList,.nothing⟩ :: s.2.lines

def sectionTokens (ps : Pairs) : List TokenKind := .mappingStart :: (ps.tokens ++ [.blockEnd])

def Sections.tokens (ss : Sections) : List TokenKind :=
  ss.flatMap fun s => pairTokens s.1 (sectionTokens s.2)

def Sections.Fine (ss : Sections) : Prop := ∀ s ∈ ss, IsName s.1 ∧ s.2 ≠ [] ∧ s.2.Fine

theorem Sections.lays {ss : Sections} (hss : ss.Fine) :
    Lays [0] ss.lines (ss.tokens ++ [.blockEnd,.streamEnd]) := by
  induction ss with
  | nil => exact ⟨trivial,rfl⟩
  | cons s ss ih =>
    obtain ⟨hname,hne,hps⟩ := hss s List.mem_cons_self
    have hrest := ih fun t ht => hss t (List.mem_cons_of_mem _ ht)
    have hcolumn : columnOf (Sections.lines ss) = 0 := by cases ss <;> rfl
    have hpairs := Pairs.lays hps (Nat.le_trans (Nat.le_of_eq hcolumn) (by decide))
      (hrest.closing (b := 4) (by rw [hcolumn]; decide))
    obtain ⟨p,ps,hcons⟩ := List.exists_cons_of_ne_nil hne
    obtain ⟨content,rest,hlines⟩ := p.2.exists_lines p.1
    have hfirst : Pairs.lines s.2 = ⟨4,.key p.1.toList,content⟩ :: (rest ++ Pairs.lines ps) := by
      rw [hcons,Pairs.lines,List.flatMap_cons,hlines]
      rfl
    rw [hfirst] at hpairs
    have hsection := Lays.next hname (show Content.nothing.Fine from trivial) (by decide)
      (fun hne => absurd rfl hne) (hpairs.opening (by simp))
    rw [lead_tokens] at hsection
    simpa [Sections.lines,Sections.tokens,hfirst,pairTokens,sectionTokens,Content.tokens,Lead.opener]
      using hsection

end Layout

/-! ### Their nodes -/

section Nodes

open Reading (node)

variable {n fuel : Nat} {ts : List TokenKind}

def Pairs.IsNode (ps : Pairs) (m : Node) : Prop :=
  ∃ pairs line, m = .mapping "!!map" pairs line ∧
    List.Forall₂ (fun p q => IsScalar p.1 true q.1 ∧ p.2.IsNode q.2) ps pairs

def Sections.IsNode (ss : Sections) (m : Node) : Prop :=
  ∃ pairs line, m = .mapping "!!map" pairs line ∧
    List.Forall₂ (fun s q => IsScalar s.1 true q.1 ∧ s.2.IsNode q.2) ss pairs

theorem Entry.exists_tokens (e : Entry) :
    ∃ u us, e.tokens = u :: us ∧ Reading.endsEntry u = false := by
  match e with
  | .scalar _ | .items [] | .items (_ :: _) => exact ⟨_,_,rfl,rfl⟩

theorem Entry.reads {e : Entry} (hfuel : e.tokens.length < fuel) :
    Reads n (Delivers n · (e.tokens ++ ts)) (node true true fuel)
      fun m l => e.IsNode m ∧ Delivers n l ts := by
  match e with
  | .scalar w =>
    obtain ⟨fuel,rfl⟩ : ∃ m, fuel = m + 1 := ⟨fuel - 1,by omega⟩
    exact reads_scalar
  | .items [] =>
    obtain ⟨fuel,rfl⟩ : ∃ m, fuel = m + 2 := ⟨fuel - 2,by simp [Entry.tokens] at hfuel; omega⟩
    refine reads_brackets.mono (fun _ => id) ?_
    rintro m l ⟨⟨line,rfl⟩,hl⟩
    exact ⟨⟨[],line,rfl,.nil⟩,hl⟩
  | .items (w :: ws) =>
    obtain ⟨fuel,rfl⟩ : ∃ m, fuel = m + 1 := ⟨fuel - 1,by omega⟩
    have htokens : (Entry.items (w :: ws)).tokens =
        .sequenceStart :: (((w :: ws).flatMap fun w => [.dash,w.token]) ++ [.blockEnd]) := rfl
    have hlength : (w :: ws).length + 1 < fuel := by
      have hdouble : ((w :: ws).flatMap fun w => [TokenKind.dash,w.token]).length =
          (w :: ws).length * 2 := by
        rw [List.length_flatMap]
        simp
        omega
      rw [htokens,List.length_cons,List.length_append,hdouble] at hfuel
      simp at hfuel ⊢
      omega
    rw [htokens,List.cons_append,List.append_assoc]
    refine (reads_sequence (reads_blockItems hlength)).mono (fun _ => id) ?_
    rintro m l ⟨items,line,rfl,hitems,hl⟩
    exact ⟨⟨items,line,rfl,hitems⟩,hl⟩

theorem Pairs.reads {ps : Pairs} (hfuel : (sectionTokens ps).length < fuel) :
    Reads n (Delivers n · (sectionTokens ps ++ ts)) (node true true fuel)
      fun m l => ps.IsNode m ∧ Delivers n l ts := by
  obtain ⟨fuel,rfl⟩ : ∃ m, fuel = m + 1 := ⟨fuel - 1,by omega⟩
  rw [sectionTokens,List.length_cons,List.length_append] at hfuel
  rw [sectionTokens,List.cons_append,List.append_assoc]
  refine (reads_mapping (reads_blockPairs Prod.fst (fun p : String × Entry => p.2.tokens)
    (fun p m => p.2.IsNode m) (fun p _ => p.2.exists_tokens) (fun p _ fuel ts => Entry.reads)
    (Nat.lt_of_succ_lt_succ hfuel))).mono (fun _ => id) ?_
  rintro m l ⟨pairs,line,rfl,hpairs,hl⟩
  exact ⟨⟨pairs,line,rfl,hpairs⟩,hl⟩

theorem Sections.reads {ss : Sections} (hfuel : ss.tokens.length + 2 < fuel) :
    Reads n (Delivers n · (.mappingStart :: (ss.tokens ++ .blockEnd :: ts))) (node true false fuel)
      fun m l => ss.IsNode m ∧ Delivers n l ts := by
  obtain ⟨fuel,rfl⟩ : ∃ m, fuel = m + 1 := ⟨fuel - 1,by omega⟩
  refine (reads_mapping (reads_blockPairs Prod.fst (fun s : String × Pairs => sectionTokens s.2)
    (fun s m => Pairs.IsNode s.2 m) (fun s _ => ⟨_,_,rfl,rfl⟩) (fun s _ fuel ts => Pairs.reads)
    (Nat.lt_of_succ_lt_succ hfuel))).mono (fun _ => id) ?_
  rintro m l ⟨pairs,line,rfl,hpairs,hl⟩
  exact ⟨⟨pairs,line,rfl,hpairs⟩,hl⟩

end Nodes

/-! ### What is printed -/

def shownText (width : Nat) (s : String) : Shown :=
  ⟨Printer.text width s,s.toList,Printer.styleOf s == .plain⟩

def shownWord (cs : List Char) : Shown := ⟨cs,cs,true⟩

def intChars (i : Int) : List Char := (if i < 0 then ['-'] else []) ++ (Nat.repr i.natAbs).toList

def boolChars (b : Bool) : List Char := (if b then "true" else "false").toList

def entryOf : Printer.Value → Entry
  | .text s => .scalar (shownText 8 s)
  | .int i => .scalar (shownWord (intChars i))
  | .bool b => .scalar (shownWord (boolChars b))
  | .texts items => .items (items.map (shownText 10))

def Printer.Value.IsPrintable : Printer.Value → Prop
  | .text s => ∀ c ∈ s.toList, IsAscii c
  | .texts items => ∀ s ∈ items, ∀ c ∈ s.toList, IsAscii c
  | _ => True

theorem fine_intChars (i : Int) : (shownWord (intChars i)).Fine := by
  have hdigits : ∀ c ∈ Nat.toDigits 10 i.natAbs, isWordChar c = true := by
    intro c hc
    have hdigit := Nat.isDigit_of_mem_toDigits (by decide) (by decide) hc
    simp [isWordChar,Char.isAlphanum,hdigit]
  obtain ⟨c,cs,hcs⟩ := List.exists_cons_of_ne_nil (Nat.toDigits_ne_nil (n := i.natAbs) (b := 10))
  rw [hcs] at hdigits
  have hc := hdigits c List.mem_cons_self
  have hrest : ∀ d ∈ cs, isWordChar d = true := fun d hd => hdigits d (List.mem_cons_of_mem c hd)
  refine .plain ?_
  rw [intChars,Nat.toList_repr,hcs]
  split_ifs
  · exact isPlain_minus hc hrest
  · exact isPlain_of_word hc hrest

theorem fine_boolChars (b : Bool) : (shownWord (boolChars b)).Fine := by
  cases b
  · exact .plain (isPlain_of_word (by decide) (List.all_eq_true.mp (by decide)))
  · exact .plain (isPlain_of_word (by decide) (List.all_eq_true.mp (by decide)))

theorem fine_entryOf {v : Printer.Value} (h : v.IsPrintable) : (entryOf v).Fine := by
  cases v with
  | text s => exact (written_text 8 h).1
  | int i => exact fine_intChars i
  | bool b => exact fine_boolChars b
  | texts items =>
    intro w hw
    obtain ⟨s,hs,rfl⟩ := List.mem_map.mp hw
    exact (written_text 10 (h s hs)).1

theorem charsOf_append (lines more : List Line) :
    charsOf (lines ++ more) = charsOf lines ++ charsOf more := by
  induction lines with
  | nil => rfl
  | cons line lines ih => simp [charsOf,ih]

theorem endLine_text {s : String} (width : Nat) (h : ∀ c ∈ s.toList, IsAscii c) :
    Printer.endLine (Printer.text width s) = Printer.text width s ++ ['\n'] := by
  have hascii := (written_text width h).1.ascii
  rw [Printer.endLine,if_neg]
  cases hlast : (Printer.text width s).getLast? with
  | none => simp
  | some c => simp [(hascii c (List.mem_of_getLast? hlast)).isBreak]

theorem charsOf_items {items : List String} (h : ∀ s ∈ items, ∀ c ∈ s.toList, IsAscii c) :
    charsOf ((items.map (shownText 10)).map fun w => ⟨8,.dash,w.content⟩) =
      items.flatMap fun s => "        - ".toList ++ Printer.endLine (Printer.text 10 s) := by
  have hindent : "        - ".toList = List.replicate 8 ' ' ++ ['-',' '] := rfl
  rw [hindent]
  induction items with
  | nil => rfl
  | cons s items ih =>
    have hrest := ih fun t ht => h t (List.mem_cons_of_mem s ht)
    rw [List.flatMap_cons,← hrest,endLine_text 10 (h s List.mem_cons_self)]
    simp [charsOf,Shown.content,shownText,Lead.chars,Content.chars]

theorem charsOf_entryOf {v : Printer.Value} (key : String) (h : v.IsPrintable) :
    charsOf ((entryOf v).lines key) = "    ".toList ++ key.toList ++ ':' :: Printer.value v := by
  have hline : ∀ (content : Content) (lines : List Line),
      charsOf (⟨4,.key key.toList,content⟩ :: lines) =
        "    ".toList ++ key.toList ++ ':' :: (content.chars ++ '\n' :: charsOf lines) := by
    intro content lines
    have hindent : "    ".toList = List.replicate 4 ' ' := rfl
    simp [charsOf,Lead.chars,hindent]
  cases v with
  | text s =>
    refine (hline _ []).trans ?_
    rw [Printer.value,endLine_text 8 h]
    rfl
  | int i =>
    refine (hline _ []).trans ?_
    have hvalue : Printer.value (.int i) = ' ' :: (intChars i ++ ['\n']) := by
      rw [Printer.value,intChars]
      split_ifs <;> rfl
    rw [hvalue]
    rfl
  | bool b =>
    refine (hline _ []).trans ?_
    have hvalue : Printer.value (.bool b) = ' ' :: (boolChars b ++ ['\n']) := by
      cases b <;> decide
    rw [hvalue]
    rfl
  | texts items =>
    cases items with
    | nil => exact hline .brackets []
    | cons s items =>
      refine (hline .nothing _).trans ?_
      rw [charsOf_items h]
      rfl

def sectionsOf (ss : List (String × List (String × Printer.Value))) : Sections :=
  ss.map fun s => (s.1,s.2.map fun p => (p.1,entryOf p.2))

theorem charsOf_pairs {ps : List (String × Printer.Value)} (h : ∀ p ∈ ps, p.2.IsPrintable) :
    charsOf (Pairs.lines (ps.map fun p => (p.1,entryOf p.2))) =
      ps.flatMap fun p => "    ".toList ++ p.1.toList ++ ':' :: Printer.value p.2 := by
  induction ps with
  | nil => rfl
  | cons p ps ih =>
    have hrest := ih fun q hq => h q (List.mem_cons_of_mem p hq)
    rw [List.flatMap_cons,← hrest,← charsOf_entryOf p.1 (h p List.mem_cons_self),← charsOf_append]
    rfl

theorem charsOf_sectionsOf {ss : List (String × List (String × Printer.Value))}
    (h : ∀ s ∈ ss, ∀ p ∈ s.2, p.2.IsPrintable) :
    (Printer.document ss).toList = charsOf (sectionsOf ss).lines := by
  rw [Printer.document,String.toList_ofList]
  induction ss with
  | nil => rfl
  | cons s ss ih =>
    have hrest := ih fun t ht => h t (List.mem_cons_of_mem s ht)
    have hlines : (sectionsOf (s :: ss)).lines =
        (⟨0,.key s.1.toList,.nothing⟩ :: Pairs.lines (s.2.map fun p => (p.1,entryOf p.2))) ++
          (sectionsOf ss).lines := rfl
    rw [List.flatMap_cons,hrest,hlines,charsOf_append]
    simp [charsOf,charsOf_pairs (h s List.mem_cons_self),Printer.sectionText,Lead.chars,Content.chars]

theorem Lead.Fine.ascii {lead : Lead} (h : lead.Fine) : AsciiLines lead.chars := by
  cases lead with
  | dash => exact asciiLines_cons.mpr ⟨Or.inr (by decide),nofun⟩
  | key name =>
    refine asciiLines_append.mpr ⟨fun c hc => Or.inr (isAscii_of_isWordChar (h.2.1 c hc)),?_⟩
    exact asciiLines_cons.mpr ⟨Or.inr (by decide),nofun⟩

theorem Content.Fine.ascii {content : Content} (h : content.Fine) : AsciiLines content.chars := by
  cases content with
  | nothing => nofun
  | brackets => exact fun c hc => Or.inr (isAscii_of_all (by decide) c hc)
  | scalar form text b =>
    exact asciiLines_cons.mpr ⟨Or.inr (by decide),fun c hc => Or.inr (Written.ascii h c hc)⟩

theorem asciiLines_charsOf {blocks : List Nat} {lines : List Line} (h : Laid blocks lines) :
    AsciiLines (charsOf lines) := by
  induction lines generalizing blocks with
  | nil => nofun
  | cons line more ih =>
    obtain ⟨hlead,hcontent,-,-,hmore⟩ := h
    have hrest : AsciiLines ('\n' :: charsOf more) := asciiLines_cons.mpr ⟨Or.inl rfl,ih hmore⟩
    exact asciiLines_replicate_append _
      (asciiLines_append.mpr ⟨hlead.ascii,asciiLines_append.mpr ⟨hcontent.ascii,hrest⟩⟩)

/-- A line gives at most seven tokens. -/
theorem length_tokensOf (blocks : List Nat) (lines : List Line) :
    (tokensOf blocks lines).length ≤ blocks.length + 1 + 7 * lines.length := by
  induction lines generalizing blocks with
  | nil => simp [tokensOf]
  | cons line more ih =>
    obtain ⟨outer,houter⟩ : ∃ outer, outer = blocks.dropWhile (isFurther line.column) := ⟨_,rfl⟩
    have hsplit := congrArg List.length
      (List.takeWhile_append_dropWhile (p := isFurther line.column) (l := blocks))
    rw [List.length_append,← houter] at hsplit
    have hopeners : (openers outer line.column line.lead.opener).length ≤ 1 := by
      unfold openers
      split_ifs <;> simp
    have hopened : (openedAt outer line.column).length ≤ outer.length + 1 := by
      unfold openedAt
      split_ifs <;> simp
    have hlead : line.lead.tokens.length ≤ 3 := by cases line.lead <;> simp [Lead.tokens]
    have hcontent : line.content.tokens.length ≤ 2 := by cases line.content <;> simp [Content.tokens]
    have hrest := ih (openedAt outer line.column)
    rw [tokensOf,← houter]
    simp only [List.length_append,List.length_map,List.length_cons]
    omega

theorem length_le_charsOf (lines : List Line) : lines.length ≤ (charsOf lines).length := by
  induction lines with
  | nil => rfl
  | cons line more ih =>
    simp only [charsOf,List.length_append,List.length_cons]
    omega

/-- A document of sections is read back as what was written: mappings of mappings, with the printed
values. -/
theorem firstDocument?_document {ss : List (String × List (String × Printer.Value))} (hne : ss ≠ [])
    (hss : ∀ s ∈ ss, IsName s.1 ∧ s.2 ≠ [] ∧ ∀ p ∈ s.2, IsName p.1 ∧ p.2.IsPrintable) :
    ∃ m depth, firstDocument? (Text.ofString (Printer.document ss)) =
      some (some { root := m, named := [], depth := depth }) ∧ (sectionsOf ss).IsNode m := by
  have hfine : (sectionsOf ss).Fine := by
    intro s hs
    obtain ⟨t,ht,rfl⟩ := List.mem_map.mp hs
    obtain ⟨hname,hpairs,hp⟩ := hss t ht
    refine ⟨hname,by simpa using hpairs,fun p hp' => ?_⟩
    obtain ⟨q,hq,rfl⟩ := List.mem_map.mp hp'
    exact ⟨(hp q hq).1,fine_entryOf (hp q hq).2⟩
  have hchars := charsOf_sectionsOf fun s hs p hp => ((hss s hs).2.2 p hp).2
  obtain ⟨s,ss',hcons⟩ := List.exists_cons_of_ne_nil hne
  have hlines : (sectionsOf ss).lines = ⟨0,.key s.1.toList,.nothing⟩ ::
      (Pairs.lines (s.2.map fun p => (p.1,entryOf p.2)) ++ (sectionsOf ss').lines) := by
    rw [hcons]
    rfl
  have hlays := Sections.lays hfine
  rw [hlines] at hlays
  obtain ⟨hlaid,htokens⟩ := hlays.opening (by simp)
  rw [← hlines] at hlaid htokens
  have hlength := length_tokensOf [] (sectionsOf ss).lines
  have hle := length_le_charsOf (sectionsOf ss).lines
  rw [htokens,List.length_cons,List.length_append] at hlength
  rw [← hchars] at hle
  obtain ⟨m,hm,hnode⟩ := firstDocument?_of_lines hchars (hchars ▸ asciiLines_charsOf hlaid)
    (by rw [hlines]; rfl) hlaid htokens fun n => Sections.reads (by simp at hlength hle ⊢; omega)
  exact ⟨m,_,hm,hnode⟩

end Yaml
end CircuitNotes
