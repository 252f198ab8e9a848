import CircuitNotes.Proofs.SourceComposition

/-! Documents read back. No argument of a call brings a newline into what is written about it, so that
a document keeps to three lines for each gate; and a heading tells the name of its gate and the
labels of its slots, of which the numbers are the gate's qubits. -/
namespace CircuitNotes

open Outline (newline decimal)
open Line (Digit)

/-! ### Readers -/

namespace Document

/-- The blocks in lines: a heading, a sentence and an empty line for each. Behind the last newline
there is nothing. -/
def blocksOf? : List Text → Option (List Block)
  | heading :: explanation :: [] :: rest => (blocksOf? rest).map (⟨heading,explanation⟩ :: ·)
  | [[]] => some []
  | _ => none

def read? (markdown : Text) : Option (List Block) := blocksOf? (markdown.splitOn newline)

def space : UInt8 := 32

def readHeading? (heading : Text) : Option (Text × List Text) := do
  let rest ← (Text.ofString "### ").isPrefixOf? heading
  let name := rest.takeWhile (· != space)
  let rest := rest.dropWhile (· != space)
  if rest = Text.ofString " Gate" then some (name,[])
  else
    let labels ← (Text.ofString " Gate on ").isPrefixOf? rest
    some (name,Text.splitOn Argument.comma (labels.filter (· != space)))

def readLabel? (label : Text) : Option Int :=
  if label = Text.ofString "?" then none else some (decimal label)

end Document

/-! ### Slots and their labels -/

def Slot.Indexed (s : Slot) : Prop := s.index = none ∨ ∃ n : Nat, s.index = some (n : Int)

theorem Slot.indexed_ofArgument (a : Argument) : (Slot.ofArgument a).Indexed := by
  cases h : a.qubit? with
  | none => exact Or.inl (by rw [ofArgument,h]; rfl)
  | some n => exact Or.inr ⟨n,by rw [ofArgument,h]; rfl⟩

theorem Slot.label_of_none {s : Slot} (h : s.index = none) : s.label = Text.ofString "?" := by
  rw [label,h]

theorem Slot.label_of_some {s : Slot} {n : Nat} (h : s.index = some (n : Int)) :
    s.label = Text.ofNat n := by
  rw [label,h,← Text.ofInt_natCast]

theorem Slot.Indexed.mem_label {s : Slot} (h : s.Indexed) {b : UInt8} (hb : b ∈ s.label) :
    b = '?'.toUInt8 ∨ Digit b := by
  rcases h with hnone | ⟨n,hn⟩
  · rw [label_of_none hnone] at hb
    exact Or.inl (List.mem_singleton.mp hb)
  · rw [label_of_some hn] at hb
    exact Or.inr (Text.digit_of_mem_ofNat n b hb)

theorem Slot.Indexed.not_mem_label {s : Slot} (h : s.Indexed) {b : UInt8} (hmark : b ≠ '?'.toUInt8)
    (hdigit : ¬Digit b) : b ∉ s.label :=
  fun hb => (h.mem_label hb).elim hmark hdigit

theorem ofNat_ne_mark (n : Nat) : Text.ofNat n ≠ Text.ofString "?" := by
  intro h
  have hdigit := Text.digit_of_mem_ofNat n '?'.toUInt8 (by rw [h]; decide)
  exact absurd hdigit (by decide)

theorem Slot.Indexed.readLabel?_label {s : Slot} (h : s.Indexed) :
    Document.readLabel? s.label = s.index := by
  rcases h with hnone | ⟨n,hn⟩
  · rw [label_of_none hnone,hnone]
    rfl
  · rw [label_of_some hn,hn,Document.readLabel?,if_neg (ofNat_ne_mark n),Outline.decimal_ofNat]

theorem Operands.filterMap_labels {ops : Operands} (h : ∀ s ∈ ops.slots, s.Indexed) :
    (ops.slots.map Slot.label).filterMap Document.readLabel? = ops.qubits := by
  rw [List.filterMap_map,Operands.qubits]
  exact List.filterMap_congr fun s hs => (h s hs).readLabel?_label

theorem Operands.filter_labels {ops : Operands} (h : ∀ s ∈ ops.slots, s.Indexed) :
    (ops.slots.map Slot.label).filter (· ≠ Text.ofString "?") = ops.qubits.map Text.ofInt := by
  obtain ⟨slots,params⟩ := ops
  simp only [Operands.qubits] at h ⊢
  induction slots with
  | nil => rfl
  | cons s slots ih =>
    obtain ⟨hs,hmore⟩ := List.forall_mem_cons.mp h
    rw [List.map_cons,List.filter_cons,List.filterMap_cons,ih hmore]
    rcases hs with hnone | ⟨n,hn⟩
    · rw [Slot.label_of_none hnone,hnone]
      simp
    · rw [Slot.label_of_some hn,hn]
      simp [ofNat_ne_mark n,Text.ofInt_natCast]

/-! ### Headings -/

theorem bne_of_not_mem {x : UInt8} {t : Text} (h : x ∉ t) : ∀ b ∈ t, (b != x) = true :=
  fun _ hb => bne_iff_ne.mpr fun hx => h (hx ▸ hb)

theorem filter_joinWith {ts : List Text} (h : ∀ t ∈ ts, Document.space ∉ t) :
    (Text.joinWith (Text.ofString ", ") ts).filter (· != Document.space) =
      Text.joinWith [Argument.comma] ts := by
  have hseparator : (Text.ofString ", ").filter (· != Document.space) = [Argument.comma] := by decide
  have hpiece {t : Text} (ht : Document.space ∉ t) : t.filter (· != Document.space) = t :=
    List.filter_eq_self.mpr (bne_of_not_mem ht)
  induction ts with
  | nil => rfl
  | cons t ts ih =>
    obtain ⟨ht,hts⟩ := List.forall_mem_cons.mp h
    cases ts with
    | nil => exact hpiece ht
    | cons u ts =>
      rw [Text.joinWith,Text.joinWith,List.filter_append,List.filter_append,hpiece ht,hseparator,
        ih hts]

theorem readHeading?_append {display : Text} (h : Document.space ∉ display) (rest : Text) :
    Document.readHeading? (Text.ofString "### " ++ (display ++ Document.space :: rest)) =
      if Document.space :: rest = Text.ofString " Gate" then some (display,[])
      else ((Text.ofString " Gate on ").isPrefixOf? (Document.space :: rest)).bind fun labels =>
        some (display,Text.splitOn Argument.comma (labels.filter (· != Document.space))) := by
  have hname := bne_of_not_mem h
  have hstop : (Document.space != Document.space) = false := by decide
  have hfront : (Text.ofString "### ").isPrefixOf?
      (Text.ofString "### " ++ (display ++ Document.space :: rest)) =
      some (display ++ Document.space :: rest) :=
    List.isPrefixOf?_eq_some_iff_append_eq.mpr rfl
  rw [Document.readHeading?,hfront]
  simp only [Option.bind_eq_bind,Option.bind_some,Line.takeWhile_run hname hstop,
    Line.dropWhile_run hname hstop]

theorem readHeading?_labels {display : Text} (h : Document.space ∉ display) (labels : Text) :
    Document.readHeading?
        (Text.ofString "### " ++ (display ++ (Text.ofString " Gate on " ++ labels))) =
      some (display,Text.splitOn Argument.comma (labels.filter (· != Document.space))) := by
  have hlong : Text.ofString " Gate on " ++ labels ≠ Text.ofString " Gate" := by
    intro hsame
    have hlength := congrArg List.length hsame
    have hnine : (Text.ofString " Gate on ").length = 9 := by decide
    have hfive : (Text.ofString " Gate").length = 5 := by decide
    rw [List.length_append,hnine,hfive] at hlength
    omega
  have hread := readHeading?_append h (Text.ofString "Gate on " ++ labels)
  have hspace : Document.space :: (Text.ofString "Gate on " ++ labels) =
      Text.ofString " Gate on " ++ labels := rfl
  rwa [hspace,if_neg hlong,List.isPrefixOf?_eq_some_iff_append_eq.mpr rfl] at hread

theorem readHeading?_heading {display : Text} (hdisplay : Document.space ∉ display)
    {slots : List Slot} (hslots : ∀ s ∈ slots, s.Indexed) :
    Document.readHeading? (heading display slots) = some (display,slots.map Slot.label) := by
  cases slots with
  | nil =>
    rw [heading,List.append_assoc]
    exact (readHeading?_append hdisplay (Text.ofString "Gate")).trans (if_pos rfl)
  | cons s slots =>
    have hlabels : ∀ t ∈ (s :: slots).map Slot.label, Document.space ∉ t ∧ Argument.comma ∉ t := by
      intro t ht
      obtain ⟨s',hs',rfl⟩ := List.mem_map.mp ht
      have hindexed := hslots s' hs'
      exact ⟨hindexed.not_mem_label (by decide) (by decide),
        hindexed.not_mem_label (by decide) (by decide)⟩
    have hne : (s :: slots).map Slot.label ≠ [] := by simp
    rw [heading,List.append_assoc,List.append_assoc,readHeading?_labels hdisplay,
      filter_joinWith fun t ht => (hlabels t ht).1,
      Text.splitOn_joinWith hne fun t ht => (hlabels t ht).2]
    simp

/-! ### Lines of a document -/

/-- A block whose texts each keep to one line. -/
def Block.Flat (b : Block) : Prop := newline ∉ b.heading ∧ newline ∉ b.explanation

def Block.lines (b : Block) : List Text := [b.heading,b.explanation,[]]

theorem splitOn_markdown {bs : List Block} (h : ∀ b ∈ bs, b.Flat) :
    (Document.markdown ⟨some bs⟩).splitOn newline = bs.flatMap Block.lines ++ [[]] := by
  induction bs with
  | nil => rfl
  | cons b bs ih =>
    obtain ⟨⟨hheading,hexplanation⟩,hbs⟩ := List.forall_mem_cons.mp h
    have hmarkdown : Document.markdown ⟨some (b :: bs)⟩ = b.heading ++ newline ::
        (b.explanation ++ newline :: ([] ++ newline :: Document.markdown ⟨some bs⟩)) := by
      simp [Document.markdown_cons,Block.markdown,newline]
    rw [hmarkdown,Text.splitOn_append,Text.splitOn_append,Text.splitOn_append,ih hbs,
      Text.splitOn_of_not_mem hheading,Text.splitOn_of_not_mem hexplanation]
    rfl

theorem blocksOf?_lines (bs : List Block) :
    Document.blocksOf? (bs.flatMap Block.lines ++ [[]]) = some bs := by
  induction bs with
  | nil => rfl
  | cons b bs ih =>
    change (Document.blocksOf? (bs.flatMap Block.lines ++ [[]])).map (b :: ·) = some (b :: bs)
    rw [ih]
    rfl

theorem read?_markdown {bs : List Block} (h : ∀ b ∈ bs, b.Flat) :
    Document.read? (Document.markdown ⟨some bs⟩) = some bs := by
  rw [Document.read?,splitOn_markdown h,blocksOf?_lines]

/-! ### What is written about a call -/

theorem mem_copied {a b : UInt8} {t t' : Text} {P : Prop} (ih : b ∈ t → b ∈ t' ∨ P)
    (h : b ∈ a :: t) : b ∈ a :: t' ∨ P := by
  rcases List.mem_cons.mp h with rfl | h
  · exact Or.inl List.mem_cons_self
  · exact (ih h).imp_left (List.mem_cons_of_mem a)

theorem Template.mem_fillFrom {ops : Operands} {used : List Text} {skip : Nat} {t : Text} {b : UInt8}
    (h : b ∈ fillFrom ops used skip t) : b ∈ t ∨ ∃ p : Placeholder, b ∈ p.value ops := by
  fun_induction fillFrom ops used skip t with
  | case1 => cases h
  | case2 used skip a rest ih => exact (ih h).imp_left (List.mem_cons_of_mem a)
  | case3 used a rest _ name _ p _ _ ih => exact mem_copied ih h
  | case4 used a rest _ name _ p _ _ ih =>
    rcases List.mem_append.mp h with h | h
    · exact Or.inr ⟨p,h⟩
    · exact (ih h).imp_left (List.mem_cons_of_mem a)
  | case5 used a rest _ name _ _ ih => exact mem_copied ih h
  | case6 used a rest _ _ ih => exact mem_copied ih h
  | case7 used a rest _ ih => exact mem_copied ih h

structure Operands.Flat (ops : Operands) : Prop where
  slots : ∀ s ∈ ops.slots, s.Indexed
  params : ∀ t ∈ ops.params, newline ∉ t

theorem Slot.Indexed.newline_not_mem {s : Slot} (h : s.Indexed) : newline ∉ s.label :=
  h.not_mem_label (by decide) (by decide)

theorem Placeholder.newline_not_mem {ops : Operands} (h : ops.Flat) (p : Placeholder) :
    newline ∉ p.value ops := by
  have hmissing : newline ∉ missing := by decide
  cases p with
  | slot i =>
    rw [value,List.mem_append,not_or]
    refine ⟨by decide,?_⟩
    cases hs : ops.slots[i]? with
    | none => exact hmissing
    | some s => exact (h.slots s (List.mem_of_getElem? hs)).newline_not_mem
  | param i =>
    simp only [value]
    cases ht : ops.params[i]? with
    | none => exact hmissing
    | some t =>
      have hflat := h.params t (List.mem_of_getElem? ht)
      split_ifs
      exacts [hmissing,hflat]

theorem newline_not_mem_heading {display : Text} (hdisplay : newline ∉ display) {slots : List Slot}
    (hslots : ∀ s ∈ slots, s.Indexed) : newline ∉ heading display slots := by
  have hlabels : newline ∉ Text.joinWith (Text.ofString ", ") (slots.map Slot.label) := by
    intro h
    rcases Text.mem_joinWith h with hseparator | ⟨t,ht,hb⟩
    · revert hseparator
      decide
    · obtain ⟨s,hs,rfl⟩ := List.mem_map.mp ht
      exact (hslots s hs).newline_not_mem hb
  cases slots with
  | nil =>
    simp only [heading,List.mem_append,not_or]
    exact ⟨⟨by decide,hdisplay⟩,by decide⟩
  | cons s slots =>
    simp only [heading,List.mem_append,not_or]
    exact ⟨⟨⟨by decide,hdisplay⟩,by decide⟩,hlabels⟩

/-- The names in the catalogue are single words, and its sentences single lines. -/
theorem Catalog.flat : ∀ e ∈ entries, Document.space ∉ e.display ∧ newline ∉ e.display ∧
    newline ∉ e.template := by
  decide +kernel

theorem CatalogEntry.flat_block {e : CatalogEntry} (he : e ∈ Catalog.entries) {ops : Operands}
    (hops : ops.Flat) : (e.block ops).Flat := by
  obtain ⟨_,hdisplay,htemplate⟩ := Catalog.flat e he
  refine ⟨newline_not_mem_heading hdisplay hops.slots,?_⟩
  intro h
  rcases Template.mem_fillFrom h with h | ⟨p,hp⟩
  · exact htemplate h
  · exact p.newline_not_mem hops hp

theorem Argument.mem_of_split {raw : Text} {a : Argument} (ha : a ∈ split raw) {b : UInt8}
    (hb : b ∈ a.text) : b ∈ raw := by
  have hbody {b : UInt8} (h : b ∈ dropComma raw.trim) : b ∈ raw := by
    unfold dropComma at h
    split_ifs at h
    · exact Text.mem_of_mem_trim (List.mem_of_mem_dropLast h)
    · exact Text.mem_of_mem_trim h
  simp only [split] at ha
  split_ifs at ha
  · cases ha
  · obtain ⟨piece,hpiece,rfl⟩ := List.mem_map.mp ha
    exact hbody (Text.mem_of_mem_splitOn hpiece (Text.mem_of_mem_trim hb))

theorem Operands.flat_classify (arity : Arity) {raw : Text} (h : newline ∉ raw) :
    (classify arity (Argument.split raw)).Flat := by
  refine ⟨?_,?_⟩
  · intro s hs
    obtain ⟨a,_,rfl⟩ := List.mem_map.mp hs
    exact Slot.indexed_ofArgument a
  · intro t ht hmem
    obtain ⟨a,ha,rfl⟩ := List.mem_map.mp ht
    exact h (Argument.mem_of_split (List.mem_of_mem_take ha) hmem)

def Call.reading? (c : Call) : Option (CatalogEntry × Operands) :=
  (Catalog.find? c.method).map fun e => (e,Operands.classify e.arity (Argument.split c.args))

theorem Call.explain?_eq (c : Call) :
    c.explain? = c.reading?.map fun p => (p.1.gate p.2,p.1.block p.2) := by
  rw [explain?,reading?,Option.map_map]
  rfl

theorem Call.of_reading? {c : Call} (h : newline ∉ c.args) {p : CatalogEntry × Operands}
    (hp : c.reading? = some p) : p.1 ∈ Catalog.entries ∧ p.2.Flat := by
  obtain ⟨e,he,rfl⟩ := Option.map_eq_some_iff.mp hp
  exact ⟨List.mem_of_find?_eq_some he,Operands.flat_classify e.arity h⟩

/-! ### Documents of sources -/

namespace Outline

/-- What the calls of an outline are explained by, in their order. -/
def told (o : Outline) : List (CatalogEntry × Operands) := o.calls.filterMap Call.reading?

theorem filterMap_explain? (o : Outline) :
    o.calls.filterMap Call.explain? = o.told.map fun p => (p.1.gate p.2,p.1.block p.2) := by
  rw [told,List.map_filterMap]
  exact List.filterMap_congr fun c _ => c.explain?_eq

theorem gates_explain (o : Outline) :
    o.explain.circuit.gates = some (o.told.map fun p => p.1.gate p.2) := by
  simp only [explain,filterMap_explain?,List.map_map,Function.comp_def]

theorem document_explain (o : Outline) :
    o.explain.document =
      ⟨if o.told.isEmpty then none else some (o.told.map fun p => p.1.block p.2)⟩ := by
  simp only [explain,filterMap_explain?,List.map_map,Function.comp_def,List.isEmpty_map]

theorem blocks_explain (o : Outline) :
    o.explain.document.blocks.getD [] = o.told.map fun p => p.1.block p.2 := by
  rw [document_explain]
  cases o.told <;> rfl

/-- A document has no list of blocks exactly if it has no blocks. -/
theorem document_eq_of_blocks {o o' : Outline}
    (h : o.explain.document.blocks.getD [] = o'.explain.document.blocks.getD []) :
    o.explain.document = o'.explain.document := by
  rw [blocks_explain,blocks_explain] at h
  have hempty : o.told.isEmpty = o'.told.isEmpty := by
    rw [← List.isEmpty_map,h,List.isEmpty_map]
  rw [document_explain,document_explain,hempty,h]

theorem markdown_explain (o : Outline) :
    o.explain.document.markdown = Document.markdown ⟨some (o.told.map fun p => p.1.block p.2)⟩ := by
  rw [Document.markdown,blocks_explain]
  rfl

theorem newline_not_mem_args {keyword : String} {n : Nat} {source : Text} {c : Call}
    (h : c ∈ (outlineFrom keyword n (lines source)).calls) : newline ∉ c.args := by
  rcases outlineFrom_cases keyword n (lines source) with
    ⟨_,hempty⟩ | ⟨i,_,d,_,_,_,houtline⟩
  · rw [hempty] at h
    cases h
  · rw [houtline] at h
    obtain ⟨j,line,hline,_,_,rest,hcalls,_⟩ := (mem_callsFrom _ _ _ _ c).mp h
    have hmem := not_mem_lines (List.mem_of_mem_drop (List.mem_of_getElem? hline))
    intro hargs
    apply hmem
    rw [hcalls]
    simp only [List.mem_append,hargs,or_true,true_or]

theorem of_mem_told {constructor : String} {source : Text} {p : CatalogEntry × Operands}
    (h : p ∈ (ofSource constructor source).told) : p.1 ∈ Catalog.entries ∧ p.2.Flat := by
  obtain ⟨c,hc,hp⟩ := List.mem_filterMap.mp h
  exact Call.of_reading? (newline_not_mem_args hc) hp

end Outline

/-- How a document and a circuit tell of the same calls. -/
structure ReadsBack (e : Explanation) (told : List (CatalogEntry × Operands)) : Prop where
  gates : e.circuit.gates = some (told.map fun p => p.1.gate p.2)
  blocks : e.document.blocks.getD [] = told.map fun p => p.1.block p.2
  /-- A heading, a sentence and an empty line for each gate, and nothing behind the last newline. -/
  lines : e.document.markdown.splitOn newline =
    (told.flatMap fun p => [(p.1.block p.2).heading,(p.1.block p.2).explanation,[]]) ++ [[]]
  read : Document.read? e.document.markdown = some (e.document.blocks.getD [])
  /-- A heading tells the name of its gate and the labels of its slots. -/
  heading : ∀ p ∈ told, Document.readHeading? (p.1.block p.2).heading =
    some ((p.1.gate p.2).name,p.2.slots.map Slot.label)
  /-- The labels other than question marks are the qubits of the gate. -/
  labels : ∀ p ∈ told, ∃ qubits, (p.1.gate p.2).qubits = some qubits ∧
    (p.2.slots.map Slot.label).filter (· ≠ Text.ofString "?") = qubits.map Text.ofInt ∧
    (p.2.slots.map Slot.label).filterMap Document.readLabel? = qubits

theorem readsBack_explainSource (constructor : String) (source : Text) :
    ReadsBack (explainSource constructor source) (Outline.ofSource constructor source).told := by
  set o := Outline.ofSource constructor source with ho
  have hflat : ∀ b ∈ o.told.map fun p => p.1.block p.2, b.Flat := by
    intro b hb
    obtain ⟨p,hp,rfl⟩ := List.mem_map.mp hb
    obtain ⟨he,hops⟩ := Outline.of_mem_told hp
    exact CatalogEntry.flat_block he hops
  have hmarkdown := o.markdown_explain
  refine ⟨o.gates_explain,o.blocks_explain,?_,?_,?_,?_⟩
  · rw [explainSource,← ho,hmarkdown,splitOn_markdown hflat,List.flatMap_map]
    rfl
  · rw [explainSource,← ho,hmarkdown,read?_markdown hflat,o.blocks_explain]
  · intro p hp
    obtain ⟨he,hops⟩ := Outline.of_mem_told hp
    exact readHeading?_heading (Catalog.flat p.1 he).1 hops.slots
  · intro p hp
    obtain ⟨_,hops⟩ := Outline.of_mem_told hp
    exact ⟨_,rfl,Operands.filter_labels hops.slots,Operands.filterMap_labels hops.slots⟩

def Document.headings (d : Document) : List (Option (Text × List Text)) :=
  (d.blocks.getD []).map fun b => readHeading? b.heading

namespace ReadsBack

variable {e : Explanation} {told : List (CatalogEntry × Operands)}

theorem names (h : ReadsBack e told) : (e.circuit.gates.getD []).map Gate.name =
    e.document.headings.map fun x => (x.map Prod.fst).getD [] := by
  rw [Document.headings,h.gates,h.blocks,Option.getD_some,List.map_map,List.map_map,List.map_map]
  refine List.map_congr_left fun p hp => ?_
  simp only [Function.comp_apply,h.heading p hp,Option.map_some,Option.getD_some]

theorem qubits (h : ReadsBack e told) : (e.circuit.gates.getD []).map Gate.qubits =
    e.document.headings.map (Option.map fun x => x.2.filterMap Document.readLabel?) := by
  rw [Document.headings,h.gates,h.blocks,Option.getD_some,List.map_map,List.map_map,List.map_map]
  refine List.map_congr_left fun p hp => ?_
  obtain ⟨qs,hqs,_,hread⟩ := h.labels p hp
  simp only [Function.comp_apply,h.heading p hp,Option.map_some,hread,hqs]

end ReadsBack

/-- The document of a source is read back line by line, and its headings tell the names and the qubits
of the circuit's gates; so sources with one document have the same blocks, names and qubits. -/
theorem document_read_back (constructor : String) (source : Text) :
    ReadsBack (explainSource constructor source) (Outline.ofSource constructor source).told ∧
    ∀ (constructor' : String) (source' : Text),
      (explainSource constructor' source').document.markdown =
        (explainSource constructor source).document.markdown →
      (explainSource constructor' source').document = (explainSource constructor source).document ∧
      ((explainSource constructor' source').circuit.gates.getD []).map Gate.name =
        ((explainSource constructor source).circuit.gates.getD []).map Gate.name ∧
      ((explainSource constructor' source').circuit.gates.getD []).map Gate.qubits =
        ((explainSource constructor source).circuit.gates.getD []).map Gate.qubits := by
  have hreads := readsBack_explainSource constructor source
  refine ⟨hreads,?_⟩
  intro constructor' source' hmarkdown
  have hreads' := readsBack_explainSource constructor' source'
  have hread := hreads'.read
  rw [hmarkdown,hreads.read] at hread
  have hdocument := Outline.document_eq_of_blocks (Option.some.inj hread).symm
  have hheadings := congrArg Document.headings hdocument
  refine ⟨hdocument,?_,?_⟩
  · rw [hreads'.names,hreads.names]
    exact congrArg _ hheadings
  · rw [hreads'.qubits,hreads.qubits]
    exact congrArg _ hheadings

end CircuitNotes
