import CircuitNotes.Proofs.TokenDelivery
import CircuitNotes.Yaml.Node

/-! Nodes from the tokens that a stream delivers: scalars, lists of scalars, and mappings whose keys are
plain scalars. Each takes up its own tokens and leaves those that follow. -/
namespace CircuitNotes
namespace Yaml

/-! ### Readings -/

structure Fetched (n : Nat) (t : TokenKind) (ts : List TokenKind) (l : Lexer) : Prop where
  fetch : l.fetch n = some l
  head : l.tokens.head?.map Token.kind = some t
  rest : Delivers n l.take ts

theorem Fetched.delivers {n : Nat} {t : TokenKind} {ts : List TokenKind} {l : Lexer}
    (h : Fetched n t ts l) : Delivers n l (t :: ts) :=
  ⟨l,h.fetch,h.fetch,h.head,h.rest⟩

/-- A reading that succeeds where `P` holds of the reader of tokens, changes nothing else, and gives a
value for which `Q` holds. -/
def Reads {α : Type} (n : Nat) (P : Lexer → Prop) (x : Reading α) (Q : α → Lexer → Prop) : Prop :=
  ∀ r : NodeReader, r.steps = n → P r.lexer →
    ∃ a l, x.run r = some (a,{ r with lexer := l }) ∧ Q a l

namespace Reads

variable {α β : Type} {n : Nat} {P : Lexer → Prop} {t : TokenKind} {ts : List TokenKind}

theorem pure {Q : α → Lexer → Prop} {a : α} (h : ∀ l, P l → Q a l) : Reads n P (pure a) Q :=
  fun r _ hr => ⟨a,r.lexer,rfl,h _ hr⟩

theorem bind {x : Reading α} {f : α → Reading β} {Q : α → Lexer → Prop} {R : β → Lexer → Prop}
    (hx : Reads n P x Q) (hf : ∀ a, Reads n (Q a) (f a) R) : Reads n P (x >>= f) R := by
  intro r hn hr
  obtain ⟨a,l,hrun,hl⟩ := hx r hn hr
  obtain ⟨b,l',hrun',hl'⟩ := hf a { r with lexer := l } hn hl
  refine ⟨b,l',?_,hl'⟩
  rw [StateT.run_bind,hrun]
  exact hrun'

theorem mono {x : Reading α} {P' : Lexer → Prop} {Q Q' : α → Lexer → Prop} (hx : Reads n P x Q)
    (hP : ∀ l, P' l → P l) (hQ : ∀ a l, Q a l → Q' a l) : Reads n P' x Q' := by
  intro r hn hr
  obtain ⟨a,l,hrun,hl⟩ := hx r hn (hP _ hr)
  exact ⟨a,l,hrun,hQ a l hl⟩

theorem of_peek :
    Reads n (Delivers n · (t :: ts)) Reading.peek fun u l => u.kind = t ∧ Fetched n t ts l := by
  rintro r rfl ⟨l,hfetch,hagain,hhead,hrest⟩
  obtain ⟨u,us,htokens⟩ : ∃ u us, l.tokens = u :: us := by
    cases hl : l.tokens with
    | nil => simp [hl] at hhead
    | cons u us => exact ⟨u,us,rfl⟩
  refine ⟨u,l,?_,by simpa [htokens] using hhead,hagain,hhead,hrest⟩
  simp [Reading.peek,hfetch,htokens]

theorem peek {f : Token → Reading β} {R : β → Lexer → Prop}
    (h : ∀ u : Token, u.kind = t → Reads n (Fetched n t ts) (f u) R) :
    Reads n (Delivers n · (t :: ts)) (Reading.peek >>= f) R :=
  bind of_peek fun u r hn hr => h u hr.1 r hn hr.2

theorem peek_again {f : Token → Reading β} {R : β → Lexer → Prop}
    (h : ∀ u : Token, u.kind = t → Reads n (Fetched n t ts) (f u) R) :
    Reads n (Fetched n t ts) (Reading.peek >>= f) R :=
  mono (peek h) (fun _ => Fetched.delivers) fun _ _ => id

theorem skip {f : Unit → Reading β} {R : β → Lexer → Prop}
    (h : Reads n (Delivers n · ts) (f ()) R) :
    Reads n (Fetched n t ts) (Reading.skip >>= f) R :=
  bind (Q := fun _ l => Delivers n l ts) (fun r _ hr => ⟨(),r.lexer.take,rfl,hr.rest⟩) fun _ => h

theorem and_left {x : Reading α} {Q : α → Lexer → Prop} {p : Prop} (h : p → Reads n P x Q) :
    Reads n (fun l => p ∧ P l) x Q :=
  fun r hn hr => h hr.1 r hn hr.2

end Reads

/-! ### Nodes -/

section Nodes

open Reading (node blockItems blockPairs blockValue flowItems properties impliedTag)

variable {n fuel : Nat} {block indentless : Bool} {t : TokenKind} {ts : List TokenKind}

def IsScalar (text : String) (plain : Bool) (m : Node) : Prop :=
  ∃ line, m = .scalar (impliedTag text plain) text line

/-- A token that neither names a node nor refers to one, and is no tag. -/
def IsBare (t : TokenKind) : Prop :=
  (∀ a, t ≠ .reference a) ∧ (∀ a, t ≠ .anchor a) ∧ ∀ a, t ≠ .tag a

theorem reads_properties {β : Type} {f : Reading.Properties → Reading β} {R : β → Lexer → Prop}
    (ht : IsBare t) (h : Reads n (Fetched n t ts) (f {}) R) :
    Reads n (Fetched n t ts) (properties >>= f) R := by
  refine Reads.bind (Q := fun p l => p = {} ∧ Fetched n t ts l) ?_ fun p => ?_
  · refine Reads.peek_again fun u hu => ?_
    rw [hu]
    obtain ⟨-,hanchor,htag⟩ := ht
    cases t with
    | anchor a => exact absurd rfl (hanchor a)
    | tag a => exact absurd rfl (htag a)
    | _ => exact Reads.pure fun l hl => ⟨rfl,hl⟩
  · refine Reads.and_left ?_
    rintro rfl
    exact h

theorem reads_unnamed {α : Type} {P : Lexer → Prop} {Q : α → Lexer → Prop} {x : Reading α}
    (f : α → Node) (h : Reads n P x Q) :
    Reads n P (do
      let number ← Reading.begin none
      let a ← x
      Reading.finish number (f a)) fun m l => ∃ a, m = f a ∧ Q a l := by
  refine Reads.bind (Q := fun number l => number = none ∧ P l) (Reads.pure fun l hl => ⟨rfl,hl⟩)
    fun number => Reads.and_left ?_
  rintro rfl
  exact Reads.bind h fun a => Reads.pure fun l hl => ⟨a,rfl,hl⟩

theorem reads_scalar {text : String} {b : Bool} :
    Reads n (Delivers n · (.scalar text b :: ts)) (node block indentless (fuel + 1))
      fun m l => IsScalar text b m ∧ Delivers n l ts := by
  rw [node]
  refine Reads.peek fun first hfirst => ?_
  rw [hfirst]
  refine reads_properties ⟨nofun,nofun,nofun⟩ ?_
  refine Reads.peek_again fun u hu => ?_
  rw [hu]
  refine Reads.skip ?_
  exact Reads.pure fun l hl => ⟨⟨_,rfl⟩,hl⟩

theorem reads_sequence {Q : List Node → Lexer → Prop}
    (h : Reads n (Delivers n · ts) (blockItems fuel) Q) :
    Reads n (Delivers n · (.sequenceStart :: ts)) (node true indentless (fuel + 1))
      fun m l => ∃ items line, m = .sequence "!!seq" items line ∧ Q items l := by
  rw [node]
  refine Reads.peek fun first hfirst => ?_
  rw [hfirst]
  refine reads_properties ⟨nofun,nofun,nofun⟩ ?_
  refine Reads.peek_again fun u hu => ?_
  rw [hu]
  refine Reads.skip (Reads.mono (reads_unnamed _ h) (fun _ => id) ?_)
  rintro m l ⟨items,rfl,hl⟩
  exact ⟨items,_,rfl,hl⟩

theorem reads_mapping {Q : List (Node × Node) → Lexer → Prop}
    (h : Reads n (Delivers n · ts) (blockPairs fuel) Q) :
    Reads n (Delivers n · (.mappingStart :: ts)) (node true indentless (fuel + 1))
      fun m l => ∃ pairs line, m = .mapping "!!map" pairs line ∧ Q pairs l := by
  rw [node]
  refine Reads.peek fun first hfirst => ?_
  rw [hfirst]
  refine reads_properties ⟨nofun,nofun,nofun⟩ ?_
  refine Reads.peek_again fun u hu => ?_
  rw [hu]
  refine Reads.skip (Reads.mono (reads_unnamed _ h) (fun _ => id) ?_)
  rintro m l ⟨pairs,rfl,hl⟩
  exact ⟨pairs,_,rfl,hl⟩

theorem reads_brackets :
    Reads n (Delivers n · (.openBracket :: .closeBracket :: ts)) (node block indentless (fuel + 2))
      fun m l => (∃ line, m = .sequence "!!seq" [] line) ∧ Delivers n l ts := by
  rw [node]
  refine Reads.peek fun first hfirst => ?_
  rw [hfirst]
  refine reads_properties ⟨nofun,nofun,nofun⟩ ?_
  refine Reads.peek_again fun u hu => ?_
  rw [hu]
  have hempty : Reads n (Delivers n · (.closeBracket :: ts)) (flowItems true (fuel + 1))
      fun items l => items = [] ∧ Delivers n l ts := by
    rw [flowItems]
    refine Reads.peek fun u hu => ?_
    rw [hu]
    exact Reads.skip (Reads.pure fun l hl => ⟨rfl,hl⟩)
  refine Reads.skip (Reads.mono (reads_unnamed _ hempty) (fun _ => id) ?_)
  rintro m l ⟨items,rfl,rfl,hl⟩
  exact ⟨⟨_,rfl⟩,hl⟩

structure Shown where
  form : List Char
  text : List Char
  plain : Bool

namespace Shown

def Fine (w : Shown) : Prop := Written w.form w.text w.plain

def content (w : Shown) : Content := .scalar w.form w.text w.plain

def token (w : Shown) : TokenKind := .scalar (String.ofList w.text) w.plain

def IsNode (w : Shown) (m : Node) : Prop := IsScalar (String.ofList w.text) w.plain m

end Shown

theorem reads_blockItems {ws : List Shown} (hfuel : ws.length + 1 < fuel) :
    Reads n (Delivers n · ((ws.flatMap fun w => [.dash,w.token]) ++ .blockEnd :: ts))
      (blockItems fuel) fun items l => List.Forall₂ Shown.IsNode ws items ∧ Delivers n l ts := by
  induction ws generalizing fuel with
  | nil =>
    obtain ⟨fuel,rfl⟩ : ∃ m, fuel = m + 1 := ⟨fuel - 1,by omega⟩
    rw [blockItems]
    refine Reads.peek fun u hu => ?_
    rw [hu]
    exact Reads.skip (Reads.pure fun l hl => ⟨.nil,hl⟩)
  | cons w ws ih =>
    obtain ⟨fuel,rfl⟩ : ∃ m, fuel = m + 2 := ⟨fuel - 2,by omega⟩
    rw [blockItems]
    refine Reads.peek fun u hu => ?_
    rw [hu]
    refine Reads.skip (Reads.peek fun u hu => ?_)
    rw [hu]
    refine Reads.bind (Reads.mono reads_scalar (fun _ => Fetched.delivers) fun _ _ => id) fun m => ?_
    refine Reads.and_left fun hm => ?_
    refine Reads.bind (ih ?_) fun items => Reads.pure fun l hl => ⟨.cons hm hl.1,hl.2⟩
    rw [List.length_cons] at hfuel
    omega

theorem reads_blockValue {R : Node → Prop} {tokens : List TokenKind}
    (ht : Reading.endsEntry t = false)
    (h : Reads n (Delivers n · (t :: tokens)) (node true true fuel) fun m l => R m ∧ Delivers n l ts) :
    Reads n (Delivers n · (.value :: t :: tokens)) (blockValue (fuel + 1))
      fun m l => R m ∧ Delivers n l ts := by
  rw [blockValue]
  refine Reads.peek fun u hu => ?_
  rw [hu]
  refine Reads.skip (Reads.peek fun u hu => ?_)
  rw [hu,if_neg (by simp [ht])]
  exact Reads.mono h (fun _ => Fetched.delivers) fun _ _ => id

def pairTokens (name : String) (tokens : List TokenKind) : List TokenKind :=
  .key :: .scalar name true :: .value :: tokens

/-- The pairs of a mapping are read one after another, whatever their values are. -/
theorem reads_blockPairs {α : Type} (name : α → String) (tokens : α → List TokenKind)
    (R : α → Node → Prop) {entries : List α}
    (hstart : ∀ e ∈ entries, ∃ u us, tokens e = u :: us ∧ Reading.endsEntry u = false)
    (hvalue : ∀ e ∈ entries, ∀ fuel ts, (tokens e).length < fuel →
      Reads n (Delivers n · (tokens e ++ ts)) (node true true fuel) fun m l => R e m ∧ Delivers n l ts)
    (hfuel : (entries.flatMap fun e => pairTokens (name e) (tokens e)).length + 1 < fuel) :
    Reads n (Delivers n ·
        ((entries.flatMap fun e => pairTokens (name e) (tokens e)) ++ .blockEnd :: ts))
      (blockPairs fuel) fun pairs l =>
        List.Forall₂ (fun e p => IsScalar (name e) true p.1 ∧ R e p.2) entries pairs ∧
          Delivers n l ts := by
  induction entries generalizing fuel with
  | nil =>
    obtain ⟨fuel,rfl⟩ : ∃ m, fuel = m + 1 := ⟨fuel - 1,by omega⟩
    rw [blockPairs]
    refine Reads.peek fun u hu => ?_
    rw [hu]
    exact Reads.skip (Reads.pure fun l hl => ⟨.nil,hl⟩)
  | cons e entries ih =>
    obtain ⟨u,us,htokens,hends⟩ := hstart e List.mem_cons_self
    rw [List.flatMap_cons,List.length_append,pairTokens] at hfuel
    simp only [List.length_cons] at hfuel
    obtain ⟨fuel,rfl⟩ : ∃ m, fuel = m + 3 := ⟨fuel - 3,by omega⟩
    have hread := hvalue e List.mem_cons_self (fuel + 1)
      ((entries.flatMap fun e => pairTokens (name e) (tokens e)) ++ .blockEnd :: ts) (by omega)
    rw [htokens] at hread
    rw [List.flatMap_cons,List.append_assoc,pairTokens,htokens,blockPairs]
    refine Reads.peek fun u hu => ?_
    rw [hu]
    refine Reads.skip (Reads.peek fun u hu => ?_)
    rw [hu]
    refine Reads.bind (Reads.mono reads_scalar (fun _ => Fetched.delivers) fun _ _ => id) fun k => ?_
    refine Reads.and_left fun hk => ?_
    refine Reads.bind (reads_blockValue hends hread) fun m => ?_
    refine Reads.and_left fun hm => ?_
    refine Reads.bind (ih (fun e he => hstart e (List.mem_cons_of_mem _ he))
      (fun e he => hvalue e (List.mem_cons_of_mem _ he)) (by omega)) fun pairs =>
        Reads.pure fun l hl => ⟨.cons ⟨hk,hm⟩ hl.1,hl.2⟩

end Nodes

/-! ### Documents -/

theorem run_document {n fuel : Nat} {ts us : List TokenKind} {u : TokenKind} {R : Node → Prop}
    {r : NodeReader} (hn : r.steps = n) (hr : Delivers n r.lexer (.mappingStart :: ts))
    (hread : Reads n (Delivers n · (.mappingStart :: ts)) (Reading.node true false fuel)
      fun m l => R m ∧ Delivers n l (u :: us)) :
    ∃ m r', (Reading.document fuel).run r = some (some m,r') ∧ R m ∧ r'.named = r.named ∧
      r'.references = r.references := by
  have hroot : Reads n (Delivers n · (.mappingStart :: ts))
      (do
        let root ← Reading.node true false fuel
        let _ ← Reading.peek
        return some root) fun o _ => ∃ m, o = some m ∧ R m :=
    Reads.bind hread fun m => Reads.and_left fun hm =>
      Reads.peek fun _ _ => Reads.pure fun _ _ => ⟨m,rfl,hm⟩
  obtain ⟨t,l,hpeek,ht,hl⟩ := Reads.of_peek r hn hr
  obtain ⟨o,l',hrun,m,rfl,hm⟩ := hroot
    { r with lexer := l,handles := r.handles ++ [("!","!"),("!!",coreTags)] } hn hl.delivers
  refine ⟨m,?_⟩
  rw [Reading.document,StateT.run_bind,hpeek]
  simp only [Option.bind_eq_bind,Option.bind_some]
  rw [ht]
  exact ⟨_,hrun,hm,rfl,rfl⟩

/-- A stream of lines holds one document, the node that is read from their tokens. -/
theorem firstDocument?_of_lines {s : String} {lines : List Line} {ts us : List TokenKind}
    {u : TokenKind} {R : Node → Prop} (hchars : s.toList = charsOf lines) (hascii : AsciiLines s.toList)
    (hcolumn : columnOf lines = 0) (hlaid : Laid [] lines)
    (htokens : tokensOf [] lines = .mappingStart :: ts)
    (hread : ∀ n, Reads n (Delivers n · (.mappingStart :: ts))
      (Reading.node true false (8 * (s.toList.length + 2))) fun m l => R m ∧ Delivers n l (u :: us)) :
    ∃ m, firstDocument? (Text.ofString s) =
      some (some { root := m, named := [], depth := s.toList.length + 2 }) ∧ R m := by
  obtain ⟨hstream,hsound⟩ := Stream.ofText_of_asciiLines hascii
  have hdelivers := delivers_ofStream (hstream.trans hchars) hsound (hstream ▸ hascii) hcolumn hlaid
    (Nat.le_refl _)
  rw [hstream,htokens] at hdelivers
  obtain ⟨m,r',hrun,hm,hnamed,hreferences⟩ := run_document
    (r := { lexer := Lexer.ofStream (Stream.ofText (Text.ofString s)),steps := s.toList.length + 4 })
    rfl hdelivers (hread _)
  refine ⟨m,?_,hm⟩
  rw [firstDocument?,hstream]
  simp only [Nat.add_assoc,Option.bind_eq_bind]
  rw [hrun]
  simp [hnamed,hreferences]

end Yaml
end CircuitNotes
