import CircuitNotes.Proofs.LineTokens

/-! Asking for tokens, one after another, delivers those of the lines. Reading ahead, and giving up places
where a key might have started, change nothing about them. -/
namespace CircuitNotes
namespace Yaml

/-- The place for a key, given up if it is that of the token of a number. -/
def settle (number : Nat) (k : KeyStart) : KeyStart :=
  if k.possible && k.number == number then { k with possible := false } else k

theorem settle_of_not_possible {k : KeyStart} (number : Nat) (h : k.possible = false) :
    settle number k = k := by
  simp [settle,h]

theorem loose_settle {k : KeyStart} (number : Nat) (h : k.Loose) : (settle number k).Loose := by
  unfold settle
  split_ifs
  · nofun
  · exact h

def KeyStart.Stale (k : KeyStart) (p : Pos) : Prop :=
  k.possible = true ∧ ¬(k.pos.line = p.line ∧ p.index ≤ k.pos.index + Lexer.keyLimit)

namespace Awaits

variable {s : Situation} {ts : List TokenKind}

theorem required_of_stale (h : Awaits s ts) {k : KeyStart} (hk : k ∈ s.keys) (hstale : k.Stale s.pos) :
    k.required = false := by
  cases h with
  | lines hflow hkeys hloose =>
    cases List.mem_singleton.mp (hkeys ▸ hk)
    exact hloose hstale.1
  | content hflow hkeys hloose =>
    cases List.mem_singleton.mp (hkeys ▸ hk)
    exact hloose hstale.1
  | colon hflow hkeys hpossible hline hindex =>
    cases List.mem_singleton.mp (hkeys ▸ hk)
    exact absurd ⟨hline,hindex⟩ hstale.2
  | bracket hflow hkeys hinner hloose =>
    rw [hkeys] at hk
    rcases List.mem_cons.mp hk with rfl | hk
    · exact absurd hstale.1 (by simp [hinner])
    · cases List.mem_singleton.mp hk
      exact hloose hstale.1

theorem settle (h : Awaits s ts) {k : KeyStart} (hk : k ∈ s.keys) (hstale : k.Stale s.pos) :
    Awaits { s with keys := s.keys.map (settle s.taken) } ts := by
  cases h with
  | lines hflow hkeys hloose hbefore hlaid =>
    refine Awaits.lines ?_ (by rw [hkeys]; rfl) (loose_settle _ hloose) hbefore hlaid
    exact hflow
  | content hflow hkeys hloose hhead hb hrest hcontent hne hnext hlaid =>
    refine Awaits.content ?_ (by rw [hkeys]; rfl) (loose_settle _ hloose) hhead hb hrest hcontent
      hne hnext hlaid
    exact hflow
  | colon hflow hkeys hpossible hline hindex =>
    cases List.mem_singleton.mp (hkeys ▸ hk)
    exact absurd ⟨hline,hindex⟩ hstale.2
  | bracket hflow hkeys hinner hloose hrest hlaid =>
    refine Awaits.bracket ?_ (by rw [hkeys]; rfl) (by rw [settle_of_not_possible _ hinner]; exact hinner)
      (loose_settle _ hloose) hrest hlaid
    exact hflow

theorem take (h : Awaits s ts) (hmany : 2 < s.kinds.length) :
    ∃ t q ts', s.kinds = t :: q ∧ ts = t :: ts' ∧
      Awaits { s with kinds := q, taken := s.taken + 1 } ts' := by
  obtain ⟨t,q,hq⟩ := List.exists_cons_of_length_pos (Nat.lt_trans (by decide) hmany)
  cases h with
  | lines hflow hkeys hloose hbefore hlaid =>
    refine ⟨t,q,_,hq,by rw [hq,List.cons_append],Awaits.lines ?_ hkeys hloose hbefore hlaid⟩
    exact hflow
  | content hflow hkeys hloose hhead hb hrest hcontent hne hnext hlaid =>
    refine ⟨t,q,_,hq,by rw [hq,List.cons_append],
      Awaits.content ?_ hkeys hloose hhead hb hrest hcontent hne hnext hlaid⟩
    exact hflow
  | bracket hflow hkeys hinner hloose hrest hlaid =>
    refine ⟨t,q,_,hq,by rw [hq,List.cons_append],
      Awaits.bracket ?_ hkeys hinner hloose hrest hlaid⟩
    exact hflow
  | @colon k q' t' content lines hflow hkeys hpossible hline hindex hcolumn hkinds hnumber hblocks
      hdepth hrest hcontent hnext hlaid =>
    -- the scalar before the colon is the last that waits, so it is not the one that is taken
    cases q' with
    | nil => simp [hkinds] at hmany
    | cons u q' =>
      obtain ⟨rfl,rfl⟩ := List.cons.inj (hkinds.symm.trans hq)
      refine ⟨u,q' ++ [t'],_,hkinds,rfl,Awaits.colon (k := k) ?_ hkeys hpossible hline hindex hcolumn rfl
        ?_ hblocks hdepth hrest hcontent hnext hlaid⟩
      · exact hflow
      · rw [hnumber,List.length_cons]
        exact (Nat.succ_add_eq_add_succ _ _).symm

end Awaits

namespace Ended

variable {s : Situation} {ts : List TokenKind}

theorem take (h : Ended s ts) (hmany : 2 < s.kinds.length) :
    ∃ t q, s.kinds = t :: q ∧ ∀ u ts', ts = u :: ts' →
      t = u ∧ Ended { s with kinds := q, taken := s.taken + 1 } ts' := by
  obtain ⟨q,m,n,hkinds,rfl⟩ := h.kinds
  cases q with
  | cons t q =>
    refine ⟨t,_,hkinds,fun u ts' hts => ?_⟩
    obtain ⟨rfl,rfl⟩ := List.cons.inj hts
    exact ⟨rfl,{ h with kinds := ⟨q,m,n,rfl,rfl⟩ }⟩
  | nil =>
    obtain ⟨m,rfl⟩ : ∃ m', m = m' + 1 := by
      rw [hkinds,List.nil_append,List.length_replicate] at hmany
      exact ⟨m - 1,by omega⟩
    refine ⟨.streamEnd,_,hkinds,fun u ts' hts => ?_⟩
    cases n with
    | zero => cases hts
    | succ n =>
      obtain ⟨rfl,rfl⟩ := List.cons.inj hts
      exact ⟨rfl,{ h with kinds := ⟨[],m,n,rfl,rfl⟩ }⟩

theorem isReleased {l : Lexer} (h : Ended s ts) (hl : l.Shows s) : l.isReleased = some (l,true) := by
  obtain ⟨k,hkeys,hpossible⟩ := h.keys
  simp [Lexer.isReleased,hl.keys,hkeys,hpossible]

end Ended

/-! ### Fetching -/

def Heads (l : Lexer) (ts : List TokenKind) : Prop := ∃ s, l.Shows s ∧ (Awaits s ts ∨ Ended s ts)

structure Ready (l : Lexer) (ts : List TokenKind) : Prop where
  heads : Heads l ts
  many : 2 < l.tokens.length
  released : l.isReleased = some (l,true)

section Fetching

variable {l : Lexer} {s : Situation} {ts : List TokenKind}

theorem Ready.fetch (h : Ready l ts) (n : Nat) : l.fetch (n + 1) = some l := by
  simp [Lexer.fetch,h.many,h.released]

theorem Lexer.Shows.length_tokens (h : l.Shows s) : l.tokens.length = s.kinds.length := by
  rw [← h.kinds,List.length_map]

/-- A token is released, or held back for a key that can still end, or released because its key is
stale. -/
theorem Awaits.isReleased (hs : Awaits s ts) (h : l.Shows s) :
    (∃ b, l.isReleased = some (l,b)) ∨ ∃ l', l.isReleased = some (l',true) ∧
      l'.isReleased = some (l',true) ∧ l'.Shows { s with keys := s.keys.map (Yaml.settle s.taken) } ∧
      Awaits { s with keys := s.keys.map (Yaml.settle s.taken) } ts := by
  by_cases hheld : l.heldBack.contains l.taken = true
  · cases hfound : l.keys.find? (fun k => k.possible && k.number == l.taken) with
    | none =>
      refine Or.inl ⟨true,?_⟩
      simp only [Lexer.isReleased,hheld,if_true,hfound]
    | some k =>
      have hk : k ∈ s.keys := h.keys ▸ List.mem_of_find?_eq_some hfound
      have hhere := List.find?_some hfound
      rw [Bool.and_eq_true] at hhere
      by_cases hreaches : l.reaches k = true
      · refine Or.inl ⟨false,?_⟩
        simp only [Lexer.isReleased,hheld,if_true,hfound,hreaches]
      · have hstale : k.Stale s.pos := by
          refine ⟨hhere.1,fun hends => hreaches ?_⟩
          have hindex : l.cursor.index = s.pos.index := congrArg Pos.index h.calm.pos
          simp [Lexer.reaches,h.line,hindex,hends.1,hends.2]
        have hdropped : ({ l with keys := l.keys.map (Yaml.settle l.taken) }.release l.taken).Shows
            { s with keys := s.keys.map (Yaml.settle s.taken) } := by
          have hkeys : l.keys.map (Yaml.settle l.taken) = s.keys.map (Yaml.settle s.taken) := by
            rw [h.keys,h.taken]
          rw [hkeys]
          exact (h.note _).release _
        refine Or.inr ⟨_,?_,?_,hdropped,hs.settle hk hstale⟩
        · simp only [Lexer.isReleased,hheld,if_true,hfound,hreaches,hs.required_of_stale hk hstale]
          rfl
        · simp [Lexer.isReleased,Lexer.release]
  · refine Or.inl ⟨true,?_⟩
    simp only [Lexer.isReleased,hheld]
    rfl

theorem Ended.fetch (hs : Ended s ts) (h : l.Shows s) {n : Nat} (hn : 4 ≤ n + s.kinds.length)
    (hpos : 0 < n) :
    ∃ l', l.fetch n = some l' ∧ Ready l' ts ∧ l'.rest = [] := by
  induction n generalizing l s with
  | zero => exact absurd hpos (Nat.lt_irrefl 0)
  | succ n ih =>
    by_cases hmany : 2 < s.kinds.length
    · have hready : Ready l ts :=
        ⟨⟨s,h,Or.inr hs⟩,by rwa [h.length_tokens],hs.isReleased h⟩
      exact ⟨l,hready.fetch n,hready,h.rest.trans hs.rest⟩
    · obtain ⟨s',⟨l₁,hstep,h₁⟩,hs',hlength⟩ := hs.step h
      obtain ⟨l',hfetch,hready⟩ := ih hs' h₁ (by omega) (by omega)
      refine ⟨l',?_,hready⟩
      rw [Lexer.fetch,h.length_tokens,if_neg hmany]
      simpa [hstep] using hfetch

theorem Awaits.fetch (hs : Awaits s ts) (h : l.Shows s) {n : Nat} (hn : s.rest.length + 4 ≤ n) :
    ∃ l', l.fetch n = some l' ∧ Ready l' ts ∧ l'.rest.length ≤ s.rest.length := by
  induction n generalizing l s with
  | zero => omega
  | succ n ih =>
    have hstep : ∃ l', l.step.bind (Lexer.fetch n) = some l' ∧ Ready l' ts ∧
        l'.rest.length ≤ s.rest.length := by
      rcases hs.step h with ⟨s',⟨l₁,hl₁,h₁⟩,hs',hlength⟩ | ⟨s',⟨l₁,hl₁,h₁⟩,hs',hpos⟩
      · obtain ⟨l',hfetch,hready,hle⟩ := ih hs' h₁ (by omega)
        exact ⟨l',by rwa [hl₁],hready,by omega⟩
      · obtain ⟨l',hfetch,hready,hend⟩ := hs'.fetch h₁ (by omega : 4 ≤ n + s'.kinds.length) (by omega)
        exact ⟨l',by rwa [hl₁],hready,by simp [hend]⟩
    by_cases hmany : 2 < s.kinds.length
    · have htokens : 2 < l.tokens.length := by rwa [h.length_tokens]
      rcases hs.isReleased h with ⟨b,hb⟩ | ⟨l',hl',hreleased,h',hs'⟩
      · cases b with
        | true =>
          have hready : Ready l ts := ⟨⟨s,h,Or.inl hs⟩,htokens,hb⟩
          exact ⟨l,hready.fetch n,hready,by rw [h.rest]⟩
        | false =>
          rw [Lexer.fetch,if_pos htokens,hb]
          exact hstep
      · have hready : Ready l' ts :=
          ⟨⟨_,h',Or.inl hs'⟩,by rwa [h'.length_tokens],hreleased⟩
        refine ⟨l',?_,hready,by rw [h'.rest]⟩
        rw [Lexer.fetch,if_pos htokens,hl']
        rfl
    · rw [Lexer.fetch,h.length_tokens,if_neg hmany]
      exact hstep

/-- What was fetched is the first of the tokens, and without it the reader has the others ahead. -/
theorem Ready.take {t : TokenKind} (h : Ready l (t :: ts)) :
    l.tokens.head?.map Token.kind = some t ∧ Heads l.take ts := by
  obtain ⟨s,hl,hs⟩ := h.heads
  have hmany : 2 < s.kinds.length := by rw [← hl.length_tokens]; exact h.many
  have htake : ∀ u q, s.kinds = u :: q →
      l.tokens.head?.map Token.kind = some u ∧
        l.take.Shows { s with kinds := q, taken := s.taken + 1 } := by
    intro u q hq
    have hkinds := hl.kinds.trans hq
    refine ⟨by rw [← List.head?_map,hkinds]; rfl,{ hl with taken := ?_, kinds := ?_ }⟩
    · rw [← hl.taken]
      rfl
    · rw [Lexer.take,List.map_drop,hkinds]
      rfl
  rcases hs with hs | hs
  · obtain ⟨u,q,ts',hq,hts,hs'⟩ := hs.take hmany
    obtain ⟨rfl,rfl⟩ := List.cons.inj hts
    exact ⟨(htake _ q hq).1,_,(htake _ q hq).2,Or.inl hs'⟩
  · obtain ⟨u,q,hq,hended⟩ := hs.take hmany
    obtain ⟨rfl,hs'⟩ := hended t ts rfl
    exact ⟨(htake _ q hq).1,_,(htake _ q hq).2,Or.inr hs'⟩

/-- Whenever a token is asked for it is there, and it is the next of a list. -/
def Delivers (n : Nat) : Lexer → List TokenKind → Prop
  | _, [] => True
  | l, t :: ts => ∃ l', l.fetch n = some l' ∧ l'.fetch n = some l' ∧
    l'.tokens.head?.map Token.kind = some t ∧ Delivers n l'.take ts

theorem delivers_of_heads {n : Nat} (h : Heads l ts) (hn : l.rest.length + 4 ≤ n) :
    Delivers n l ts := by
  induction ts generalizing l with
  | nil => trivial
  | cons t ts ih =>
    obtain ⟨s,hl,hs⟩ := h
    have hfetch : ∃ l', l.fetch n = some l' ∧ Ready l' (t :: ts) ∧
        l'.rest.length ≤ l.rest.length := by
      rw [hl.rest] at hn ⊢
      rcases hs with hs | hs
      · exact hs.fetch hl hn
      · obtain ⟨l',hfetch,hready,hrest⟩ := hs.fetch hl (by omega : 4 ≤ n + s.kinds.length) (by omega)
        exact ⟨l',hfetch,hready,by simp [hrest]⟩
    obtain ⟨l',hfetch,hready,hle⟩ := hfetch
    obtain ⟨hhead,hrest⟩ := hready.take
    refine ⟨l',hfetch,?_,hhead,ih hrest (Nat.le_trans (Nat.add_le_add_right hle 4) hn)⟩
    obtain ⟨m,rfl⟩ : ∃ m, n = m + 1 := ⟨n - 1,by omega⟩
    exact hready.fetch m

end Fetching

/-- A stream of lines delivers their tokens. -/
theorem delivers_ofStream {t : Stream} {lines : List Line} (hchars : t.chars = charsOf lines)
    (hsound : t.spoiled = false) (hascii : AsciiLines t.chars) (hcolumn : columnOf lines = 0)
    (hlaid : Laid [] lines) {n : Nat} (hn : t.chars.length + 4 ≤ n) :
    Delivers n (Lexer.ofStream t) (tokensOf [] lines) := by
  have hshows : (Lexer.ofStream t).Shows ⟨{},t.chars,[],0,[{}],true,0,[]⟩ :=
    ⟨⟨rfl,hsound,rfl⟩,rfl,hascii,rfl,rfl,rfl,rfl,rfl,rfl⟩
  refine delivers_of_heads ⟨_,hshows,Or.inl (.lines rfl rfl nofun (Or.inl ⟨rfl,?_,?_⟩) hlaid)⟩ hn
  · rw [hchars,charsOf_eq,hcolumn]
    rfl
  · exact hcolumn.symm

end Yaml
end CircuitNotes
