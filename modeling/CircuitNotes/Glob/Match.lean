import CircuitNotes.Glob.Pattern

/-! Matching file names against patterns. `*` stands for any run of characters without a slash, `?`
for one character that is not a slash, `**` as a whole segment for any number of segments, `[..]` for
a character of a class and `{a,b}` for one of several alternatives.

The match goes through pattern and name from left to right. It remembers the latest `*` and the
latest `**` segment; where pattern and name part, the `*` takes one character more, and when it
cannot, the `**` one segment more. -/
namespace CircuitNotes
namespace Glob

inductive Outcome
  | matched
  | unmatched
  /-- The pattern was found not to be well formed. -/
  | malformed
  deriving DecidableEq, Repr

structure Point where
  pat : List Char
  name : List Char
  deriving DecidableEq, Repr

/-- Where a straight run through pattern and name comes to a stop. -/
inductive Stop
  | decided (o : Outcome)
  /-- The name is used up. -/
  | ended (pat : List Char)
  /-- After a `*`. -/
  | star (p : Point)
  /-- After a `**` segment. -/
  | deep (p : Point)
  /-- At an opening brace; `slashed` as in `advance`. -/
  | choice (slashed : Bool) (p : Point)
  /-- Pattern and name part; `pat` is what has not been read of the pattern. -/
  | mismatch (pat : List Char)

/-- Runs through plain characters, `?` and classes. `fresh` says that the pattern is at the start of
a segment, where alone `**` has its own meaning. `slashed` says that a backslash stands before it: what
has not been read of the pattern then starts with that backslash, whatever it escapes. -/
def advance : Bool → Bool → List Char → List Char → Stop
  | _, _, pat, [] => .ended pat
  | fresh, slashed, pat, c :: name =>
    match pat with
    | [] => .mismatch []
    | '*' :: '*' :: rest =>
      if fresh then match rest with
        | [] => .decided .matched
        | '/' :: segments => .deep ⟨segments,c :: name⟩
        | _ => .star ⟨rest,c :: name⟩
      else .star ⟨rest,c :: name⟩
    | '*' :: rest => .star ⟨rest,c :: name⟩
    | '?' :: rest => if c == '/' then .mismatch pat else advance false false rest name
    | '[' :: text => match matchClass c text with
      | .malformed => .decided .malformed
      | .miss rest => .mismatch rest
      | .hit rest => advance false false rest name
    | '{' :: _ => .choice slashed ⟨pat,c :: name⟩
    | '\\' :: escaped => match escaped with
      | [] => .decided .malformed
      | p :: rest => if p == c then advance (p == '/') (p == '\\') rest name else .mismatch pat
    | p :: rest =>
      if p == c then advance (p == '/') false rest name
      else .mismatch (if slashed then '\\' :: pat else pat)

def atEnd (pat : List Char) : Outcome :=
  if pat ∈ ["","*","**","/**","**/","/**/"].map String.toList then .matched
  else match pat with
    | '{' :: text => match _halts : alternatives 0 text with
      | none => .malformed
      | some as => as.1.attach.foldl
          (fun o a => if o == .unmatched then atEnd (a.1 ++ as.2) else o) .unmatched
    | _ => if wellFormed pat then .unmatched else .malformed
termination_by pat.length
decreasing_by
  have := (within_alternatives _halts).2 a.1 a.2
  simp only [List.length_append,List.length_cons]
  omega

def afterSlash : List Char → Option (List Char)
  | [] => none
  | c :: rest => if c == '/' then some rest else afterSlash rest

def Point.replaceEnd (old new : List Char) (p : Point) : Point :=
  ⟨p.pat.take (p.pat.length - old.length) ++ new,p.name⟩

/-! ### Every stop is further on in the pattern -/

theorem length_afterSlash {name rest : List Char} (h : afterSlash name = some rest) :
    rest.length < name.length := by
  induction name with
  | nil => simp [afterSlash] at h
  | cons c tail ih =>
    simp only [afterSlash] at h
    split at h
    · simp only [Option.some.injEq] at h
      simp [h]
    · have := ih h
      simp only [List.length_cons]
      omega

/-- A stop with less than `n` of the pattern left, or with at most `n` at a brace. -/
def Stop.Within (n : Nat) : Stop → Prop
  | .star p => p.pat.length < n
  | .deep p => p.pat.length < n
  | .choice _ p => p.pat.length ≤ n
  | _ => True

theorem Stop.Within.mono {m n : Nat} {s : Stop} (h : s.Within m) (hmn : m ≤ n) : s.Within n := by
  cases s <;> simp only [Stop.Within] at h ⊢ <;> omega

theorem within_advance (fresh slashed : Bool) (pat name : List Char) :
    (advance fresh slashed pat name).Within pat.length := by
  fun_induction advance fresh slashed pat name with
  | case9 fresh slashed c name rest hc ih => exact ih.mono (by simp)
  | case12 fresh slashed c name text rest hm ih =>
    exact ih.mono (by have := length_matchClass hm; simp only [List.length_cons]; omega)
  | case15 fresh slashed c name p rest hp ih =>
    exact ih.mono (by simp only [List.length_cons]; omega)
  | case17 fresh slashed c name p rest _ _ _ _ _ _ hp ih => exact ih.mono (by simp)
  | _ => simp_all [Stop.Within] <;> omega

/-! ### The whole match -/

/-- The points to which a match can go back. -/
structure Memory where
  deep : Option Point := none
  star : Option Point := none

def patLength (p : Option Point) : Nat := (p.map fun q => q.pat.length).getD 0

def nameLength (p : Option Point) : Nat := (p.map fun q => q.name.length).getD 0

def Memory.reach (m : Memory) (here : Point) : Nat :=
  max (patLength m.deep) (max (patLength m.star) here.pat.length)

/-- The next try with one segment more for the latest `**`. -/
def Memory.deeper? (m : Memory) : Option (Memory × Bool × Point) :=
  match m.deep with
  | none => none
  | some d => (afterSlash d.name).map fun name =>
      (⟨some ⟨d.pat,name⟩,none⟩,true,⟨d.pat,name⟩)

def Memory.retry? (m : Memory) : Option (Memory × Bool × Point) :=
  match m.star with
  | some ⟨pat,c :: name⟩ =>
    if c == '/' then m.deeper? else some (⟨m.deep,some ⟨pat,name⟩⟩,false,⟨pat,name⟩)
  | _ => m.deeper?

@[simp] theorem patLength_none : patLength none = 0 := rfl

@[simp] theorem patLength_some (p : Point) : patLength (some p) = p.pat.length := rfl

@[simp] theorem nameLength_some (p : Point) : nameLength (some p) = p.name.length := rfl

theorem patLength_replaceEnd (p : Option Point) (old new : List Char) :
    patLength (p.map (Point.replaceEnd old new)) ≤ patLength p - old.length + new.length := by
  cases p with
  | none => simp
  | some p =>
    simp only [Option.map_some,patLength_some,Point.replaceEnd,List.length_append,
      List.length_take]
    omega

/-- The descent of a match, level by level. -/
theorem lex_lt {a b c d a' b' c' d' : Nat}
    (h : a' < a ∨ a' = a ∧ (b' < b ∨ b' = b ∧ (c' < c ∨ c' = c ∧ d' < d))) :
    Prod.Lex (· < ·) (Prod.Lex (· < ·) (Prod.Lex (· < ·) (· < ·))) (a',b',c',d') (a,b,c,d) := by
  rcases h with h | ⟨rfl,h | ⟨rfl,h | ⟨rfl,h⟩⟩⟩
  · exact .left _ _ h
  · exact .right _ (.left _ _ h)
  · exact .right _ (.right _ (.left _ _ h))
  · exact .right _ (.right _ (.right _ h))

/-- A try with one segment more has less of the name left after the latest `**`. -/
theorem Memory.lex_deeper? {m m' : Memory} {fresh : Bool} {here' : Point} (here : Point)
    (h : m.deeper? = some (m',fresh,here')) :
    m'.reach here' < m.reach here ∨
      m'.reach here' = m.reach here ∧ nameLength m'.deep < nameLength m.deep := by
  obtain ⟨deep,star⟩ := m
  cases deep with
  | none => simp [Memory.deeper?] at h
  | some d =>
    simp only [Memory.deeper?,Option.map_eq_some_iff,Prod.mk.injEq] at h
    obtain ⟨name,hname,rfl,_,rfl⟩ := h
    have := length_afterSlash hname
    simp only [Memory.reach,patLength_some,patLength_none,nameLength_some]
    omega

theorem Memory.lex_retry? {m m' : Memory} {fresh : Bool} {here' : Point} (here : Point)
    (h : m.retry? = some (m',fresh,here')) :
    m'.reach here' < m.reach here ∨ m'.reach here' = m.reach here ∧
      (nameLength m'.deep < nameLength m.deep ∨ nameLength m'.deep = nameLength m.deep ∧
        (max (patLength m'.star) here'.pat.length < max (patLength m.star) here.pat.length ∨
          max (patLength m'.star) here'.pat.length = max (patLength m.star) here.pat.length ∧
            nameLength m'.star < nameLength m.star)) := by
  have hdeeper : m.deeper? = some (m',fresh,here') → _ := Memory.lex_deeper? here
  obtain ⟨deep,star⟩ := m
  simp only [Memory.retry?] at h
  split at h
  · split at h
    · have := hdeeper h
      omega
    · simp only [Option.some.injEq,Prod.mk.injEq] at h
      obtain ⟨rfl,_,rfl⟩ := h
      simp only [Memory.reach,patLength_some,nameLength_some,Nat.max_self,List.length_cons,
        true_and]
      omega
  · have := hdeeper h
    omega

def matchFrom (m : Memory) (fresh slashed : Bool) (here : Point) : Outcome :=
  match _hstop : advance fresh slashed here.pat here.name with
  | .decided o => o
  | .ended pat => atEnd pat
  | .star p => matchFrom ⟨m.deep,some p⟩ false false p
  | .deep p => matchFrom ⟨some p,none⟩ true false p
  | .choice before p => match _hpat : p.pat with
    | [] => .unmatched
    | _ :: text => match _halts : alternatives 0 text with
      | none => .malformed
      | some as => as.1.attach.foldl (fun o a =>
          if o == .unmatched then
            matchFrom ⟨m.deep.map (Point.replaceEnd p.pat (a.1 ++ as.2)),
                m.star.map (Point.replaceEnd p.pat (a.1 ++ as.2))⟩ true before ⟨a.1 ++ as.2,p.name⟩
          else o) .unmatched
  | .mismatch pat => match _hretry : m.retry? with
    | some (m',fresh',here') => matchFrom m' fresh' false here'
    | none => if pat.isEmpty || wellFormed pat then .unmatched else .malformed
termination_by (m.reach here,nameLength m.deep,max (patLength m.star) here.pat.length,
  nameLength m.star)
decreasing_by
  · have hp := within_advance fresh slashed here.pat here.name
    rw [_hstop] at hp
    simp only [Stop.Within] at hp
    refine lex_lt ?_
    simp only [Memory.reach,patLength_some,Nat.max_self,true_and]
    omega
  · have hp := within_advance fresh slashed here.pat here.name
    rw [_hstop] at hp
    simp only [Stop.Within] at hp
    refine lex_lt ?_
    simp only [Memory.reach,patLength_some,patLength_none]
    omega
  · have hp := within_advance fresh slashed here.pat here.name
    rw [_hstop] at hp
    simp only [Stop.Within,_hpat,List.length_cons] at hp
    have ha := (within_alternatives _halts).2 a.1 a.2
    have hd := patLength_replaceEnd m.deep p.pat (a.1 ++ as.2)
    have hs := patLength_replaceEnd m.star p.pat (a.1 ++ as.2)
    rw [_hpat] at hd hs
    simp only [List.length_append,List.length_cons] at hd hs
    refine lex_lt (Or.inl ?_)
    simp only [Memory.reach,_hpat,List.length_append]
    omega
  · exact lex_lt (Memory.lex_retry? here _hretry)

def outcome (pat name : String) : Outcome := matchFrom {} true false ⟨pat.toList,name.toList⟩

end Glob
end CircuitNotes
