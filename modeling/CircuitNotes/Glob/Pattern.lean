/-! Parts of a file name pattern: character classes, alternatives in braces, and which patterns are
well formed. A backslash takes away the meaning of the character after it. -/
namespace CircuitNotes
namespace Glob

/-- The character that stands for what is missing after a backslash at the end of a pattern. -/
def absent : Char := '�'

def rangeStart (c : Char) : Option Char := if c.toNat < 0x10FFFF then some c else none

/-- Looks for `c` in a class, from its first element on. The answer is whether it was found and what
of the pattern follows the element that holds it, or follows the last element. `last` is the element
before, from which a range may start. -/
def findInClass (c : Char) : Option Char → List Char → Bool × List Char
  | _, [] => (false,[])
  | _, [p] =>
    if p == ']' then (false,[p])
    else ((if p == '\\' then absent else p) == c,[])
  | last, p :: q :: rest =>
    if p == ']' then (false,p :: q :: rest)
    else match last with
      | some low =>
        if p == '-' && q != ']' then
          if q == '\\' then match rest with
            | [] => (low ≤ c && c ≤ absent,[])
            | high :: more =>
              if low ≤ c && c ≤ high then (true,more) else findInClass c none more
          else if low ≤ c && c ≤ q then (true,rest) else findInClass c none rest
        else if p == '\\' then
          if q == c then (true,rest) else findInClass c (rangeStart q) rest
        else if p == c then (true,q :: rest) else findInClass c (rangeStart p) (q :: rest)
      | none =>
        if p == '\\' then
          if q == c then (true,rest) else findInClass c (rangeStart q) rest
        else if p == c then (true,q :: rest) else findInClass c (rangeStart p) (q :: rest)

def afterBracket : List Char → Option (List Char)
  | [] => none
  | '\\' :: rest => match rest with
    | [] => none
    | _ :: more => afterBracket more
  | c :: rest => if c == ']' then some rest else afterBracket rest

inductive ClassResult
  | malformed
  /-- The class does not take the character; the pattern has been read up to `rest`. -/
  | miss (rest : List Char)
  | hit (rest : List Char)

def isNegated (text : List Char) : Bool := text.head? == some '!' || text.head? == some '^'

/-- The elements of the class whose text follows an opening bracket, and all after them. -/
def classElements (text : List Char) : List Char := text.drop (if isNegated text then 1 else 0)

def matchClass (c : Char) (text : List Char) : ClassResult :=
  let elements := classElements text
  if elements.isEmpty || elements.head? == some ']' then .malformed
  else
    let (found,rest) := findInClass c none elements
    if found == isNegated text then if rest.isEmpty then .malformed else .miss rest
    else match afterBracket rest with
      | none => .malformed
      | some rest => .hit rest

/-- The alternatives of an opened brace, and what follows its closing brace. -/
abbrev Alternatives := List (List Char) × List Char

def Alternatives.push (c : Char) : Alternatives → Alternatives
  | (first :: others,rest) => ((c :: first) :: others,rest)
  | ([],rest) => ([[c]],rest)

/-- Reads the text after an opening brace, inside `depth` further ones. Commas divide only where
that depth is zero. -/
def alternatives : Nat → List Char → Option Alternatives
  | _, [] => none
  | depth, '\\' :: rest => match rest with
    | [] => none
    | c :: more => ((alternatives depth more).map (Alternatives.push c)).map (Alternatives.push '\\')
  | depth, '{' :: rest => (alternatives (depth + 1) rest).map (Alternatives.push '{')
  | 0, '}' :: rest => some ([[]],rest)
  | depth + 1, '}' :: rest => (alternatives depth rest).map (Alternatives.push '}')
  | 0, ',' :: rest => (alternatives 0 rest).map fun (others,after) => ([] :: others,after)
  | depth, c :: rest => (alternatives depth rest).map (Alternatives.push c)

inductive Place
  | outside
  /-- Right after an opening bracket. -/
  | opened
  /-- At the first element of a class. -/
  | first
  | inside

/-- Whether escapes, classes and braces are complete, `depth` braces being open. -/
def wellFormedFrom : Place → Nat → List Char → Bool
  | .outside, depth, [] => depth == 0
  | _, _, [] => false
  | .outside, depth, c :: rest => match c with
    | '\\' => match rest with
      | [] => false
      | _ :: more => wellFormedFrom .outside depth more
    | '[' => wellFormedFrom .opened depth rest
    | '{' => wellFormedFrom .outside (depth + 1) rest
    | '}' => match depth with
      | 0 => false
      | d + 1 => wellFormedFrom .outside d rest
    | _ => wellFormedFrom .outside depth rest
  | .inside, depth, c :: rest => match c with
    | '\\' => match rest with
      | [] => false
      | _ :: more => wellFormedFrom .inside depth more
    | ']' => wellFormedFrom .outside depth rest
    | _ => wellFormedFrom .inside depth rest
  | .opened, depth, c :: rest => match c with
    | '^' => wellFormedFrom .first depth rest
    | '!' => wellFormedFrom .first depth rest
    | ']' => false
    | '\\' => match rest with
      | [] => false
      | _ :: more => wellFormedFrom .inside depth more
    | _ => wellFormedFrom .inside depth rest
  | .first, depth, c :: rest => match c with
    | ']' => false
    | '\\' => match rest with
      | [] => false
      | _ :: more => wellFormedFrom .inside depth more
    | _ => wellFormedFrom .inside depth rest

def wellFormed (pat : List Char) : Bool := wellFormedFrom .outside 0 pat

/-! ### Lengths -/

theorem length_afterBracket {pat rest : List Char} (h : afterBracket pat = some rest) :
    rest.length < pat.length := by
  fun_induction afterBracket pat with
  | case1 => simp at h
  | case2 => simp at h
  | case3 c more ih => have := ih h; simp; omega
  | case4 c rest' _ hc => simp at h; subst h; simp
  | case5 c rest' _ hc ih => have := ih h; simp; omega

theorem length_findInClass (c : Char) (last : Option Char) (pat : List Char) :
    (findInClass c last pat).2.length ≤ pat.length := by
  fun_induction findInClass c last pat <;> simp_all <;> omega

theorem length_matchClass {c : Char} {text rest : List Char} (h : matchClass c text = .hit rest) :
    rest.length < text.length := by
  have hbody : (classElements text).length ≤ text.length := by simp [classElements]
  have hfind := length_findInClass c none (classElements text)
  simp only [matchClass] at h
  split at h
  · contradiction
  · split at h
    · split at h <;> contradiction
    · cases hab : afterBracket (findInClass c none (classElements text)).2 with
      | none => simp [hab] at h
      | some after =>
        have := length_afterBracket hab
        simp only [hab,ClassResult.hit.injEq] at h
        subst h
        omega

/-- There is an alternative, and each of them with what follows is shorter than `n`. -/
def Alternatives.Within (n : Nat) (as : Alternatives) : Prop :=
  as.1 ≠ [] ∧ ∀ a ∈ as.1, a.length + as.2.length < n

theorem Alternatives.Within.mono {m n : Nat} {as : Alternatives} (h : as.Within m) (hmn : m ≤ n) :
    as.Within n :=
  ⟨h.1,fun a ha => Nat.lt_of_lt_of_le (h.2 a ha) hmn⟩

theorem Alternatives.Within.push {n : Nat} {as : Alternatives} (c : Char) (h : as.Within n) :
    (as.push c).Within (n + 1) := by
  obtain ⟨alts,after⟩ := as
  obtain ⟨hne,hlen⟩ := h
  cases alts with
  | nil => simp at hne
  | cons first others =>
    simp only [Alternatives.push,Within,List.mem_cons] at *
    refine ⟨by simp,?_⟩
    rintro a (rfl | ha)
    · have := hlen first (Or.inl rfl)
      simp only [List.length_cons]
      omega
    · have := hlen a (Or.inr ha)
      omega

theorem within_alternatives {depth : Nat} {pat : List Char} {as : Alternatives}
    (h : alternatives depth pat = some as) : as.Within pat.length := by
  fun_induction alternatives depth pat generalizing as with
  | case1 => simp at h
  | case2 => simp at h
  | case3 depth c more ih =>
    simp only [Option.map_eq_some_iff] at h
    obtain ⟨_,⟨bs,hbs,rfl⟩,rfl⟩ := h
    exact ((ih hbs).push c).push _
  | case4 depth rest ih =>
    obtain ⟨bs,hbs,rfl⟩ := Option.map_eq_some_iff.1 h
    exact (ih hbs).push _
  | case5 rest =>
    simp only [Option.some.injEq] at h
    subst h
    simp [Alternatives.Within]
  | case6 depth rest ih =>
    obtain ⟨bs,hbs,rfl⟩ := Option.map_eq_some_iff.1 h
    exact (ih hbs).push _
  | case7 rest ih =>
    obtain ⟨⟨alts,after⟩,hbs,rfl⟩ := Option.map_eq_some_iff.1 h
    obtain ⟨hne,hlen⟩ := ih hbs
    refine ⟨by simp,?_⟩
    simp only [List.mem_cons,List.length_cons]
    rintro a (rfl | ha)
    · cases alts with
      | nil => simp at hne
      | cons first others =>
        have := hlen first (by simp)
        simp at this ⊢
        omega
    · have := hlen a ha
      simp at this ⊢
      omega
  | case8 depth c rest _ _ _ _ _ ih =>
    obtain ⟨bs,hbs,rfl⟩ := Option.map_eq_some_iff.1 h
    exact (ih hbs).push _

end Glob
end CircuitNotes
