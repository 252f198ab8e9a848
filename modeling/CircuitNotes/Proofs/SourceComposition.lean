import CircuitNotes.Proofs.TextParts

/-! What becomes of a source when another is put behind it. The lines before the seam decide whether
the circuit is declared already; if it is, the rest is read as if it came right after a line that
declares the same circuit again. -/
namespace CircuitNotes

namespace Outline

open Line

theorem lines_append (s t : Text) : lines (s ++ newline :: t) = lines s ++ lines t := by
  rw [lines,Text.splitOn_append,List.map_append]
  rfl

theorem not_mem_lines {source line : Text} (h : line ∈ lines source) : newline ∉ line := by
  obtain ⟨piece,hpiece,rfl⟩ := List.mem_map.mp h
  exact fun hmem => not_mem_splitOn newline source piece hpiece (Text.mem_of_mem_trim hmem)

/-! ### Lines on both sides of a seam -/

/-- The number of the line below a seam, counted from the second line above it. -/
theorem number_cons (n : Nat) (line : Text) (above : List Text) :
    n + (line :: above).length = n + 1 + above.length := by
  rw [List.length_cons]
  omega

theorem callsFrom_append (keyword : String) (name : Text) (n : Nat) (above below : List Text) :
    callsFrom keyword name n (above ++ below) =
      callsFrom keyword name n above ++ callsFrom keyword name (n + above.length) below := by
  induction above generalizing n with
  | nil => rfl
  | cons line above ih =>
    rw [List.cons_append,callsFrom,callsFrom,number_cons,ih]
    split <;> rfl

theorem outlineFrom_append_of_unbound {keyword : String} {n : Nat} {above : List Text}
    (h : (outlineFrom keyword n above).declaration = none) (below : List Text) :
    outlineFrom keyword n (above ++ below) = outlineFrom keyword (n + above.length) below := by
  induction above generalizing n with
  | nil => rfl
  | cons line above ih =>
    rw [outlineFrom] at h
    cases hbinding : binding? keyword line with
    | some d =>
      simp only [hbinding] at h
      cases h
    | none =>
      simp only [hbinding] at h
      rw [List.cons_append,outlineFrom,hbinding,number_cons]
      exact ih h

/-- Lines that declare a circuit leave to the lines below them only the calls on it. -/
theorem outlineFrom_append_of_bound {keyword : String} {n : Nat} {above : List Text}
    {d : Declaration} (h : (outlineFrom keyword n above).declaration = some d)
    (below : List Text) :
    outlineFrom keyword n (above ++ below) =
      ⟨some d,(outlineFrom keyword n above).calls ++
        callsFrom keyword d.name (n + above.length) below⟩ := by
  induction above generalizing n with
  | nil => cases h
  | cons line above ih =>
    rw [outlineFrom] at h
    rw [List.cons_append,outlineFrom,outlineFrom,number_cons]
    cases hbinding : binding? keyword line with
    | some d' =>
      simp only [hbinding,Option.some.injEq] at h ⊢
      rw [h,callsFrom_append]
    | none =>
      simp only [hbinding] at h ⊢
      exact ih h

theorem explained_callsFrom (keyword : String) (name : Text) (n m : Nat) (lines : List Text) :
    (callsFrom keyword name n lines).filterMap Call.explain? =
      (callsFrom keyword name m lines).filterMap Call.explain? := by
  induction lines generalizing n m with
  | nil => rfl
  | cons line lines ih =>
    rw [callsFrom,callsFrom]
    split
    · rename_i method args _ _
      have hcall : Call.explain? ⟨n,method,args⟩ = Call.explain? ⟨m,method,args⟩ := rfl
      rw [List.filterMap_cons,List.filterMap_cons,hcall,ih (n + 1) (m + 1)]
    · exact ih (n + 1) (m + 1)

theorem explain_congr {o o' : Outline} (hdeclaration : o.declaration = o'.declaration)
    (hcalls : o.calls.filterMap Call.explain? = o'.calls.filterMap Call.explain?) :
    o.explain = o'.explain := by
  simp only [explain,name,qubits,hdeclaration,hcalls]

theorem explain_outlineFrom (keyword : String) (n m : Nat) (lines : List Text) :
    (outlineFrom keyword n lines).explain = (outlineFrom keyword m lines).explain := by
  induction lines generalizing n m with
  | nil => rfl
  | cons line lines ih =>
    rw [outlineFrom,outlineFrom]
    cases binding? keyword line with
    | some d => exact explain_congr rfl (explained_callsFrom keyword d.name _ _ lines)
    | none => exact ih (n + 1) (m + 1)

/-! ### A line that declares -/

def declarationLine (keyword : String) (name : Text) (qubits : Int) : Text :=
  name ++ " = " ++ keyword ++ "(" ++ Text.ofInt qubits ++ ")"

def Name (name : Text) : Prop := name ≠ [] ∧ ∀ b ∈ name, Start b ∨ Digit b

theorem binds_declarationLine (keyword : String) {name : Text} (hname : Name name) {q : Nat}
    (hq : q < 2^63) : Binds keyword (declarationLine keyword name q) ⟨name,q⟩ := by
  have hspace : ∀ b ∈ Text.ofString " ", Space b := by
    have hblank : Text.ofString " " = [32] := by decide
    rw [hblank,List.forall_mem_singleton]
    decide
  have hsplits : Splits keyword (declarationLine keyword name q) [] name (Text.ofNat q) := by
    refine ⟨" "," ",keyword,[],?_,hname,hspace,hspace,Text.chars_ofString keyword,
      Text.ofNat_ne_nil q,Text.digit_of_mem_ofNat q⟩
    have hequals : Text.ofString " = " = Text.ofString " " ++ Text.ofString "=" ++ Text.ofString " " := by
      decide
    rw [declarationLine,hequals,Text.ofInt_natCast]
    simp only [List.append_assoc,List.nil_append,List.append_nil]
  exact ⟨Text.ofNat q,⟨[],hsplits,by simp⟩,(decimal_ofNat q).symm,hq⟩

theorem solid_of_word {b : UInt8} (h : Start b ∨ Digit b) : Text.Solid b := by
  simp only [Start,Digit,UInt8.le_iff_toNat_le,← UInt8.toNat_inj,UInt8.reduceToNat] at h
  have hascii : b.toNat < 128 := by omega
  have hchar : (Char.ofNat b.toNat).toNat = b.toNat := Text.val_ofNat (Or.inl (by omega))
  refine ⟨UInt8.lt_iff_toNat_lt.mpr hascii,?_⟩
  simp only [isBlank,hchar,Bool.or_eq_false_iff,Bool.and_eq_false_iff,decide_eq_false_iff_not,
    beq_eq_false_iff_ne]
  omega

theorem trim_declarationLine (keyword : String) {name : Text} (hname : Name name) (q : Int) :
    (declarationLine keyword name q).trim = declarationLine keyword name q := by
  obtain ⟨b,more,rfl⟩ := List.exists_cons_of_ne_nil hname.1
  have hclose : Text.ofString ")" = [')'.toUInt8] := by decide
  have hsolid : Text.Solid ')'.toUInt8 := ⟨by decide,by decide⟩
  rw [declarationLine,hclose]
  exact Text.trim_solid (solid_of_word (hname.2 b List.mem_cons_self)) hsolid _

theorem lines_declarationLine {keyword : String} (hkeyword : '\n' ∉ keyword.toList) {name : Text}
    (hname : Name name) (q : Nat) :
    lines (declarationLine keyword name q) = [declarationLine keyword name q] := by
  have hbreak : ¬(Start newline ∨ Digit newline) := by decide
  have hnot : newline ∉ declarationLine keyword name q := by
    simp only [declarationLine,Text.ofInt_natCast,List.mem_append,not_or]
    refine ⟨⟨⟨⟨⟨?_,by decide⟩,?_⟩,by decide⟩,?_⟩,by decide⟩
    · exact fun h => hbreak (hname.2 _ h)
    · exact fun h => hkeyword (Text.char_of_mem_ofString (by decide) h)
    · exact fun h => hbreak (Or.inr (Text.digit_of_mem_ofNat q _ h))
  rw [lines,Text.splitOn_of_not_mem hnot,List.map_singleton,trim_declarationLine keyword hname]

theorem Binds.name {keyword : String} {line : Text} {d : Declaration} (h : Binds keyword line d) :
    Name d.name := by
  obtain ⟨_,⟨_,⟨_,_,_,_,_,hname,_⟩,_⟩,_⟩ := h
  exact hname

theorem Binds.qubits_lt {keyword : String} {line : Text} {d : Declaration}
    (h : Binds keyword line d) : d.qubits < 2^63 := by
  obtain ⟨_,_,_,hlimit⟩ := h
  exact hlimit

theorem Binds.keyword {keyword : String} {line : Text} {d : Declaration} (h : Binds keyword line d)
    (hline : newline ∉ line) : '\n' ∉ keyword.toList := by
  obtain ⟨_,⟨_,⟨s₁,s₂,k,v,hsplit,_,_,_,hk,_⟩,_⟩,_⟩ := h
  intro hmem
  rw [← hk] at hmem
  have hbreak : newline ∈ k := Text.mem_of_char_mem (by decide) hmem newline (by decide)
  apply hline
  rw [hsplit]
  simp only [List.mem_append,hbreak,or_true,true_or]

theorem exists_binds {keyword : String} {n : Nat} {lines : List Text} {d : Declaration}
    (h : (outlineFrom keyword n lines).declaration = some d) :
    ∃ line ∈ lines, Binds keyword line d := by
  rcases outlineFrom_cases keyword n lines with ⟨_,hempty⟩ | ⟨i,line,d',hline,hbinds,_,houtline⟩
  · rw [hempty] at h
    cases h
  · rw [houtline] at h
    obtain rfl : d' = d := Option.some.inj h
    exact ⟨line,List.mem_of_getElem? hline,hbinds⟩

end Outline

/-! ### Explanations -/

/-- The explanation of a circuit whose gates go on with those of another explanation. A list that is
missing adds nothing. -/
def Explanation.followedBy (e e' : Explanation) : Explanation :=
  { circuit := { e.circuit with gates := e.circuit.gates.merge (· ++ ·) e'.circuit.gates }
    document := ⟨e.document.blocks.merge (· ++ ·) e'.document.blocks⟩ }

theorem getD_merge {α : Type} (a b : Option (List α)) :
    (a.merge (· ++ ·) b).getD [] = a.getD [] ++ b.getD [] := by
  cases a <;> cases b <;> simp

namespace Outline

theorem explain_append (d : Declaration) (calls calls' : List Call) :
    explain ⟨some d,calls ++ calls'⟩ = (explain ⟨some d,calls⟩).followedBy (explain ⟨some d,calls'⟩) := by
  simp only [explain,Explanation.followedBy,List.filterMap_append,List.map_append,name,qubits,
    Option.merge_some_some]
  congr 2
  cases calls.filterMap Call.explain? <;> cases calls'.filterMap Call.explain? <;> simp

theorem name_eq_nil_iff {keyword : String} {n : Nat} {lines : List Text} :
    (outlineFrom keyword n lines).name = [] ↔ (outlineFrom keyword n lines).declaration = none := by
  cases h : (outlineFrom keyword n lines).declaration with
  | none => simp only [name,h,Option.map_none,Option.getD_none]
  | some d =>
    obtain ⟨line,_,hbinds⟩ := exists_binds h
    simpa only [name,h,Option.map_some,Option.getD_some,reduceCtorEq,iff_false] using hbinds.name.1

theorem outlineFrom_of_unbound {keyword : String} {n : Nat} {lines : List Text}
    (h : (outlineFrom keyword n lines).declaration = none) :
    outlineFrom keyword n lines = ⟨none,[]⟩ := by
  rcases outlineFrom_cases keyword n lines with ⟨_,hempty⟩ | ⟨_,_,_,_,_,_,houtline⟩
  · exact hempty
  · rw [houtline] at h
    cases h

theorem explain_unbound {keyword : String} {s : Text}
    (h : (outlineFrom keyword 1 (lines s)).declaration = none) (t : Text) :
    (outlineFrom keyword 1 (lines (s ++ newline :: t))).explain =
      (outlineFrom keyword 1 (lines t)).explain := by
  rw [lines_append,outlineFrom_append_of_unbound h]
  exact explain_outlineFrom keyword _ 1 _

/-- What a source declares can be declared again in a line of its own. -/
theorem outlineFrom_declarationLine {keyword : String} {n : Nat} {s : Text} {d : Declaration}
    (h : (outlineFrom keyword n (lines s)).declaration = some d) (t : Text) :
    outlineFrom keyword 1 (lines (declarationLine keyword d.name d.qubits ++ newline :: t)) =
      ⟨some d,callsFrom keyword d.name 2 (lines t)⟩ := by
  obtain ⟨line,hline,hbinds⟩ := exists_binds h
  have hkeyword := hbinds.keyword (not_mem_lines hline)
  have hagain := binds_declarationLine keyword hbinds.name hbinds.qubits_lt
  have hbinding := (binding?_eq_some_iff _ _ _).mpr hagain
  rw [lines_append,lines_declarationLine hkeyword hbinds.name,List.singleton_append,outlineFrom,
    hbinding]

theorem explain_bound {keyword : String} {s : Text} {d : Declaration}
    (h : (outlineFrom keyword 1 (lines s)).declaration = some d) (t : Text) :
    (outlineFrom keyword 1 (lines (s ++ newline :: t))).explain =
      (outlineFrom keyword 1 (lines s)).explain.followedBy
        (outlineFrom keyword 1
          (lines (declarationLine keyword d.name d.qubits ++ newline :: t))).explain := by
  have hs : outlineFrom keyword 1 (lines s) = ⟨some d,(outlineFrom keyword 1 (lines s)).calls⟩ := by
    rw [← h]
  have hcalls := explained_callsFrom keyword d.name 2 (1 + (lines s).length) (lines t)
  rw [lines_append,outlineFrom_append_of_bound h,explain_append,← hs,outlineFrom_declarationLine h t]
  exact congrArg _ (explain_congr rfl hcalls.symm)

end Outline

open Outline

/-- A source put behind another is explained as the source it is if the other declares nothing, and
else as what goes on with the circuit that is declared already, as if a line before it declared this
circuit alone. What is recognized stays so whatever is put behind it. -/
theorem explain_compositional (constructor : String) (s t : Text) :
    let e := explainSource constructor
    let keyword := if constructor = "" then "QuantumCircuit" else constructor
    ((e s).circuit.name = [] → e (s ++ "\n" ++ t) = e t) ∧
    ((e s).circuit.name ≠ [] → e (s ++ "\n" ++ t) = (e s).followedBy
      (e (declarationLine keyword (e s).circuit.name (e s).circuit.qubits ++ "\n" ++ t))) ∧
    (e s).circuit.gates.getD [] <+: (e (s ++ "\n" ++ t)).circuit.gates.getD [] ∧
    (e s).document.blocks.getD [] <+: (e (s ++ "\n" ++ t)).document.blocks.getD [] := by
  intro e keyword
  have hkeyword : constructorOrDefault constructor = keyword := by
    simp [constructorOrDefault,defaultConstructor,String.isEmpty_iff,keyword]
  have he (source : Text) : e source = (outlineFrom keyword 1 (lines source)).explain := by
    rw [← hkeyword]
    rfl
  have hseam (x : Text) : x ++ "\n" ++ t = x ++ newline :: t := List.append_assoc x [newline] t
  have hname : (e s).circuit.name = (outlineFrom keyword 1 (lines s)).name := by
    rw [he]
    rfl
  cases hdeclaration : (outlineFrom keyword 1 (lines s)).declaration with
  | none =>
    refine ⟨?_,?_,?_⟩
    · intro _
      rw [hseam,he,he,explain_unbound hdeclaration]
    · intro hne
      rw [hname] at hne
      exact absurd (name_eq_nil_iff.mpr hdeclaration) hne
    · rw [he s,outlineFrom_of_unbound hdeclaration]
      exact ⟨List.nil_prefix,List.nil_prefix⟩
  | some d =>
    have hbound : e (s ++ "\n" ++ t) = (e s).followedBy
        (e (declarationLine keyword (e s).circuit.name (e s).circuit.qubits ++ "\n" ++ t)) := by
      have hexplain := explain_bound hdeclaration t
      have hd : (e s).circuit.name = d.name ∧ (e s).circuit.qubits = d.qubits := by
        rw [he,explain,name,qubits,hdeclaration]
        exact ⟨rfl,rfl⟩
      rw [hd.1,hd.2,hseam,hseam,he,he,he,hexplain]
    refine ⟨?_,fun _ => hbound,?_⟩
    · intro hnil
      rw [hname,name_eq_nil_iff,hdeclaration] at hnil
      cases hnil
    · rw [hbound,Explanation.followedBy,getD_merge,getD_merge]
      exact ⟨List.prefix_append _ _,List.prefix_append _ _⟩

end CircuitNotes
