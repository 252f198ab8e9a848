import CircuitNotes.Proofs.SourceComposition

/-! Lines that start with a number sign. They are never calls, since these start with a name; but a
declaration may stand anywhere in its line, and one behind the sign counts like any other. -/
namespace CircuitNotes
namespace Outline

open Line

def Comment (line : Text) : Prop := ∃ rest, line = '#'.toUInt8 :: rest

def CallLine (keyword : String) (name line : Text) : Prop :=
  (∀ u w d, ¬Splits keyword line u w d) ∧ ∃ m a, Calls name line m a

/-- Lines among which a declaration is made, as the first that binds and before any call on its
name. -/
def Redeclares (keyword : String) (d : Declaration) (lines : List Text) : Prop :=
  ∃ above line below, lines = above ++ line :: below ∧ Binds keyword line d ∧
    ∀ line' ∈ above, (∀ d', ¬Binds keyword line' d') ∧ ¬CallLine keyword d.name line'

/-! ### Comments and empty lines -/

theorem Comment.not_callLine {name line : Text} (h : Comment line) (hname : Name name)
    (keyword : String) : ¬CallLine keyword name line := by
  rintro ⟨_,m,a,more,hline,_⟩
  obtain ⟨rest,rfl⟩ := h
  obtain ⟨b,name,rfl⟩ := List.exists_cons_of_ne_nil hname.1
  obtain ⟨hsign,_⟩ := List.cons.inj hline
  have hword := hname.2 b List.mem_cons_self
  have hno : ¬(Start '#'.toUInt8 ∨ Digit '#'.toUInt8) := by decide
  rw [← hsign] at hword
  exact hno hword

theorem not_callLine_nil (keyword : String) (name : Text) : ¬CallLine keyword name [] := by
  rintro ⟨_,m,a,rest,hnil,⟨b,more,rfl,_⟩,_⟩
  simp only [List.nil_eq,List.append_eq_nil_iff,List.cons_ne_nil,and_false,false_and] at hnil

/-! ### Lines that add no calls -/

theorem callsFrom_cons_of_not_call {keyword : String} {name line : Text}
    (h : ¬CallLine keyword name line) (n : Nat) (below : List Text) :
    callsFrom keyword name n (line :: below) = callsFrom keyword name (n + 1) below := by
  rw [callsFrom]
  split
  · rename_i m a hdeclaration hcall
    refine absurd ⟨?_,m,a,?_⟩ h
    · exact (declaration?_eq_none_iff keyword line).mp hdeclaration
    · exact (call?_eq_some_iff name line m a).mp hcall
  · rfl

theorem callsFrom_eq_nil_iff (keyword : String) (name : Text) (n : Nat) (lines : List Text) :
    callsFrom keyword name n lines = [] ↔ ∀ line ∈ lines, ¬CallLine keyword name line := by
  constructor
  · rintro h line hline ⟨hplain,m,a,hcalls⟩
    obtain ⟨j,hj⟩ := List.mem_iff_getElem?.mp hline
    have hmem := (mem_callsFrom keyword name n lines ⟨n + j,m,a⟩).mpr ⟨j,line,hj,rfl,hplain,hcalls⟩
    rw [h] at hmem
    cases hmem
  · intro h
    apply List.eq_nil_iff_forall_not_mem.mpr
    intro c hc
    obtain ⟨j,line,hj,_,hplain,hcalls⟩ := (mem_callsFrom keyword name n lines c).mp hc
    exact h line (List.mem_of_getElem? hj) ⟨hplain,_,_,hcalls⟩

theorem not_callLine_of_binds {keyword : String} {name line : Text} {d : Declaration}
    (h : Binds keyword line d) : ¬CallLine keyword name line := by
  rintro ⟨hplain,_⟩
  obtain ⟨digits,⟨u,hsplits,_⟩,_⟩ := h
  exact hplain _ _ _ hsplits

/-! ### Where the circuit is declared -/

theorem unbound_iff {keyword : String} {n : Nat} {lines : List Text} :
    (outlineFrom keyword n lines).declaration = none ↔
      ∀ line ∈ lines, ∀ d, ¬Binds keyword line d := by
  rcases outlineFrom_cases keyword n lines with
    ⟨hnone,hempty⟩ | ⟨i,line,d,hline,hbinds,_,houtline⟩
  · rw [hempty]
    exact ⟨fun _ => hnone,fun _ => rfl⟩
  · rw [houtline]
    constructor
    · intro h
      cases h
    · intro hnone
      exact absurd hbinds (hnone line (List.mem_of_getElem? hline) d)

/-- Lines read from a declaration on, as they are read when they have to make it themselves. -/
theorem outlineFrom_eq_iff_redeclares (keyword : String) (n : Nat) (lines : List Text)
    (d : Declaration) :
    outlineFrom keyword n lines = ⟨some d,callsFrom keyword d.name n lines⟩ ↔
      Redeclares keyword d lines := by
  -- Both sides are compared line by line at the declaration.
  have hcut (above : List Text) (line : Text) (below : List Text) (hbinds : Binds keyword line d) :
      callsFrom keyword d.name n (above ++ line :: below) = callsFrom keyword d.name n above ++
        callsFrom keyword d.name (n + above.length + 1) below := by
    rw [callsFrom_append,callsFrom_cons_of_not_call (not_callLine_of_binds hbinds)]
  constructor
  · intro h
    rcases outlineFrom_cases keyword n lines with
      ⟨_,hempty⟩ | ⟨i,line,d',hline,hbinds,hearlier,houtline⟩
    · rw [h] at hempty
      cases hempty
    · rw [h,Outline.mk.injEq,Option.some.injEq] at houtline
      obtain ⟨rfl,hcalls⟩ := houtline
      obtain ⟨hi,rfl⟩ := List.getElem?_eq_some_iff.mp hline
      have hlines : lines = lines.take i ++ lines[i] :: lines.drop (i + 1) := by
        rw [List.getElem_cons_drop,List.take_append_drop]
      have hlength : (lines.take i).length = i := List.length_take_of_le (Nat.le_of_lt hi)
      have hnone : callsFrom keyword d.name n (lines.take i) = [] := by
        have hboth := hcut (lines.take i) _ (lines.drop (i + 1)) hbinds
        rw [← hlines,hlength,hcalls] at hboth
        exact List.self_eq_append_left.mp hboth
      refine ⟨_,_,_,hlines,hbinds,?_⟩
      intro line' hline'
      exact ⟨hearlier line' hline',(callsFrom_eq_nil_iff _ _ _ _).mp hnone line' hline'⟩
  · rintro ⟨above,line,below,rfl,hbinds,habove⟩
    have hunbound := unbound_iff (n:=n).mpr fun line' hline' => (habove line' hline').1
    have hnone := (callsFrom_eq_nil_iff keyword d.name n above).mpr fun line' hline' =>
      (habove line' hline').2
    have hbinding := (binding?_eq_some_iff keyword line d).mpr hbinds
    rw [hcut above line below hbinds,hnone,List.nil_append,outlineFrom_append_of_unbound hunbound,
      outlineFrom,hbinding]

/-! ### Comments among other lines -/

theorem outline_eq_of_explain_eq {o : Outline} {d : Declaration} {calls : List Call}
    (hname : d.name ≠ []) (hexplain : o.explain = explain ⟨some d,calls⟩) (hcalls : o.calls = calls) :
    o = ⟨some d,calls⟩ := by
  obtain ⟨declaration,calls'⟩ := o
  have hsame := congrArg (fun e : Explanation => (e.circuit.name,e.circuit.qubits)) hexplain
  simp only [explain,name,qubits,Prod.mk.injEq,Option.map_some,Option.getD_some] at hsame
  cases declaration with
  | none => exact absurd hsame.1.symm hname
  | some d' =>
    obtain ⟨w,q⟩ := d
    obtain ⟨w',q'⟩ := d'
    simp only [Option.map_some,Option.getD_some,Int.natCast_inj] at hsame
    obtain ⟨rfl,rfl⟩ := hsame
    exact congrArg _ hcalls

theorem outlineFrom_comment_of_bound {keyword : String} {n : Nat} {line : Text} {above : List Text}
    {d : Declaration} (hcomment : Comment line)
    (h : (outlineFrom keyword n above).declaration = some d) (below : List Text) :
    outlineFrom keyword n (above ++ [] :: below) = outlineFrom keyword n (above ++ line :: below) := by
  obtain ⟨_,_,hbinds⟩ := exists_binds h
  have hskip := hcomment.not_callLine hbinds.name keyword
  rw [outlineFrom_append_of_bound h,outlineFrom_append_of_bound h,callsFrom_cons_of_not_call hskip,
    callsFrom_cons_of_not_call (not_callLine_nil keyword d.name)]

theorem outlineFrom_blank (keyword : String) (n : Nat) (below : List Text) :
    outlineFrom keyword n ([] :: below) = outlineFrom keyword (n + 1) below := rfl

theorem comment_replaceable_iff (keyword : String) (n : Nat) {line : Text} (hcomment : Comment line)
    (above below : List Text) :
    ((outlineFrom keyword n (above ++ [] :: below)).explain =
        (outlineFrom keyword n (above ++ line :: below)).explain ∧
      (outlineFrom keyword n (above ++ [] :: below)).calls =
        (outlineFrom keyword n (above ++ line :: below)).calls) ↔
    ∀ d, Binds keyword line d →
      (∃ line' ∈ above, ∃ d', Binds keyword line' d') ∨ Redeclares keyword d below := by
  cases habove : (outlineFrom keyword n above).declaration with
  | some d =>
    obtain ⟨line',hline',hbinds⟩ := exists_binds habove
    rw [outlineFrom_comment_of_bound hcomment habove]
    exact ⟨fun _ _ _ => Or.inl ⟨line',hline',d,hbinds⟩,fun _ => ⟨rfl,rfl⟩⟩
  | none =>
    have hnone := unbound_iff.mp habove
    rw [outlineFrom_append_of_unbound habove,outlineFrom_append_of_unbound habove,outlineFrom_blank]
    cases hbinding : binding? keyword line with
    | none =>
      have hnever := (binding?_eq_none_iff keyword line).mp hbinding
      rw [outlineFrom.eq_2,hbinding]
      exact ⟨fun _ d hd => absurd hd (hnever d),fun _ => ⟨rfl,rfl⟩⟩
    | some d =>
      have hbinds := (binding?_eq_some_iff keyword line d).mp hbinding
      have hwhole (m : Nat) : outlineFrom keyword m (line :: below) =
          ⟨some d,callsFrom keyword d.name (m + 1) below⟩ := by
        rw [outlineFrom,hbinding]
      rw [hwhole]
      constructor
      · rintro ⟨hexplain,hcalls⟩ d' hd'
        have hsame := (binding?_eq_some_iff keyword line d').mpr hd'
        rw [hbinding] at hsame
        obtain rfl := Option.some.inj hsame
        have houtline := outline_eq_of_explain_eq hbinds.name.1 hexplain hcalls
        exact Or.inr ((outlineFrom_eq_iff_redeclares ..).mp houtline)
      · intro h
        rcases h d hbinds with ⟨line',hline',d',hd'⟩ | hagain
        · exact absurd hd' (hnone line' hline' d')
        · rw [(outlineFrom_eq_iff_redeclares ..).mpr hagain]
          exact ⟨rfl,rfl⟩

/-- A source with another text in the place of its line with the index `i`. -/
def replaceLine (source : Text) (i : Nat) (line : Text) : Text :=
  Text.joinWith "\n" ((source.splitOn newline).set i line)

theorem lines_replaceLine (source : Text) (i : Nat) {line : Text} (h : newline ∉ line) :
    lines (replaceLine source i line) = (lines source).set i line.trim := by
  have hbreak : Text.ofString "\n" = [newline] := by decide
  have hpieces : ∀ piece ∈ (source.splitOn newline).set i line, newline ∉ piece := by
    intro piece hpiece
    rcases List.mem_or_eq_of_mem_set hpiece with hpiece | rfl
    · exact not_mem_splitOn newline source piece hpiece
    · exact h
  have hne : (source.splitOn newline).set i line ≠ [] := by
    simpa using Text.splitOn_ne_nil newline source
  rw [lines,replaceLine,hbreak,Text.splitOn_joinWith hne hpieces,List.map_set]
  rfl

end Outline

open Outline

/-- Blanking a comment changes the explanation of a source or its calls exactly if the comment makes
the declaration that binds, and it is not made again below before anything is done with it. -/
theorem comment_inert_iff (constructor : String) {source comment blank : Text} {i : Nat}
    (hline : (source.splitOn newline)[i]? = some comment)
    (hcomment : ∃ rest, comment.trim = '#'.toUInt8 :: rest)
    (hblank : newline ∉ blank ∧ blank.trim = []) :
    (explainSource constructor (replaceLine source i blank) = explainSource constructor source ∧
      (ofSource constructor (replaceLine source i blank)).calls =
        (ofSource constructor source).calls) ↔
    ∀ d, Binds (constructorOrDefault constructor) comment.trim d →
      (∃ line ∈ (lines source).take i, ∃ d', Binds (constructorOrDefault constructor) line d') ∨
        Redeclares (constructorOrDefault constructor) d ((lines source).drop (i + 1)) := by
  have hcommentLine : (lines source)[i]? = some comment.trim := by
    rw [lines,List.getElem?_map,hline,Option.map_some]
  obtain ⟨hi,hat⟩ := List.getElem?_eq_some_iff.mp hcommentLine
  have hwhole : lines source =
      (lines source).take i ++ comment.trim :: (lines source).drop (i + 1) := by
    rw [← hat,List.getElem_cons_drop,List.take_append_drop]
  have hblanked : lines (replaceLine source i blank) =
      (lines source).take i ++ [] :: (lines source).drop (i + 1) := by
    rw [lines_replaceLine source i hblank.1,hblank.2,List.set_eq_take_append_cons_drop,if_pos hi]
  have h := comment_replaceable_iff (constructorOrDefault constructor) 1 hcomment
    ((lines source).take i) ((lines source).drop (i + 1))
  rw [← hwhole,← hblanked] at h
  exact h

def sampleRepeated : Text := "  # q = QuantumCircuit(1)\nq = QuantumCircuit(1)\nq.h(0)\n"

theorem comment_inert_sample :
    (sampleRepeated.splitOn newline)[0]? = some (Text.ofString "  # q = QuantumCircuit(1)") ∧
    Binds "QuantumCircuit" "# q = QuantumCircuit(1)" ⟨"q",1⟩ ∧
    explainSource "" (replaceLine sampleRepeated 0 "\t") = explainSource "" sampleRepeated ∧
    (ofSource "" (replaceLine sampleRepeated 0 "\t")).calls = (ofSource "" sampleRepeated).calls := by
  have hline : (sampleRepeated.splitOn newline)[0]? =
      some (Text.ofString "  # q = QuantumCircuit(1)") := by decide +kernel
  have htrim : (Text.ofString "  # q = QuantumCircuit(1)").trim =
      Text.ofString "# q = QuantumCircuit(1)" := by decide +kernel
  have hbinding : binding? "QuantumCircuit" (Text.ofString "# q = QuantumCircuit(1)") =
      some ⟨"q",1⟩ := by decide +kernel
  have hagain : binding? "QuantumCircuit" (Text.ofString "q = QuantumCircuit(1)") =
      some ⟨"q",1⟩ := by decide +kernel
  have hbelow : (lines sampleRepeated).drop 1 =
      [] ++ Text.ofString "q = QuantumCircuit(1)" :: ["q.h(0)",[]] := by decide +kernel
  refine ⟨hline,(binding?_eq_some_iff _ _ _).mp hbinding,?_⟩
  refine (comment_inert_iff "" hline ⟨Text.ofString " q = QuantumCircuit(1)",htrim⟩
    ⟨by decide,by decide +kernel⟩).mpr ?_
  intro d hd
  rw [htrim,← binding?_eq_some_iff] at hd
  obtain rfl := Option.some.inj (hbinding.symm.trans hd)
  exact Or.inr ⟨[],_,_,hbelow,(binding?_eq_some_iff _ _ _).mp hagain,by simp⟩

def sampleCommented : Text := "# q = QuantumCircuit(1)\nq.h(0)\n"

/-- A declaration binds from within a comment, so that a call below is explained. -/
theorem commented_declaration_binds :
    (∃ rest, ((sampleCommented.splitOn newline).map Text.trim)[0]? = some ('#'.toUInt8 :: rest)) ∧
    replaceLine sampleCommented 0 [] = Text.ofString "\nq.h(0)\n" ∧
    (explainSource "" sampleCommented).circuit.name = Text.ofString "q" ∧
    (ofSource "" sampleCommented).calls = [⟨2,"h","0"⟩] ∧
    (explainSource "" (replaceLine sampleCommented 0 [])).circuit.name = [] ∧
    (ofSource "" (replaceLine sampleCommented 0 [])).calls = [] := by
  refine ⟨⟨Text.ofString " q = QuantumCircuit(1)",by decide +kernel⟩,by decide +kernel,
    by decide +kernel,by decide +kernel,by decide +kernel,by decide +kernel⟩

end CircuitNotes
