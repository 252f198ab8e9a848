import CircuitNotes.Proofs.StoredRecords
import CircuitNotes.Source.Outline

/-! The stored form of a record gives back the explanation in it. Whatever the clocks have said, all that
is asked for is a stored form that is not too long as a whole: then its parts are not, either, and the
numbers in an explanation have 64 bits. -/
namespace CircuitNotes

theorem Short.of_infix {α : Type} {part whole : List α} (h : Short whole) (hpart : part <:+: whole) :
    Short part := Nat.lt_of_le_of_lt hpart.length_le h

/-- A circuit whose numbers have 64 bits. -/
def Circuit.HasLongNumbers (c : Circuit) : Prop :=
  Long c.qubits ∧ ∀ gs, c.gates = some gs → ∀ g ∈ gs, ∀ qs, g.qubits = some qs → ∀ q ∈ qs, Long q

/-! ### The parts of a stored form -/

namespace Packed

open MessagePack

theorem short_of_text {t : Text} (h : Short (writeText t)) : Short t :=
  h.of_infix (List.suffix_append _ t).isInfix

theorem short_of_field {fields : List (String × Text)} (h : Short (writeFields fields)) (name : String)
    {t : Text} (hfield : (name,t) ∈ fields) : Short t := by
  obtain ⟨before,after,rfl⟩ := List.append_of_mem hfield
  have hfields : writeText name ++ t <:+:
      (before ++ (name,t) :: after).flatMap fun f => writeText f.1 ++ f.2 := by
    rw [List.flatMap_append,List.flatMap_cons]
    exact (List.prefix_append _ _).isInfix.trans (List.suffix_append _ _).isInfix
  have ht : t <:+: writeText name ++ t := (List.suffix_append _ t).isInfix
  have hbody : Short ((before ++ (name,t) :: after).flatMap fun f => writeText f.1 ++ f.2) := by
    rw [writeFields] at h
    exact h.of_infix (List.suffix_cons _ _).isInfix
  exact hbody.of_infix (ht.trans hfields)

/-- There are no more items than bytes, if none of them is written as nothing. -/
theorem short_items {α : Type} {write : α → Text} {items : List α} (hwrite : ∀ a, write a ≠ [])
    (h : Short (writeList (items.map write))) : Short items ∧ ∀ a ∈ items, Short (write a) := by
  have hitems : (items.map write).flatten <:+: writeList (items.map write) :=
    (List.suffix_append _ _).isInfix
  have hcount : items.length ≤ (items.map write).flatten.length := by
    clear h hitems
    induction items with
    | nil => simp
    | cons a items ih =>
      have hpos : 0 < (write a).length := List.length_pos_iff.mpr (hwrite a)
      simp only [List.map_cons,List.flatten_cons,List.length_append,List.length_cons]
      omega
  refine ⟨Nat.lt_of_le_of_lt hcount (h.of_infix hitems),?_⟩
  intro a ha
  exact h.of_infix ((List.infix_of_mem_flatten (List.mem_map_of_mem ha)).trans hitems)

theorem writeFields_ne_nil (fields : List (String × Text)) : writeFields fields ≠ [] :=
  List.cons_ne_nil _ _

theorem writeText_ne_nil (t : Text) : writeText t ≠ [] := by
  simp only [writeText]
  split_ifs <;> simp

theorem writeInt_ne_nil (i : Int) : writeInt i ≠ [] := by
  have hone : bigEndianInt 1 i ≠ [] := by
    rw [← List.length_pos_iff,length_bigEndianInt]
    decide
  simp only [writeInt,writeLong]
  split_ifs <;> simp [hone]

theorem shortTexts_of_field {fields : List (String × Text)} (h : Short (writeFields fields))
    (name : String) {ts : List Text} (hfield : ts ≠ [] → (name,texts ts) ∈ fields) :
    ShortTexts ts := by
  by_cases hempty : ts = []
  · subst hempty
    exact ⟨by decide,by simp⟩
  · obtain ⟨hcount,hall⟩ := short_items writeText_ne_nil (short_of_field h name (hfield hempty))
    exact ⟨hcount,fun t ht => short_of_text (hall t ht)⟩

theorem storable_gate {g : Gate} (h : Short (gate g))
    (hlong : ∀ qs, g.qubits = some qs → ∀ q ∈ qs, Long q) : g.Storable where
  name := short_of_text (short_of_field h "name" (by simp))
  qubits := by
    intro qs hqs
    have hfield : Short (list? writeInt g.qubits) := short_of_field h "qubits" (by simp)
    rw [hqs] at hfield
    exact ⟨(short_items writeInt_ne_nil hfield).1,hlong qs hqs⟩
  params := shortTexts_of_field h "params" (by simp +contextual)
  unresolved := shortTexts_of_field h "unresolved" (by simp +contextual)

theorem storable_circuit {c : Circuit} (h : Short (circuit c)) (hnumbers : c.HasLongNumbers) :
    c.Storable where
  name := short_of_text (short_of_field h "circuit_name" (by simp))
  qubits := hnumbers.1
  gates := by
    intro gs hgs
    have hfield : Short (list? gate c.gates) := short_of_field h "gates" (by simp)
    rw [hgs] at hfield
    obtain ⟨hshort,hall⟩ := short_items (fun g => writeFields_ne_nil _) hfield
    exact ⟨hshort,fun g hg => storable_gate (hall g hg) (hnumbers.2 gs hgs g hg)⟩

theorem storable_document {d : Document} (h : Short (document d)) : d.Storable := by
  intro bs hbs
  have hfield : Short (list? block d.blocks) := short_of_field h "blocks" (by simp)
  rw [hbs] at hfield
  obtain ⟨hshort,hall⟩ := short_items (fun b => writeFields_ne_nil _) hfield
  refine ⟨hshort,?_⟩
  intro b hb
  exact ⟨short_of_text (short_of_field (hall b hb) "heading" (by simp)),
    short_of_text (short_of_field (hall b hb) "explanation" (by simp))⟩

/-! ### Any times -/

/-- Eight bytes hold an integer up to multiples of 2^64. -/
theorem exists_holds_long (i : Int) : ∃ i', Holds 1 (writeLong i) int? i' := by
  have hspan : (byteSpan 8 : Int) = (2^64 : Nat) := rfl
  have hsame : writeLong (Int.bmod i (2^64)) = writeLong i := by
    simp only [writeLong,bigEndianInt,hspan,Int.bmod_emod]
  have hlow : -((2^64 : Nat) / 2 : Int) ≤ Int.bmod i (2^64) := Int.le_bmod (by decide)
  have hhigh : Int.bmod i (2^64) < ((2^64 : Nat) + 1) / 2 := Int.bmod_lt (by decide)
  refine ⟨Int.bmod i (2^64),?_⟩
  rw [← hsame]
  exact holds_long ⟨by omega,by omega⟩

theorem exists_holds_instant (t : Instant) :
    ∃ t', ∀ old, Holds 1 (instant t) (instantOver? · old) t' := by
  have hunderstood (data : Text) (h : data.length = 4 ∨ data.length = 8 ∨ data.length = 12) :
      ∃ t', ∀ old, instantOver? (.extension instantKind data) old = some t' := by
    simp only [instantOver?_extension]
    rcases h with h | h | h <;> simp [instant?,h]
  simp only [instant]
  split_ifs
  · obtain ⟨t',ht'⟩ := hunderstood _ (Or.inl (length_bigEndian 4 _))
    exact ⟨t',fun old => ⟨_,written_extension _ (length_bigEndian 4 _) fun _ _ => rfl,ht' old⟩⟩
  · obtain ⟨t',ht'⟩ := hunderstood _ (Or.inr (Or.inl (length_bigEndian 8 _)))
    exact ⟨t',fun old => ⟨_,written_extension _ (length_bigEndian 8 _) fun _ _ => rfl,ht' old⟩⟩
  · have hlength : (bigEndian 4 t.nanos ++ bigEndianInt 8 t.seconds).length = 12 := by simp
    obtain ⟨t',ht'⟩ := hunderstood _ (Or.inr (Or.inr hlength))
    exact ⟨t',fun old => ⟨_,written_twelve instantKind hlength,ht' old⟩⟩

/-- Numbers of 64 bits are all that a record needs whose stored form is short. -/
theorem read?_explanation {r : Record} (h : Short (record r)) (hnumbers : r.circuit.HasLongNumbers) :
    ∃ r', read? (record r) = some (r',[]) ∧ r'.hash = r.hash ∧ r'.explanation = r.explanation := by
  have hpath : Short r.path := short_of_text (short_of_field h "path" (by simp))
  have hhash : Short r.hash := short_of_text (short_of_field h "hash" (by simp))
  have hcircuit : r.circuit.Storable :=
    storable_circuit (short_of_field h "result" (by simp)) hnumbers
  have hdocument : r.document.Storable :=
    storable_document (short_of_field h "document" (by simp))
  obtain ⟨modified,hmodified⟩ := exists_holds_long r.modified
  obtain ⟨explainedAt,hinstant⟩ := exists_holds_instant r.explainedAt
  obtain ⟨v,hv,hr⟩ := holds_record_as hpath hhash hmodified hcircuit hdocument hinstant
  have hread : MessagePack.read? (record r) = some (v,[]) := by
    simpa [MessagePack.read?] using hv _ (six_le_length_record r) []
  refine ⟨⟨r.path,r.hash,modified,r.circuit,r.document,explainedAt⟩,?_,rfl,rfl⟩
  simp [read?,hread,hr,RecordDraft.record,CircuitDraft.circuit]

end Packed

/-! ### The numbers in an explanation -/

theorem Outline.qubits_lt (keyword : String) (n : Nat) (ls : List Text) {d : Declaration}
    (h : (outlineFrom keyword n ls).declaration = some d) : d.qubits < countLimit := by
  induction ls generalizing n with
  | nil => cases h
  | cons line rest ih =>
    rw [outlineFrom] at h
    cases hbinding : binding? keyword line with
    | none =>
      rw [hbinding] at h
      exact ih (n+1) h
    | some d' =>
      rw [hbinding] at h
      cases h
      obtain ⟨⟨name,count⟩,_,hbinds⟩ := Option.bind_eq_some_iff.mp hbinding
      simp only at hbinds
      split_ifs at hbinds with hlt
      cases hbinds
      exact hlt

theorem Operands.long_of_mem_qubits (arity : Arity) (args : List Argument) {q : Int}
    (h : q ∈ (classify arity args).qubits) : Long q := by
  obtain ⟨slot,hslot,hq⟩ := List.mem_filterMap.mp h
  obtain ⟨a,_,rfl⟩ := List.mem_map.mp hslot
  obtain ⟨n,hn,rfl⟩ := Option.map_eq_some_iff.mp hq
  have hle := Argument.qubit?_le hn
  rw [Argument.maxQubit] at hle
  simp only [Long,Int.ofNat_eq_natCast]
  omega

theorem hasLongNumbers_explainSource (constructor : String) (source : Text) :
    (explainSource constructor source).circuit.HasLongNumbers := by
  refine ⟨?_,?_⟩
  · change Long ((Outline.ofSource constructor source).qubits : Int)
    have hlt : (Outline.ofSource constructor source).qubits < Outline.countLimit := by
      rw [Outline.qubits]
      cases hdeclared : (Outline.ofSource constructor source).declaration with
      | none => decide
      | some d => exact Outline.qubits_lt _ _ _ hdeclared
    have hlimit : Outline.countLimit = 2^63 := rfl
    simp only [Long]
    omega
  · rintro gs ⟨⟩ g hg qs hqs q hq
    obtain ⟨⟨g',b⟩,hknown,rfl⟩ := List.mem_map.mp hg
    obtain ⟨call,_,hcall⟩ := List.mem_filterMap.mp hknown
    obtain ⟨e,_,he⟩ := Option.map_eq_some_iff.mp hcall
    cases he
    cases hqs
    exact Operands.long_of_mem_qubits _ _ hq

end CircuitNotes
