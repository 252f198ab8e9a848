import Mathlib.Data.List.Nodup
import CircuitNotes.Proofs.DocumentReading

/-! The roles of arguments. Between its commas each argument of a call has its own place; an arity gives
the first places to parameters and the next to slots, and leaves nothing out between them. So what a call
tells about one argument does not depend on what the others are. -/
namespace CircuitNotes

/-! ### Arguments between commas -/

namespace Argument

theorem solid_comma : Text.Solid comma := by
  constructor <;> decide

theorem split_of_last {raw : Text} (h : ((raw.splitOn comma).map Text.trim).getLast? ≠ some []) :
    split raw = (raw.splitOn comma).map fun piece => ofText piece.trim := by
  have hpieces := Text.map_trim_splitOn_trim solid_comma raw
  have hcomma : dropComma raw.trim = raw.trim := by
    refine if_neg fun hlast => h ?_
    obtain ⟨front,hfront⟩ := List.getLast?_eq_some_iff.mp hlast
    rw [← hpieces,hfront,Text.splitOn_append]
    simp [Text.splitOn]
  have hblank : raw.trim.trim.isEmpty = false := by
    rw [Bool.eq_false_iff]
    intro hempty
    apply h
    rw [← hpieces,← Text.map_trim_splitOn_trim solid_comma,List.isEmpty_iff.mp hempty]
    simp [Text.splitOn]
  simp only [split,hcomma,hblank,Bool.false_eq_true,if_false]
  have hmap := congrArg (List.map ofText) hpieces
  rwa [List.map_map,List.map_map] at hmap

/-- Texts without commas, of which the last is not blank. -/
structure Joinable (texts : List Text) : Prop where
  nonempty : texts ≠ []
  commas : ∀ t ∈ texts, comma ∉ t
  last : ∀ t, texts.getLast? = some t → t.trim ≠ []

theorem Joinable.split_joinWith {texts : List Text} (h : Joinable texts) :
    split (Text.joinWith [comma] texts) = texts.map fun t => ofText t.trim := by
  have hsplit := Text.splitOn_joinWith h.nonempty h.commas
  rw [split_of_last,hsplit]
  rw [hsplit,List.getLast?_map]
  intro hlast
  obtain ⟨t,ht,hblank⟩ := Option.map_eq_some_iff.mp hlast
  exact h.last t ht hblank

theorem Joinable.set {texts : List Text} (h : Joinable texts) {i : Nat} {t : Text} (ht : comma ∉ t)
    (hlast : i+1 = texts.length → t.trim ≠ []) : Joinable (texts.set i t) := by
  refine ⟨by simpa using h.nonempty,?_,?_⟩
  · intro u hu
    rcases List.mem_or_eq_of_mem_set hu with hu | rfl
    · exact h.commas u hu
    · exact ht
  · intro u hu
    rw [List.getLast?_eq_getElem?,List.length_set,List.getElem?_set] at hu
    split_ifs at hu with hi hlt
    · obtain rfl := Option.some.inj hu
      exact hlast (by omega)
    · rw [← List.getLast?_eq_getElem?] at hu
      exact h.last u hu

end Argument

/-! ### Roles by position -/

namespace Arity

theorem paramCount_le_keptCount (arity : Arity) (n : Nat) : arity.paramCount n ≤ arity.keptCount n := by
  cases arity <;> simp only [paramCount,keptCount] <;> omega

theorem keptCount_le (arity : Arity) (n : Nat) : arity.keptCount n ≤ n := by
  cases arity <;> simp only [keptCount] <;> omega

end Arity

namespace Operands

variable (arity : Arity) (args : List Argument)

theorem length_params : (classify arity args).params.length = arity.paramCount args.length := by
  have hparams := arity.paramCount_le_keptCount args.length
  have hkept := arity.keptCount_le args.length
  simp only [classify,List.length_map,List.length_take]
  omega

theorem length_slots : (classify arity args).slots.length =
    arity.keptCount args.length - arity.paramCount args.length := by
  have hkept := arity.keptCount_le args.length
  simp only [classify,List.length_map,List.length_drop,List.length_take]
  omega

theorem params_getElem? (j : Nat) : (classify arity args).params[j]? =
    if j < arity.paramCount args.length then args[j]?.map Argument.text else none := by
  simp only [classify,List.getElem?_map,List.getElem?_take]
  split_ifs <;> rfl

theorem slots_getElem? (j : Nat) : (classify arity args).slots[j]? =
    if arity.paramCount args.length + j < arity.keptCount args.length then
      args[arity.paramCount args.length + j]?.map Slot.ofArgument
    else none := by
  simp only [classify,List.getElem?_map,List.getElem?_drop,List.getElem?_take]
  split_ifs <;> rfl

variable (i : Nat) (a : Argument)

theorem length_params_set :
    (classify arity (args.set i a)).params.length = (classify arity args).params.length := by
  rw [length_params,length_params,List.length_set]

theorem length_slots_set :
    (classify arity (args.set i a)).slots.length = (classify arity args).slots.length := by
  rw [length_slots,length_slots,List.length_set]

theorem params_set {j : Nat} (hj : j ≠ i) :
    (classify arity (args.set i a)).params[j]? = (classify arity args).params[j]? := by
  rw [params_getElem?,params_getElem?,List.length_set,List.getElem?_set_ne (Ne.symm hj)]

theorem slots_set {j : Nat} (hj : (classify arity args).params.length + j ≠ i) :
    (classify arity (args.set i a)).slots[j]? = (classify arity args).slots[j]? := by
  rw [length_params] at hj
  rw [slots_getElem?,slots_getElem?,List.length_set,List.getElem?_set_ne (Ne.symm hj)]

end Operands

/-! ### Nothing lost -/

/-- Slots that are made of qubits, of unresolved texts and of so many empty ones, each of the three in
its own order. -/
inductive Interleaved : List Int → List Text → Nat → List Slot → Prop
  | nil : Interleaved [] [] 0 []
  | qubit {qubits : List Int} {texts : List Text} {n : Nat} {slots : List Slot} (text : Text) (i : Int)
      (h : Interleaved qubits texts n slots) :
      Interleaved (i :: qubits) texts n (⟨text,some i⟩ :: slots)
  | unresolved {qubits : List Int} {texts : List Text} {n : Nat} {slots : List Slot} {text : Text}
      (hne : text ≠ []) (h : Interleaved qubits texts n slots) :
      Interleaved qubits (text :: texts) n (⟨text,none⟩ :: slots)
  | empty {qubits : List Int} {texts : List Text} {n : Nat} {slots : List Slot}
      (h : Interleaved qubits texts n slots) : Interleaved qubits texts (n+1) (⟨[],none⟩ :: slots)

theorem Interleaved.length_eq {qubits : List Int} {texts : List Text} {n : Nat} {slots : List Slot}
    (h : Interleaved qubits texts n slots) : qubits.length + texts.length + n = slots.length := by
  induction h with
  | nil => rfl
  | qubit | unresolved | empty =>
    simp only [List.length_cons]
    omega

theorem Operands.exists_interleaved (ops : Operands) :
    ∃ n, Interleaved ops.qubits ops.unresolved n ops.slots := by
  obtain ⟨slots,params⟩ := ops
  simp only [qubits,unresolved]
  induction slots with
  | nil => exact ⟨0,.nil⟩
  | cons s slots ih =>
    obtain ⟨n,hn⟩ := ih
    obtain ⟨text,index⟩ := s
    cases index with
    | some i => exact ⟨n,by simpa using hn.qubit text i⟩
    | none =>
      cases text with
      | nil => exact ⟨n+1,by simpa using hn.empty⟩
      | cons b text => exact ⟨n,by simpa using hn.unresolved (List.cons_ne_nil b text)⟩

/-- How operands are made of the arguments of a call. -/
structure Operands.Accounts (arity : Arity) (args : List Argument) (ops : Operands) : Prop where
  /-- The texts of the first arguments, in their order: two for one angle and a qubit, four for three
  angles and a qubit, and otherwise all. -/
  texts : ops.params ++ ops.slots.map Slot.text = (args.map Argument.text).take
    (if arity = .angleThenQubit then min args.length 2
     else if arity = .threeAnglesThenQubit then min args.length 4 else args.length)
  params : ops.params.length =
    if arity = .angleThenQubit ∨ arity = .angleThenQubits then min args.length 1
    else if arity = .threeAnglesThenQubit then min args.length 3
    else if arity = .anglesThenQubit then args.length - 1 else 0
  /-- A slot has the qubit index of its argument, if that is one. -/
  slot : ∀ j s, ops.slots[j]? = some s → ∃ a, args[ops.params.length + j]? = some a ∧
    s.text = a.text ∧ s.index = a.qubit?.map Int.ofNat
  range : ∀ i ∈ ops.qubits, 0 ≤ i ∧ i ≤ 2 ^ 31 - 1
  interleaved : ∃ n, Interleaved ops.qubits ops.unresolved n ops.slots ∧
    ops.qubits.length + ops.unresolved.length + n = ops.slots.length

theorem Operands.accounts_classify (arity : Arity) (args : List Argument) :
    Accounts arity args (classify arity args) := by
  obtain ⟨n,hn⟩ := (classify arity args).exists_interleaved
  refine ⟨?_,?_,?_,?_,n,hn,hn.length_eq⟩
  · have hkept : arity.keptCount args.length =
        if arity = .angleThenQubit then min args.length 2
        else if arity = .threeAnglesThenQubit then min args.length 4 else args.length := by
      cases arity <;> simp [Arity.keptCount]
    have hfirst : args.take (arity.paramCount args.length) =
        (args.take (arity.keptCount args.length)).take (arity.paramCount args.length) := by
      rw [List.take_take,Nat.min_eq_left (arity.paramCount_le_keptCount args.length)]
    have htext : Slot.text ∘ Slot.ofArgument = Argument.text := rfl
    rw [← hkept,← List.map_take,classify,hfirst,List.map_map,htext,← List.map_append,
      List.take_append_drop]
  · rw [length_params]
    cases arity <;> simp [Arity.paramCount]
  · intro j s hs
    rw [slots_getElem?] at hs
    split_ifs at hs
    obtain ⟨a,ha,rfl⟩ := Option.map_eq_some_iff.mp hs
    rw [length_params]
    exact ⟨a,ha,rfl,rfl⟩
  · intro i hi
    obtain ⟨s,hs,hindex⟩ := List.mem_filterMap.mp hi
    obtain ⟨a,-,rfl⟩ := List.mem_map.mp hs
    obtain ⟨n,hn,rfl⟩ := Option.map_eq_some_iff.mp hindex
    have hle := Argument.qubit?_le hn
    rw [Argument.maxQubit] at hle
    rw [Int.ofNat_eq_natCast]
    omega

/-- No argument is lost, doubled or moved, whatever the number of the arity; a number that stands for no
arity stands for qubits alone. -/
theorem classify_keeps_arguments (code : Int) (args : List Argument) :
    Operands.Accounts (Arity.ofCode code) args (Operands.classify (Arity.ofCode code) args) ∧
    (code < 0 ∨ 4 < code →
      Operands.classify (Arity.ofCode code) args = Operands.classify .qubits args) := by
  refine ⟨Operands.accounts_classify _ args,?_⟩
  intro hcode
  have hother : Arity.ofCode code = .other := by
    unfold Arity.ofCode
    split_ifs <;> first | omega | rfl
  rw [hother]
  rfl

/-! ### One argument replaced -/

/-- What is told about a call of a gate with these arguments. -/
structure CatalogEntry.Tells (e : CatalogEntry) (texts : List Text) (gate : Gate) (block : Block)
    (labels : List Text) : Prop where
  name : gate.name = e.display
  heading : Document.readHeading? block.heading = some (e.display,labels)
  /-- The sentence has its roles from the parameters and the labels. -/
  sentence : ∃ ops : Operands, ops.params = gate.params ∧ ops.slots.map Slot.label = labels ∧
    block.explanation = Template.fill e.template ops
  params : gate.params.length =
    if e.arity = .angleThenQubit ∨ e.arity = .angleThenQubits then min texts.length 1
    else if e.arity = .threeAnglesThenQubit then min texts.length 3
    else if e.arity = .anglesThenQubit then texts.length - 1 else 0
  /-- No argument is left out but those behind one angle and a qubit and behind three angles and a
  qubit. -/
  kept : gate.params.length + labels.length =
    if e.arity = .angleThenQubit then min texts.length 2
    else if e.arity = .threeAnglesThenQubit then min texts.length 4 else texts.length
  param : ∀ j < gate.params.length, ∃ t : Text, texts[j]? = some t ∧ gate.params[j]? = some t.trim
  /-- A label tells the qubit of the argument in its own place, or that it is none. -/
  label : ∀ j < labels.length, ∃ t l : Text,
    texts[gate.params.length + j]? = some t ∧ labels[j]? = some l ∧
    (∀ n, (Argument.ofText t.trim).qubit? = some n → l = Text.ofNat n) ∧
    ((Argument.ofText t.trim).qubit? = none → l = Text.ofString "?") ∧
    (t.trim = [] → l = Text.ofString "?")

theorem Catalog.nodup_mnemonic : (entries.map CatalogEntry.mnemonic).Nodup := by
  decide +kernel

theorem Catalog.find?_mnemonic {e : CatalogEntry} (he : e ∈ entries) :
    find? e.mnemonic = some e := by
  have hsome : (find? e.mnemonic).isSome = true :=
    List.find?_isSome.mpr ⟨e,he,beq_self_eq_true _⟩
  obtain ⟨e',he'⟩ := Option.isSome_iff_exists.mp hsome
  have hsame := List.find?_some he'
  rw [he',List.inj_on_of_nodup_map nodup_mnemonic (List.mem_of_find?_eq_some he') he
    (eq_of_beq hsame)]

theorem Argument.qubit?_ofText_nil : (ofText []).qubit? = none := by
  decide +kernel

def CatalogEntry.operands (e : CatalogEntry) (texts : List Text) : Operands :=
  Operands.classify e.arity (texts.map fun t => Argument.ofText t.trim)

theorem CatalogEntry.explain?_joinWith {e : CatalogEntry} (he : e ∈ Catalog.entries)
    {texts : List Text} (h : Argument.Joinable texts) (line : Nat) :
    Call.explain? ⟨line,e.mnemonic,Text.joinWith [Argument.comma] texts⟩ =
      some (e.gate (e.operands texts),e.block (e.operands texts)) := by
  simp only [Call.explain?,Catalog.find?_mnemonic he,h.split_joinWith,Option.map_some,operands]

theorem CatalogEntry.tells {e : CatalogEntry} (he : e ∈ Catalog.entries) (texts : List Text) :
    e.Tells texts (e.gate (e.operands texts)) (e.block (e.operands texts))
      ((e.operands texts).slots.map Slot.label) := by
  have hslots : ∀ s ∈ (e.operands texts).slots, s.Indexed := by
    intro s hs
    obtain ⟨a,-,rfl⟩ := List.mem_map.mp hs
    exact Slot.indexed_ofArgument a
  have haccounts : Operands.Accounts e.arity (texts.map fun t => Argument.ofText t.trim)
      (e.operands texts) := Operands.accounts_classify _ _
  refine ⟨rfl,readHeading?_heading (Catalog.flat e he).1 hslots,⟨_,rfl,rfl,rfl⟩,?_,?_,?_,?_⟩
  · have hparams := haccounts.params
    rwa [List.length_map] at hparams
  · have hkept := congrArg List.length haccounts.texts
    simp only [List.length_append,List.length_map,List.length_take] at hkept
    rw [List.length_map]
    refine hkept.trans (Nat.min_eq_left ?_)
    split_ifs <;> omega
  · intro j hj
    change j < (e.operands texts).params.length at hj
    have hcount := hj
    rw [operands,Operands.length_params,List.length_map] at hcount
    have hlt : j < texts.length := by
      have hparams := e.arity.paramCount_le_keptCount texts.length
      have hkept := e.arity.keptCount_le texts.length
      omega
    refine ⟨texts[j],List.getElem?_eq_getElem hlt,?_⟩
    change (e.operands texts).params[j]? = _
    rw [operands,Operands.params_getElem?,List.length_map,if_pos hcount,List.getElem?_map,
      List.getElem?_eq_getElem hlt]
    rfl
  · intro j hj
    rw [List.length_map] at hj
    obtain ⟨a,ha,-,hindex⟩ := haccounts.slot j _ (List.getElem?_eq_getElem hj)
    rw [List.getElem?_map] at ha
    obtain ⟨t,ht,rfl⟩ := Option.map_eq_some_iff.mp ha
    have hnone (h : (Argument.ofText t.trim).qubit? = none) :
        (e.operands texts).slots[j].label = Text.ofString "?" :=
      Slot.label_of_none (by rw [hindex,h]; rfl)
    refine ⟨t,_,ht,?_,?_,hnone,?_⟩
    · rw [List.getElem?_map,List.getElem?_eq_getElem hj]
      rfl
    · intro n hn
      exact Slot.label_of_some (by rw [hindex,hn]; rfl)
    · intro hblank
      exact hnone (by rw [hblank,Argument.qubit?_ofText_nil])

/-- An argument has a part in its own role only: with another text in its place a call has the same name,
as many parameters and as many labels, and all of these are the same but for the one that stands for the
argument. -/
theorem explain_one_replaced {e : CatalogEntry} (he : e ∈ Catalog.entries) {texts : List Text}
    (hne : texts ≠ []) (hcommas : ∀ t ∈ texts, Argument.comma ∉ t)
    (hlast : ∀ t, texts.getLast? = some t → t.trim ≠ []) {i : Nat} {t : Text}
    (ht : Argument.comma ∉ t) (hblank : i+1 = texts.length → t.trim ≠ []) (line : Nat) :
    ∃ gate block labels gate' block' labels',
      Call.explain? ⟨line,e.mnemonic,Text.joinWith [Argument.comma] texts⟩ = some (gate,block) ∧
      Call.explain? ⟨line,e.mnemonic,Text.joinWith [Argument.comma] (texts.set i t)⟩ =
        some (gate',block') ∧
      e.Tells texts gate block labels ∧ e.Tells (texts.set i t) gate' block' labels' ∧
      gate'.name = gate.name ∧ gate'.params.length = gate.params.length ∧
      labels'.length = labels.length ∧
      (∀ j, j ≠ i → gate'.params[j]? = gate.params[j]?) ∧
      (∀ j, gate.params.length + j ≠ i → labels'[j]? = labels[j]?) ∧
      (∀ j < labels.length, gate.params.length + j = i → (Argument.ofText t.trim).qubit? = none →
        labels'[j]? = some (Text.ofString "?")) := by
  have h : Argument.Joinable texts := ⟨hne,hcommas,hlast⟩
  have hset : e.operands (texts.set i t) = Operands.classify e.arity
      ((texts.map fun t => Argument.ofText t.trim).set i (Argument.ofText t.trim)) := by
    rw [CatalogEntry.operands,List.map_set]
  have hparams : (e.operands (texts.set i t)).params.length = (e.operands texts).params.length := by
    rw [hset]
    exact Operands.length_params_set _ _ i _
  have hlabels : ((e.operands (texts.set i t)).slots.map Slot.label).length =
      ((e.operands texts).slots.map Slot.label).length := by
    rw [hset,List.length_map,List.length_map]
    exact Operands.length_slots_set _ _ i _
  have htells := CatalogEntry.tells he (texts.set i t)
  refine ⟨_,_,_,_,_,_,CatalogEntry.explain?_joinWith he h line,
    CatalogEntry.explain?_joinWith he (h.set ht hblank) line,CatalogEntry.tells he texts,htells,rfl,
    hparams,hlabels,?_,?_,?_⟩
  · intro j hj
    rw [hset]
    exact Operands.params_set _ _ i _ hj
  · intro j hj
    rw [hset,List.getElem?_map,List.getElem?_map]
    exact congrArg _ (Operands.slots_set _ _ i _ hj)
  · intro j hj hplace hnone
    obtain ⟨t',l,ht',hl,-,hdoubt,-⟩ := htells.label j (hlabels ▸ hj)
    rw [show (e.gate (e.operands (texts.set i t))).params.length = (e.operands texts).params.length
      from hparams,show (e.operands texts).params.length + j = i from hplace,
      List.getElem?_set_self'] at ht'
    obtain ⟨_,-,rfl⟩ := Option.map_eq_some_iff.mp ht'
    rw [hl,hdoubt hnone]

/-- An unresolved control and an empty one leave the target where it is. -/
theorem explain_one_replaced_sample : Catalog.controlledNot ∈ Catalog.entries ∧
    ∃ gate block labels gate' block' labels',
      Call.explain? ⟨1,Text.ofString "cx",Text.ofString "a,1"⟩ = some (gate,block) ∧
      Call.explain? ⟨1,Text.ofString "cx",Text.ofString ",1"⟩ = some (gate',block') ∧
      Catalog.controlledNot.Tells [Text.ofString "a",Text.ofString "1"] gate block labels ∧
      Catalog.controlledNot.Tells [[],Text.ofString "1"] gate' block' labels' ∧
      labels'[0]? = some (Text.ofString "?") ∧ labels'[1]? = some (Text.ofString "1") ∧
      labels'[1]? = labels[1]? := by
  have he : Catalog.controlledNot ∈ Catalog.entries := by decide +kernel
  have hne : [Text.ofString "a",Text.ofString "1"] ≠ [] := List.cons_ne_nil _ _
  obtain ⟨gate,block,labels,gate',block',labels',hcall,hcall',htells,htells',-,hparams,hlength,-,hsame,
      hdoubt⟩ :=
    explain_one_replaced he hne (i := 0) (t := []) (by decide) (by decide) (by decide) (by decide) 1
  have hnone : gate.params.length = 0 := htells.params
  have htwo : labels.length = 2 := by
    have hkept : gate.params.length + labels.length = 2 := htells.kept
    omega
  obtain ⟨t,l,ht,hl,hqubit,-,-⟩ := htells'.label 1 (by omega)
  rw [hparams,hnone] at ht
  obtain rfl := Option.some.inj ht
  refine ⟨he,gate,block,labels,gate',block',labels',hcall,hcall',htells,htells',
    hdoubt 0 (by omega) (by omega) (by decide +kernel),?_,hsame 1 (by omega)⟩
  rw [hl,hqubit 1 (by decide +kernel)]
  rfl

end CircuitNotes
