import CircuitNotes.Gate.Template
import Mathlib.Data.List.Basic
import Mathlib.Data.Nat.Find

/-! Templates cut at their holes. There is one way to cut a template, which the operands have no part
in; a filled template is what its parts come to one by one, so that what has been put in is never looked
at again. -/
namespace CircuitNotes
namespace Template

/-- A name as it can stand in a hole, which the bytes 123 and 125 open and close: it has no braces. -/
def IsName (name : Text) : Prop := 123 ∉ name ∧ 125 ∉ name

def StartsWithHole (t : Text) : Prop :=
  ∃ name rest, IsName name ∧ t = 123 :: (name ++ 125 :: rest)

inductive Part
  | copied (t : Text)
  | hole (name : Text)
  deriving DecidableEq, Repr

/-- A text cut at its holes, from left to right: the first cut is made at the first place where a hole
starts, and what stands behind the hole is cut likewise. -/
inductive Cut : Text → List Part → Prop
  | plain {t : Text} (h : ∀ k, ¬StartsWithHole (t.drop k)) : Cut t [.copied t]
  | hole {before name after : Text} {parts : List Part} (hname : IsName name)
      (hfirst : ∀ k < before.length,
        ¬StartsWithHole ((before ++ 123 :: (name ++ 125 :: after)).drop k))
      (hafter : Cut after parts) :
      Cut (before ++ 123 :: (name ++ 125 :: after)) (.copied before :: .hole name :: parts)

/-- The qubit of a slot, which is in doubt where the slot is missing or unresolved. -/
def qubitText (slots : List Slot) (i : Nat) : Text :=
  match slots[i]? with
  | some ⟨_,some n⟩ => Text.ofString "qubit " ++ Text.ofInt n
  | _ => Text.ofString "qubit ?"

def paramText (params : List Text) (i : Nat) : Text :=
  match params[i]? with
  | some (b :: t) => b :: t
  | _ => Text.ofString "?"

/-- The nine names that are known, and what is put in for each of them. -/
def meanings (ops : Operands) : List (Text × Text) :=
  [(Text.ofString "qubit",qubitText ops.slots 0),(Text.ofString "control",qubitText ops.slots 0),
   (Text.ofString "qubit1",qubitText ops.slots 0),(Text.ofString "target",qubitText ops.slots 1),
   (Text.ofString "qubit2",qubitText ops.slots 1),(Text.ofString "qubit3",qubitText ops.slots 2),
   (Text.ofString "theta",paramText ops.params 0),(Text.ofString "phi",paramText ops.params 1),
   (Text.ofString "lambda",paramText ops.params 2)]

theorem value_slot (ops : Operands) (i : Nat) :
    (Placeholder.slot i).value ops = qubitText ops.slots i := by
  simp only [Placeholder.value,qubitText]
  cases ops.slots[i]? with
  | none => rfl
  | some s =>
    obtain ⟨text,index⟩ := s
    cases index <;> rfl

theorem value_param (ops : Operands) (i : Nat) :
    (Placeholder.param i).value ops = paramText ops.params i := by
  simp only [Placeholder.value,paramText]
  cases ops.params[i]? with
  | none => rfl
  | some t => cases t <;> rfl

theorem meanings_eq (ops : Operands) :
    meanings ops = Placeholder.named.map fun known => (known.1,known.2.value ops) := by
  simp only [Placeholder.named,List.map_cons,List.map_nil,value_slot,value_param]
  rfl

theorem lookup_meanings (ops : Operands) (name : Text) :
    (meanings ops).lookup name = (Placeholder.ofName? name).map (·.value ops) := by
  rw [meanings_eq,Placeholder.ofName?]
  induction Placeholder.named with
  | nil => rfl
  | cons known rest ih =>
    rw [List.map_cons,List.lookup_cons,List.lookup_cons,ih]
    cases name == known.1 <;> rfl

/-- What a part of a template comes to: a known name of which this is the first hole has its meaning put
in, and all else is copied. -/
def Part.filled (ops : Operands) (earlier : List Part) : Part → Text
  | copied t => t
  | hole name =>
    match (meanings ops).lookup name with
    | some value => if .hole name ∈ earlier then 123 :: (name ++ [125]) else value
    | none => 123 :: (name ++ [125])

theorem Part.filled_value (ops : Operands) {earlier : List Part} {name : Text} {p : Placeholder}
    (hp : Placeholder.ofName? name = some p) (hfirst : .hole name ∉ earlier) :
    (Part.hole name).filled ops earlier = p.value ops := by
  simp only [filled,lookup_meanings,hp,Option.map_some,if_neg hfirst]

theorem Part.filled_hole (ops : Operands) {earlier : List Part} {name : Text}
    (h : ∀ p, Placeholder.ofName? name = some p → .hole name ∈ earlier) :
    (Part.hole name).filled ops earlier = 123 :: (name ++ [125]) := by
  cases hp : Placeholder.ofName? name with
  | none => simp only [filled,lookup_meanings,hp,Option.map_none]
  | some p => simp only [filled,lookup_meanings,hp,Option.map_some,if_pos (h p hp)]

def fillParts (ops : Operands) : List Part → List Part → Text
  | _, [] => []
  | earlier, part :: parts => part.filled ops earlier ++ fillParts ops (earlier ++ [part]) parts

/-! ### One way to cut -/

theorem holeName?_of_isName {name : Text} (h : IsName name) (rest : Text) :
    holeName? (name ++ 125 :: rest) = some name := by
  have hrun : (name ++ 125 :: rest).takeWhile (fun b => b != opening && b != closing) = name := by
    rw [List.takeWhile_append_of_pos,List.takeWhile_cons_of_neg (by decide),List.append_nil]
    intro b hb
    simp only [opening,closing,Bool.and_eq_true,bne_iff_ne]
    exact ⟨fun hopen => h.1 (hopen ▸ hb),fun hclose => h.2 (hclose ▸ hb)⟩
  simp only [holeName?,hrun]
  simp [closing]

theorem of_holeName? {t name : Text} (h : holeName? t = some name) :
    IsName name ∧ ∃ rest, t = name ++ 125 :: rest := by
  simp only [holeName?] at h
  split_ifs at h with hclose
  obtain rfl := Option.some.inj h
  have hrun := List.all_takeWhile (l := t) (p := fun b => b != opening && b != closing)
  rw [List.all_eq_true] at hrun
  refine ⟨⟨fun hopen => absurd (hrun _ hopen) (by decide),fun hend => absurd (hrun _ hend) (by decide)⟩,
    ?_⟩
  have hsplit := List.takeWhile_append_dropWhile (l := t) (p := fun b => b != opening && b != closing)
  generalize t.takeWhile (fun b => b != opening && b != closing) = name at *
  generalize t.dropWhile (fun b => b != opening && b != closing) = rest at *
  subst hsplit
  cases rest with
  | nil => simp at hclose
  | cons b rest =>
    obtain rfl : b = closing := by simpa using hclose
    exact ⟨rest,rfl⟩

theorem startsWithHole_drop (before after : Text) {name : Text} (h : IsName name) :
    StartsWithHole ((before ++ 123 :: (name ++ 125 :: after)).drop before.length) := by
  rw [List.drop_left]
  exact ⟨name,after,h,rfl⟩

theorem exists_cut (t : Text) : ∃ parts, Cut t parts := by
  induction hlength : t.length using Nat.strongRecOn generalizing t with
  | ind n ih =>
    by_cases h : ∃ k, StartsWithHole (t.drop k)
    · classical
      obtain ⟨name,after,hname,hdrop⟩ := Nat.find_spec h
      have hbefore : (t.take (Nat.find h)).length ≤ Nat.find h := List.length_take_le _ _
      have hfirst : ∀ k < (t.take (Nat.find h)).length, ¬StartsWithHole (t.drop k) :=
        fun k hk => Nat.find_min h (Nat.lt_of_lt_of_le hk hbefore)
      have ht : t.take (Nat.find h) ++ 123 :: (name ++ 125 :: after) = t := by
        rw [← hdrop,List.take_append_drop]
      generalize t.take (Nat.find h) = before at hfirst ht
      subst ht
      simp only [List.length_append,List.length_cons] at hlength
      obtain ⟨parts,hparts⟩ := ih after.length (by omega) after rfl
      exact ⟨_,.hole hname hfirst hparts⟩
    · exact ⟨[.copied t],.plain (not_exists.mp h)⟩

theorem Cut.unique {t : Text} {parts : List Part} (h : Cut t parts) :
    ∀ {parts'}, Cut t parts' → parts' = parts := by
  induction h with
  | plain hnone =>
    intro parts' h'
    cases h' with
    | plain => rfl
    | hole hname => exact absurd (startsWithHole_drop _ _ hname) (hnone _)
  | @hole before name after parts hname hfirst hafter ih =>
    intro parts' h'
    generalize ht : before ++ 123 :: (name ++ 125 :: after) = t at h'
    cases h' with
    | plain hnone => exact absurd (ht ▸ startsWithHole_drop before after hname) (hnone _)
    | @hole before' name' after' parts' hname' hfirst' hafter' =>
      -- Neither text is cut earlier than the other.
      have hle : before'.length ≤ before.length := by
        by_contra hlt
        exact hfirst' _ (by omega) (ht ▸ startsWithHole_drop before after hname)
      have hge : before.length ≤ before'.length := by
        by_contra hlt
        exact hfirst _ (by omega) (ht ▸ startsWithHole_drop before' after' hname')
      obtain ⟨rfl,hrest⟩ := List.append_inj ht (by omega)
      have hsame := (List.cons.inj hrest).2
      have hnames := congrArg holeName? hsame
      rw [holeName?_of_isName hname,holeName?_of_isName hname'] at hnames
      obtain rfl := Option.some.inj hnames
      obtain rfl := (List.cons.inj (List.append_cancel_left hsame)).2
      rw [ih hafter']

/-! ### Filling -/

theorem fillFrom_skip (ops : Operands) (used : List Text) (n : Nat) (t : Text) :
    fillFrom ops used n t = fillFrom ops used 0 (t.drop n) := by
  induction t generalizing n with
  | nil => simp [fillFrom]
  | cons b t ih =>
    cases n with
    | zero => rfl
    | succ n => rw [fillFrom,List.drop_succ_cons,ih]

theorem fillFrom_cons (ops : Operands) (used : List Text) {b : UInt8} {t : Text}
    (h : ¬StartsWithHole (b :: t)) : fillFrom ops used 0 (b :: t) = b :: fillFrom ops used 0 t := by
  rw [fillFrom]
  split_ifs with hopen
  · cases hname : holeName? t with
    | none => rfl
    | some name =>
      obtain ⟨hisName,rest,rfl⟩ := of_holeName? hname
      exact absurd ⟨name,rest,hisName,by rw [eq_of_beq hopen,opening]⟩ h
  · rfl

theorem fillFrom_append (ops : Operands) (used : List Text) (before rest : Text)
    (h : ∀ k < before.length, ¬StartsWithHole ((before ++ rest).drop k)) :
    fillFrom ops used 0 (before ++ rest) = before ++ fillFrom ops used 0 rest := by
  induction before with
  | nil => rfl
  | cons b before ih =>
    have hmore : ∀ k < before.length, ¬StartsWithHole ((before ++ rest).drop k) := fun k hk =>
      h (k+1) (Nat.succ_lt_succ hk)
    have hfirst : ¬StartsWithHole (b :: (before ++ rest)) := h 0 (Nat.zero_lt_succ _)
    rw [List.cons_append,fillFrom_cons ops used hfirst,ih hmore,List.cons_append]

theorem fillFrom_plain (ops : Operands) (used : List Text) {t : Text}
    (h : ∀ k, ¬StartsWithHole (t.drop k)) : fillFrom ops used 0 t = t := by
  have happend := fillFrom_append ops used t [] fun k _ => by
    rw [List.append_nil]
    exact h k
  rwa [List.append_nil,fillFrom,List.append_nil] at happend

theorem fillFrom_value (ops : Operands) {used : List Text} {name : Text} {p : Placeholder}
    (hname : IsName name) (hp : Placeholder.ofName? name = some p) (hfirst : name ∉ used)
    (after : Text) : fillFrom ops used 0 (123 :: (name ++ 125 :: after)) =
      p.value ops ++ fillFrom ops (name :: used) 0 after := by
  have hdrop : (name ++ 125 :: after).drop (name.length+1) = after := by
    rw [List.append_cons]
    exact List.drop_left' (by simp)
  rw [fillFrom,if_pos (by decide),holeName?_of_isName hname]
  simp only [hp,if_neg hfirst]
  rw [fillFrom_skip,hdrop]

theorem fillFrom_hole (ops : Operands) {used : List Text} {name : Text} (hname : IsName name)
    (hcopied : ∀ p, Placeholder.ofName? name = some p → name ∈ used) (after : Text) :
    fillFrom ops used 0 (123 :: (name ++ 125 :: after)) =
      123 :: (name ++ [125]) ++ fillFrom ops used 0 after := by
  have hopening : fillFrom ops used 0 (123 :: (name ++ 125 :: after)) =
      123 :: fillFrom ops used 0 (name ++ 125 :: after) := by
    rw [fillFrom,if_pos (by decide),holeName?_of_isName hname]
    cases hp : Placeholder.ofName? name with
    | none => simp only [hp]
    | some p => simp only [hp,if_pos (hcopied p hp)]
  have hrest : fillFrom ops used 0 (name ++ [125] ++ after) =
      name ++ [125] ++ fillFrom ops used 0 after := by
    refine fillFrom_append ops used _ after fun k hk hstarts => ?_
    rw [List.drop_append_of_le_length (Nat.le_of_lt hk),List.drop_eq_getElem_cons hk] at hstarts
    obtain ⟨_,_,_,hcons⟩ := hstarts
    have hmem := List.getElem_mem hk
    rw [(List.cons.inj hcons).1,List.mem_append,List.mem_singleton] at hmem
    exact hmem.elim hname.1 (by decide)
  rw [hopening,List.append_cons,hrest,List.cons_append]

/-- A text is filled part by part. The names that have been filled are the known ones among the holes
before it. -/
theorem Cut.fillFrom_eq {t : Text} {parts : List Part} (h : Cut t parts) (ops : Operands)
    {used : List Text} {earlier : List Part}
    (hused : ∀ name p, Placeholder.ofName? name = some p → (name ∈ used ↔ .hole name ∈ earlier)) :
    fillFrom ops used 0 t = fillParts ops earlier parts := by
  induction h generalizing used earlier with
  | @plain t hnone => rw [fillFrom_plain ops used hnone,fillParts,fillParts,Part.filled,List.append_nil]
  | @hole before name after parts hname hfirst hafter ih =>
    have hearlier : Part.hole name ∈ earlier ++ [.copied before] ↔ Part.hole name ∈ earlier := by simp
    rw [fillFrom_append ops used _ _ hfirst,fillParts,fillParts,Part.filled]
    congr 1
    by_cases hcopied : ∀ p, Placeholder.ofName? name = some p → name ∈ used
    · rw [fillFrom_hole ops hname hcopied,Part.filled_hole ops fun p hp =>
        hearlier.mpr ((hused name p hp).mp (hcopied p hp))]
      congr 1
      refine ih fun name' p hp => ?_
      rw [hused name' p hp]
      simp only [List.mem_append,List.mem_singleton,reduceCtorEq,or_false,Part.hole.injEq]
      refine ⟨Or.inl,fun hmem => hmem.elim id ?_⟩
      rintro rfl
      exact (hused name' p hp).mp (hcopied p hp)
    · simp only [not_forall] at hcopied
      obtain ⟨p,hp,hnew⟩ := hcopied
      rw [fillFrom_value ops hname hp hnew,Part.filled_value ops hp (by rwa [hearlier,← hused name p hp])]
      congr 1
      refine ih fun name' p' hp' => ?_
      rw [List.mem_cons,hused name' p' hp']
      simp [or_comm]

/-- Filling a template is substituting in one pass: a template is cut in one way, and for all operands
what it comes to is what its parts come to, one after the other: the meanings of the known names at their
first holes, and copies. -/
theorem fill_substitutes (template : Text) :
    ∃ parts, Cut template parts ∧ (∀ parts', Cut template parts' → parts' = parts) ∧
      ∀ ops, fill template ops = fillParts ops [] parts := by
  obtain ⟨parts,hparts⟩ := exists_cut template
  refine ⟨parts,hparts,fun parts' => hparts.unique,fun ops => ?_⟩
  exact hparts.fillFrom_eq ops (by simp)

-- A stray brace is copied, and so are the second hole of a name and what a value brings in.
example : fill (Text.ofString "\x7b\x7btheta\x7d \x7bqubit\x7d \x7btheta\x7d")
      ⟨[⟨[],some 7⟩],[Text.ofString "\x7bqubit\x7d"]⟩ =
    Text.ofString "\x7b\x7bqubit\x7d qubit 7 \x7btheta\x7d" := by
  decide +kernel

end Template
end CircuitNotes
