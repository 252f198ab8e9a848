import CircuitNotes.Proofs.ArgumentRoles

/-! The texts of arguments. They are the pieces between the commas, without the white space around
them; an empty piece keeps its place, unless it is the last one. So texts that were joined with commas
come back, whatever white space was put around them. -/
namespace CircuitNotes

namespace Text

theorem Blank.append {s t : Text} (hs : Blank s) (ht : Blank t) : Blank (s ++ t) := by
  rw [Blank,chars,hs.glyphs_append,List.map_append]
  exact List.forall_mem_append.mpr ⟨hs,ht⟩

theorem trim_eq_nil_iff (t : Text) : trim t = [] ↔ Blank t := by
  refine ⟨?_,?_⟩
  · intro h
    obtain ⟨front,back,hfront,hback,ht⟩ := (trims_trim t).padded
    rw [h,List.append_nil] at ht
    exact ht ▸ hfront.append hback
  · intro h
    have hright := h.trimRight_append []
    rw [← trim_trimRight,← List.nil_append t,hright]
    rfl

theorem forall₂_trims_iff (padded texts : List Text) :
    List.Forall₂ Trims padded texts ↔ padded.map trim = texts := by
  rw [← List.forall₂_eq_eq_eq,List.forall₂_map_left_iff]
  simp only [trim_eq_iff]

theorem trimRight_trim (t : Text) : trimRight (trim t) = trim t := by
  refine glyphs_injective ?_
  rw [trim,glyphs_trimRight,glyphs_trimRight,List.rdropWhile_idempotent]

theorem mem_trim_iff {b : UInt8} (hb : Solid b) (t : Text) : b ∈ trim t ↔ b ∈ t := by
  refine ⟨mem_of_mem_trim,fun h => ?_⟩
  obtain ⟨front,back,hfront,hback,ht⟩ := (trims_trim t).padded
  rw [ht,List.mem_append,List.mem_append] at h
  rcases h with (h | h) | h
  · exact absurd h (hfront.notMem hb)
  · exact h
  · exact absurd h (hback.notMem hb)

theorem exists_splitOn_eq {sep : UInt8} {t : Text} (h : sep ∈ t) :
    ∃ front last, t = front ++ sep :: last ∧ splitOn sep t = splitOn sep front ++ [last] := by
  obtain ⟨last,front,hsplit,hlast⟩ := List.eq_append_cons_of_mem (List.mem_reverse.mpr h)
  have ht : t = front.reverse ++ sep :: last.reverse := by
    rw [← List.reverse_reverse t,hsplit]
    simp
  refine ⟨_,_,ht,?_⟩
  rw [ht,splitOn_append,splitOn_of_not_mem (mt List.mem_reverse.mp hlast)]

end Text

namespace Argument

theorem map_trim_splitOn_eq_singleton_iff (t : Text) :
    (t.splitOn comma).map Text.trim = [[]] ↔ t.trim = [] := by
  refine ⟨?_,?_⟩
  · intro h
    by_cases hcomma : comma ∈ t
    · obtain ⟨front,last,-,hpieces⟩ := Text.exists_splitOn_eq hcomma
      have hlength := congrArg List.length h
      rw [hpieces,List.length_map,List.length_append,List.length_singleton,
        List.length_singleton] at hlength
      have hne := List.length_pos_iff.mpr (Text.splitOn_ne_nil comma front)
      omega
    · rw [Text.splitOn_of_not_mem hcomma] at h
      exact (List.cons.inj h).1
  · intro h
    rw [← Text.map_trim_splitOn_trim solid_comma,h]
    rfl

theorem trim_eq_nil_of_last {t : Text}
    (h : ((t.splitOn comma).map Text.trim).getLast? = some []) (hcomma : t.trim.getLast? ≠ some comma) :
    t.trim = [] := by
  have htrim := (Text.trimmed_trim t).trim_eq
  rw [← Text.map_trim_splitOn_trim solid_comma] at h
  by_cases hmem : comma ∈ t.trim
  · obtain ⟨front,last,ht,hpieces⟩ := Text.exists_splitOn_eq hmem
    rw [hpieces,List.map_append,List.map_singleton,List.getLast?_concat,Option.some.injEq,
      Text.trim_eq_nil_iff] at h
    -- What comes after the comma is blank, and a trimmed text has no white space at its end.
    have hright : Text.trimRight t.trim = front ++ [comma] := by
      rw [ht,List.append_cons,h.trimRight_append,Text.trimRight_concat solid_comma]
    rw [Text.trimRight_trim] at hright
    exact absurd (by rw [hright,List.getLast?_concat]) hcomma
  · rw [Text.splitOn_of_not_mem hmem,List.map_singleton,List.getLast?_singleton,
      Option.some.injEq] at h
    rw [← htrim,h]

def withoutEmptyLast (texts : List Text) : List Text :=
  if texts.getLast? = some [] then texts.dropLast else texts

theorem map_text_split (raw : Text) : (split raw).map text =
    if withoutEmptyLast ((raw.splitOn comma).map Text.trim) = [[]] then []
    else withoutEmptyLast ((raw.splitOn comma).map Text.trim) := by
  have htext : text ∘ (fun piece => ofText piece.trim) = Text.trim := rfl
  by_cases hlast : ((raw.splitOn comma).map Text.trim).getLast? = some []
  · rw [withoutEmptyLast,if_pos hlast]
    by_cases hcomma : raw.trim.getLast? = some comma
    · obtain ⟨front,hfront⟩ := List.getLast?_eq_some_iff.mp hcomma
      have hpieces : ((raw.splitOn comma).map Text.trim).dropLast =
          (Text.splitOn comma front).map Text.trim := by
        rw [← Text.map_trim_splitOn_trim solid_comma,hfront,Text.splitOn_append]
        simp [Text.splitOn]
      have hbody : dropComma raw.trim = front := by
        rw [dropComma,if_pos hcomma,hfront,List.dropLast_concat]
      simp only [split,hbody,hpieces,map_trim_splitOn_eq_singleton_iff,List.isEmpty_iff]
      split_ifs
      · rfl
      · rw [List.map_map,htext]
    · have hnil := trim_eq_nil_of_last hlast hcomma
      have hsplit : split raw = [] := by
        simp [split,dropComma,hnil]
      have hpieces := (map_trim_splitOn_eq_singleton_iff raw).mpr hnil
      rw [hsplit,hpieces]
      rfl
  · have hsplit := split_of_last hlast
    have hne : (raw.splitOn comma).map Text.trim ≠ [[]] := by
      intro hone
      exact hlast (hone ▸ rfl)
    rw [withoutEmptyLast,if_neg hlast,if_neg hne,hsplit,List.map_map,htext]

theorem split_joinWith_of_trims {texts padded : List Text} (h : List.Forall₂ Text.Trims padded texts)
    (hcommas : ∀ t ∈ texts, comma ∉ t) (hlast : texts.getLast? ≠ some []) :
    split (Text.joinWith [comma] padded) = texts.map ofText := by
  have htrim := (Text.forall₂_trims_iff padded texts).mp h
  cases padded with
  | nil =>
    rw [← htrim]
    rfl
  | cons t padded =>
    have hjoinable : Joinable (t :: padded) := by
      refine ⟨List.cons_ne_nil _ _,?_,?_⟩
      · intro u hu hmem
        have htext : u.trim ∈ texts := htrim ▸ List.mem_map_of_mem hu
        exact hcommas _ htext ((Text.mem_trim_iff solid_comma u).mpr hmem)
      · intro u hu hblank
        rw [← htrim,List.getLast?_map,hu,Option.map_some,hblank] at hlast
        exact hlast rfl
    rw [hjoinable.split_joinWith,← htrim,List.map_map]
    rfl

/-- The arguments of a call have for their texts what stands between the commas, without the white
space around it and without an empty text at the end; if that is a single empty text, there are no
arguments. So texts without commas that were joined with commas, with any white space around them, come
back, as long as the last one is not empty. -/
theorem split_inverts_joining :
    (∀ raw : Text, ∃ pieces texts : List Text, pieces ≠ [] ∧ (∀ piece ∈ pieces, comma ∉ piece) ∧
      Text.joinWith [comma] pieces = raw ∧ List.Forall₂ Text.Trims pieces texts ∧
      (split raw).map text =
        if withoutEmptyLast texts = [[]] then [] else withoutEmptyLast texts) ∧
    ∀ texts padded : List Text, (∀ t ∈ texts, comma ∉ t) → texts.getLast? ≠ some [] →
      List.Forall₂ Text.Trims padded texts →
      (split (Text.joinWith [comma] padded)).map text = texts := by
  refine ⟨?_,?_⟩
  · intro raw
    exact ⟨_,_,Text.splitOn_ne_nil comma raw,Outline.not_mem_splitOn comma raw,
      Text.joinWith_splitOn comma raw,(Text.forall₂_trims_iff _ _).mpr rfl,map_text_split raw⟩
  · intro texts padded hcommas hlast hpadded
    rw [split_joinWith_of_trims hpadded hcommas hlast,List.map_map]
    exact List.map_id texts

/-- Texts of which one is empty and one ends with a stray byte. -/
def sampleTexts : List Text := [[],[0x30,0xE2],Text.ofString "b c"]

/-- The same texts with a no-break space, an ideographic space and others around them. -/
def samplePadded : List Text :=
  [Text.ofString "\u00A0",[0x30,0xE2] ++ Text.ofString "\u3000",Text.ofString " b c\t"]

theorem split_inverts_joining_sample :
    (∀ t ∈ sampleTexts, comma ∉ t) ∧ sampleTexts.getLast? ≠ some [] ∧
      List.Forall₂ Text.Trims samplePadded sampleTexts ∧
      (split (Text.joinWith [comma] samplePadded)).map text = sampleTexts := by
  have hcommas : ∀ t ∈ sampleTexts, comma ∉ t := by decide +kernel
  have hlast : sampleTexts.getLast? ≠ some [] := by decide +kernel
  have htrims : List.Forall₂ Text.Trims samplePadded sampleTexts :=
    (Text.forall₂_trims_iff _ _).mpr (by decide +kernel)
  exact ⟨hcommas,hlast,htrims,split_inverts_joining.2 _ _ hcommas hlast htrims⟩

end Argument
end CircuitNotes
