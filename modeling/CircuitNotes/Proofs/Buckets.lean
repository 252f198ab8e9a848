import CircuitNotes.History.Bucket
import Mathlib.Data.List.Basic

/-! What buckets hold after insertions and deletions. A bucket is looked at key by key, so these
facts do not need its order. -/
namespace CircuitNotes

theorem lookup_cons_eq_ite {κ α : Type} [BEq κ] [LawfulBEq κ] [DecidableEq κ] (k key : κ) (v : α)
    (l : List (κ × α)) : ((k,v) :: l).lookup key = if key = k then some v else l.lookup key := by
  by_cases h : key = k
  · simp [h]
  · simp [List.lookup_cons,beq_eq_false_iff_ne.mpr h,h]

namespace Bucket

variable {α β : Type}

@[simp] theorem find?_nil (key : Text) : find? ([] : Bucket α) key = none := rfl

theorem find?_cons (k key : Text) (v : α) (b : Bucket α) :
    find? ((k,v) :: b) key = if key = k then some v else find? b key := lookup_cons_eq_ite k key v b

theorem find?_insert (key key' : Text) (value : α) (b : Bucket α) :
    find? (insert key value b) key' = if key' = key then some value else find? b key' := by
  induction b with
  | nil => simp [insert,find?_cons]
  | cons e rest ih =>
    obtain ⟨k,v⟩ := e
    simp only [insert]
    split
    · exact find?_cons key key' value _
    · split
      · rename_i heq
        subst heq
        rw [find?_cons,find?_cons]
        by_cases h : key' = key <;> simp [h]
      · rename_i hne
        rw [find?_cons,find?_cons,ih]
        by_cases hk : key' = k
        · subst hk
          simp [Ne.symm hne]
        · simp [hk]

theorem find?_erase (key key' : Text) (b : Bucket α) :
    find? (erase key b) key' = if key' = key then none else find? b key' := by
  induction b with
  | nil => simp [erase]
  | cons e rest ih =>
    obtain ⟨k,v⟩ := e
    by_cases hk : k = key
    · subst hk
      by_cases h : key' = k
      · simpa [erase,h] using ih
      · simpa [erase,find?_cons,h] using ih
    · have hcons : erase key ((k,v) :: rest) = (k,v) :: erase key rest := by simp [erase,hk]
      rw [hcons,find?_cons,find?_cons,ih]
      by_cases h : key' = k
      · subst h; simp [hk]
      · simp [h]

theorem mem_of_find? {b : Bucket α} {key : Text} {value : α} (h : find? b key = some value) :
    (key,value) ∈ b := by
  induction b with
  | nil => simp at h
  | cons e rest ih =>
    obtain ⟨k,v⟩ := e
    rw [find?_cons] at h
    split_ifs at h with hk
    · have hv : v = value := by simpa using h
      simp [hk,hv]
    · exact List.mem_cons_of_mem _ (ih h)

def Distinct (b : Bucket α) : Prop := (b.map Prod.fst).Nodup

theorem find?_of_mem {b : Bucket α} (hb : Distinct b) {key : Text} {value : α}
    (h : (key,value) ∈ b) : find? b key = some value := by
  induction b with
  | nil => simp at h
  | cons e rest ih =>
    obtain ⟨k,v⟩ := e
    have hd : k ∉ rest.map Prod.fst ∧ (rest.map Prod.fst).Nodup := by
      simpa [Distinct] using hb
    rw [find?_cons]
    rcases List.mem_cons.mp h with hhead | hrest
    · have hkv := Prod.mk.inj hhead
      simp [hkv.1,hkv.2]
    · have hne : key ≠ k := by
        intro hk
        exact hd.1 (List.mem_map.mpr ⟨(key,value),hrest,hk⟩)
      rw [if_neg hne]
      exact ih hd.2 hrest

theorem mem_keys_iff (b : Bucket α) (key : Text) :
    key ∈ b.map Prod.fst ↔ (find? b key).isSome := by
  induction b with
  | nil => simp
  | cons e rest ih =>
    obtain ⟨k,v⟩ := e
    rw [List.map_cons,List.mem_cons,find?_cons,ih]
    split_ifs with h <;> simp [h]

theorem mem_insert {b : Bucket α} {key : Text} {value : α} {e : Text × α}
    (h : e ∈ insert key value b) : e = (key,value) ∨ e ∈ b := by
  induction b with
  | nil => simpa [insert] using h
  | cons f rest ih =>
    obtain ⟨k,v⟩ := f
    simp only [insert] at h
    split_ifs at h
    · simpa using h
    · rcases List.mem_cons.mp h with h | h
      · exact Or.inl h
      · exact Or.inr (List.mem_cons_of_mem _ h)
    · rcases List.mem_cons.mp h with h | h
      · exact Or.inr (by simp [h])
      · exact (ih h).imp_right (List.mem_cons_of_mem _)

def Ascending (b : Bucket α) : Prop := (b.map Prod.fst).Pairwise (· < ·)

theorem Ascending.distinct {b : Bucket α} (h : Ascending b) : Distinct b :=
  List.Pairwise.imp (fun {x y} hlt (he : x = y) => List.lt_irrefl y (he ▸ hlt)) h

theorem ascending_insert {b : Bucket α} (hb : Ascending b) (key : Text) (value : α) :
    Ascending (insert key value b) := by
  induction b with
  | nil => simp [insert,Ascending]
  | cons e rest ih =>
    obtain ⟨k,v⟩ := e
    obtain ⟨hk,hrest⟩ := List.pairwise_cons.mp hb
    simp only [insert]
    split
    · rename_i hlt
      refine List.pairwise_cons.mpr ⟨?_,hb⟩
      intro k' hk'
      rcases List.mem_cons.mp hk' with rfl | hk'
      · exact hlt
      · exact List.lt_trans hlt (hk k' hk')
    · split
      · rename_i heq
        subst heq
        exact List.pairwise_cons.mpr ⟨hk,hrest⟩
      · rename_i hnlt hne
        refine List.pairwise_cons.mpr ⟨?_,ih hrest⟩
        intro k' hk'
        obtain ⟨e,he,rfl⟩ := List.mem_map.mp hk'
        rcases mem_insert he with rfl | he
        · exact Std.lt_of_le_of_ne hnlt (Ne.symm hne)
        · exact hk e.1 (List.mem_map.mpr ⟨e,he,rfl⟩)

theorem mem_of_mem_erase {b : Bucket α} {key : Text} {e : Text × α} (h : e ∈ erase key b) :
    e ∈ b := (List.mem_filter.mp h).1

def mapValues (f : α → β) (b : Bucket α) : Bucket β := b.map fun e => (e.1,f e.2)

theorem mapValues_insert (f : α → β) (key : Text) (value : α) (b : Bucket α) :
    (insert key value b).mapValues f = insert key (f value) (b.mapValues f) := by
  induction b with
  | nil => rfl
  | cons e rest ih =>
    obtain ⟨k,v⟩ := e
    simp only [insert,mapValues,List.map_cons] at ih ⊢
    split_ifs
    · rfl
    · rfl
    · rw [List.map_cons,ih]

theorem mapValues_erase (f : α → β) (key : Text) (b : Bucket α) :
    (erase key b).mapValues f = erase key (b.mapValues f) := by
  simp [mapValues,erase,List.filter_map,Function.comp_def]

theorem find?_mapValues (f : α → β) (key : Text) (b : Bucket α) :
    find? (b.mapValues f) key = (find? b key).map f := by
  induction b with
  | nil => rfl
  | cons e rest ih =>
    obtain ⟨k,v⟩ := e
    rw [mapValues,List.map_cons,find?_cons,find?_cons,← mapValues,ih]
    split_ifs <;> rfl

theorem ascending_erase {b : Bucket α} (hb : Ascending b) (key : Text) : Ascending (erase key b) :=
  List.Pairwise.sublist ((List.filter_sublist (l:=b)).map Prod.fst) hb

end Bucket
end CircuitNotes
