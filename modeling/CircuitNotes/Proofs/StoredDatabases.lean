import CircuitNotes.Circuit.Basic
import CircuitNotes.History.Storage
import Mathlib.Data.List.Basic

/-! The file of a database gives the database back, and what a document holds is never taken for
one. -/
namespace CircuitNotes
namespace Storage

open MessagePack (take?)

theorem readCount_writeCount (n : Nat) (rest : Text) :
    readCount (writeCount n ++ rest) = some (n,rest) := by
  induction n using writeCount.induct with
  | case1 n h =>
    have hb : n.toUInt8.toNat = n := by
      simp only [Nat.toUInt8,UInt8.toNat_ofNat']
      omega
    rw [writeCount,if_pos h]
    simp [readCount,UInt8.lt_iff_toNat_lt,hb,h]
  | case2 n h ih =>
    have hb : (n%128+128).toUInt8.toNat = n%128+128 := by
      simp only [Nat.toUInt8,UInt8.toNat_ofNat']
      omega
    have hmore : ¬(n%128+128).toUInt8 < 128 := by
      simp only [UInt8.lt_iff_toNat_lt,hb,UInt8.reduceToNat]
      omega
    rw [writeCount,if_neg h,List.cons_append,readCount,if_neg hmore,ih]
    simp only [Option.bind_eq_bind,Option.bind_some,Option.pure_def,hb,Option.some.injEq,Prod.mk.injEq,
      and_true]
    omega

theorem readBytes_writeBytes (t rest : Text) : readBytes (writeBytes t ++ rest) = some (t,rest) := by
  simp [readBytes,writeBytes,readCount_writeCount,MessagePack.take?_append]

theorem readBucket_writeBucket (b : Bucket Text) (rest : Text) :
    readBucket (writeBucket b ++ rest) = some (b,rest) := by
  have hentries : readEntries b.length
      ((b.flatMap fun e => writeBytes e.1 ++ writeBytes e.2) ++ rest) = some (b,rest) := by
    induction b with
    | nil => rfl
    | cons e b ih => simp [readEntries,readBytes_writeBytes,ih]
  simp [readBucket,writeBucket,readCount_writeCount,hentries]

theorem decode?_encode (c : Connection) :
    decode? (encode c) = some { database := c.database,revision := c.revision } := by
  have hsignature : (encode c).take signature.length = signature := by
    simp only [encode,List.append_assoc]
    exact List.take_left' rfl
  have hrest : (encode c).drop signature.length = writeCount c.revision ++
      (writeBucket c.database.records ++ (writeBucket c.database.settings ++ [endMark])) := by
    simp only [encode,List.append_assoc]
    exact List.drop_left' rfl
  simp [decode?,hsignature,hrest,readCount_writeCount,readBucket_writeBucket]

/-! ### The end of the file -/

theorem suffix_of_readCount {t rest : Text} {n : Nat} (h : readCount t = some (n,rest)) :
    rest <:+ t := by
  induction t generalizing n with
  | nil => simp [readCount] at h
  | cons b t ih =>
    rw [readCount] at h
    split at h
    · obtain ⟨-,rfl⟩ : _ ∧ t = rest := by simpa using h
      exact List.suffix_cons b t
    · obtain ⟨⟨n',rest'⟩,hread,hr⟩ := Option.bind_eq_some_iff.mp h
      obtain ⟨-,rfl⟩ : _ ∧ rest' = rest := by simpa using hr
      exact (ih hread).trans (List.suffix_cons b t)

theorem suffix_of_readBytes {t bytes rest : Text} (h : readBytes t = some (bytes,rest)) :
    rest <:+ t := by
  obtain ⟨⟨n,middle⟩,hcount,htake⟩ := Option.bind_eq_some_iff.mp h
  simp only [take?] at htake
  split at htake
  · obtain ⟨-,rfl⟩ : _ ∧ middle.drop n = rest := by simpa using htake
    exact (List.drop_suffix n middle).trans (suffix_of_readCount hcount)
  · simp at htake

theorem suffix_of_readEntries {n : Nat} {t rest : Text} {b : Bucket Text}
    (h : readEntries n t = some (b,rest)) : rest <:+ t := by
  induction n generalizing t b with
  | zero =>
    obtain ⟨-,rfl⟩ : _ ∧ t = rest := by simpa [readEntries] using h
    exact List.suffix_refl t
  | succ n ih =>
    obtain ⟨⟨key,r₁⟩,hkey,h⟩ := Option.bind_eq_some_iff.mp h
    obtain ⟨⟨value,r₂⟩,hvalue,h⟩ := Option.bind_eq_some_iff.mp h
    obtain ⟨⟨entries,r₃⟩,hentries,h⟩ := Option.bind_eq_some_iff.mp h
    obtain ⟨-,rfl⟩ : _ ∧ r₃ = rest := by simpa using h
    exact ((ih hentries).trans (suffix_of_readBytes hvalue)).trans (suffix_of_readBytes hkey)

theorem suffix_of_readBucket {t rest : Text} {b : Bucket Text} (h : readBucket t = some (b,rest)) :
    rest <:+ t := by
  obtain ⟨⟨n,middle⟩,hcount,hentries⟩ := Option.bind_eq_some_iff.mp h
  exact (suffix_of_readEntries hentries).trans (suffix_of_readCount hcount)

theorem of_decode? {content : Text} {c : Connection} (h : decode? content = some c) :
    [endMark] <:+ content ∧ c.journal = [] := by
  simp only [decode?] at h
  split at h
  · simp at h
  · obtain ⟨⟨revision,r₁⟩,hcount,h⟩ := Option.bind_eq_some_iff.mp h
    obtain ⟨⟨records,r₂⟩,hrecords,h⟩ := Option.bind_eq_some_iff.mp h
    obtain ⟨⟨settings,r₃⟩,hsettings,h⟩ := Option.bind_eq_some_iff.mp h
    simp only at h
    split at h
    · rename_i hend
      refine ⟨?_,?_⟩
      · rw [← hend]
        exact ((suffix_of_readBucket hsettings).trans (suffix_of_readBucket hrecords)).trans
          ((suffix_of_readCount hcount).trans (List.drop_suffix _ _))
      · rw [← Option.some.inj h]
    · simp at h

end Storage

theorem Document.markdown_end (d : Document) : d.markdown = [] ∨ [10] <:+ d.markdown := by
  simp only [markdown]
  induction d.blocks.getD [] with
  | nil => exact Or.inl rfl
  | cons b bs ih =>
    right
    rw [List.flatMap_cons]
    rcases ih with hempty | hend
    · rw [hempty,List.append_nil,Block.markdown]
      exact ⟨b.heading ++ [10] ++ b.explanation ++ [10],by simp⟩
    · exact hend.trans (List.suffix_append _ _)

/-- No document is the file of a database. -/
theorem Storage.decode?_markdown (d : Document) : decode? d.markdown = none := by
  cases h : decode? d.markdown with
  | none => rfl
  | some c =>
    have hmark := (of_decode? h).1
    rcases d.markdown_end with hempty | hend
    · rw [hempty] at hmark
      simp at hmark
    · obtain ⟨a,ha⟩ := hmark
      obtain ⟨b,hb⟩ := hend
      have hlast := congrArg List.getLast? (ha.trans hb.symm)
      simp [endMark] at hlast

end CircuitNotes
