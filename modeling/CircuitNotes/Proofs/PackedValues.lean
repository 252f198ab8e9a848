import CircuitNotes.MessagePack.Basic
import Mathlib.Data.List.Forall2
import Mathlib.Tactic.Ring

/-! What is written as MessagePack is read back, whatever bytes follow it. -/
namespace CircuitNotes

theorem bigEndian_succ (width n : Nat) :
    bigEndian (width+1) n = bigEndian width (n/256) ++ [n.toUInt8] := by
  simp only [bigEndian,List.range_succ_eq_map,List.map_cons,List.map_map,List.reverse_cons]
  congr 2
  apply List.map_congr_left
  intro i _
  have hshift : n >>> (8*(i+1)) = (n/256) >>> (8*i) := by
    rw [Nat.mul_succ,Nat.add_comm,Nat.shiftRight_add,Nat.shiftRight_eq_div_pow n 8]
  rw [Function.comp_apply,hshift]

theorem byteSpan_eq (width : Nat) : byteSpan width = 256^width := by
  rw [byteSpan,Nat.one_shiftLeft,Nat.pow_mul]

theorem ofBigEndian_concat (t : Text) (b : UInt8) :
    ofBigEndian (t ++ [b]) = ofBigEndian t * 256 + b.toNat := by
  simp [ofBigEndian]

theorem ofBigEndian_bigEndian (width n : Nat) :
    ofBigEndian (bigEndian width n) = n % 256^width := by
  induction width generalizing n with
  | zero => simp [bigEndian,ofBigEndian,Nat.mod_one]
  | succ width ih =>
    have hb : n.toUInt8.toNat = n%256 := UInt8.toNat_ofNat'
    rw [bigEndian_succ,ofBigEndian_concat,ih,hb,Nat.pow_succ',Nat.mod_mul]
    ring

theorem ofBigEndian_of_lt {width n : Nat} (h : n < 256^width) :
    ofBigEndian (bigEndian width n) = n := by
  rw [ofBigEndian_bigEndian,Nat.mod_eq_of_lt h]

@[simp] theorem length_bigEndianInt (width : Nat) (i : Int) :
    (bigEndianInt width i).length = width := length_bigEndian _ _

theorem ofBigEndianInt_bigEndianInt (width : Nat) (i : Int) :
    ofBigEndianInt (bigEndianInt width i) =
      if 2 * (i % 256^width) < 256^width then i % 256^width else i % 256^width - 256^width := by
  have hpos : (0 : Int) < 256^width := Int.pow_pos (by decide)
  have hspan : (byteSpan width : Int) = 256^width := by
    rw [byteSpan_eq]
    push_cast
    rfl
  have hmod : ((i % 256^width).toNat : Int) = i % 256^width :=
    Int.toNat_of_nonneg (Int.emod_nonneg _ hpos.ne')
  have hlt : (i % 256^width).toNat < 256^width := by
    have := Int.emod_lt_of_pos i hpos
    rw [← byteSpan_eq]
    omega
  have hn : ofBigEndian (bigEndianInt width i) = (i % 256^width).toNat := by
    rw [bigEndianInt,hspan,ofBigEndian_of_lt hlt]
  simp only [ofBigEndianInt,length_bigEndianInt,hn,hmod,hspan]
  by_cases h : 2 * (i % 256^width) < 256^width
  · rw [if_pos h,if_pos (by omega)]
  · rw [if_neg h,if_neg (by omega)]

theorem ofBigEndianInt_of_le {width : Nat} {i : Int} (hlow : -256^width ≤ 2*i)
    (hhigh : 2*i < 256^width) : ofBigEndianInt (bigEndianInt width i) = i := by
  rw [ofBigEndianInt_bigEndianInt]
  by_cases hi : 0 ≤ i
  · have he : i % 256^width = i := Int.emod_eq_of_lt hi (by omega)
    rw [he,if_pos hhigh]
  · have he : i % 256^width = i + 256^width := by
      rw [← Int.add_emod_right,Int.emod_eq_of_lt (by omega) (by omega)]
    rw [he,if_neg (by omega)]
    omega

namespace MessagePack

/-- Bytes from which every reader that goes `depth` deep or deeper takes a value. -/
def Written (depth : Nat) (t : Text) (v : MessagePack) : Prop :=
  ∀ d, depth ≤ d → ∀ rest, read d (t ++ rest) = some (v,rest)

theorem Written.mono {depth depth' : Nat} {t : Text} {v : MessagePack} (h : Written depth t v)
    (hle : depth ≤ depth') : Written depth' t v :=
  fun d hd => h d (hle.trans hd)

theorem written_cons {depth : Nat} {b : UInt8} {t : Text} {v : MessagePack}
    (h : ∀ d, depth ≤ d → ∀ rest, readAfter (read d) b (t ++ rest) = some (v,rest)) :
    Written (depth+1) (b :: t) v := by
  intro d hd rest
  obtain ⟨d,rfl⟩ : ∃ d', d = d'+1 := ⟨d-1,by omega⟩
  exact h d (by omega) rest

theorem take?_of_length {n : Nat} {t : Text} (h : t.length = n) (rest : Text) :
    take? n (t ++ rest) = some (t,rest) := by
  rw [← h]
  exact take?_append t rest

theorem readNat_bigEndian {width n : Nat} (h : n < 256^width) (rest : Text) :
    readNat width (bigEndian width n ++ rest) = some (n,rest) := by
  simp [readNat,take?_of_length (length_bigEndian width n),ofBigEndian_of_lt h]

theorem readLong_bigEndianInt {width : Nat} {i : Int} (hlow : -256^width ≤ 2*i)
    (hhigh : 2*i < 256^width) (rest : Text) :
    readLong width (bigEndianInt width i ++ rest) = some (i,rest) := by
  simp [readLong,take?_of_length (length_bigEndianInt width i),ofBigEndianInt_of_le hlow hhigh]

theorem readText_append (t rest : Text) : readText t.length (t ++ rest) = some (text t,rest) := by
  simp [readText,take?_append]

theorem readExtension_append (kind : UInt8) (data rest : Text) :
    readExtension data.length (kind :: data ++ rest) = some (extension kind data,rest) := by
  have h : take? 1 (kind :: data ++ rest) = some ([kind],data ++ rest) :=
    take?_append [kind] (data ++ rest)
  simp only [readExtension,h,Option.bind_eq_bind,Option.bind_some,take?_append]
  rfl

theorem written_nil : Written 1 writeNil nil := written_cons fun _ _ _ => rfl

/-! ### Texts and integers -/

theorem toNat_add_toUInt8 {a n : Nat} (h : a + n < 256) : (a+n).toUInt8.toNat = a+n := by
  simp only [Nat.toUInt8,UInt8.toNat_ofNat']
  exact Nat.mod_eq_of_lt h

theorem readAfter_shortText (inner : Reader) {n : Nat} (h : n < 32) (rest : Text) :
    readAfter inner (0xA0+n).toUInt8 rest = readText n rest := by
  have hb : (0xA0+n).toUInt8.toNat = 0xA0+n := toNat_add_toUInt8 (by omega)
  simp only [readAfter,UInt8.lt_iff_toNat_lt,hb]
  simp (disch := omega) only [UInt8.reduceToNat,if_pos,if_neg,Nat.add_sub_cancel_left]

theorem readAfter_shortList (inner : Reader) {n : Nat} (h : n < 16) (rest : Text) :
    readAfter inner (0x90+n).toUInt8 rest = readList inner n rest := by
  have hb : (0x90+n).toUInt8.toNat = 0x90+n := toNat_add_toUInt8 (by omega)
  simp only [readAfter,UInt8.lt_iff_toNat_lt,hb]
  simp (disch := omega) only [UInt8.reduceToNat,if_pos,if_neg,Nat.add_sub_cancel_left]

theorem readAfter_shortMap (inner : Reader) {n : Nat} (h : n < 16) (rest : Text) :
    readAfter inner (0x80+n).toUInt8 rest = readMap inner n rest := by
  have hb : (0x80+n).toUInt8.toNat = 0x80+n := toNat_add_toUInt8 (by omega)
  simp only [readAfter,UInt8.lt_iff_toNat_lt,hb]
  simp (disch := omega) only [UInt8.reduceToNat,if_pos,if_neg,Nat.add_sub_cancel_left]

theorem written_counted {depth width n : Nat} {b : UInt8} {t : Text} {v : MessagePack}
    (body : Reader → Nat → Reader) (h : n < 256^width)
    (hb : ∀ (inner : Reader) (rest : Text), readAfter inner b rest =
      (do let (n,rest) ← readNat width rest; body inner n rest))
    (hbody : ∀ d, depth ≤ d → ∀ rest, body (read d) n (t ++ rest) = some (v,rest)) :
    Written (depth+1) (b :: bigEndian width n ++ t) v := by
  refine written_cons fun d hd rest => ?_
  rw [hb]
  change ((readNat width (bigEndian width n ++ t ++ rest)).bind fun x => body (read d) x.1 x.2) = _
  rw [List.append_assoc,readNat_bigEndian h]
  exact hbody d hd rest

theorem written_writeText {t : Text} (h : t.length < 2^32) : Written 1 (writeText t) (text t) := by
  have hbody (d : Nat) (_ : 0 ≤ d) (rest : Text) :
      readText t.length (t ++ rest) = some (text t,rest) := readText_append t rest
  simp only [writeText]
  split_ifs with h₁ h₂ h₃
  · refine written_cons fun d hd rest => ?_
    rw [readAfter_shortText _ h₁]
    exact hbody d hd rest
  · exact written_counted (fun _ => readText) h₂ (fun _ _ => rfl) hbody
  · exact written_counted (fun _ => readText) h₃ (fun _ _ => rfl) hbody
  · exact written_counted (fun _ => readText) h (fun _ _ => rfl) hbody

theorem written_unsigned {width n : Nat} {b : UInt8} (h : n < 256^width)
    (hb : ∀ (inner : Reader) (rest : Text), readAfter inner b rest =
      (do let (n,rest) ← readNat width rest; return (int n,rest))) :
    Written 1 (b :: bigEndian width n) (int n) := by
  refine written_cons fun d _ rest => ?_
  rw [hb]
  simp [readNat_bigEndian h]

theorem written_signed {width : Nat} {i : Int} {b : UInt8} (hlow : -256^width ≤ 2*i)
    (hhigh : 2*i < 256^width)
    (hb : ∀ (inner : Reader) (rest : Text), readAfter inner b rest =
      (do let (i,rest) ← readLong width rest; return (int i,rest))) :
    Written 1 (b :: bigEndianInt width i) (int i) := by
  refine written_cons fun d _ rest => ?_
  rw [hb]
  simp [readLong_bigEndianInt hlow hhigh]

theorem written_writeLong {i : Int} (hlow : -2^63 ≤ i) (hhigh : i < 2^63) :
    Written 1 (writeLong i) (int i) :=
  written_signed (by omega) (by omega) fun _ _ => rfl

theorem written_small {n : Nat} (h : n < 128) : Written 1 [n.toUInt8] (int n) := by
  have hb : n.toUInt8.toNat = n := by simpa using toNat_add_toUInt8 (a:=0) (by omega)
  refine written_cons fun d _ rest => ?_
  simp only [readAfter,UInt8.lt_iff_toNat_lt,hb]
  simp (disch := omega) only [UInt8.reduceToNat,if_pos,List.nil_append]

theorem written_smallNegative {i : Int} (hlow : -32 ≤ i) (hneg : i < 0) :
    Written 1 (bigEndianInt 1 i) (int i) := by
  have hbytes : bigEndianInt 1 i = [(i+256).toNat.toUInt8] := by
    have hm : (i % byteSpan 1).toNat = (i+256).toNat := by
      rw [byteSpan_eq]
      omega
    rw [bigEndianInt,hm]
    rfl
  have hb : (i+256).toNat.toUInt8.toNat = (i+256).toNat := by
    simpa using toNat_add_toUInt8 (a:=0) (n:=(i+256).toNat) (by omega)
  rw [hbytes]
  refine written_cons fun d _ rest => ?_
  simp only [readAfter,UInt8.lt_iff_toNat_lt,UInt8.le_iff_toNat_le,hb]
  simp (disch := omega) only [UInt8.reduceToNat,if_pos,if_neg,List.nil_append]
  have hi : ((i+256).toNat : Int) - 256 = i := by omega
  rw [hi]

theorem written_writeInt {i : Int} (hlow : -2^63 ≤ i) (hhigh : i < 2^64) :
    Written 1 (writeInt i) (int i) := by
  by_cases hi : 0 ≤ i
  · obtain ⟨n,rfl⟩ := Int.eq_ofNat_of_zero_le hi
    simp only [writeInt,hi,if_true,Int.toNat_natCast]
    split_ifs with h₁ h₂ h₃ h₄
    · exact written_small h₁
    · exact written_unsigned h₂ fun _ _ => rfl
    · exact written_unsigned h₃ fun _ _ => rfl
    · exact written_unsigned h₄ fun _ _ => rfl
    · exact written_unsigned (by omega) fun _ _ => rfl
  · simp only [writeInt,hi,if_false]
    split_ifs with h₁ h₂ h₃ h₄
    · exact written_smallNegative h₁ (by omega)
    · exact written_signed (by omega) (by omega) fun _ _ => rfl
    · exact written_signed (by omega) (by omega) fun _ _ => rfl
    · exact written_signed (by omega) (by omega) fun _ _ => rfl
    · exact written_writeLong hlow (by omega)

/-! ### Lists and maps -/

theorem readItems_flatten {d : Nat} {ts : List Text} {vs : List MessagePack}
    (h : List.Forall₂ (Written d) ts vs) (rest : Text) :
    readItems (read d) ts.length (ts.flatten ++ rest) = some (vs,rest) := by
  induction h with
  | nil => rfl
  | cons hhead _ ih =>
    simp only [List.length_cons,List.flatten_cons,List.append_assoc,readItems,
      hhead d (Nat.le_refl d),Option.bind_eq_bind,Option.bind_some,ih]
    rfl

theorem written_writeList {depth : Nat} {ts : List Text} {vs : List MessagePack}
    (h : List.Forall₂ (Written depth) ts vs) (hlength : ts.length < 2^32) :
    Written (depth+1) (writeList ts) (list vs) := by
  have hitems (d : Nat) (hd : depth ≤ d) (rest : Text) :
      readList (read d) ts.length (ts.flatten ++ rest) = some (list vs,rest) := by
    simp [readList,readItems_flatten (h.imp fun _ _ hw => hw.mono hd)]
  simp only [writeList,writeListHeader]
  split_ifs with h₁ h₂
  · refine written_cons fun d hd rest => ?_
    rw [readAfter_shortList _ h₁]
    exact hitems d hd rest
  · exact written_counted readList h₂ (fun _ _ => rfl) hitems
  · exact written_counted readList hlength (fun _ _ => rfl) hitems

/-- A field as it is written and as it is read: its name and its value. -/
def WrittenField (depth : Nat) (f : String × Text) (p : MessagePack × MessagePack) : Prop :=
  (Text.ofString f.1).length < 2^32 ∧ p.1 = text (Text.ofString f.1) ∧ Written depth f.2 p.2

theorem readPairs_fields {d : Nat} (hd : 1 ≤ d) {fields : List (String × Text)}
    {pairs : List (MessagePack × MessagePack)} (h : List.Forall₂ (WrittenField d) fields pairs)
    (rest : Text) :
    readPairs (read d) fields.length
      ((fields.flatMap fun f => writeText f.1 ++ f.2) ++ rest) = some (pairs,rest) := by
  induction h with
  | nil => rfl
  | @cons f p fields pairs hhead _ ih =>
    obtain ⟨hshort,hname,hvalue⟩ := hhead
    obtain ⟨key,value⟩ := p
    simp only at hname hvalue
    subst hname
    simp only [List.length_cons,List.flatMap_cons,List.append_assoc,readPairs,
      written_writeText hshort d hd,hvalue d (Nat.le_refl d),Option.bind_eq_bind,
      Option.bind_some,ih]
    rfl

theorem written_writeFields {depth : Nat} (hdepth : 1 ≤ depth) {fields : List (String × Text)}
    {pairs : List (MessagePack × MessagePack)}
    (h : List.Forall₂ (WrittenField depth) fields pairs) (hfew : fields.length < 16) :
    Written (depth+1) (writeFields fields) (map pairs) := by
  refine written_cons fun d hd rest => ?_
  have hall : List.Forall₂ (WrittenField d) fields pairs :=
    h.imp fun _ _ hw => ⟨hw.1,hw.2.1,hw.2.2.mono hd⟩
  rw [readAfter_shortMap _ hfew]
  simp [readMap,readPairs_fields (hdepth.trans hd) hall]

end MessagePack
end CircuitNotes
