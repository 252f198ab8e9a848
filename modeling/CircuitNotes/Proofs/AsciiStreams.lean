import CircuitNotes.Proofs.Texts
import CircuitNotes.Yaml.Cursor

/-! Streams of printable ASCII characters and line feeds. They arrive as they were written, and a reader
of them meets no fault, however much of them it takes in at once; so all that matters of its cursor is
the position. -/
namespace CircuitNotes
namespace Yaml

def IsAscii (c : Char) : Prop := 0x20 ≤ c.toNat ∧ c.toNat ≤ 0x7E

instance (c : Char) : Decidable (IsAscii c) := inferInstanceAs (Decidable (_ ∧ _))

theorem isAscii_of_all {cs : List Char} (h : cs.all (decide <| IsAscii ·) = true) :
    ∀ c ∈ cs, IsAscii c :=
  fun c hc => of_decide_eq_true (List.all_eq_true.mp h c hc)

def AsciiLines (cs : List Char) : Prop := ∀ c ∈ cs, c = '\n' ∨ IsAscii c

/-! ### Characters -/

section Characters

variable {c : Char} {cs cs' : List Char}

theorem IsAscii.isBreak (h : IsAscii c) : isBreak c = false := by
  unfold IsAscii at h
  simp only [Yaml.isBreak,Bool.or_eq_false_iff,beq_eq_false_iff_ne]
  refine ⟨⟨⟨⟨?_,?_⟩,?_⟩,?_⟩,?_⟩ <;> rintro rfl <;> exact absurd h (by decide)

theorem IsAscii.isSpacing (h : IsAscii c) : isSpacing c = (c == ' ') := by
  have htab : c ≠ '\t' := by
    rintro rfl
    exact absurd h (by decide)
  simp [Yaml.isSpacing,htab]

theorem AsciiLines.tail (h : AsciiLines (c :: cs)) : AsciiLines cs :=
  fun d hd => h d (List.mem_cons_of_mem c hd)

theorem AsciiLines.head?_ne (h : AsciiLines cs) : (cs.head? == some byteOrderMark) = false := by
  cases cs with
  | nil => rfl
  | cons c cs =>
    simp only [List.head?_cons,beq_eq_false_iff_ne,ne_eq,Option.some.injEq]
    rintro rfl
    rcases h _ List.mem_cons_self with h | h
    · exact absurd h (by decide)
    · exact absurd h (by decide)

theorem asciiLines_append : AsciiLines (cs ++ cs') ↔ AsciiLines cs ∧ AsciiLines cs' := by
  unfold AsciiLines
  simp only [List.mem_append,or_imp,forall_and]

theorem asciiLines_cons : AsciiLines (c :: cs) ↔ (c = '\n' ∨ IsAscii c) ∧ AsciiLines cs :=
  List.forall_mem_cons

end Characters

/-! ### Decoding -/

theorem toNat_lt_of_ascii {c : Char} (h : c = '\n' ∨ IsAscii c) : c.toNat < 0x80 := by
  rcases h with rfl | h
  · decide
  · exact Nat.lt_of_le_of_lt h.2 (by decide)

theorem toNat_ofNat_ascii {c : Char} (h : c = '\n' ∨ IsAscii c) :
    (UInt8.ofNat c.toNat).toNat = c.toNat := by
  rw [UInt8.toNat_ofNat']
  exact Nat.mod_eq_of_lt (Nat.lt_trans (toNat_lt_of_ascii h) (by decide))

theorem utf8_of_asciiLines {cs : List Char} (h : AsciiLines cs) :
    utf8 0 0 0 (cs.flatMap String.utf8EncodeChar) = ⟨cs.map (·,1),.clean⟩ := by
  induction cs with
  | nil => rfl
  | cons c cs ih =>
    have hc := toNat_lt_of_ascii (h c List.mem_cons_self)
    have hbyte := toNat_ofNat_ascii (h c List.mem_cons_self)
    have hannounced : announced? (UInt8.ofNat c.toNat) = some (0,c.toNat) := by
      rw [announced?,if_pos (by rw [UInt8.lt_iff_toNat_lt,hbyte]; exact hc),hbyte]
    have hallowed : isAllowed c = true := by
      rcases h c List.mem_cons_self with rfl | h
      · decide
      · simp [isAllowed,h.1,h.2]
    rw [List.flatMap_cons,Text.utf8EncodeChar_ascii (Nat.le_of_lt_succ hc),List.singleton_append,utf8,
      hannounced]
    simp [ih h.tail,Decoded.pushCode,Decoded.push,hallowed]

theorem joinBreaks_of_asciiLines {cs : List Char} (h : AsciiLines cs) : joinBreaks cs = cs := by
  induction cs with
  | nil => rfl
  | cons c cs ih =>
    have hc : c ≠ '\r' := by
      rintro rfl
      rcases h _ List.mem_cons_self with h | h
      · exact absurd h (by decide)
      · exact absurd h (by decide)
    rw [joinBreaks,ih h.tail,if_neg (by simpa using hc)]
    rintro rest rfl
    exact absurd rfl hc

theorem Stream.ofText_of_asciiLines {s : String} (h : AsciiLines s.toList) :
    (Stream.ofText (Text.ofString s)).chars = s.toList ∧
      (Stream.ofText (Text.ofString s)).spoiled = false := by
  have hdecoded : Stream.ofText (Text.ofString s) = ofDecoded 0 (utf8 0 0 0 (Text.ofString s)) := by
    have hascii : ∀ b ∈ Text.ofString s, b < 0x80 := by
      intro b hb
      obtain ⟨c,hc,hb⟩ := List.mem_flatMap.mp hb
      rw [Text.utf8EncodeChar_ascii (Nat.le_of_lt_succ (toNat_lt_of_ascii (h c hc))),
        List.mem_singleton] at hb
      rw [hb,UInt8.lt_iff_toNat_lt,toNat_ofNat_ascii (h c hc)]
      exact toNat_lt_of_ascii (h c hc)
    unfold Stream.ofText
    split
    · exact absurd (hascii 0xFF (by simp [*])) (by decide)
    · exact absurd (hascii 0xFE (by simp [*])) (by decide)
    · exact absurd (hascii 0xEF (by simp [*])) (by decide)
    · rfl
  rw [hdecoded,Text.ofString,utf8_of_asciiLines h]
  refine ⟨?_,rfl⟩
  rw [ofDecoded,List.map_map]
  exact (congrArg joinBreaks (List.map_id _)).trans (joinBreaks_of_asciiLines h)

/-! ### Cursors -/

/-- A cursor at a position in a stream without faults. -/
structure Cursor.Calm (cur : Cursor) (p : Pos) : Prop where
  pos : cur.toPos = p
  sound : cur.window.spoiled = false
  unmarked : cur.window.marked = false

def Pos.along (n : Nat) (p : Pos) : Pos := { p with column := p.column + n,index := p.index + n }

def Pos.broken (p : Pos) : Pos := ⟨p.line + 1,0,p.index + 1⟩

theorem Window.fill_sound (k unread : Nat) (portions : List Nat) :
    (Window.fill k false unread portions).2.2 = true := by
  induction portions generalizing unread with
  | nil => rfl
  | cons n more ih =>
    rw [Window.fill]
    simp only [Bool.and_false,Bool.false_eq_true,if_false]
    split_ifs
    · rfl
    · exact ih _

namespace Cursor.Calm

variable {cur : Cursor} {p : Pos} {c : Char} {rest : List Char}

theorem reach (h : cur.Calm p) (hrest : AsciiLines rest) (k : Nat) :
    ∃ cur', cur.reach k rest = (cur',true) ∧ cur'.Calm p := by
  unfold Cursor.reach
  by_cases hk : k ≤ cur.window.unread
  · exact ⟨cur,if_pos hk,h⟩
  · rw [if_neg hk]
    rcases hfill : Window.fill k cur.window.spoiled cur.window.unread cur.window.portions with
      ⟨unread,portions,sound⟩
    have hsound := Window.fill_sound k cur.window.unread cur.window.portions
    rw [← h.sound,hfill] at hsound
    cases hsound
    exact ⟨_,rfl,h.pos,h.sound,hrest.head?_ne⟩

theorem need (h : cur.Calm p) (hrest : AsciiLines rest) (k : Nat) :
    ∃ cur', cur.need k rest = some cur' ∧ cur'.Calm p := by
  obtain ⟨cur',hreach,hcur'⟩ := h.reach hrest k
  exact ⟨cur',by rw [Cursor.need,hreach],hcur'⟩

theorem along (h : cur.Calm p) (n : Nat) : (cur.along n).Calm (p.along n) :=
  ⟨by rw [← h.pos]; rfl,h.sound,h.unmarked⟩

theorem next (h : cur.Calm p) (hc : IsAscii c) : (cur.next c).Calm (p.along 1) := by
  rw [Cursor.next,hc.isBreak]
  exact h.along 1

theorem nextLine (h : cur.Calm p) : (cur.next '\n').Calm p.broken :=
  ⟨by rw [← h.pos]; rfl,h.sound,h.unmarked⟩

end Cursor.Calm

end Yaml
end CircuitNotes
