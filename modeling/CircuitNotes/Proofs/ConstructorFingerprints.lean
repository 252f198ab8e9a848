import CircuitNotes.Proofs.ShownExplanations

/-! What the fingerprint of a constructor tells apart. A quoted string is read back character by
character, so different constructors have different texts digested, and the digest alone decides whether
the records of one are kept under another. -/
namespace CircuitNotes

namespace Text

theorem hexValue?_digitChar : ∀ d < 16, hexValue? (Nat.digitChar d) = some d.toUInt8 := by decide

theorem hexDigits_four (n : Nat) : hexDigits 4 n =
    [Nat.digitChar (n / 4096 % 16),Nat.digitChar (n / 256 % 16),Nat.digitChar (n / 16 % 16),
      Nat.digitChar (n % 16)] := by
  simp [hexDigits,List.range_succ,Nat.shiftRight_eq_div_pow]

theorem ofHex?_toHex (t : Text) : ofHex? (toHex t) = some t := by
  rw [ofHex?,toHex,String.toList_ofList]
  induction t with
  | nil => rfl
  | cons b t ih =>
    have hb := b.toNat_lt
    have hhigh := hexValue?_digitChar (b.toNat / 16) (by omega)
    have hlow := hexValue?_digitChar (b.toNat % 16) (by omega)
    have hbyte : (b.toNat / 16).toUInt8 * 16 + (b.toNat % 16).toUInt8 = b := by
      apply UInt8.toNat_inj.mp
      simp only [UInt8.toNat_add,UInt8.toNat_mul,Nat.toUInt8,UInt8.toNat_ofNat',UInt8.reduceToNat]
      omega
    rw [List.flatMap_cons,List.cons_append,List.cons_append,List.nil_append,ofHexDigits?,hhigh,hlow,ih]
    simp [hbyte]

theorem toHex_injective {s t : Text} (h : toHex s = toHex t) : s = t := by
  have hread := congrArg ofHex? h
  rw [ofHex?_toHex,ofHex?_toHex] at hread
  exact Option.some.inj hread

end Text

namespace Json

def shortEscape? : Char → Option Char
  | '"' => some '"'
  | '\\' => some '\\'
  | '/' => some '/'
  | 'b' => some '\x08'
  | 'f' => some '\x0C'
  | 'n' => some '\n'
  | 'r' => some '\r'
  | 't' => some '\t'
  | _ => none

def hexNumber? (digits : List Char) : Option Nat :=
  digits.foldlM (fun n c => do return n * 16 + (← Text.hexValue? c).toNat) 0

def escaped? : List Char → Option (Char × List Char)
  | 'u' :: a :: b :: c :: d :: rest => do return (Char.ofNat (← hexNumber? [a,b,c,d]),rest)
  | e :: rest => do return (← shortEscape? e,rest)
  | [] => none

/-- The first character of what stands between the quotes of a string, and what is behind it. -/
def unescape? : List Char → Option (Char × List Char)
  | [] => none
  | c :: rest => if c = '"' then none else if c = '\\' then escaped? rest else some (c,rest)

/-- The ways to write a character between the quotes of a string. -/
inductive Spelling (c : Char) : List Char → Prop
  | plain (hquote : c ≠ '"') (hslash : c ≠ '\\') : Spelling c [c]
  | short {e : Char} (h : shortEscape? e = some c) : Spelling c ['\\',e]
  | code (h : c.toNat < 65536) : Spelling c ('\\' :: 'u' :: Text.hexDigits 4 c.toNat)

theorem exists_spelling (g : Text) : ∃ cs, Spelling (Text.glyphChar g) cs ∧
    escapeGlyph g = Text.ofString (String.ofList cs) := by
  have hchar {n : Nat} (h : (Text.glyphChar g).toNat = n) : Text.glyphChar g = Char.ofNat n := by
    rw [← h,Char.ofNat_toNat]
  unfold escapeGlyph
  dsimp only
  split_ifs with hquote hslash
  · exact ⟨['\\','"'],.short (by rw [beq_iff_eq.mp hquote]; rfl),rfl⟩
  · exact ⟨['\\','\\'],.short (by rw [beq_iff_eq.mp hslash]; rfl),rfl⟩
  · split
    · rename_i h
      exact ⟨['\\','b'],.short (by rw [hchar h]; rfl),rfl⟩
    · rename_i h
      exact ⟨['\\','t'],.short (by rw [hchar h]; rfl),rfl⟩
    · rename_i h
      exact ⟨['\\','n'],.short (by rw [hchar h]; rfl),rfl⟩
    · rename_i h
      exact ⟨['\\','f'],.short (by rw [hchar h]; rfl),rfl⟩
    · rename_i h
      exact ⟨['\\','r'],.short (by rw [hchar h]; rfl),rfl⟩
    · split_ifs with hcode
      · refine ⟨_,.code ?_,?_⟩
        · simp only [Bool.or_eq_true,decide_eq_true_eq,beq_iff_eq] at hcode
          rcases hcode with ((((h | h) | h) | h) | h) | h
          · omega
          · rw [h]; decide
          · rw [h]; decide
          · rw [h]; decide
          · omega
          · omega
        · simp [Text.ofString]
      · exact ⟨_,.plain (by simpa using hquote) (by simpa using hslash),rfl⟩

theorem hexNumber?_hexDigits {n : Nat} (h : n < 65536) : hexNumber? (Text.hexDigits 4 n) = some n := by
  have hdigit (d : Nat) : Text.hexValue? (Nat.digitChar (d % 16)) = some (d % 16).toUInt8 :=
    Text.hexValue?_digitChar _ (Nat.mod_lt d (by decide))
  have hnat (d : Nat) : (d % 16).toUInt8.toNat = d % 16 := by
    simp only [Nat.toUInt8,UInt8.toNat_ofNat']
    omega
  simp only [hexNumber?,Text.hexDigits_four,List.foldlM_cons,List.foldlM_nil,hdigit,hnat,
    Option.bind_eq_bind,Option.bind_some,Option.pure_def,Option.some.injEq]
  omega

theorem Spelling.unescape? {c : Char} {cs : List Char} (h : Spelling c cs) (rest : List Char) :
    unescape? (cs ++ rest) = some (c,rest) := by
  cases h with
  | plain hquote hslash => simp [Json.unescape?,hquote,hslash]
  | short h =>
    -- No letter of a short escape is the one that announces a code.
    rw [List.cons_append,Json.unescape?,if_neg (by decide),if_pos rfl]
    unfold shortEscape? at h
    split at h <;> cases h <;> rfl
  | code h =>
    have hnumber := hexNumber?_hexDigits h
    rw [Text.hexDigits_four] at hnumber ⊢
    simp [Json.unescape?,escaped?,hnumber]

/-- Of two texts that start with a character each, the same text starts with the same character. -/
theorem glyphChar_eq_of_escapeGlyph {g g' s t : Text} (h : escapeGlyph g ++ s = escapeGlyph g' ++ t) :
    Text.glyphChar g = Text.glyphChar g' := by
  obtain ⟨cs,hcs,hg⟩ := exists_spelling g
  obtain ⟨cs',hcs',hg'⟩ := exists_spelling g'
  have hchars := congrArg Text.chars h
  rw [hg,hg',Text.chars_ofString_append,Text.chars_ofString_append,String.toList_ofList,
    String.toList_ofList] at hchars
  have hread := congrArg unescape? hchars
  rw [hcs.unescape?,hcs'.unescape?] at hread
  exact (Prod.mk.inj (Option.some.inj hread)).1

theorem escapeGlyph_ne_nil (g : Text) : escapeGlyph g ≠ [] := by
  obtain ⟨cs,hcs,hg⟩ := exists_spelling g
  intro h
  rw [hg] at h
  have hnil : cs = [] := by
    rw [← String.toList_ofList (l:=cs),← Text.chars_ofString,h]
    rfl
  rw [hnil] at hcs
  cases hcs

theorem flatMap_escapeGlyph_injective {cs ds : List Char}
    (h : (cs.map String.utf8EncodeChar).flatMap escapeGlyph =
      (ds.map String.utf8EncodeChar).flatMap escapeGlyph) : cs = ds := by
  induction cs generalizing ds with
  | nil =>
    cases ds with
    | nil => rfl
    | cons d ds => exact absurd (List.append_eq_nil_iff.mp h.symm).1 (escapeGlyph_ne_nil _)
  | cons c cs ih =>
    cases ds with
    | nil => exact absurd (List.append_eq_nil_iff.mp h).1 (escapeGlyph_ne_nil _)
    | cons d ds =>
      have hfirst := glyphChar_eq_of_escapeGlyph h
      rw [Text.glyphChar_utf8EncodeChar,Text.glyphChar_utf8EncodeChar] at hfirst
      subst hfirst
      exact congrArg (c :: ·) (ih (List.append_cancel_left h))

theorem quote_injective {s t : String} (h : quote s = quote t) : s = t := by
  have hbody := List.append_cancel_left (List.append_cancel_right h)
  rw [Text.glyphs_ofString,Text.glyphs_ofString] at hbody
  exact String.toList_injective (flatMap_escapeGlyph_injective hbody)

end Json

theorem fingerprintText_injective {a b : String} (h : fingerprintText a = fingerprintText b) : a = b :=
  Json.quote_injective (List.append_cancel_left (List.append_cancel_right h))

theorem digest_eq_of_fingerprint {a b : String} (h : fingerprint a = fingerprint b) :
    (Sha256.digest (fingerprintText a)).take 8 = (Sha256.digest (fingerprintText b)).take 8 :=
  Text.toHex_injective (Text.ofString_injective h)

theorem Connection.fingerprint_eq_of_kept {c : Connection} {a b : String} {plan : MigrationPlan}
    (hstamp : c.database.stamp? = some (fingerprint a)) (hplan : c.plan b = .ok plan)
    (hkept : plan.needsRebuild = false) : fingerprint a = fingerprint b := by
  obtain ⟨s,rfl,hs,_⟩ := schema_of_plan hplan
  rw [hstamp,Option.getD_some] at hs
  rw [← hs]
  exact (MigrationPlan.of_keeps hkept).2.resolve_left (hs ▸ fingerprint_ne_nil a)

namespace Project

open Work

/-- Two projects that open their history alike: with the same answer, and with the same files and the
same transactions. -/
def OpensAlike (p q : Project) : Prop :=
  ∀ w, (result p.openHistory w).1 = (result q.openHistory w).1 ∧
    (result p.openHistory w).2.tree = (result q.openHistory w).2.tree ∧
    (result p.openHistory w).2.journal = (result q.openHistory w).2.journal

theorem opensAlike_of_constructor {p q : Project} (hroot : p.root = q.root) (hnow : p.now = q.now)
    (hconstructor : p.config.scan.constructor = q.config.scan.constructor) : OpensAlike p q := by
  intro w
  cases hconnect : w.tree.connect q.now.seconds (historyPath q.root) with
  | error e =>
    have hconnect' : w.tree.connect p.now.seconds (historyPath p.root) = .error e := by
      rw [hroot,hnow,hconnect]
    rw [result_openHistory_unconnected hconnect,result_openHistory_unconnected hconnect']
    exact ⟨rfl,rfl,rfl⟩
  | ok opened =>
    obtain ⟨c,t⟩ := opened
    have hconnect' : w.tree.connect p.now.seconds (historyPath p.root) = .ok (c,t) := by
      rw [hroot,hnow,hconnect]
    cases hprepare : c.prepare q.config.scan.constructor with
    | error e =>
      rw [result_openHistory_unprepared hconnect hprepare,
        result_openHistory_unprepared hconnect' (hconstructor ▸ hprepare)]
      exact ⟨rfl,rfl,rfl⟩
    | ok prepared =>
      obtain ⟨reason,c'⟩ := prepared
      obtain ⟨log,hopened⟩ := result_openHistory_prepared hconnect hprepare
      obtain ⟨log',hopened'⟩ := result_openHistory_prepared hconnect' (hconstructor ▸ hprepare)
      rw [hopened,hopened',hroot,hnow]
      exact ⟨rfl,rfl,rfl⟩

end Project

/-- The fingerprint tells constructors apart. The texts that are digested for two configurations are the
same exactly if their constructors are; nothing else of a configuration has to do with how the history is
opened; and records that carry the fingerprint of one constructor are kept under another only if the first
eight bytes of the two digests are the same. -/
theorem constructor_change_noticed (config config' : Config) :
    (fingerprintText config.scan.constructor = fingerprintText config'.scan.constructor ↔
      config.scan.constructor = config'.scan.constructor) ∧
    (config.scan.constructor = config'.scan.constructor → ∀ p : Project,
      Project.OpensAlike { p with config := config } { p with config := config' }) ∧
    ∀ (c : Connection) (plan : MigrationPlan),
      c.database.stamp? = some (fingerprint config.scan.constructor) →
      c.plan config'.scan.constructor = .ok plan → plan.needsRebuild = false →
      (Sha256.digest (fingerprintText config.scan.constructor)).take 8 =
        (Sha256.digest (fingerprintText config'.scan.constructor)).take 8 := by
  refine ⟨⟨fingerprintText_injective,congrArg fingerprintText⟩,?_,?_⟩
  · intro hsame p
    exact Project.opensAlike_of_constructor rfl rfl hsame
  · intro c plan hstamp hplan hkept
    exact digest_eq_of_fingerprint (Connection.fingerprint_eq_of_kept hstamp hplan hkept)

def preparedDatabase (constructor : String) : Connection :=
  { database := ({} : Database).migrate constructor }

theorem exists_plan_preparedDatabase (a b : String) : ∃ plan, (preparedDatabase a).plan b = .ok plan := by
  have hopen : (preparedDatabase a).isOpen = true := rfl
  have hschema : (preparedDatabase a).database.schema = .ok (Schema.ofConstructor a) :=
    Database.schema_migrate {} a
  rw [Connection.plan,Connection.ask,if_pos hopen,hschema]
  exact ⟨_,rfl⟩

/-- A constructor and one that reads like its escape: records of the first are dropped under the second. -/
theorem constructor_change_noticed_sample :
    fingerprintText "<" ≠ fingerprintText "\\u003c" ∧
    ∃ plan, (preparedDatabase "<").plan "\\u003c" = .ok plan ∧ plan.needsRebuild = true := by
  obtain ⟨hsame,_,hcollide⟩ := constructor_change_noticed { scan := { constructor := "<" } }
    { scan := { constructor := "\\u003c" } }
  obtain ⟨plan,hplan⟩ := exists_plan_preparedDatabase "<" "\\u003c"
  refine ⟨fun h => absurd (hsame.mp h) (by decide),plan,hplan,?_⟩
  cases hkept : plan.needsRebuild with
  | true => rfl
  | false =>
    have hstamp := Database.stamp?_migrate {} "<"
    exact absurd (hcollide (preparedDatabase "<") plan hstamp hplan hkept) (by decide +kernel)

end CircuitNotes
