import CircuitNotes.Config.Load
import CircuitNotes.Config.Save
import CircuitNotes.Proofs.DocumentChecking
import CircuitNotes.Proofs.IntegerReading
import Mathlib.Data.List.Forall2
import Mathlib.Data.List.Nodup

/-! Settings that were saved are loaded as they were. -/
namespace CircuitNotes
namespace Yaml

open Decoding Reading

/-! ### Decoding -/

/-- A decoding that ends with a value and reports nothing, where no reference is followed. -/
def Decodes {α : Type} (x : Decoding α) (a : α) : Prop :=
  ∀ scope p, scope.following = [] → p.mismatches = [] → p.copies = 0 →
    ∃ p', (x.run scope).run p = some (a,p') ∧ p'.mismatches = [] ∧ p'.copies = 0

namespace Decodes

variable {α β : Type} {a : α} {b : β}

theorem pure (a : α) : Decodes (pure a) a := fun _ p _ hm hc => ⟨p,rfl,hm,hc⟩

theorem bind {x : Decoding α} {f : α → Decoding β} (hx : Decodes x a) (hf : Decodes (f a) b) :
    Decodes (x >>= f) b := by
  intro scope p hscope hm hc
  obtain ⟨p₁,hrun,hm₁,hc₁⟩ := hx scope p hscope hm hc
  obtain ⟨p₂,hrun',h₂⟩ := hf scope p₁ hscope hm₁ hc₁
  refine ⟨p₂,?_,h₂⟩
  rw [ReaderT.run_bind,StateT.run_bind,hrun]
  exact hrun'

theorem of_read {f : Scope → Decoding α} (h : ∀ scope, Decodes (f scope) a) :
    Decodes (read >>= f) a :=
  fun scope p hscope hm hc => h scope scope p hscope hm hc

theorem count : Decodes count () := by
  rintro ⟨named,following,depth⟩ ⟨mismatches,nodes,copies⟩ hscope hm hc
  dsimp only at hscope hm hc
  subst hscope hm hc
  exact ⟨⟨[],nodes + 1,0⟩,rfl,rfl,rfl⟩

theorem behind {decode : Node → Decoding α} {n : Node} (hn : ∀ i s t l, n ≠ .reference i s t l)
    (h : Decodes (decode n) a) : Decodes (behind decode n) a := by
  refine bind count ?_
  cases n with
  | reference i s t l => exact absurd rfl (hn i s t l)
  | _ => exact h

theorem mapM {γ : Type} {f : γ → Decoding α} {g : β → α} {bs : List β} {xs : List γ}
    (h : List.Forall₂ (fun b x => Decodes (f x) (g b)) bs xs) : Decodes (xs.mapM f) (bs.map g) := by
  induction h with
  | nil => exact pure []
  | cons hx _ ih =>
    rw [List.mapM_cons]
    exact bind hx (bind ih (pure _))

end Decodes

/-! ### Scalars -/

variable {m : Node} {s : String}

theorem decodes_ofScalar {α : Type} {type tag : String} {line : Nat}
    {value? : Meaning → String → Option α} {w : Meaning} {a : α}
    (hw : taggedMeaning? tag s = some w) (htag : tag ≠ "!!binary") (hnull : w ≠ .null)
    (ha : value? w s = some a) :
    Decodes (ofScalar type value? (.scalar tag s line)) (some a) := by
  refine Decodes.behind nofun ?_
  refine Decodes.bind (a := (w,s)) ?_ ?_
  · rw [meaningOf,hw]
    dsimp only
    rw [if_neg (by simpa using htag)]
    exact Decodes.pure _
  · dsimp only
    rw [if_neg hnull,ha]
    exact Decodes.pure _

theorem taggedMeaning?_impliedTag {b : Bool} (h : b = true → meaning true s = .text) :
    taggedMeaning? (impliedTag s b) s = some .text ∧ impliedTag s b ≠ "!!binary" := by
  have htag : impliedTag s b = "!!str" ∨ impliedTag s b = "!!merge" := by
    rw [impliedTag]
    cases b with
    | false => exact Or.inl rfl
    | true =>
      split_ifs with hnot hmerge
      · exact Or.inl rfl
      · exact Or.inr rfl
      · rw [h rfl]
        exact Or.inl rfl
  rcases htag with htag | htag
  · rw [htag]
    exact ⟨by rw [taggedMeaning?,if_pos (by decide)],by decide⟩
  · rw [htag]
    exact ⟨by rw [taggedMeaning?,if_pos (by decide)],by decide⟩

theorem decodes_text {b : Bool} (h : b = true → meaning true s = .text) (hm : IsScalar s b m) :
    Decodes (text m) (some s) := by
  obtain ⟨line,rfl⟩ := hm
  obtain ⟨hmeaning,htag⟩ := taggedMeaning?_impliedTag h
  exact decodes_ofScalar hmeaning htag nofun rfl

theorem decodes_shownText {width : Nat} (h : ∀ c ∈ s.toList, IsAscii c)
    (hm : (shownText width s).IsNode m) : Decodes (text m) (some s) := by
  rw [Shown.IsNode,shownText,String.ofList_toList] at hm
  refine decodes_text (fun hplain => (written_text width h).2 ?_) hm
  exact eq_of_beq hplain

theorem decodes_texts {width : Nat} {ss : List String} (h : ∀ s ∈ ss, ∀ c ∈ s.toList, IsAscii c)
    (hm : (Entry.items (ss.map (shownText width))).IsNode m) : Decodes (texts m) (some ss) := by
  obtain ⟨items,line,rfl,hitems⟩ := hm
  have hfound : List.Forall₂ (fun s n => Decodes (text n) (some s)) ss items :=
    ((List.forall₂_and_left _ _).mpr ⟨h,List.forall₂_map_left_iff.mp hitems⟩).imp
      fun _ _ hs => decodes_shownText hs.1 hs.2
  refine Decodes.behind nofun ?_
  refine Decodes.bind (Decodes.mapM hfound) ?_
  rw [List.filterMap_map]
  simpa using Decodes.pure (some ss)

theorem impliedTag_of_meaning {w : Meaning} (h : meaning true s = w) (hw : w ≠ .text) :
    impliedTag s true = w.tag := by
  have hmerge : ¬(s == "<<") = true := by
    intro heq
    rw [eq_of_beq heq] at h
    exact hw (h.symm.trans (by decide))
  rw [impliedTag,if_neg (by decide),if_neg hmerge,h]

theorem decodes_int {i : Int} (hmin : Integer.min ≤ i) (hmax : i ≤ Integer.max)
    (hm : (shownWord (intChars i)).IsNode m) : Decodes (int m) (some i) := by
  obtain ⟨line,rfl⟩ := hm
  have htag := impliedTag_of_meaning (meaning_intChars true hmin hmax) nofun
  have hmeaning : taggedMeaning? "!!int" (String.ofList (intChars i)) = some (.int i) := by
    rw [taggedMeaning?,if_neg (by decide),meaning_intChars _ hmin hmax]
    rfl
  rw [shownWord,htag,Meaning.tag]
  exact decodes_ofScalar hmeaning (by decide) nofun (if_pos hmax)

theorem decodes_bool {b : Bool} (hm : (shownWord (boolChars b)).IsNode m) :
    Decodes (bool m) (some b) := by
  obtain ⟨line,rfl⟩ := hm
  cases b with
  | false => exact decodes_ofScalar (w := .bool false) (by decide) (by decide) nofun rfl
  | true => exact decodes_ofScalar (w := .bool true) (by decide) (by decide) nofun rfl

/-! ### Structures -/

/-- A name that is a text where it stands without quotes, and asks for no merge. -/
def IsWord (name : String) : Prop := meaning true name = .text ∧ name ≠ "<<"

instance (name : String) : Decidable (IsWord name) := inferInstanceAs (Decidable (_ ∧ _))

section

variable {α σ : Type} {name : α → String} {R : α → Node → Prop} {entries : List α}
  {pairs : List (Node × Node)} {rules : List (KeyRule σ)} {type : String}

/-- The values of entries, set one after another by the rules for their names. -/
inductive Sets (rules : List (KeyRule σ)) (name : α → String) (R : α → Node → Prop) :
    List α → σ → σ → Prop
  | nil (v : σ) : Sets rules name R [] v v
  | cons {e : α} {entries : List α} {rule : KeyRule σ} {v v' v'' : σ}
      (hrule : rules.find? (·.name == name e) = some rule)
      (hset : ∀ n, R e n → Decodes (rule.set n v) v')
      (hrest : Sets rules name R entries v' v'') : Sets rules name R (e :: entries) v v''

theorem repeatedKeys_of_nodup (h : (pairs.map (·.1.keyLabel)).Nodup) : repeatedKeys pairs = [] := by
  induction pairs with
  | nil => rfl
  | cons p pairs ih =>
    obtain ⟨hnot,hnodup⟩ := List.nodup_cons.mp h
    obtain ⟨k,v⟩ := p
    rw [repeatedKeys,ih hnodup,List.append_nil,List.filterMap_eq_nil_iff]
    intro q hq
    have hne : k.keyLabel ≠ q.1.keyLabel := fun heq => hnot (List.mem_map.mpr ⟨q,hq,heq.symm⟩)
    exact if_neg (by simpa using hne)

theorem labels_of_names
    (h : List.Forall₂ (fun e p => IsScalar (name e) true p.1 ∧ R e p.2) entries pairs) :
    pairs.map (·.1.keyLabel) = (entries.map name).map (Prod.mk 0) := by
  induction h with
  | nil => rfl
  | cons hp _ ih =>
    obtain ⟨line,hkey⟩ := hp.1
    rw [List.map_cons,List.map_cons,List.map_cons,ih,hkey]
    rfl

theorem filter_isMergeKey
    (h : List.Forall₂ (fun e p => IsScalar (name e) true p.1 ∧ R e p.2) entries pairs)
    (hwords : ∀ e ∈ entries, IsWord (name e)) :
    pairs.filter (fun p => !isMergeKey p.1) = pairs := by
  induction h with
  | nil => rfl
  | cons hp _ ih =>
    obtain ⟨hword,hwords⟩ := List.forall_mem_cons.mp hwords
    obtain ⟨line,hkey⟩ := hp.1
    rw [List.filter_cons_of_pos,ih hwords]
    rw [hkey,isMergeKey,beq_false_of_ne hword.2]
    rfl

/-- Pairs with different names that are not set yet are filled in one after another. -/
theorem decodes_structPairs {v v' : σ} {done : List String}
    (h : List.Forall₂ (fun e p => IsScalar (name e) true p.1 ∧ R e p.2) entries pairs)
    (hwords : ∀ e ∈ entries, IsWord (name e)) (hnodup : (entries.map name).Nodup)
    (hdone : ∀ e ∈ entries, name e ∉ done) (hsets : Sets rules name R entries v v') :
    ∃ done', Decodes (pairs.foldlM (fun f p => structPair type rules p f) ⟨none,done,v⟩)
      ⟨none,done',v'⟩ := by
  induction hsets generalizing pairs done with
  | nil v =>
    cases h
    exact ⟨done,Decodes.pure _⟩
  | @cons e entries rule v v' v'' hrule hset hrest ih =>
    cases h with
    | @cons _ p _ pairs hp hpairs =>
      obtain ⟨hnot,hnodup⟩ := List.nodup_cons.mp hnodup
      obtain ⟨hword,hwords⟩ := List.forall_mem_cons.mp hwords
      have hnew : ¬((⟨none,done,v⟩ : Filling σ).meet (Key.ofText (name e))).done.contains
          (name e) := by
        simpa [Filling.meet] using hdone e List.mem_cons_self
      have hpair : Decodes (structPair type rules p ⟨none,done,v⟩) ⟨none,name e :: done,v'⟩ := by
        refine Decodes.bind (decodes_text (fun _ => hword.1) hp.1) ?_
        dsimp only
        rw [if_neg (by simp [Filling.isNew]),hrule]
        dsimp only
        rw [if_neg hnew]
        exact Decodes.bind (hset p.2 hp.2) (Decodes.pure _)
      have hdone' : ∀ e' ∈ entries, name e' ∉ name e :: done := by
        intro e' he' hmem
        rcases List.mem_cons.mp hmem with heq | hmem
        · exact hnot (heq ▸ List.mem_map_of_mem he')
        · exact hdone e' (List.mem_cons_of_mem e he') hmem
      obtain ⟨done',hrun⟩ := ih hpairs hwords hnodup hdone'
      exact ⟨done',Decodes.bind hpair hrun⟩

theorem decodes_struct {names : List String} {v v' : σ}
    (hm : ∃ pairs line, m = .mapping "!!map" pairs line ∧
      List.Forall₂ (fun e p => IsScalar (name e) true p.1 ∧ R e p.2) entries pairs)
    (hnames : entries.map name = names) (hwords : ∀ key ∈ names, IsWord key) (hnodup : names.Nodup)
    (hsets : Sets rules name R entries v v') : Decodes (struct type rules m v) v' := by
  obtain ⟨pairs,line,rfl,h⟩ := hm
  subst hnames
  replace hwords : ∀ e ∈ entries, IsWord (name e) := List.forall_mem_map.mp hwords
  refine Decodes.behind nofun ?_
  refine Decodes.of_read fun scope => ?_
  obtain ⟨done,hrun⟩ := decodes_structPairs h hwords hnodup (fun _ _ => List.not_mem_nil) hsets
  refine Decodes.bind (a := (⟨none,done,v'⟩,true)) ?_ (Decodes.pure _)
  have hlabels : (pairs.map (·.1.keyLabel)).Nodup := by
    rw [labels_of_names h]
    exact List.Nodup.map (Prod.mk_right_injective 0) hnodup
  rw [fillMapping,repeatedKeys_of_nodup hlabels]
  dsimp only
  rw [filter_isMergeKey h hwords]
  refine Decodes.bind hrun ?_
  rw [if_pos (beq_self_eq_true _)]
  exact Decodes.pure _

theorem decodes_keyRule {β : Type} {decode : Node → Decoding (Option β)} {put : β → σ → σ} {a : β}
    {v : σ} (key : String) (h : Decodes (decode m) (some a)) :
    Decodes ((KeyRule.of key decode put).set m v) (put a v) :=
  Decodes.bind h (Decodes.pure _)

end

end Yaml

/-! ### Settings -/

namespace Config

open Yaml Yaml.Decoding

/-- Settings that have only printable characters of ASCII in their texts, and a number of jobs of
64 bits. -/
structure IsPrintable (c : Config) : Prop where
  includes : ∀ s ∈ c.scan.includes, ∀ ch ∈ s.toList, IsAscii ch
  excludes : ∀ s ∈ c.scan.excludes, ∀ ch ∈ s.toList, IsAscii ch
  constructor : ∀ ch ∈ c.scan.constructor.toList, IsAscii ch
  document : ∀ ch ∈ c.output.document.toList, IsAscii ch
  format : ∀ ch ∈ c.output.format.toList, IsAscii ch
  docsFolder : ∀ ch ∈ c.output.docsFolder.toList, IsAscii ch
  level : ∀ ch ∈ c.logging.level.toList, IsAscii ch
  jobs : Integer.min ≤ c.scan.jobs ∧ c.scan.jobs ≤ Integer.max

theorem isName_sections (c : Config) :
    ∀ key ∈ c.sections.flatMap fun s => s.1 :: s.2.map Prod.fst, IsName key := by
  have hnames : ∀ key ∈ ["scan","includes","excludes","constructor","jobs","output","document",
      "format","docs_dir","history","enabled","logging","level"], key.toList ≠ [] ∧
      key.toList.all isWordChar = true ∧ key.toList.length ≤ 1024 := by
    decide
  intro key hkey
  obtain ⟨hne,hall,hlength⟩ := hnames key hkey
  exact ⟨hne,List.all_eq_true.mp hall,hlength⟩

theorem isPrintable_sections {c : Config} (h : c.IsPrintable) :
    ∀ s ∈ c.sections, s.2 ≠ [] ∧ ∀ p ∈ s.2, p.2.IsPrintable := by
  simp only [sections,List.forall_mem_cons]
  exact ⟨⟨List.cons_ne_nil _ _,h.includes,h.excludes,h.constructor,trivial,nofun⟩,
    ⟨List.cons_ne_nil _ _,h.document,h.format,h.docsFolder,nofun⟩,
    ⟨List.cons_ne_nil _ _,trivial,nofun⟩,⟨List.cons_ne_nil _ _,h.level,nofun⟩,nofun⟩

/-- What the settings are printed as is decoded to them, whatever the values before. -/
theorem decodes_sections {c c₀ : Config} {m : Node} (h : c.IsPrintable)
    (hm : (sectionsOf c.sections).IsNode m) : Decodes (struct "config.Config" fields m c₀) c := by
  refine decodes_struct hm (rfl : _ = ["scan","output","history","logging"]) (by decide)
    (by decide) ?_
  refine .cons rfl (fun n hn => Decodes.bind (a := c.scan) ?_ (Decodes.pure _)) ?_
  · refine decodes_struct hn (rfl : _ = ["includes","excludes","constructor","jobs"]) (by decide)
      (by decide) ?_
    refine .cons rfl (fun n hn => decodes_keyRule _ (decodes_texts h.includes hn)) ?_
    refine .cons rfl (fun n hn => decodes_keyRule _ (decodes_texts h.excludes hn)) ?_
    refine .cons rfl (fun n hn => decodes_keyRule _ (decodes_shownText h.constructor hn)) ?_
    exact .cons rfl (fun n hn => decodes_keyRule _ (decodes_int h.jobs.1 h.jobs.2 hn)) (.nil _)
  refine .cons rfl (fun n hn => Decodes.bind (a := c.output) ?_ (Decodes.pure _)) ?_
  · refine decodes_struct hn (rfl : _ = ["document","format","docs_dir"]) (by decide) (by decide) ?_
    refine .cons rfl (fun n hn => decodes_keyRule _ (decodes_shownText h.document hn)) ?_
    refine .cons rfl (fun n hn => decodes_keyRule _ (decodes_shownText h.format hn)) ?_
    exact .cons rfl (fun n hn => decodes_keyRule _ (decodes_shownText h.docsFolder hn)) (.nil _)
  refine .cons rfl (fun n hn => Decodes.bind (a := c.history) ?_ (Decodes.pure _)) ?_
  · refine decodes_struct hn (rfl : _ = ["enabled"]) (by decide) (by decide) ?_
    exact .cons rfl (fun n hn => decodes_keyRule _ (decodes_bool hn)) (.nil _)
  refine .cons rfl (fun n hn => Decodes.bind (a := c.logging) ?_ (Decodes.pure _)) (.nil _)
  refine decodes_struct hn (rfl : _ = ["level"]) (by decide) (by decide) ?_
  exact .cons rfl (fun n hn => decodes_keyRule _ (decodes_shownText h.level hn)) (.nil _)

theorem ofText_toText {c : Config} (h : c.IsPrintable) : ofText c.toText = .ok c := by
  have hsections : ∀ s ∈ c.sections,
      IsName s.1 ∧ s.2 ≠ [] ∧ ∀ p ∈ s.2, IsName p.1 ∧ p.2.IsPrintable := by
    intro s hs
    have hnames := fun key hkey => isName_sections c key (List.mem_flatMap.mpr ⟨s,hs,hkey⟩)
    obtain ⟨hne,hprintable⟩ := isPrintable_sections h s hs
    refine ⟨hnames s.1 List.mem_cons_self,hne,fun p hp => ⟨?_,hprintable p hp⟩⟩
    exact hnames p.1 (List.mem_cons_of_mem _ (List.mem_map_of_mem hp))
  have hne : c.sections ≠ [] := List.cons_ne_nil _ _
  obtain ⟨m,depth,hdocument,hm⟩ := firstDocument?_document hne hsections
  have hwhole : Decodes (do count; struct "config.Config" fields m {}) c :=
    Decodes.bind Decodes.count (decodes_sections h hm)
  obtain ⟨p,hrun,hmismatches,-⟩ := hwhole ⟨[],[],depth⟩ {} rfl rfl rfl
  rw [ofText,toText,hdocument]
  dsimp only [ofTree]
  rw [hrun]
  simp [hmismatches]

/-- Settings that were saved are loaded from the same path. -/
theorem load_of_save {c : Config} {t t' : FileTree} {now : Int} {path : String} (h : c.IsPrintable)
    (hsave : c.save t now path = .ok t') : load t' path = .ok c := by
  rw [load,FileTree.read_of_write hsave]
  exact ofText_toText h

/-- Texts that would mean something else, or nothing at all, if they were written as they are. -/
def stubborn : Config where
  scan := { includes := [""," a ","<<","- x: #y","it's","\"\\\""],excludes := []
            constructor := "null",jobs := Integer.min }
  output := { document := "2020-01-01",format := "yes",docsFolder := "[0x1F, *&!|>%@`" }
  history := { enabled := false }
  logging := { level := "-1_0" }

theorem load_of_save_stubborn : ∃ t, stubborn.save {} 7 "/circuitdoc.yaml" = .ok t ∧
    load t "/circuitdoc.yaml" = .ok stubborn := by
  have hincludes : ∀ s ∈ stubborn.scan.includes, s.toList.all (decide <| IsAscii ·) = true := by
    decide
  have hprintable : stubborn.IsPrintable :=
    { includes := fun s hs => isAscii_of_all (hincludes s hs)
      excludes := nofun
      constructor := isAscii_of_all (by decide)
      document := isAscii_of_all (by decide)
      format := isAscii_of_all (by decide)
      docsFolder := isAscii_of_all (by decide)
      level := isAscii_of_all (by decide)
      jobs := by decide }
  have hsave : stubborn.save {} 7 "/circuitdoc.yaml" =
      .ok (FileTree.set {} ["circuitdoc.yaml"] (.file stubborn.toText 7)) := rfl
  exact ⟨_,hsave,load_of_save hprintable hsave⟩

end Config
end CircuitNotes
