import CircuitNotes.Config.Basic
import CircuitNotes.Proofs.FolderSearch

/-! What the patterns of the default settings select. Most characters of a pattern stand for themselves,
so a pattern `**/word/**` matches the paths with a piece `word`, and a pattern `**/*word` those that end
in `word`. From this the files that a search by default comes to are told by their names alone. -/
namespace CircuitNotes
namespace Glob

/-- A character of a pattern that stands for itself. -/
def Literal (c : Char) : Prop := c ∉ ['*','?','[','{','\\']

instance : DecidablePred Literal := fun c => inferInstanceAs (Decidable (c ∉ _))

/-- Characters that stand for themselves, within one piece of a path. -/
structure Word (word : List Char) : Prop where
  literal : ∀ c ∈ word, Literal c
  within : '/' ∉ word
  nonempty : word ≠ []

instance (word : List Char) : Decidable (Word word) :=
  decidable_of_iff ((word.all fun c => decide (Literal c)) = true ∧ '/' ∉ word ∧ word ≠ [])
    ⟨fun h => ⟨by simpa using h.1,h.2.1,h.2.2⟩,fun h => ⟨by simpa using h.literal,h.within,h.nonempty⟩⟩

theorem Word.of_cons {p : Char} {word : List Char} (h : Word (p :: word)) (hne : word ≠ []) :
    Word word where
  literal := fun c hc => h.literal c (List.mem_cons_of_mem p hc)
  within := fun hslash => h.within (List.mem_cons_of_mem p hslash)
  nonempty := hne

/-! ### Ends of names -/

theorem atEnd_of_mem {pat : List Char}
    (h : pat ∈ ["","*","**","/**","**/","/**/"].map String.toList) : atEnd pat = .matched := by
  unfold atEnd
  rw [if_pos h]

theorem atEnd_ne_matched {pat : List Char}
    (h : pat ∉ ["","*","**","/**","**/","/**/"].map String.toList) (hbrace : pat.head? ≠ some '{') :
    atEnd pat ≠ .matched := by
  unfold atEnd
  rw [if_neg h]
  split
  · exact absurd rfl hbrace
  · split_ifs <;> decide

theorem Word.atEnd_ne_matched {word : List Char} (h : Word word) (rest : List Char) :
    atEnd (word ++ rest) ≠ .matched := by
  obtain ⟨p,more,rfl⟩ := List.exists_cons_of_ne_nil h.nonempty
  have hp := h.literal p List.mem_cons_self
  have hslash : p ≠ '/' := fun hslash => h.within (hslash ▸ List.mem_cons_self)
  simp only [Literal,List.mem_cons,List.not_mem_nil,or_false,not_or] at hp
  refine Glob.atEnd_ne_matched ?_ ?_
  · simp [hp,hslash]
  · simpa using hp.2.2.2.1

/-! ### Straight runs -/

theorem advance_cons {p : Char} (hp : Literal p) (fresh : Bool) (rest : List Char) (c : Char)
    (name : List Char) : advance fresh false (p :: rest) (c :: name) =
      if p = c then advance (p == '/') false rest name else .mismatch (p :: rest) := by
  simp only [Literal,List.mem_cons,List.not_mem_nil,or_false,not_or] at hp
  rw [advance.eq_def]
  simp [hp]

theorem Word.advance_cons {p : Char} {word : List Char} (h : Word (p :: word)) (fresh : Bool)
    (rest name : List Char) :
    advance fresh false (p :: word ++ rest) (p :: name) = advance false false (word ++ rest) name := by
  have hp : p ≠ '/' := fun hslash => h.within (hslash ▸ List.mem_cons_self)
  rw [List.cons_append,Glob.advance_cons (h.literal p List.mem_cons_self),if_pos rfl,
    beq_false_of_ne hp]

theorem Word.advance_append {word : List Char} (h : Word word) (fresh : Bool)
    (rest name : List Char) :
    advance fresh false (word ++ rest) (word ++ name) = advance false false rest name := by
  induction word generalizing fresh with
  | nil => exact absurd rfl h.nonempty
  | cons p word ih =>
    refine (h.advance_cons fresh rest (word ++ name)).trans ?_
    by_cases hlast : word = []
    · rw [hlast,List.nil_append,List.nil_append]
    · exact ih (h.of_cons hlast) false

/-- A run stops within a word that the name does not start with: they part, or the name is the start
of the word and has ended. -/
theorem Word.advance_of_not_prefix {word : List Char} (h : Word word) (fresh : Bool)
    (rest : List Char) {name : List Char} (hnot : ¬word <+: name) :
    (∃ pat, advance fresh false (word ++ rest) name = .mismatch pat) ∨
      name <+: word ∧ ∃ pat, advance fresh false (word ++ rest) name = .ended pat ∧
        atEnd pat ≠ .matched := by
  induction word generalizing fresh name with
  | nil => exact absurd List.nil_prefix hnot
  | cons p word ih =>
    cases name with
    | nil =>
      exact Or.inr ⟨List.nil_prefix,p :: word ++ rest,by rw [advance],h.atEnd_ne_matched rest⟩
    | cons c name =>
      by_cases hpc : p = c
      · subst hpc
        have hmore : ¬word <+: name := fun hmore => hnot (List.cons_prefix_cons.mpr ⟨rfl,hmore⟩)
        have hne : word ≠ [] := fun hnil => hmore (hnil ▸ List.nil_prefix)
        rw [h.advance_cons]
        refine (ih (h.of_cons hne) false hmore).imp_right ?_
        rintro ⟨hname,hended⟩
        exact ⟨List.cons_prefix_cons.mpr ⟨rfl,hname⟩,hended⟩
      · rw [List.cons_append,Glob.advance_cons (h.literal p List.mem_cons_self),if_neg hpc]
        exact Or.inl ⟨_,rfl⟩

/-! ### One stop of a match -/

section Stops

variable {m : Memory} {fresh slashed : Bool} {here : Point}

theorem matchFrom_of_decided {o : Outcome}
    (h : advance fresh slashed here.pat here.name = .decided o) :
    matchFrom m fresh slashed here = o := by
  rw [matchFrom]
  split <;> simp_all

theorem matchFrom_of_ended {pat : List Char}
    (h : advance fresh slashed here.pat here.name = .ended pat) :
    matchFrom m fresh slashed here = atEnd pat := by
  rw [matchFrom]
  split <;> simp_all

theorem matchFrom_of_star {p : Point} (h : advance fresh slashed here.pat here.name = .star p) :
    matchFrom m fresh slashed here = matchFrom ⟨m.deep,some p⟩ false false p := by
  rw [matchFrom]
  split <;> simp_all

theorem matchFrom_of_deep {p : Point} (h : advance fresh slashed here.pat here.name = .deep p) :
    matchFrom m fresh slashed here = matchFrom ⟨some p,none⟩ true false p := by
  rw [matchFrom]
  split <;> simp_all

theorem matchFrom_of_mismatch {pat : List Char}
    (h : advance fresh slashed here.pat here.name = .mismatch pat) :
    matchFrom m fresh slashed here = .matched ↔
      ∃ m' fresh' here', m.retry? = some (m',fresh',here') ∧
        matchFrom m' fresh' false here' = .matched := by
  rw [matchFrom]
  split <;> simp_all only [reduceCtorEq,Stop.mismatch.injEq]
  split
  · rename_i hretry
    rw [hretry]
    refine ⟨fun hmatched => ⟨_,_,_,rfl,hmatched⟩,?_⟩
    rintro ⟨_,_,_,⟨⟩,hmatched⟩
    exact hmatched
  · rename_i hretry
    rw [hretry]
    split <;> simp

end Stops

/-! ### Piece by piece -/

theorem afterSlash_of_not_mem {name : List Char} (h : '/' ∉ name) : afterSlash name = none := by
  induction name with
  | nil => rfl
  | cons c name ih =>
    obtain ⟨hc,hname⟩ := not_or.mp (mt List.mem_cons.mpr h)
    rw [afterSlash,if_neg (by simpa using Ne.symm hc),ih hname]

theorem afterSlash_append {piece : List Char} (h : '/' ∉ piece) (rest : List Char) :
    afterSlash (piece ++ '/' :: rest) = some rest := by
  induction piece with
  | nil => rfl
  | cons c piece ih =>
    obtain ⟨hc,hpiece⟩ := not_or.mp (mt List.mem_cons.mpr h)
    rw [List.cons_append,afterSlash,if_neg (by simpa using Ne.symm hc),ih hpiece]

/-- Whether what follows `**/` in a pattern matches from the start of a piece on, or of a later one. -/
def MatchesBelow (pat name : List Char) : Prop :=
  matchFrom ⟨some ⟨pat,name⟩,none⟩ true false ⟨pat,name⟩ = .matched

theorem outcome_below_iff {pat : List Char} (hne : pat ≠ []) (hnil : ¬MatchesBelow pat [])
    (path : String) : outcome (String.ofList ('*' :: '*' :: '/' :: pat)) path = .matched ↔
      MatchesBelow pat path.toList := by
  rw [outcome,String.toList_ofList]
  cases path.toList with
  | nil =>
    have hended : advance true false ('*' :: '*' :: '/' :: pat) [] =
        .ended ('*' :: '*' :: '/' :: pat) := by rw [advance]
    rw [matchFrom_of_ended hended]
    exact iff_of_false (atEnd_ne_matched (by simpa using hne) (by simp)) hnil
  | cons c name => rw [matchFrom_of_deep (p := ⟨pat,c :: name⟩) rfl,MatchesBelow]

theorem Memory.deeper_matches_iff (pat name : List Char) (star : Option Point) :
    (∃ m fresh here, Memory.deeper? ⟨some ⟨pat,name⟩,star⟩ = some (m,fresh,here) ∧
        matchFrom m fresh false here = .matched) ↔
      ∃ rest, afterSlash name = some rest ∧ MatchesBelow pat rest := by
  simp only [Memory.deeper?,Option.map_eq_some_iff,Prod.mk.injEq]
  refine ⟨?_,?_⟩
  · rintro ⟨_,_,_,⟨rest,hrest,rfl,rfl,rfl⟩,hmatched⟩
    exact ⟨rest,hrest,hmatched⟩
  · rintro ⟨rest,hrest,hmatched⟩
    exact ⟨_,_,_,⟨rest,hrest,rfl,rfl,rfl⟩,hmatched⟩

theorem matchesBelow_of_mismatch {pat name pat' : List Char}
    (h : advance true false pat name = .mismatch pat') :
    MatchesBelow pat name ↔ ∃ rest, afterSlash name = some rest ∧ MatchesBelow pat rest := by
  rw [← Memory.deeper_matches_iff pat name none]
  exact matchFrom_of_mismatch h

theorem matchesBelow_of_ended {pat name pat' : List Char}
    (h : advance true false pat name = .ended pat') :
    MatchesBelow pat name ↔ atEnd pat' = .matched := by
  rw [MatchesBelow,matchFrom_of_ended h]

/-! ### Folders -/

def folderPattern (word : List Char) : List Char := word ++ ['/','*','*']

theorem matchesBelow_folder_self {word : List Char} (h : Word word) {tail : List Char}
    (htail : tail = [] ∨ ∃ rest, tail = '/' :: rest) :
    MatchesBelow (folderPattern word) (word ++ tail) := by
  have hrun : advance true false (folderPattern word) (word ++ tail) =
      advance false false ['/','*','*'] tail := h.advance_append true _ tail
  rcases htail with rfl | ⟨rest,rfl⟩
  · rw [advance] at hrun
    exact (matchesBelow_of_ended hrun).mpr (atEnd_of_mem (by decide))
  · rw [advance_cons (by decide),if_pos rfl] at hrun
    cases rest with
    | nil => exact (matchesBelow_of_ended hrun).mpr (atEnd_of_mem (by decide))
    | cons c rest => exact matchFrom_of_decided hrun

theorem advance_folder_of_ne {word piece : List Char} (h : Word word) (hpiece : '/' ∉ piece)
    (hne : piece ≠ word) {tail : List Char} (htail : tail = [] ∨ ∃ rest, tail = '/' :: rest) :
    (∃ pat, advance true false (folderPattern word) (piece ++ tail) = .mismatch pat) ∨
      tail = [] ∧ ∃ pat, advance true false (folderPattern word) (piece ++ tail) = .ended pat ∧
        atEnd pat ≠ .matched := by
  by_cases hstarts : word <+: piece
  · obtain ⟨more,rfl⟩ := hstarts
    obtain ⟨c,more,rfl⟩ := List.exists_cons_of_ne_nil (l := more) (by simpa using hne)
    have hc : '/' ≠ c := by
      rintro rfl
      exact hpiece (by simp)
    have hrun := h.advance_append true ['/','*','*'] (c :: more ++ tail)
    rw [List.cons_append,advance_cons (by decide),if_neg hc] at hrun
    exact Or.inl ⟨_,by rw [List.append_assoc]; exact hrun⟩
  · have hnot : ¬word <+: piece ++ tail := by
      intro hstarts'
      rcases List.prefix_or_prefix_of_prefix hstarts' (List.prefix_append piece tail) with
        hword | ⟨more,rfl⟩
      · exact hstarts hword
      · -- The word would go on with the slash after the piece.
        rw [List.prefix_append_right_inj] at hstarts'
        rcases htail with rfl | ⟨rest,rfl⟩
        · exact hne (by simpa using hstarts')
        · cases more with
          | nil => exact hne (by simp)
          | cons c more =>
            obtain ⟨rfl,-⟩ := List.cons_prefix_cons.mp hstarts'
            exact h.within (by simp)
    refine (h.advance_of_not_prefix true ['/','*','*'] hnot).imp_right ?_
    rintro ⟨hname,hended⟩
    refine ⟨?_,hended⟩
    rcases htail with rfl | ⟨rest,rfl⟩
    · rfl
    · exact absurd (hname.subset (by simp)) h.within

theorem matchesBelow_folder_piece {word piece : List Char} (h : Word word) (hpiece : '/' ∉ piece) :
    MatchesBelow (folderPattern word) piece ↔ piece = word := by
  by_cases hsame : piece = word
  · subst hsame
    have hself := matchesBelow_folder_self h (Or.inl rfl)
    rw [List.append_nil] at hself
    exact iff_of_true hself rfl
  · have hstops := advance_folder_of_ne h hpiece hsame (Or.inl rfl)
    rw [List.append_nil] at hstops
    refine iff_of_false ?_ hsame
    rcases hstops with ⟨pat,hparted⟩ | ⟨-,pat,hended,hpat⟩
    · rw [matchesBelow_of_mismatch hparted,afterSlash_of_not_mem hpiece]
      simp
    · rwa [matchesBelow_of_ended hended]

theorem matchesBelow_folder_append {word piece : List Char} (h : Word word) (hpiece : '/' ∉ piece)
    (rest : List Char) : MatchesBelow (folderPattern word) (piece ++ '/' :: rest) ↔
      piece = word ∨ MatchesBelow (folderPattern word) rest := by
  by_cases hsame : piece = word
  · subst hsame
    exact iff_of_true (matchesBelow_folder_self h (Or.inr ⟨rest,rfl⟩)) (Or.inl rfl)
  · rcases advance_folder_of_ne h hpiece hsame (Or.inr ⟨rest,rfl⟩) with ⟨pat,hparted⟩ | ⟨hnil,-⟩
    · rw [matchesBelow_of_mismatch hparted,afterSlash_append hpiece]
      simp [hsame]
    · cases hnil

theorem matchesBelow_folder_iff {word : List Char} (h : Word word) (name : List Char) :
    MatchesBelow (folderPattern word) name ↔ String.ofList word ∈ Path.pieces.splitAt name := by
  induction hlength : name.length using Nat.strong_induction_on generalizing name with
  | _ n ih =>
    by_cases hslash : '/' ∈ name
    · obtain ⟨piece,rest,rfl,hpiece⟩ := List.eq_append_cons_of_mem hslash
      rw [List.length_append,List.length_cons] at hlength
      rw [matchesBelow_folder_append h hpiece,ih rest.length (by omega) rest rfl,
        Path.splitAt_append_slash,Path.splitAt_of_not_mem hpiece,List.singleton_append,List.mem_cons,
        String.ofList_inj,eq_comm]
    · rw [matchesBelow_folder_piece h hslash,Path.splitAt_of_not_mem hslash,List.mem_singleton,
        String.ofList_inj,eq_comm]

/-- A pattern `**/word/**` matches the paths that have the word for a piece. -/
theorem outcome_folder_iff {word : String} (h : Word word.toList) (path : String) :
    outcome ("**/" ++ word ++ "/**") path = .matched ↔ word ∈ Path.pieces path := by
  have hpattern : "**/" ++ word ++ "/**" =
      String.ofList ('*' :: '*' :: '/' :: folderPattern word.toList) :=
    String.toList_injective (by simp [folderPattern])
  have hnil : ¬MatchesBelow (folderPattern word.toList) [] := by
    rw [matchesBelow_folder_piece h List.not_mem_nil]
    exact Ne.symm h.nonempty
  rw [hpattern,outcome_below_iff (by simp [folderPattern]) hnil,matchesBelow_folder_iff h,
    String.ofList_toList,Path.pieces]

/-! ### Endings -/

/-- Where a word and the name after a star part, the star takes one character more, up to the next
slash. -/
theorem matchFrom_star_of_mismatch {word pat start name pat' : List Char} {c : Char}
    (h : advance false false word (c :: name) = .mismatch pat') :
    matchFrom ⟨some ⟨pat,start⟩,some ⟨word,c :: name⟩⟩ false false ⟨word,c :: name⟩ = .matched ↔
      if c = '/' then ∃ rest, afterSlash start = some rest ∧ MatchesBelow pat rest
      else matchFrom ⟨some ⟨pat,start⟩,some ⟨word,name⟩⟩ false false ⟨word,name⟩ = .matched := by
  rw [matchFrom_of_mismatch h]
  simp only [Memory.retry?,beq_iff_eq]
  split_ifs with hc
  · exact Memory.deeper_matches_iff pat start _
  · refine ⟨?_,fun hmatched => ⟨_,_,_,rfl,hmatched⟩⟩
    rintro ⟨_,_,_,⟨⟩,hmatched⟩
    exact hmatched

/-- After a star, a word matches what ends in it. The induction is on the name within its piece; what
stands behind the next slash is left to `hbelow`. -/
theorem matchFrom_star_iff {word : List Char} (h : Word word) {start name : List Char}
    (hstart : afterSlash start = afterSlash name)
    (hbelow : ∀ rest, afterSlash name = some rest →
      (MatchesBelow ('*' :: word) rest ↔ word <:+ rest)) :
    matchFrom ⟨some ⟨'*' :: word,start⟩,some ⟨word,name⟩⟩ false false ⟨word,name⟩ = .matched ↔
      word <:+ name := by
  induction name with
  | nil =>
    have hended : advance false false word [] = .ended word := by rw [advance]
    have hmissing := h.atEnd_ne_matched []
    rw [List.append_nil] at hmissing
    rw [matchFrom_of_ended hended,List.suffix_nil]
    exact iff_of_false hmissing h.nonempty
  | cons c name ih =>
    have hparted {pat : List Char} (hne : word ≠ c :: name)
        (hadvance : advance false false word (c :: name) = .mismatch pat) :
        matchFrom ⟨some ⟨'*' :: word,start⟩,some ⟨word,c :: name⟩⟩ false false
          ⟨word,c :: name⟩ = .matched ↔ word <:+ c :: name := by
      rw [matchFrom_star_of_mismatch hadvance,List.suffix_cons_iff,or_iff_right hne]
      split_ifs with hc
      · have hafter : afterSlash (c :: name) = some name := by
          rw [afterSlash,if_pos (by simpa using hc)]
        rw [hstart,hafter,← hbelow name hafter]
        simp
      · have hafter : afterSlash (c :: name) = afterSlash name := by
          rw [afterSlash,if_neg (by simpa using hc)]
        rw [hafter] at hstart hbelow
        exact ih hstart hbelow
    by_cases hstarts : word <+: c :: name
    · obtain ⟨more,hmore⟩ := hstarts
      have hrun := h.advance_append false [] more
      rw [List.append_nil,hmore] at hrun
      cases more with
      | nil =>
        rw [advance] at hrun
        rw [matchFrom_of_ended hrun,← hmore,List.append_nil]
        exact iff_of_true (atEnd_of_mem (by decide)) List.suffix_rfl
      | cons d more => exact hparted (by rintro rfl; simp at hmore) hrun
    · have hne : word ≠ c :: name := fun hsame => hstarts (hsame ▸ List.prefix_rfl)
      have hstops := h.advance_of_not_prefix false [] hstarts
      rw [List.append_nil] at hstops
      rcases hstops with ⟨pat,hadvance⟩ | ⟨hname,pat,hended,hpat⟩
      · exact hparted hne hadvance
      · rw [matchFrom_of_ended hended]
        refine iff_of_false hpat ?_
        intro hends
        exact hne (hname.eq_of_length_le hends.length_le).symm

theorem advance_star {word : List Char} (h : Word word) (c : Char) (name : List Char) :
    advance true false ('*' :: word) (c :: name) = .star ⟨word,c :: name⟩ := by
  obtain ⟨p,more,rfl⟩ := List.exists_cons_of_ne_nil h.nonempty
  have hp := h.literal p List.mem_cons_self
  simp only [Literal,List.mem_cons,List.not_mem_nil,or_false,not_or] at hp
  rw [advance.eq_def]
  simp [hp]

theorem matchesBelow_star_iff {word : List Char} (h : Word word) (name : List Char) :
    MatchesBelow ('*' :: word) name ↔ word <:+ name := by
  induction hlength : name.length using Nat.strong_induction_on generalizing name with
  | _ n ih =>
    cases name with
    | nil =>
      have hended : advance true false ('*' :: word) [] = .ended ('*' :: word) := by rw [advance]
      rw [matchesBelow_of_ended hended,List.suffix_nil]
      refine iff_of_false (atEnd_ne_matched ?_ (by simp)) h.nonempty
      obtain ⟨p,more,rfl⟩ := List.exists_cons_of_ne_nil h.nonempty
      have hp : p ≠ '*' := fun hp => h.literal p List.mem_cons_self (by simp [hp])
      simp [hp]
    | cons c name =>
      rw [MatchesBelow,matchFrom_of_star (advance_star h c name)]
      refine matchFrom_star_iff h rfl ?_
      intro rest hrest
      have hshorter := length_afterSlash hrest
      exact ih rest.length (by omega) rest rfl

/-- A pattern `**/*word` matches the paths that end in the word. -/
theorem outcome_star_iff {word : String} (h : Word word.toList) (path : String) :
    outcome ("**/*" ++ word) path = .matched ↔ word.toList <:+ path.toList := by
  have hpattern : "**/*" ++ word = String.ofList ('*' :: '*' :: '/' :: '*' :: word.toList) :=
    String.toList_injective (by simp)
  have hnil : ¬MatchesBelow ('*' :: word.toList) [] := by
    rw [matchesBelow_star_iff h,List.suffix_nil]
    exact h.nonempty
  rw [hpattern,outcome_below_iff (by simp) hnil,matchesBelow_star_iff h]

end Glob

/-! ### The default settings -/

open FileTree Glob

/-- The folders that no search by default goes into. -/
def passedOver : List String :=
  [".git",".venv","venv","__pycache__","site-packages",".circuitdoc"]

def PythonName (name : String) : Prop := ".py".toList <:+ name.toList

instance : DecidablePred PythonName := fun name =>
  inferInstanceAs (Decidable (".py".toList <:+ name.toList))

theorem includes_default : ({} : Config).scan.includes = ["**/*" ++ ".py"] := by decide +kernel

theorem excludes_default :
    ({} : Config).scan.excludes = passedOver.map fun word => "**/" ++ word ++ "/**" := by
  decide +kernel

theorem word_of_mem_passedOver {word : String} (h : word ∈ passedOver) : Word word.toList := by
  have hall : ∀ word ∈ passedOver, Word word.toList := by decide +kernel
  exact hall word h

theorem not_pythonName_of_mem_passedOver {word : String} (h : word ∈ passedOver) :
    ¬PythonName word := by
  have hall : ∀ word ∈ passedOver, ¬PythonName word := by decide +kernel
  exact hall word h

theorem not_excluded_default_iff (path : String) :
    (∀ pattern ∈ ({} : Config).scan.excludes, outcome pattern path ≠ .matched) ↔
      ∀ piece ∈ Path.pieces path, piece ∉ passedOver := by
  rw [excludes_default]
  refine ⟨?_,?_⟩
  · intro h piece hpiece hmem
    exact h _ (List.mem_map_of_mem hmem)
      ((outcome_folder_iff (word_of_mem_passedOver hmem) path).mpr hpiece)
  · intro h pattern hpattern hmatched
    obtain ⟨word,hword,rfl⟩ := List.mem_map.mp hpattern
    exact h word ((outcome_folder_iff (word_of_mem_passedOver hword) path).mp hmatched) hword

theorem suffix_relativePath_iff {word : List Char} (h : '/' ∉ word) (folders : List String)
    (name : String) :
    word <:+ (relativePath (folders ++ [name])).toList ↔ word <:+ name.toList := by
  by_cases hfolders : folders = []
  · rw [hfolders,List.nil_append,relativePath,String.intercalate_singleton]
  · have hpath : (relativePath (folders ++ [name])).toList =
        (relativePath folders).toList ++ '/' :: name.toList := by
      rw [relativePath,String.intercalate_append_of_ne_nil hfolders (by simp),
        String.intercalate_singleton]
      simp [relativePath]
    rw [hpath]
    refine ⟨?_,fun hends => hends.trans ((List.suffix_cons _ _).trans (List.suffix_append _ _))⟩
    intro hends
    rcases List.suffix_or_suffix_of_suffix hends (List.suffix_append _ ('/' :: name.toList)) with
      hword | hslash
    · rcases List.suffix_cons_iff.mp hword with rfl | hname
      · exact absurd List.mem_cons_self h
      · exact hname
    · exact absurd (hslash.subset List.mem_cons_self) h

/-- Which files the default settings choose. -/
theorem chosen_default_iff {folders : List String} {name : String}
    (h : ∀ n ∈ folders ++ [name], '/' ∉ n.toList) :
    Chosen outcome ({} : Config).scan.includes ({} : Config).scan.excludes (folders ++ [name]) ↔
      PythonName name ∧ ∀ folder ∈ folders, folder ∉ passedOver := by
  have hpieces {names : List String} (hne : names ≠ []) (hnames : names <+: folders ++ [name]) :
      Path.pieces (relativePath names) = names :=
    Path.pieces_intercalate hne fun n hn =>
      (Path.pieces_eq_singleton_iff n).mpr (h n (hnames.subset hn))
  have hincluded : (∃ pattern ∈ if ({} : Config).scan.includes.isEmpty then ["**/*"] else
      ({} : Config).scan.includes, outcome pattern (relativePath (folders ++ [name])) = .matched) ↔
      PythonName name := by
    have hword : Word ".py".toList := by decide +kernel
    rw [includes_default,PythonName,← suffix_relativePath_iff hword.within folders,
      ← outcome_star_iff hword]
    simp
  refine ⟨?_,?_⟩
  · rintro ⟨hname,hkept,-⟩
    rw [hincluded] at hname
    rw [not_excluded_default_iff,hpieces (by simp) List.prefix_rfl] at hkept
    exact ⟨hname,fun folder hfolder => hkept folder (List.mem_append_left _ hfolder)⟩
  · rintro ⟨hname,hfolders⟩
    refine ⟨hincluded.mpr hname,?_,?_⟩
    · rw [not_excluded_default_iff,hpieces (by simp) List.prefix_rfl]
      intro piece hpiece hpassed
      rcases List.mem_append.mp hpiece with hfolder | hlast
      · exact hfolders piece hfolder hpassed
      · rw [List.mem_singleton.mp hlast] at hpassed
        exact not_pythonName_of_mem_passedOver hpassed hname
    · intro folder hne hstarts hproper
      have hslash : relativePath folder ++ "/" = relativePath folder ++ "/" ++ "" := by simp
      rw [not_excluded_default_iff,hslash,Path.pieces_append_slash,hpieces hne hstarts]
      intro piece hpiece hpassed
      rcases List.mem_append.mp hpiece with hfolder | hlast
      · rcases List.prefix_concat_iff.mp hstarts with hall | habove
        · exact hproper hall
        · exact hfolders piece (habove.subset hfolder) hpassed
      · -- Behind the slash of a folder there is nothing.
        obtain rfl : piece = "" := by simpa [Path.pieces,Path.pieces.splitAt] using hlast
        exact (word_of_mem_passedOver hpassed).nonempty rfl

/-- By default a search of a folder finds, of all files and links below it, those whose names end in
`.py` and that stand in no folder that is passed over, however deep. -/
theorem default_search_finds_python {t : FileTree} (hl : t.Listed) {root : String}
    {place : List String} (hroot : t.statLink (t.absolute root) = .ok (place,.folder)) :
    ∃ files, t.walk (.ofPatterns ({} : Config).scan.includes ({} : Config).scan.excludes) root =
        .ok files ∧
      (∀ f ∈ files, ∃ folders name node, t.find? (place ++ (folders ++ [name])) = some node ∧
        node.isFolder = false ∧ f = foundAt (t.absolute root) (folders ++ [name],node)) ∧
      ∀ folders name node, t.find? (place ++ (folders ++ [name])) = some node →
        node.isFolder = false →
        (foundAt (t.absolute root) (folders ++ [name],node) ∈ files ↔
          PythonName name ∧ ∀ folder ∈ folders, folder ∉ passedOver) := by
  have hwalk : t.walk (.ofPatterns ({} : Config).scan.includes ({} : Config).scan.excludes) root = _ :=
    walk_of_folder hroot
  refine ⟨_,hwalk,?_,?_⟩
  · intro f hf
    obtain ⟨_,_,hroot',hfound⟩ := (mem_walk_iff hl.toProper hwalk f).mp hf
    cases hroot.symm.trans hroot'
    obtain ⟨names,node,hmem,hne,hfile,-,rfl⟩ := hfound
    obtain ⟨folders,name,rfl⟩ := (List.eq_nil_or_concat' names).resolve_left hne
    exact ⟨folders,name,node,hl.found _ hmem,hfile,rfl⟩
  · intro folders name node hnode hfile
    have hmem := mem_of_find? hnode (by simp)
    rw [hl.foundAt_mem_walk_iff hroot hwalk (by simp) hnode hfile,Selection.ofPatterns,
      isSelected_matching_iff]
    exact chosen_default_iff fun n hn => (hl.named _ hmem n (List.mem_append_right _ hn)).2

/-- A folder with files below a folder that is passed over, beside it, and in a file's place. -/
def sampleEnvironment : FileTree where
  nodes := [(["w"],.folder),(["w","src"],.folder),(["w","src","venv.py"],.file [1] 3),
    (["w","src","venv"],.folder),(["w","src","venv","x.py"],.file [1] 4)]

theorem listed_sampleEnvironment : sampleEnvironment.Listed :=
  ⟨⟨by decide +kernel,by decide +kernel,by decide +kernel⟩,by decide +kernel⟩

theorem default_search_finds_python_sample : sampleEnvironment.Listed ∧
    sampleEnvironment.statLink (sampleEnvironment.absolute "/w") = .ok (["w"],.folder) ∧
    ∃ files, sampleEnvironment.walk (.ofPatterns ({} : Config).scan.includes
        ({} : Config).scan.excludes) "/w" = .ok files ∧
      ⟨"/w/src/venv.py","src/venv.py",3,1⟩ ∈ files ∧
      ⟨"/w/src/venv/x.py","src/venv/x.py",4,1⟩ ∉ files := by
  have hroot : sampleEnvironment.statLink (sampleEnvironment.absolute "/w") = .ok (["w"],.folder) := by
    decide +kernel
  obtain ⟨files,hfiles,-,hfound⟩ := default_search_finds_python listed_sampleEnvironment hroot
  refine ⟨listed_sampleEnvironment,hroot,files,hfiles,?_,?_⟩
  · exact (hfound ["src"] "venv.py" (.file [1] 3) (by decide +kernel) rfl).mpr (by decide +kernel)
  · exact fun hmem => absurd ((hfound ["src","venv"] "x.py" (.file [1] 4) (by decide +kernel) rfl).mp
      hmem).2 (by decide +kernel)

end CircuitNotes
