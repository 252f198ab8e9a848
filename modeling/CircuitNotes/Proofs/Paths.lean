import CircuitNotes.Files.Path
import Mathlib.Data.List.Basic

/-! The pieces of joined and cleaned paths. A path is the pieces between its slashes. Cleaning it keeps
names, and before them the ways up out of a relative path, and what is kept once is kept again; so a
clean absolute path is known by its names. -/
namespace CircuitNotes
namespace Path

theorem splitAt_ne_nil (cs : List Char) : pieces.splitAt cs ≠ [] := by
  cases cs with
  | nil => simp [pieces.splitAt]
  | cons c rest =>
    rw [pieces.splitAt]
    split
    · simp
    · split <;> simp

theorem pieces_ne_nil (path : String) : pieces path ≠ [] := splitAt_ne_nil path.toList

theorem splitAt_append_slash (a b : List Char) :
    pieces.splitAt (a ++ '/' :: b) = pieces.splitAt a ++ pieces.splitAt b := by
  induction a with
  | nil => simp [pieces.splitAt]
  | cons c rest ih =>
    rw [List.cons_append,pieces.splitAt,pieces.splitAt,ih]
    split
    · rfl
    · cases hrest : pieces.splitAt rest with
      | nil => exact absurd hrest (splitAt_ne_nil rest)
      | cons piece more => simp

theorem pieces_append_slash (a b : String) : pieces (a ++ "/" ++ b) = pieces a ++ pieces b := by
  have h : (a ++ "/" ++ b).toList = a.toList ++ '/' :: b.toList := by simp
  rw [pieces,h,splitAt_append_slash]
  rfl

/-- A name that is a piece of its own and stays one when a path is cleaned. -/
structure Piece (name : String) : Prop where
  single : pieces name = [name]
  nonempty : name ≠ ""
  notHere : name ≠ "."
  notUp : name ≠ ".."

theorem pieces_intercalate_concat (ps : List String) {name : String} (h : Piece name) :
    (pieces ("/".intercalate (ps ++ [name]))).getLast? = some name := by
  by_cases hps : ps = []
  · simp [hps,h.single]
  · rw [String.intercalate_append_of_ne_nil hps (by simp),String.intercalate_singleton,
      pieces_append_slash,h.single]
    simp

theorem step_of_piece {rooted : Bool} {name : String} (h : Piece name) (kept : List String) :
    step rooted kept name = name :: kept := by
  simp [step,h.nonempty,h.notHere,h.notUp]

theorem cleanPieces_of_last {path name : String} (h : Piece name)
    (hlast : (pieces path).getLast? = some name) :
    ∃ ps, cleanPieces path = ps ++ [name] := by
  obtain ⟨ps,hps⟩ := List.getLast?_eq_some_iff.mp hlast
  refine ⟨(ps.foldl (step (isAbsolute path)) []).reverse,?_⟩
  simp [cleanPieces,hps,List.foldl_append,step_of_piece h]

theorem pieces_clean_last {path name : String} (h : Piece name)
    (hlast : (pieces path).getLast? = some name) : (pieces (clean path)).getLast? = some name := by
  obtain ⟨ps,hps⟩ := cleanPieces_of_last h hlast
  rw [clean,hps,ofPieces]
  split_ifs with hrooted
  · have hslash : "/" ++ "/".intercalate (ps ++ [name]) =
        "" ++ "/" ++ "/".intercalate (ps ++ [name]) := by simp
    rw [hslash,pieces_append_slash,List.getLast?_append,pieces_intercalate_concat ps h]
    rfl
  · simp at *
  · exact pieces_intercalate_concat ps h

theorem pieces_join_last (es : List String) {name : String} (h : Piece name) :
    (pieces (join (es ++ [name]))).getLast? = some name := by
  have hkept : (es ++ [name]).filter (· != "") = es.filter (· != "") ++ [name] := by
    simp [List.filter_append,h.nonempty]
  simp only [join,hkept]
  rw [if_neg (by simp)]
  exact pieces_clean_last h (pieces_intercalate_concat _ h)

theorem intercalate_splitAt (cs : List Char) : ("/".intercalate (pieces.splitAt cs)).toList = cs := by
  induction cs with
  | nil => simp [pieces.splitAt]
  | cons c rest ih =>
    obtain ⟨piece,more,hrest⟩ := List.exists_cons_of_ne_nil (splitAt_ne_nil rest)
    rw [pieces.splitAt]
    rw [hrest] at ih ⊢
    by_cases hc : c = '/'
    · rw [if_pos (by simpa using hc),String.intercalate_cons_of_ne_nil (by simp)]
      simp [ih,hc]
    · rw [if_neg (by simpa using hc)]
      cases more with
      | nil => simpa using ih
      | cons next more =>
        rw [String.intercalate_cons_of_ne_nil (by simp)] at ih ⊢
        simpa using ih

theorem intercalate_pieces (path : String) : "/".intercalate (pieces path) = path :=
  String.toList_injective (intercalate_splitAt path.toList)

theorem splitAt_of_not_mem {cs : List Char} (h : '/' ∉ cs) :
    pieces.splitAt cs = [String.ofList cs] := by
  induction cs with
  | nil => rfl
  | cons c rest ih =>
    obtain ⟨hc,hrest⟩ := not_or.mp (mt List.mem_cons.mpr h)
    rw [pieces.splitAt,if_neg (by simpa using Ne.symm hc),ih hrest]
    simp

theorem slash_not_mem_splitAt {cs : List Char} {piece : String} (h : piece ∈ pieces.splitAt cs) :
    '/' ∉ piece.toList := by
  induction cs generalizing piece with
  | nil =>
    rw [List.mem_singleton.mp h]
    simp
  | cons c rest ih =>
    obtain ⟨first,more,hrest⟩ := List.exists_cons_of_ne_nil (splitAt_ne_nil rest)
    rw [pieces.splitAt,hrest] at h
    rw [hrest] at ih
    by_cases hc : c = '/'
    · rw [if_pos (by simpa using hc)] at h
      rcases List.mem_cons.mp h with rfl | h
      · simp
      · exact ih h
    · rw [if_neg (by simpa using hc)] at h
      rcases List.mem_cons.mp h with rfl | h
      · simpa [Ne.symm hc] using ih List.mem_cons_self
      · exact ih (List.mem_cons_of_mem _ h)

theorem pieces_eq_singleton_iff (name : String) : pieces name = [name] ↔ '/' ∉ name.toList := by
  refine ⟨?_,?_⟩
  · intro h
    exact slash_not_mem_splitAt (show name ∈ pieces name by rw [h]; exact List.mem_cons_self)
  · intro h
    rw [pieces,splitAt_of_not_mem h,String.ofList_toList]

theorem single_of_mem_pieces {path n : String} (h : n ∈ pieces path) : pieces n = [n] :=
  (pieces_eq_singleton_iff n).mpr (slash_not_mem_splitAt h)

theorem pieces_intercalate {ps : List String} (hne : ps ≠ []) (h : ∀ n ∈ ps, pieces n = [n]) :
    pieces ("/".intercalate ps) = ps := by
  induction ps with
  | nil => exact absurd rfl hne
  | cons n ps ih =>
    obtain ⟨hn,hps⟩ := List.forall_mem_cons.mp h
    by_cases hnil : ps = []
    · simp [hnil,hn]
    · rw [String.intercalate_cons_of_ne_nil hnil,pieces_append_slash,hn,ih hnil hps]
      rfl

/-! ### Clean paths -/

theorem foldl_step_pieces {rooted : Bool} {ps : List String} (h : ∀ n ∈ ps, Piece n)
    (kept : List String) : ps.foldl (step rooted) kept = ps.reverse ++ kept := by
  induction ps generalizing kept with
  | nil => rfl
  | cons n ps ih =>
    obtain ⟨hn,hps⟩ := List.forall_mem_cons.mp h
    rw [List.foldl_cons,step_of_piece hn,ih hps]
    simp

/-- What may be kept of the pieces of a path, the latest first: names, and before all names the ways up
out of a relative path. -/
inductive Kept (rooted : Bool) : List String → Prop
  | start : Kept rooted []
  | up {kept : List String} (hrooted : rooted = false) (hups : ∀ n ∈ kept, n = "..")
      (hkept : Kept rooted kept) : Kept rooted (".." :: kept)
  | name {n : String} {kept : List String} (hn : Piece n) (hkept : Kept rooted kept) :
      Kept rooted (n :: kept)

namespace Kept

variable {rooted : Bool} {kept : List String}

theorem step (h : Kept rooted kept) {n : String} (hn : pieces n = [n]) :
    Kept rooted (step rooted kept n) := by
  by_cases hblank : n = "" ∨ n = "."
  · have hstep : Path.step rooted kept n = kept := if_pos (by simpa using hblank)
    rwa [hstep]
  · obtain ⟨hempty,hhere⟩ := not_or.mp hblank
    by_cases hup : n = ".."
    · subst hup
      cases h with
      | start =>
        cases rooted with
        | true => exact start
        | false => exact up rfl (by simp) start
      | up hrooted hups hkept =>
        exact up hrooted (List.forall_mem_cons.mpr ⟨rfl,hups⟩) (up hrooted hups hkept)
      | name htop hkept => simpa [Path.step,htop.notUp] using hkept
    · rw [step_of_piece ⟨hn,hempty,hhere,hup⟩]
      exact name ⟨hn,hempty,hhere,hup⟩ h

theorem foldl_step (h : Kept rooted kept) {ps : List String} (hps : ∀ n ∈ ps, pieces n = [n]) :
    Kept rooted (ps.foldl (Path.step rooted) kept) := by
  induction ps generalizing kept with
  | nil => exact h
  | cons n ps ih =>
    obtain ⟨hn,hps⟩ := List.forall_mem_cons.mp hps
    exact ih (h.step hn) hps

theorem foldl_reverse (h : Kept rooted kept) : kept.reverse.foldl (Path.step rooted) [] = kept := by
  induction h with
  | start => rfl
  | @up kept hrooted hups _ ih =>
    rw [List.reverse_cons,List.foldl_append,ih,hrooted]
    cases kept with
    | nil => rfl
    | cons top rest => rw [hups top List.mem_cons_self]; rfl
  | name hn _ ih =>
    rw [List.reverse_cons,List.foldl_append,ih,List.foldl_cons,step_of_piece hn,List.foldl_nil]

theorem append_names (h : Kept rooted kept) {names : List String} (hnames : ∀ n ∈ names, Piece n) :
    Kept rooted (names ++ kept) := by
  induction names with
  | nil => exact h
  | cons n names ih =>
    obtain ⟨hn,hnames⟩ := List.forall_mem_cons.mp hnames
    exact name hn (ih hnames)

theorem single (h : Kept rooted kept) : ∀ n ∈ kept, pieces n = [n] := by
  induction h with
  | start => simp
  | up _ _ _ ih => exact List.forall_mem_cons.mpr ⟨by decide +kernel,ih⟩
  | name hn _ ih => exact List.forall_mem_cons.mpr ⟨hn.single,ih⟩

theorem visible (h : Kept rooted kept) : ∀ n ∈ kept, n ≠ "" ∧ n ≠ "." := by
  induction h with
  | start => simp
  | up _ _ _ ih => exact List.forall_mem_cons.mpr ⟨by decide,ih⟩
  | name hn _ ih => exact List.forall_mem_cons.mpr ⟨⟨hn.nonempty,hn.notHere⟩,ih⟩

theorem piece (h : Kept true kept) : ∀ n ∈ kept, Piece n := by
  induction h with
  | start => simp
  | up hrooted => cases hrooted
  | name hn _ ih => exact List.forall_mem_cons.mpr ⟨hn,ih⟩

end Kept

theorem kept_cleanPieces (path : String) : Kept (isAbsolute path) (cleanPieces path).reverse := by
  rw [cleanPieces,List.reverse_reverse]
  exact Kept.start.foldl_step fun n => single_of_mem_pieces

theorem piece_of_mem_cleanPieces {path name : String} (hpath : isAbsolute path = true)
    (h : name ∈ cleanPieces path) : Piece name := by
  have hkept := kept_cleanPieces path
  rw [hpath] at hkept
  exact hkept.piece name (List.mem_reverse.mpr h)

theorem isAbsolute_append {a : String} (h : a ≠ "") (b : String) : isAbsolute (a ++ b) = isAbsolute a := by
  unfold isAbsolute
  cases hcs : a.toList with
  | nil => exact absurd (String.toList_eq_nil_iff.mp hcs) h
  | cons c rest => simp [hcs]

theorem isAbsolute_eq_false {path : String} (h : pieces path = [path]) : isAbsolute path = false := by
  have hslash := (pieces_eq_singleton_iff path).mp h
  unfold isAbsolute
  cases hcs : path.toList with
  | nil => rfl
  | cons c rest =>
    rw [hcs] at hslash
    simpa using fun hc : c = '/' => hslash (hc ▸ List.mem_cons_self)

theorem isAbsolute_intercalate {ps : List String} (hsingle : ∀ n ∈ ps, pieces n = [n])
    (hne : ∀ n ∈ ps, n ≠ "") : isAbsolute ("/".intercalate ps) = false := by
  cases ps with
  | nil => rfl
  | cons n rest =>
    have hn := isAbsolute_eq_false (hsingle n List.mem_cons_self)
    by_cases hrest : rest = []
    · rw [hrest,String.intercalate_singleton,hn]
    · rw [String.intercalate_cons_of_ne_nil hrest,String.append_assoc,
        isAbsolute_append (hne n List.mem_cons_self),hn]

theorem Kept.isAbsolute_ofPieces {rooted : Bool} {ps : List String} (h : Kept rooted ps.reverse) :
    isAbsolute (ofPieces rooted ps) = rooted := by
  cases rooted with
  | true => simp [isAbsolute,ofPieces]
  | false =>
    rw [ofPieces,if_neg (by simp)]
    split_ifs
    · decide
    · refine isAbsolute_intercalate ?_ ?_
      · exact fun n hn => h.single n (List.mem_reverse.mpr hn)
      · exact fun n hn => (h.visible n (List.mem_reverse.mpr hn)).1

theorem pieces_ofPieces {ps : List String} (hne : ps ≠ []) (h : ∀ n ∈ ps, pieces n = [n]) :
    pieces (ofPieces true ps) = "" :: ps := by
  have hslash : ofPieces true ps = "" ++ "/" ++ "/".intercalate ps := by simp [ofPieces]
  rw [hslash,pieces_append_slash,pieces_intercalate hne h]
  rfl

theorem Kept.cleanPieces_ofPieces {rooted : Bool} {ps : List String} (h : Kept rooted ps.reverse) :
    cleanPieces (ofPieces rooted ps) = ps := by
  have hsingle : ∀ n ∈ ps, pieces n = [n] := fun n hn => h.single n (List.mem_reverse.mpr hn)
  have hfold := h.foldl_reverse
  rw [List.reverse_reverse] at hfold
  rw [cleanPieces,h.isAbsolute_ofPieces]
  by_cases hne : ps = []
  · rw [hne]
    cases rooted <;> decide +kernel
  · cases rooted with
    | true =>
      have hblank : Path.step true [] "" = [] := rfl
      rw [pieces_ofPieces hne hsingle,List.foldl_cons,hblank,hfold,List.reverse_reverse]
    | false =>
      have hrelative : ofPieces false ps = "/".intercalate ps := by simp [ofPieces,hne]
      rw [hrelative,pieces_intercalate hne hsingle,hfold,List.reverse_reverse]

theorem cleanPieces_ofPieces {ps : List String} (h : ∀ n ∈ ps, Piece n) :
    cleanPieces (ofPieces true ps) = ps := by
  have hkept : Kept true (ps.reverse ++ []) :=
    Kept.start.append_names fun n hn => h n (List.mem_reverse.mp hn)
  rw [List.append_nil] at hkept
  exact hkept.cleanPieces_ofPieces

/-- An absolute path from which cleaning takes nothing. -/
structure Clean (path : String) : Prop where
  absolute : isAbsolute path = true
  clean : Path.clean path = path

theorem isAbsolute_clean (path : String) : isAbsolute (clean path) = isAbsolute path :=
  (kept_cleanPieces path).isAbsolute_ofPieces

theorem cleanPieces_clean (path : String) : cleanPieces (clean path) = cleanPieces path :=
  (kept_cleanPieces path).cleanPieces_ofPieces

theorem clean_of_isAbsolute {path : String} (h : isAbsolute path = true) : Clean (clean path) := by
  refine ⟨(isAbsolute_clean path).trans h,?_⟩
  rw [clean,isAbsolute_clean,cleanPieces_clean,clean]

theorem Clean.eq_ofPieces {path : String} (h : Clean path) : path = ofPieces true (cleanPieces path) := by
  have hclean := h.clean
  rw [Path.clean,h.absolute] at hclean
  exact hclean.symm

theorem Clean.piece {path name : String} (h : Clean path) (hname : name ∈ cleanPieces path) :
    Piece name := piece_of_mem_cleanPieces h.absolute hname

theorem Clean.eq_slash_iff {path : String} (h : Clean path) : path = "/" ↔ cleanPieces path = [] := by
  refine ⟨?_,?_⟩
  · rintro rfl
    decide +kernel
  · intro hnil
    rw [h.eq_ofPieces,hnil]
    decide +kernel

theorem Clean.pieces_eq {path : String} (h : Clean path) (hne : path ≠ "/") :
    pieces path = "" :: cleanPieces path := by
  conv_lhs => rw [h.eq_ofPieces]
  exact pieces_ofPieces (fun hnil => hne (h.eq_slash_iff.mpr hnil)) fun _ hn => (h.piece hn).single

theorem clean_join {root : String} (h : isAbsolute root = true) (path : String) :
    Clean (join [root,path]) := by
  have hroot : root ≠ "" := by
    rintro rfl
    exact absurd h (by decide)
  by_cases hpath : path = ""
  · have hjoin : join [root,path] = clean root := by simp [join,hroot,hpath]
    rw [hjoin]
    exact clean_of_isAbsolute h
  · have hjoin : join [root,path] = clean (root ++ "/" ++ path) := by
      simp [join,hroot,hpath,String.intercalate_cons_of_ne_nil]
    rw [hjoin]
    refine clean_of_isAbsolute ?_
    rw [String.append_assoc,isAbsolute_append hroot,h]

theorem clean_absolute {root : String} (h : isAbsolute root = true) (path : String) :
    Clean (absolute root path) := by
  unfold absolute
  split_ifs with hpath
  · exact clean_of_isAbsolute hpath
  · exact clean_join h path

theorem clean_directory {path : String} (h : isAbsolute path = true) : Clean (directory path) := by
  refine clean_of_isAbsolute ?_
  obtain ⟨rest,hrest⟩ : ∃ rest, path.toList = '/' :: rest := by
    rw [isAbsolute,beq_iff_eq] at h
    exact ⟨_,List.eq_cons_of_mem_head? h⟩
  rw [isAbsolute,String.toList_ofList,upToSlash,hrest,List.reverse_cons,List.dropWhile_append]
  split_ifs
  · rfl
  · simp

theorem Clean.absolute_eq {path : String} (h : Clean path) (root : String) :
    Path.absolute root path = path := by
  rw [Path.absolute,if_pos h.absolute,h.clean]

def Below (root path : String) : Prop :=
  ∃ names, names ≠ [] ∧ cleanPieces path = cleanPieces root ++ names

theorem Clean.below_iff {root path : String} (hroot : Clean root) (hne : root ≠ "/")
    (hpath : Clean path) :
    Below root path ↔ ∃ more, more ≠ [] ∧ pieces path = pieces root ++ more := by
  have hnames : cleanPieces root ≠ [] := fun hnil => hne (hroot.eq_slash_iff.mpr hnil)
  by_cases hslash : path = "/"
  · have hpieces : pieces path = ["",""] := by rw [hslash]; decide +kernel
    have hclean := hpath.eq_slash_iff.mp hslash
    rw [Below,hclean,hpieces,hroot.pieces_eq hne]
    obtain ⟨first,rest,hcons⟩ := List.exists_cons_of_ne_nil hnames
    have hfirst := (hroot.piece (hcons ▸ List.mem_cons_self)).nonempty
    simp [hcons,Ne.symm hfirst]
  · rw [Below,hroot.pieces_eq hne,hpath.pieces_eq hslash]
    simp

theorem Clean.not_above_slash {path : String} (h : Clean path) :
    ¬∃ more, more ≠ [] ∧ pieces path = pieces "/" ++ more := by
  rintro ⟨more,hmore,heq⟩
  have hpieces : pieces "/" = ["",""] := by decide +kernel
  by_cases hslash : path = "/"
  · rw [hslash] at heq
    exact hmore (List.self_eq_append_right.mp heq)
  · rw [h.pieces_eq hslash,hpieces,List.cons_append,List.cons.injEq] at heq
    exact (h.piece (heq.2 ▸ List.mem_cons_self)).nonempty rfl

theorem intercalate_ne_empty {names : List String} (hne : names ≠ []) (hnames : ∀ n ∈ names, Piece n) :
    "/".intercalate names ≠ "" := by
  intro hempty
  have hsplit := pieces_intercalate hne fun n hn => (hnames n hn).single
  rw [hempty] at hsplit
  exact (hnames "" (by rw [← hsplit]; exact List.mem_cons_self)).nonempty rfl

theorem join_names (root : String) {names : List String} (hne : names ≠ [])
    (hnames : ∀ n ∈ names, Piece n) :
    join [root,"/".intercalate names] = ofPieces (isAbsolute root) (cleanPieces root ++ names) := by
  have hsplit := pieces_intercalate hne fun n hn => (hnames n hn).single
  have hrel := intercalate_ne_empty hne hnames
  by_cases hroot : root = ""
  · have hempty : cleanPieces "" = [] := by decide +kernel
    have hrelative : isAbsolute ("/".intercalate names) = isAbsolute "" :=
      isAbsolute_intercalate (fun n hn => (hnames n hn).single) fun n hn => (hnames n hn).nonempty
    have hpieces : cleanPieces ("/".intercalate names) = names := by
      rw [cleanPieces,hsplit,foldl_step_pieces hnames]
      simp
    have hfilter : ["","/".intercalate names].filter (· != "") = ["/".intercalate names] := by
      simp [hrel]
    subst hroot
    simp only [join,hfilter,List.isEmpty_cons,Bool.false_eq_true,if_false]
    rw [String.intercalate_singleton,clean,hrelative,hpieces,hempty,List.nil_append]
  · have habsolute : isAbsolute (root ++ "/" ++ "/".intercalate names) = isAbsolute root := by
      rw [String.append_assoc,isAbsolute_append hroot]
    have hpieces : cleanPieces (root ++ "/" ++ "/".intercalate names) = cleanPieces root ++ names := by
      rw [cleanPieces,cleanPieces,habsolute,pieces_append_slash,hsplit,List.foldl_append,
        foldl_step_pieces hnames]
      simp
    have hfilter : [root,"/".intercalate names].filter (· != "") = [root,"/".intercalate names] := by
      simp [hroot,hrel]
    simp only [join,hfilter,List.isEmpty_cons,Bool.false_eq_true,if_false]
    rw [String.intercalate_cons_of_ne_nil (by simp),String.intercalate_singleton,clean,habsolute,hpieces]

theorem Clean.join_names {root : String} (h : Clean root) {names : List String} (hne : names ≠ [])
    (hnames : ∀ n ∈ names, Piece n) :
    join [root,"/".intercalate names] = ofPieces true (cleanPieces root ++ names) := by
  rw [Path.join_names root hne hnames,h.absolute]

theorem cleanPieces_join_names (root : String) {names : List String} (hne : names ≠ [])
    (hnames : ∀ n ∈ names, Piece n) :
    cleanPieces (join [root,"/".intercalate names]) = cleanPieces root ++ names := by
  rw [join_names root hne hnames,Kept.cleanPieces_ofPieces]
  rw [List.reverse_append]
  exact (kept_cleanPieces root).append_names fun n hn => hnames n (List.mem_reverse.mp hn)

end Path

def historyName : String := "history.db"

theorem piece_historyName : Path.Piece historyName := by
  constructor <;> decide +kernel

theorem pieces_historyPath (root : String) :
    (Path.pieces (historyPath root)).getLast? = some historyName :=
  Path.pieces_join_last [root,".circuitdoc"] piece_historyName

end CircuitNotes
