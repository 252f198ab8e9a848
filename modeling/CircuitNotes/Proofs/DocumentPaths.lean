import CircuitNotes.Proofs.FolderSearch

/-! Where documents stand. The document of a source keeps the folders of the source, and the name of the
source up to its last dot, below the directory of documents: two sources share a document exactly if
they differ in their extensions only, and no document stands outside the directory. -/
namespace CircuitNotes
namespace Path

/-- A clean relative path that leads nowhere upwards. -/
structure Inward (path : String) : Prop where
  relative : isAbsolute path = false
  clean : Path.clean path = path
  noUp : ".." ∉ pieces path

/-- The part of a name before its last dot, which is all of a name without a dot. -/
inductive Stem (name : String) : String → Prop
  | whole (h : '.' ∉ name.toList) : Stem name name
  | cut {stem tail : String} (h : name = stem ++ "." ++ tail) (htail : '.' ∉ tail.toList) :
      Stem name stem

/-- The folders, the name and the stem that a path is made of. -/
structure Parted (path : String) (folders : List String) (name stem : String) : Prop where
  pieces : Path.pieces path = folders ++ [name]
  folders : ∀ n ∈ folders, Piece n
  stem : Stem name stem

def under (folder path : String) : String :=
  if folder = "." then path else if folder = "/" then "/" ++ path else folder ++ "/" ++ path

/-! ### Clean relative paths -/

theorem mem_of_mem_step {rooted : Bool} {kept : List String} {piece n : String}
    (h : n ∈ step rooted kept piece) : n = piece ∨ n ∈ kept := by
  cases kept <;> simp only [step] at h <;> split_ifs at h <;> simp_all

theorem mem_of_mem_foldl_step {rooted : Bool} {ps kept : List String} {n : String}
    (h : n ∈ ps.foldl (step rooted) kept) : n ∈ ps ∨ n ∈ kept := by
  induction ps generalizing kept with
  | nil => exact .inr h
  | cons p ps ih =>
    rcases ih h with h | h
    · exact .inl (List.mem_cons_of_mem _ h)
    · rcases mem_of_mem_step h with rfl | h
      · exact .inl List.mem_cons_self
      · exact .inr h

theorem mem_pieces_of_mem_cleanPieces {path n : String} (h : n ∈ cleanPieces path) : n ∈ pieces path :=
  (mem_of_mem_foldl_step (List.mem_reverse.mp h)).resolve_right (by simp)

theorem Inward.piece {path : String} (h : Inward path) : ∀ n ∈ cleanPieces path, Piece n := by
  intro n hn
  have hmem := mem_pieces_of_mem_cleanPieces hn
  obtain ⟨hempty,hhere⟩ := (kept_cleanPieces path).visible n (List.mem_reverse.mpr hn)
  exact ⟨single_of_mem_pieces hmem,hempty,hhere,fun hup => h.noUp (hup ▸ hmem)⟩

theorem inward_intercalate {names : List String} (hne : names ≠ []) (hnames : ∀ n ∈ names, Piece n) :
    Inward ("/".intercalate names) := by
  have hsingle : ∀ n ∈ names, pieces n = [n] := fun n hn => (hnames n hn).single
  have hsplit := pieces_intercalate hne hsingle
  have hrelative := isAbsolute_intercalate hsingle fun n hn => (hnames n hn).nonempty
  refine ⟨hrelative,?_,?_⟩
  · rw [clean,hrelative,cleanPieces,hsplit,foldl_step_pieces hnames]
    simp [ofPieces,hne]
  · rw [hsplit]
    exact fun hup => (hnames ".." hup).notUp rfl

theorem inward_here : Inward "." := ⟨by decide,by decide +kernel,by decide +kernel⟩

theorem exists_stem (name : String) : ∃ stem, Stem name stem := by
  by_cases h : '.' ∈ name.toList
  · obtain ⟨after,before,hsplit,htail⟩ := List.eq_append_cons_of_mem (List.mem_reverse.mpr h)
    have hname : name = String.ofList before.reverse ++ "." ++ String.ofList after.reverse := by
      apply String.toList_injective
      simpa using congrArg List.reverse hsplit
    exact ⟨_,.cut hname (by simpa using htail)⟩
  · exact ⟨name,.whole h⟩

theorem Inward.exists_parted {path : String} (h : Inward path) :
    ∃ folders name stem, Parted path folders name stem := by
  have hpath : path = ofPieces false (cleanPieces path) := by
    have hclean := h.clean
    rw [Path.clean,h.relative] at hclean
    exact hclean.symm
  by_cases hnil : cleanPieces path = []
  · -- Only the path of the folder itself has nothing kept of it; its name is the dot.
    rw [hnil] at hpath
    obtain ⟨stem,hstem⟩ := exists_stem "."
    exact ⟨[],".",stem,by rw [hpath]; decide +kernel,by simp,hstem⟩
  · have hpieces : pieces path = cleanPieces path := by
      conv_lhs => rw [hpath,ofPieces,if_neg (by simp),if_neg (by simpa using hnil)]
      exact pieces_intercalate hnil fun n hn => (h.piece n hn).single
    obtain ⟨stem,hstem⟩ := exists_stem ((cleanPieces path).getLast hnil)
    refine ⟨(cleanPieces path).dropLast,_,stem,?_,?_,hstem⟩
    · rw [hpieces,List.dropLast_concat_getLast]
    · exact fun n hn => h.piece n (List.dropLast_subset _ hn)

/-! ### Stems -/

/-- What may stand before the name in a path: nothing, or something that ends in a slash. -/
def Front (front : String) : Prop := front = "" ∨ ∃ up, front = up ++ "/"

theorem exists_front (folders : List String) :
    ∃ front, Front front ∧ ∀ name, "/".intercalate (folders ++ [name]) = front ++ name := by
  by_cases h : folders = []
  · exact ⟨"",.inl rfl,by simp [h]⟩
  · refine ⟨"/".intercalate folders ++ "/",.inr ⟨_,rfl⟩,?_⟩
    intro name
    rw [String.intercalate_append_of_ne_nil h (by simp),String.intercalate_singleton]

theorem takeWhile_reverse_append {c : Char} {cs : List Char} (h : c ∉ cs) (rest : List Char) :
    (cs.reverse ++ rest).takeWhile (· != c) = cs.reverse ++ rest.takeWhile (· != c) := by
  refine List.takeWhile_append_of_pos fun d hd => ?_
  simpa using fun hc : d = c => h (hc ▸ List.mem_reverse.mp hd)

theorem takeWhile_reverse_name {front name : String} (hfront : Front front)
    (hname : '/' ∉ name.toList) :
    (front ++ name).toList.reverse.takeWhile (· != '/') = name.toList.reverse := by
  rw [String.toList_append,List.reverse_append,takeWhile_reverse_append hname]
  rcases hfront with rfl | ⟨up,rfl⟩ <;> simp

theorem extension_of_stem {front name stem : String} (hfront : Front front)
    (hname : '/' ∉ name.toList) (h : Stem name stem) : stem ++ extension (front ++ name) = name := by
  rw [extension,takeWhile_reverse_name hfront hname]
  cases h with
  | whole h =>
    have htail := takeWhile_reverse_append h []
    rw [List.takeWhile_nil,List.append_nil] at htail
    simp [htail]
  | @cut stem tail hcut htail =>
    have hreverse : name.toList.reverse = tail.toList.reverse ++ '.' :: stem.toList.reverse := by
      simp [hcut]
    have hafter := takeWhile_reverse_append htail ('.' :: stem.toList.reverse)
    rw [List.takeWhile_cons_of_neg (by simp),List.append_nil] at hafter
    simp only [hreverse,hafter]
    rw [if_pos (by simp)]
    apply String.toList_injective
    simp [hcut]

theorem dropExtension_of_append {path stem : String} (h : stem ++ extension path = path) :
    dropExtension path = stem := by
  have hlength := congrArg String.length h
  rw [String.length_append] at hlength
  have hkept : path.length - (extension path).length = stem.toList.length := by
    rw [String.length_toList]
    omega
  have hpath : path.toList = stem.toList ++ (extension path).toList := by rw [← String.toList_append,h]
  apply String.toList_injective
  rw [dropExtension,String.toList_ofList,hkept,hpath,List.take_left]

theorem intercalate_append (folders : List String) (name tail : String) :
    "/".intercalate (folders ++ [name]) ++ tail = "/".intercalate (folders ++ [name ++ tail]) := by
  obtain ⟨front,-,hfront⟩ := exists_front folders
  rw [hfront,hfront,String.append_assoc]

theorem Stem.slash_not_mem {name stem : String} (h : Stem name stem) (hname : '/' ∉ name.toList) :
    '/' ∉ stem.toList := by
  cases h with
  | whole => exact hname
  | cut hcut =>
    rw [hcut,String.toList_append,String.toList_append] at hname
    exact fun hmem => hname (by simp [hmem])

namespace Parted

variable {path name stem : String} {folders : List String}

theorem slash_not_mem (h : Parted path folders name stem) : '/' ∉ name.toList :=
  slash_not_mem_splitAt (show name ∈ Path.pieces path by simp [h.pieces])

theorem dropExtension_eq (h : Parted path folders name stem) :
    dropExtension path = "/".intercalate (folders ++ [stem]) := by
  obtain ⟨front,hends,hfront⟩ := exists_front folders
  have hpath : path = front ++ name := by rw [← hfront,← h.pieces,intercalate_pieces]
  have hextension := extension_of_stem hends h.slash_not_mem h.stem
  rw [hfront,hpath]
  apply dropExtension_of_append
  rw [String.append_assoc,hextension]

theorem piece_document (h : Parted path folders name stem) : ∀ n ∈ folders ++ [stem ++ ".md"], Piece n := by
  refine List.forall_mem_append.mpr ⟨h.folders,List.forall_mem_singleton.mpr ?_⟩
  have hslash : '/' ∉ (stem ++ ".md").toList := by
    simp [h.stem.slash_not_mem h.slash_not_mem]
  have hne (short : String) (hshort : short.length < 3) : stem ++ ".md" ≠ short := by
    rintro rfl
    rw [String.length_append] at hshort
    exact Nat.not_lt.mpr (Nat.le_add_left 3 _) hshort
  exact ⟨(pieces_eq_singleton_iff _).mpr hslash,hne "" (by decide),hne "." (by decide),
    hne ".." (by decide)⟩

theorem documentPath_eq (h : Parted path folders name stem) (directory : String) :
    documentPath directory path = join [directory,"/".intercalate (folders ++ [stem ++ ".md"])] := by
  rw [documentPath,h.dropExtension_eq,intercalate_append]

theorem cleanPieces_documentPath (h : Parted path folders name stem) (directory : String) :
    cleanPieces (documentPath directory path) =
      cleanPieces directory ++ (folders ++ [stem ++ ".md"]) := by
  rw [h.documentPath_eq,cleanPieces_join_names directory (by simp) h.piece_document]

end Parted

/-! ### Below a folder -/

theorem ofPieces_append {rooted : Bool} {ps names : List String} (h : Kept rooted ps.reverse)
    (hnames : names ≠ []) :
    ofPieces rooted (ps ++ names) = under (ofPieces rooted ps) ("/".intercalate names) := by
  by_cases hps : ps = []
  · subst hps
    cases rooted <;> simp [ofPieces,under,hnames]
  · have hclean := h.cleanPieces_ofPieces
    have hne {short : String} (hshort : cleanPieces short = []) : ofPieces rooted ps ≠ short := by
      rintro rfl
      exact hps (hclean.symm.trans hshort)
    have hhere : ofPieces rooted ps ≠ "." := hne (by decide +kernel)
    have hroot : ofPieces rooted ps ≠ "/" := hne (by decide +kernel)
    rw [under,if_neg hhere,if_neg hroot,ofPieces,ofPieces,String.intercalate_append_of_ne_nil hps hnames]
    cases rooted <;> simp [hps,String.append_assoc]

theorem join_eq_under (root : String) {names : List String} (hne : names ≠ [])
    (hnames : ∀ n ∈ names, Piece n) :
    join [root,"/".intercalate names] = under (clean root) ("/".intercalate names) := by
  rw [join_names root hne hnames,ofPieces_append (kept_cleanPieces root) hne,clean]

end Path

theorem FileTree.Proper.inward_of_walk {t : FileTree} (hp : t.Proper) {sel : Selection} {root : String}
    {files : List FoundFile} (h : t.walk sel root = .ok files) {f : FoundFile} (hf : f ∈ files) :
    Path.Inward f.rel := by
  obtain ⟨place,node,-,hfound⟩ := (mem_walk_iff hp h f).mp hf
  split_ifs at hfound
  · obtain ⟨names,node,hmem,hne,-,-,rfl⟩ := hfound
    exact Path.inward_intercalate hne fun name hname => hp.piece hmem name (List.mem_append_right _ hname)
  · rw [hfound.2]
    exact Path.inward_here

/-- Documents mirror their sources. Two relative paths have the same document, whatever the directory of
documents, exactly if they are the same up to their extensions; a document stands below that directory,
in the folders of its source; and a search finds files by such paths only. -/
theorem documents_mirror_sources (directory : String) :
    (∀ p q, Path.Inward p → Path.Inward q →
      (documentPath directory p = documentPath directory q ↔
        Path.dropExtension p = Path.dropExtension q)) ∧
    (∀ p, Path.Inward p → ∃ folders name stem, Path.Parted p folders name stem ∧
      Path.dropExtension p = "/".intercalate (folders ++ [stem]) ∧
      documentPath directory p =
        Path.under (Path.clean directory) ("/".intercalate (folders ++ [stem ++ ".md"])) ∧
      Path.cleanPieces (documentPath directory p) =
        Path.cleanPieces directory ++ (folders ++ [stem ++ ".md"]) ∧
      ∀ n ∈ folders ++ [stem ++ ".md"], Path.Piece n) ∧
    ∀ (t : FileTree) (sel : Selection) (root : String) (files : List FoundFile), t.Proper →
      t.walk sel root = .ok files → ∀ f ∈ files, Path.Inward f.rel := by
  refine ⟨?_,?_,fun t sel root files hp h f hf => hp.inward_of_walk h hf⟩
  · intro p q hp hq
    obtain ⟨folders,name,stem,hparted⟩ := hp.exists_parted
    obtain ⟨folders',name',stem',hparted'⟩ := hq.exists_parted
    refine ⟨?_,fun heq => by rw [documentPath,documentPath,heq]⟩
    intro heq
    have hpieces := congrArg Path.cleanPieces heq
    rw [hparted.cleanPieces_documentPath,hparted'.cleanPieces_documentPath] at hpieces
    have hnames := congrArg "/".intercalate (List.append_cancel_left hpieces)
    rw [← Path.intercalate_append,← Path.intercalate_append,← hparted.dropExtension_eq,
      ← hparted'.dropExtension_eq] at hnames
    exact (String.append_left_inj ".md").mp hnames
  · intro p hp
    obtain ⟨folders,name,stem,hparted⟩ := hp.exists_parted
    refine ⟨folders,name,stem,hparted,hparted.dropExtension_eq,?_,
      hparted.cleanPieces_documentPath directory,hparted.piece_document⟩
    rw [hparted.documentPath_eq,Path.join_eq_under directory (by simp) hparted.piece_document]

/-- Folders with dots keep them, and only the last dot of a name starts an extension. -/
theorem documents_mirror_sources_sample :
    Path.Inward "pkg.v2/.run.v3.py" ∧ Path.Inward "pkg.v2/.run.v3" ∧ Path.Inward "pkg.v2/.run.txt" ∧
    documentPath "a/../.." "pkg.v2/.run.v3.py" ≠ documentPath "a/../.." "pkg.v2/.run.v3" ∧
    documentPath "a/../.." "pkg.v2/.run.v3" = documentPath "a/../.." "pkg.v2/.run.txt" := by
  have hlong : Path.Inward "pkg.v2/.run.v3.py" := ⟨by decide,by decide +kernel,by decide +kernel⟩
  have hshort : Path.Inward "pkg.v2/.run.v3" := ⟨by decide,by decide +kernel,by decide +kernel⟩
  have htext : Path.Inward "pkg.v2/.run.txt" := ⟨by decide,by decide +kernel,by decide +kernel⟩
  have hsame := (documents_mirror_sources "a/../..").1
  refine ⟨hlong,hshort,htext,?_,?_⟩
  · exact mt (hsame _ _ hlong hshort).mp (by decide +kernel)
  · exact (hsame _ _ hshort htext).mpr (by decide +kernel)

end CircuitNotes
