import CircuitNotes.Proofs.FolderSearch
import CircuitNotes.Proofs.ScanScheduling
import CircuitNotes.Proofs.TextParts

/-! Which records a scan deletes. A record goes if its path lies below the folder and the search of the
folder took no file there: whether a file stands there matters only as far as the search takes it. -/
namespace CircuitNotes

/-! ### Texts of paths -/

namespace Text

theorem splitOn_append_left {sep : UInt8} {s t piece : Text} {pieces : List Text} (hs : sep ∉ s)
    (ht : splitOn sep t = piece :: pieces) : splitOn sep (s ++ t) = (s ++ piece) :: pieces := by
  induction s with
  | nil => exact ht
  | cons b s ih =>
    obtain ⟨hb,hs⟩ := not_or.mp (mt List.mem_cons.mpr hs)
    rw [List.cons_append,splitOn,if_neg (by simpa using Ne.symm hb),ih hs]
    rfl

theorem slash_not_mem_utf8EncodeChar {c : Char} (h : c ≠ '/') : 47 ∉ String.utf8EncodeChar c := by
  intro hmem
  have hc := char_of_mem_ofString (s:=String.singleton c) (b:=47) (by decide)
    (by simpa [ofString] using hmem)
  rw [String.toList_singleton,List.mem_singleton] at hc
  exact h hc.symm

theorem splitOn_ofString (path : String) :
    splitOn 47 (ofString path) = (Path.pieces path).map ofString := by
  unfold ofString Path.pieces
  induction path.toList with
  | nil => rfl
  | cons c rest ih =>
    obtain ⟨piece,more,hrest⟩ := List.exists_cons_of_ne_nil (Path.splitAt_ne_nil rest)
    rw [List.flatMap_cons,Path.pieces.splitAt]
    rw [hrest] at ih ⊢
    by_cases hc : c = '/'
    · subst hc
      rw [show String.utf8EncodeChar '/' = [47] by decide,List.singleton_append,splitOn,
        if_pos (by decide),ih]
      rfl
    · rw [splitOn_append_left (slash_not_mem_utf8EncodeChar hc) ih,if_neg (by simpa using hc)]
      simp

/-- The text of a path starts with that of another and a slash exactly if its pieces start with those
of the other. -/
theorem ofString_slash_prefix_iff (root path : String) :
    ofString (root ++ "/") <+: ofString path ↔
      ∃ more, more ≠ [] ∧ Path.pieces path = Path.pieces root ++ more := by
  have hslash : ofString (root ++ "/") = ofString root ++ [47] := ofString_append root "/"
  refine ⟨?_,?_⟩
  · rintro ⟨rest,hrest⟩
    have hsplit : (Path.pieces path).map ofString =
        (Path.pieces root).map ofString ++ splitOn 47 rest := by
      rw [← splitOn_ofString,← splitOn_ofString,← hrest,hslash,List.append_assoc,
        List.singleton_append,splitOn_append]
    obtain ⟨front,more,hpieces,hfront,hmore⟩ := List.map_eq_append_iff.mp hsplit
    have hroot : front = Path.pieces root :=
      List.map_injective_iff.mpr (fun _ _ h => ofString_injective h) hfront
    refine ⟨more,?_,by rw [hpieces,hroot]⟩
    rintro rfl
    exact splitOn_ne_nil 47 rest hmore.symm
  · rintro ⟨more,hmore,hpieces⟩
    have hpath : path = root ++ "/" ++ "/".intercalate more := by
      conv_lhs => rw [← Path.intercalate_pieces path]
      rw [hpieces,String.intercalate_append_of_ne_nil (Path.pieces_ne_nil root) hmore,
        Path.intercalate_pieces]
    rw [hpath,ofString_append (root ++ "/")]
    exact List.prefix_append _ _

end Text

/-! ### What a search takes -/

namespace FileTree

/-- Whether something other than a folder stands at a path. A link counts, wherever it leads. -/
def HasFile (t : FileTree) (path : String) : Prop :=
  ∃ place node, t.statLink path = .ok (place,node) ∧ node.isFolder = false

/-- Whether a search of a folder takes the file at a clean path: a file of the tree itself stands
there, and the selection takes it. -/
def Takes (t : FileTree) (sel : Selection) (root path : String) : Prop :=
  ∃ place names node, t.statLink (t.absolute root) = .ok (place,.folder) ∧ names ≠ [] ∧
    Path.cleanPieces path = Path.cleanPieces (t.absolute root) ++ names ∧
    t.find? (place ++ names) = some node ∧ node.isFolder = false ∧ isSelected sel names = true

theorem Proper.travels {t : FileTree} (hp : t.Proper) {place names : List String} {node : FileNode}
    (hne : names ≠ []) (hnode : t.find? (place ++ names) = some node)
    (hfile : node.isFolder = false) :
    Travels t false place names (.arrived (.present (place ++ names) node false)) := by
  have hmem := mem_of_find? hnode (by simp [hne])
  induction names generalizing place with
  | nil => exact absurd rfl hne
  | cons name rest ih =>
    have hname := (hp.named _ hmem name (by simp)).1
    cases rest with
    | nil =>
      cases node with
      | file c m => exact .file hname hnode (by simp)
      | link target m => exact .link hname hnode rfl
      | folder => cases hfile
    | cons next rest =>
      rw [List.append_cons] at hnode hmem ⊢
      have hfolder := hp.housed _ hmem (place ++ [name]).length (by simp)
      rw [List.take_left] at hfolder
      exact .enter hname hfolder (ih (by simp) hnode hmem)

theorem Travels.append {t : FileTree} {follow : Bool} {here names place more : List String}
    {j : Journey} (h : Travels t follow here names (.arrived (.present place .folder false)))
    (h' : Travels t follow place more j) : Travels t follow here (names ++ more) j := by
  generalize ha : Journey.arrived (.present place .folder false) = a at h
  induction h with
  | stay =>
    cases ha
    exact h'
  | skip hname _ ih => exact .skip hname (ih ha)
  | up _ ih => exact .up (ih ha)
  | enter hname hnode _ ih => exact .enter hname hnode (ih ha)
  | link | detour | file | missing => cases ha

theorem Travels.detour_append {t : FileTree} {follow : Bool} {here here' names rest : List String}
    {target : String} (h : Travels t follow here names (.detour here' target rest))
    (more : List String) :
    Travels t follow here (names ++ more) (.detour here' target (rest ++ more)) := by
  generalize ha : Journey.detour here' target rest = a at h
  induction h with
  | skip hname _ ih => exact .skip hname (ih ha)
  | up _ ih => exact .up (ih ha)
  | enter hname hnode _ ih => exact .enter hname hnode (ih ha)
  | detour hname hnode hfollow =>
    cases ha
    exact .detour hname hnode (hfollow.imp_left fun hne hnil => hne (List.append_eq_nil_iff.mp hnil).1)
  | stay | link | file | missing => cases ha

theorem Leads.append {t : FileTree} {follow : Bool} {links : Nat} {here names place more : List String}
    {a : Arrival} (h : Leads t follow links here names (.present place .folder false))
    (h' : Travels t follow place more (.arrived a)) : Leads t follow links here (names ++ more) a := by
  generalize hb : Arrival.present place .folder false = b at h
  induction h with
  | arrive h =>
    subst hb
    exact .arrive (h.append h')
  | turn h htarget _ ih =>
    have hrest := ih hb
    rw [List.append_assoc] at hrest
    exact .turn (h.detour_append more) htarget hrest

theorem statLink_eq_ok_iff (t : FileTree) (path : String) (place : List String) (node : FileNode) :
    t.statLink path = .ok (place,node) ↔ t.lookup false path = .ok (place,node) := by
  unfold statLink
  cases t.lookup false path <;> simp [failing]

theorem Takes.hasFile {t : FileTree} {sel : Selection} {root path : String}
    (h : t.Takes sel root path) (hp : t.Proper) (hne : t.absolute root ≠ "/")
    (hpath : Path.Clean path) (hask : Askable path) : t.HasFile path := by
  have hroot := t.clean_absolute root
  obtain ⟨place,names,node,hfolder,hnames,hpieces,hnode,hfile,-⟩ := h
  refine ⟨place ++ names,node,?_,hfile⟩
  rw [statLink_eq_ok_iff,lookup_eq_ok_iff,locate_eq_ok_iff] at hfolder ⊢
  have hslash : path ≠ "/" := by
    rintro rfl
    simp [hpath.eq_slash_iff.mp rfl,hnames] at hpieces
  have hstart : t.startOf path = t.startOf (t.absolute root) := by
    rw [startOf,startOf,hpath.absolute,hroot.absolute]
  have hmore : Path.pieces path = Path.pieces (t.absolute root) ++ names := by
    rw [hpath.pieces_eq hslash,hroot.pieces_eq hne,hpieces]
    rfl
  rw [hstart,hmore]
  exact ⟨hask,hfolder.2.append (hp.travels hnames hnode hfile)⟩

theorem walked_iff_takes {t : FileTree} (hp : t.Proper) {sel : Selection} {root path : String}
    {files : List FoundFile} (h : t.walk sel root = .ok files) (hpath : Path.Clean path)
    (hbelow : Path.Below (t.absolute root) path) :
    (∃ f ∈ files, f.path = path) ↔ t.Takes sel root path := by
  have hroot := t.clean_absolute root
  refine ⟨?_,?_⟩
  · rintro ⟨f,hf,rfl⟩
    obtain ⟨place,node,hstat,hfound⟩ := (mem_walk_iff hp h f).mp hf
    cases node with
    | folder =>
      obtain ⟨names,n,hmem,hne,hfile,hsel,rfl⟩ := hfound
      exact ⟨place,names,n,hstat,hne,hp.cleanPieces_foundAt hroot hmem hne,hp.found _ hmem,hfile,hsel⟩
    | file c m =>
      obtain ⟨names,hne,hpieces⟩ := hbelow
      rw [hfound.2] at hpieces
      exact absurd (List.self_eq_append_right.mp hpieces) hne
    | link target m =>
      obtain ⟨names,hne,hpieces⟩ := hbelow
      rw [hfound.2] at hpieces
      exact absurd (List.self_eq_append_right.mp hpieces) hne
  · rintro ⟨place,names,node,hstat,hne,hpieces,hnode,hfile,hsel⟩
    refine ⟨foundAt (t.absolute root) (names,node),?_,?_⟩
    · exact (mem_walk_iff hp h _).mpr
        ⟨place,.folder,hstat,names,node,mem_of_find? hnode (by simp [hne]),hne,hfile,hsel,rfl⟩
    · have hnames : ∀ name ∈ names, Path.Piece name := by
        intro name hname
        exact hpath.piece (hpieces ▸ List.mem_append_right _ hname)
      change Path.join [t.absolute root,"/".intercalate names] = path
      rw [hroot.join_names hne hnames,← hpieces,← hpath.eq_ofPieces]

end FileTree

/-! ### What is deleted -/

def HistoryKind.Removed (k : HistoryKind) (before after : k.State) (path : Text) : Prop :=
  k.held? before path ≠ none ∧ k.held? after path = none

namespace ScanJob

theorem clean_folder (job : ScanJob) : Path.Clean job.folder := job.tree.clean_absolute job.root

/-- A scan that has settled the history, whatever stood in the slots of its files. -/
structure Settles {σ : Type} (job : ScanJob) (access : HistoryAccess σ) (before : σ)
    (files : List FoundFile) (report : ScanReport) (after : σ) : Prop where
  walked : job.tree.walk job.selection job.root = .ok files
  settled : ∃ records slots, access.list before = .ok records ∧
    job.settle access before (byPath records) files slots = .ok (report,after)

/-- Where a scan can be, as far as the history is concerned. -/
inductive Tracks {σ : Type} (job : ScanJob) (access : HistoryAccess σ) (before : σ) :
    Scanning σ → Prop
  | walking {b : Board} : Tracks job access before ⟨before,b,.walking⟩
  | listing {b : Board} {files : List FoundFile}
      (hwalk : job.tree.walk job.selection job.root = .ok files) :
      Tracks job access before ⟨before,b,.listing files⟩
  | working {b : Board} {files waiting : List FoundFile} {records : List Record}
      {workers : List Worker} (hwalk : job.tree.walk job.selection job.root = .ok files)
      (hlist : access.list before = .ok records) :
      Tracks job access before ⟨before,b,.working files (byPath records) waiting workers⟩
  | storing {b : Board} {files : List FoundFile} {records : List Record} {slots : List ScannedFile}
      (hwalk : job.tree.walk job.selection job.root = .ok files)
      (hlist : access.list before = .ok records) :
      Tracks job access before ⟨before,b,.storing files (byPath records) slots⟩
  | pruning {h : σ} {b : Board} {files : List FoundFile} {slots : List ScannedFile}
      {paths gone : List Text} {left : List (Text × HistoryError)}
      (hsettles : job.Settles access before files
        ⟨slots,gone ++ (prune access h paths).2.1,left ++ (prune access h paths).2.2⟩
        (prune access h paths).1) :
      Tracks job access before ⟨h,b,.pruning slots paths gone left⟩
  | failed {b : Board} {e : ScanError} : Tracks job access before ⟨before,b,.failed e⟩
  | finished {h : σ} {b : Board} {files : List FoundFile} {report : ScanReport}
      (hsettles : job.Settles access before files report h) :
      Tracks job access before ⟨h,b,.finished report⟩

section Tracks

variable {σ ε : Type} {job : ScanJob} {access : HistoryAccess σ} {jobs : Nat} {before : σ}
  {s s' : Scanning σ}

theorem Tracks.step (hs : job.Tracks access before s) (hstep : job.Step access jobs s s') :
    job.Tracks access before s' := by
  cases hstep with
  | found hwalk =>
    cases hs with
    | walking => exact .listing hwalk
  | listed hlist =>
    cases hs with
    | listing hwalk => exact .working hwalk hlist
  | unwalked =>
    cases hs with
    | walking => exact .failed
  | unlisted =>
    cases hs with
    | listing => exact .failed
  | launch | work =>
    cases hs with
    | working hwalk hlist => exact .working hwalk hlist
  | stopped =>
    cases hs with
    | working => exact .failed
  | gathered =>
    cases hs with
    | working hwalk hlist => exact .storing hwalk hlist
  | stored hstore =>
    cases hs with
    | storing hwalk hlist => exact .pruning ⟨hwalk,_,_,hlist,job.settle_of_stored _ _ hstore⟩
  | unstored =>
    cases hs with
    | storing => exact .failed
  | deleted hdelete =>
    cases hs with
    | pruning hsettles =>
      rw [prune_cons_ok hdelete] at hsettles
      exact .pruning (by simpa using hsettles)
  | undeleted hdelete =>
    cases hs with
    | pruning hsettles =>
      rw [prune_cons_error hdelete] at hsettles
      exact .pruning (by simpa using hsettles)
  | finished =>
    cases hs with
    | pruning hsettles => exact .finished (by simpa [prune] using hsettles)
  | cancel =>
    cases hs with
    | walking => exact .walking
    | listing hwalk => exact .listing hwalk
    | working hwalk hlist => exact .working hwalk hlist
    | storing hwalk hlist => exact .storing hwalk hlist
    | pruning hsettles => exact .pruning hsettles
    | failed => exact .failed
    | finished hsettles => exact .finished hsettles

theorem Tracks.runs (hs : job.Tracks access before s) (hruns : job.Runs access jobs s s') :
    job.Tracks access before s' := by
  induction hruns with
  | refl => exact hs
  | tail _ hstep ih => exact ih.step hstep

/-- However its workers take their steps, a scan that ends well has settled the history. -/
theorem settles_of_runs {e : Explainer} {report : ScanReport} {after : σ}
    (hruns : job.Runs access jobs (.start before e) s)
    (hout : s.outcome? = some (.ok report,after)) :
    ∃ files, job.Settles access before files report after := by
  have hstart : job.Tracks access before (.start before e) := .walking
  cases hstart.runs hruns with
  | finished hsettles =>
    cases hout
    exact ⟨_,hsettles⟩
  | _ => cases hout

theorem settles_of_runWith {explain : Explaining ε} {e e' : ε} {report : ScanReport} {after : σ}
    (hrun : job.runWith explain access ⟨before,e⟩ = (.ok report,⟨after,e'⟩)) :
    ∃ files, job.Settles access before files report after := by
  obtain ⟨hwalk,hlist,-,hsettle⟩ := job.finishes_of_runWith explain access hrun
  exact ⟨_,hwalk,_,_,hlist,hsettle⟩

end Tracks

section Removed

variable {k : HistoryKind} {job : ScanJob} {access : HistoryAccess k.State} {before after : k.State}
  {files : List FoundFile} {report : ScanReport}

/-- A history that was settled without a failure has lost the entries below the folder at whose paths
no file was found. -/
theorem Settles.removed_iff (h : job.Settles access before files report after)
    (hw : access.Within k.access) (hkeyed : k.Keyed before) (hdeleted : report.undeleted = [])
    (path : Text) :
    k.Removed before after path ↔ k.held? before path ≠ none ∧
      Text.ofString (job.folder ++ "/") <+: path ∧ ∀ f ∈ files, Text.ofString f.path ≠ path := by
  obtain ⟨-,records,slots,hlist,hsettle⟩ := h
  have hafter := held?_settle hw hsettle path
  have hlisted := hw.list hlist
  refine and_congr_right fun hheld => ?_
  have hrecord : (Bucket.find? (byPath records) path).isSome = true := by
    rw [k.find?_byPath_list hkeyed hlisted path,Option.isSome_iff_ne_none]
    exact mt (held?_eq_none_of_listed k hlisted) hheld
  have hstale := mem_stale job (byPath records) files path
  simp only [hrecord,true_and] at hstale
  rw [← hstale,hafter,hdeleted]
  by_cases hmem : path ∈ job.stale (byPath records) files
  · simp [hmem]
  · simp [hmem,hheld]

theorem Settles.removed_clean_iff (h : job.Settles access before files report after)
    (hw : access.Within k.access) (hkeyed : k.Keyed before) (hdeleted : report.undeleted = [])
    (hproper : job.tree.Proper) (hne : job.folder ≠ "/") {path : String}
    (hpath : Path.Clean path) :
    k.Removed before after path ↔ k.held? before path ≠ none ∧ Path.Below job.folder path ∧
      ¬job.tree.Takes job.selection job.root path := by
  rw [h.removed_iff hw hkeyed hdeleted,Text.ofString_slash_prefix_iff,
    ← job.clean_folder.below_iff hne hpath]
  refine and_congr_right fun _ => and_congr_right fun hbelow => ?_
  rw [← FileTree.walked_iff_takes hproper h.walked hpath hbelow]
  simp only [not_exists,not_and]
  exact forall₂_congr fun f _ => not_congr ⟨fun hf => Text.ofString_injective hf,congrArg _⟩

end Removed

/-- Which records have gone when the records of what is not taken below a folder are deleted, and what
this means for the files that stand there. -/
structure PrunesUntaken (job : ScanJob) (k : HistoryKind) (before after : k.State) : Prop where
  entries : ∃ files, job.tree.walk job.selection job.root = .ok files ∧
    ∀ path, k.Removed before after path ↔ k.held? before path ≠ none ∧
      Text.ofString (job.folder ++ "/") <+: path ∧ ∀ f ∈ files, Text.ofString f.path ≠ path
  top : job.folder = "/" → ∀ path, Path.Clean path → ¬k.Removed before after path
  clean : job.folder ≠ "/" → ∀ path, Path.Clean path →
    (k.Removed before after path ↔ k.held? before path ≠ none ∧ Path.Below job.folder path ∧
      ¬job.tree.Takes job.selection job.root path)
  /-- The records of missing files are deleted, and no others, as far as every file is taken. -/
  missing : job.folder ≠ "/" → ∀ path, Path.Clean path → FileTree.Askable path →
    (job.tree.Takes job.selection job.root path → job.tree.HasFile path) ∧
    ((k.Removed before after path ↔ k.held? before path ≠ none ∧ Path.Below job.folder path ∧
        ¬job.tree.HasFile path) ↔
      (k.held? before path ≠ none → Path.Below job.folder path → job.tree.HasFile path →
        job.tree.Takes job.selection job.root path))

theorem Settles.prunesUntaken {k : HistoryKind} {job : ScanJob} {access : HistoryAccess k.State}
    {before after : k.State} {files : List FoundFile} {report : ScanReport}
    (h : job.Settles access before files report after) (hw : access.Within k.access)
    (hkeyed : k.Keyed before) (hdeleted : report.undeleted = []) (hproper : job.tree.Proper) :
    job.PrunesUntaken k before after := by
  have hremoved := h.removed_iff hw hkeyed hdeleted
  have hclean (hne : job.folder ≠ "/") (path : String) (hpath : Path.Clean path) :=
    h.removed_clean_iff hw hkeyed hdeleted hproper hne hpath
  refine ⟨⟨files,h.walked,hremoved⟩,?_,hclean,?_⟩
  · intro htop path hpath hgone
    have hprefix := ((hremoved path).mp hgone).2.1
    rw [Text.ofString_slash_prefix_iff,htop] at hprefix
    exact hpath.not_above_slash hprefix
  · intro hne path hpath hask
    have hthere : job.tree.Takes job.selection job.root path → job.tree.HasFile path :=
      fun htakes => htakes.hasFile hproper hne hpath hask
    refine ⟨hthere,?_⟩
    rw [hclean hne path hpath]
    tauto

/-- A scan that ends well and fails at no deletion, by any number of workers or by one that takes the
files in order, deletes the record of a clean path exactly if it lies below the folder and the search
of the folder does not take a file there. Of the top folder it deletes none. -/
theorem record_pruned_iff (k : HistoryKind) (job : ScanJob) {access : HistoryAccess k.State}
    (hw : access.Within k.access) {before : k.State} (hkeyed : k.Keyed before)
    (hproper : job.tree.Proper) :
    (∀ (ε : Type) (explain : Explaining ε) (e e' : ε) (report : ScanReport) (after : k.State),
      job.runWith explain access ⟨before,e⟩ = (.ok report,⟨after,e'⟩) → report.undeleted = [] →
      job.PrunesUntaken k before after) ∧
    ∀ (jobs : Nat) (e : Explainer) (s : Scanning k.State) (report : ScanReport) (after : k.State),
      job.Runs access jobs (.start before e) s → s.outcome? = some (.ok report,after) →
      report.undeleted = [] → job.PrunesUntaken k before after := by
  refine ⟨?_,?_⟩
  · intro ε explain e e' report after hrun hdeleted
    obtain ⟨files,hsettles⟩ := settles_of_runWith hrun
    exact hsettles.prunesUntaken hw hkeyed hdeleted hproper
  · intro jobs e s report after hruns hout hdeleted
    obtain ⟨files,hsettles⟩ := settles_of_runs hruns hout
    exact hsettles.prunesUntaken hw hkeyed hdeleted hproper

def sampleNarrow : ScanJob := { sampleScan with selection := .ofPatterns ["**/n*.py"] [] }

theorem proper_sampleNarrow : sampleNarrow.tree.Proper :=
  ⟨by decide +kernel,by decide +kernel,by decide +kernel⟩

theorem outcomes_sampleNarrow : ["kept.py","new.py","secret.py"].map (Glob.outcome "**/n*.py") =
    [.unmatched,.matched,.unmatched] := by
  change [Glob.matchFrom {} true false
      ⟨['*','*','/','n','*','.','p','y'],['k','e','p','t','.','p','y']⟩,
    Glob.matchFrom {} true false ⟨['*','*','/','n','*','.','p','y'],['n','e','w','.','p','y']⟩,
    Glob.matchFrom {} true false
      ⟨['*','*','/','n','*','.','p','y'],['s','e','c','r','e','t','.','p','y']⟩] = _
  cbv

theorem walk_sampleNarrow : sampleNarrow.tree.walk sampleNarrow.selection sampleNarrow.root =
    .ok [⟨"/p/new.py","new.py",6,1⟩] := by
  have hroot : sampleNarrow.tree.statLink (sampleNarrow.tree.absolute sampleNarrow.root) =
      .ok (["p"],.folder) := by decide +kernel
  have hnames : ∀ e ∈ sampleNarrow.tree.below ["p"],
      e.1 ∈ [["kept.py"],["new.py"],["secret.py"]] := by decide +kernel
  have hselects (name : String) : FileTree.isSelected sampleNarrow.selection [name] =
      (Glob.outcome "**/n*.py" name == .matched) := by
    simp [FileTree.isSelected,FileTree.foldersAbove,FileTree.relativePath,sampleNarrow,
      Selection.ofPatterns,Selection.matching]
  have houtcomes := outcomes_sampleNarrow
  simp only [List.map_cons,List.map_nil,List.cons.injEq,and_true] at houtcomes
  obtain ⟨hkept,hnew,hsecret⟩ := houtcomes
  -- The matcher does not reduce, so the walk is run with a selection that agrees on what is there.
  have hagree : ∀ names ∈ [["kept.py"],["new.py"],["secret.py"]],
      FileTree.isSelected sampleNarrow.selection names =
        FileTree.isSelected ⟨(· == "new.py"),fun _ => false⟩ names := by
    simp only [List.forall_mem_cons,hselects,hkept,hnew,hsecret]
    decide +kernel
  rw [FileTree.walk_congr hroot fun e he => hagree _ (hnames e he)]
  exact FileTree.walk_of_visit ["p"] hroot (by decide +kernel) (by decide +kernel)

theorem sampleNarrow_scanned : ∃ report after,
    sampleNarrow.runWith sampleNarrow.bare Ledger.access ⟨sampleLedger,()⟩ =
      (.ok report,⟨after,()⟩) ∧ report.undeleted = [] := by
  have hok : (sampleNarrow.runWith sampleNarrow.bare Ledger.access ⟨sampleLedger,()⟩).1.toOption.map
      ScanReport.undeleted = some [] := by
    unfold runWith
    rw [walk_sampleNarrow]
    decide +kernel
  rcases hrun : sampleNarrow.runWith sampleNarrow.bare Ledger.access ⟨sampleLedger,()⟩ with
    ⟨result,after,_⟩
  rw [hrun] at hok
  cases result with
  | error e => cases hok
  | ok report => exact ⟨report,after,rfl,Option.some.inj hok⟩

theorem record_pruned_iff_sample : ∃ report after,
    sampleNarrow.runWith sampleNarrow.bare Ledger.access ⟨sampleLedger,()⟩ =
      (.ok report,⟨after,()⟩) ∧ report.undeleted = [] ∧
    sampleNarrow.PrunesUntaken .memory sampleLedger after ∧
    HistoryKind.memory.Removed sampleLedger after "/p/gone.py" := by
  obtain ⟨report,after,hrun,hdeleted⟩ := sampleNarrow_scanned
  have hprunes := (record_pruned_iff .memory sampleNarrow ⟨id,id,id⟩
    keyed_sampleLedger proper_sampleNarrow).1
    Unit sampleNarrow.bare () () report after hrun hdeleted
  refine ⟨report,after,hrun,hdeleted,hprunes,?_⟩
  obtain ⟨files,hwalk,hremoved⟩ := hprunes.entries
  rw [hremoved,← Except.ok.inj (walk_sampleNarrow.symm.trans hwalk)]
  decide +kernel

/-- The record of a file that stands in the folder is deleted, since the scan does not take the file. -/
theorem pruning_drops_standing_file : ∃ report after,
    sampleNarrow.runWith sampleNarrow.bare Ledger.access ⟨sampleLedger,()⟩ =
      (.ok report,⟨after,()⟩) ∧ report.undeleted = [] ∧
    sampleNarrow.tree.HasFile "/p/kept.py" ∧
    HistoryKind.memory.Removed sampleLedger after "/p/kept.py" := by
  obtain ⟨report,after,hrun,hdeleted⟩ := sampleNarrow_scanned
  refine ⟨report,after,hrun,hdeleted,⟨_,_,rfl,rfl⟩,?_⟩
  obtain ⟨files,hsettles⟩ := settles_of_runWith hrun
  rw [hsettles.removed_iff ⟨id,id,id⟩ keyed_sampleLedger hdeleted,
    ← Except.ok.inj (walk_sampleNarrow.symm.trans hsettles.walked)]
  decide +kernel

end ScanJob
end CircuitNotes
