import CircuitNotes.Files.Walk
import CircuitNotes.Proofs.Paths
import CircuitNotes.Proofs.Texts
import CircuitNotes.Proofs.Trees
import Mathlib.Data.List.Nodup
import Mathlib.Order.Lattice

/-! Searching a folder. The search goes from folder to folder and leaves out those that are excluded; it
comes to the files that are selected by themselves and stand in no excluded folder, each of them once,
and gives them in the byte order of their relative paths. -/
namespace CircuitNotes

def Selection.everything : Selection := ⟨fun _ => true,fun _ => false⟩

namespace FileTree

/-- A tree in which every node can be reached: its names are such as a folder may have, and they lead
through folders. -/
structure Proper (t : FileTree) : Prop where
  found : ∀ e ∈ t.nodes, t.find? e.1 = some e.2
  named : ∀ e ∈ t.nodes, ∀ name ∈ e.1, Plain name ∧ '/' ∉ name.toList
  housed : ∀ e ∈ t.nodes, ∀ n < e.1.length, t.find? (e.1.take n) = some .folder

theorem Proper.piece {t : FileTree} (hp : t.Proper) {names : List String} {node : FileNode}
    (h : (names,node) ∈ t.nodes) : ∀ name ∈ names, Path.Piece name := by
  intro name hname
  obtain ⟨hplain,hslash⟩ := hp.named _ h name hname
  exact ⟨(Path.pieces_eq_singleton_iff name).mpr hslash,hplain.nonempty,hplain.notHere,hplain.notUp⟩

/-- The names that lead to the folders between the folder searched and a node below it. -/
def foldersAbove (names : List String) : List (List String) :=
  ((List.range names.length).drop 1).map names.take

def isSelected (sel : Selection) (names : List String) : Bool :=
  sel.includes (relativePath names) && !sel.excludes (relativePath names) &&
    (foldersAbove names).all fun folder => !sel.excludes (relativePath folder ++ "/")

/-! ### One folder -/

theorem mem_below_iff (t : FileTree) (place names : List String) (node : FileNode) :
    (names,node) ∈ t.below place ↔ (place ++ names,node) ∈ t.nodes ∧ names ≠ [] := by
  simp only [below,List.mem_filterMap]
  refine ⟨?_,?_⟩
  · rintro ⟨⟨q,node'⟩,hmem,hsome⟩
    split_ifs at hsome with hbelow
    rw [Bool.and_eq_true,List.isPrefixOf_iff_prefix,decide_eq_true_iff] at hbelow
    obtain ⟨⟨more,rfl⟩,hlength⟩ := hbelow
    rw [List.drop_left] at hsome
    cases hsome
    refine ⟨hmem,?_⟩
    rintro rfl
    simp at hlength
  · rintro ⟨hmem,hne⟩
    refine ⟨_,hmem,?_⟩
    have hlength := List.length_pos_iff.mpr hne
    rw [if_pos (by simpa using hlength),List.drop_left]

theorem mem_inside_iff (t : FileTree) (place : List String) (name : String) (node : FileNode) :
    (name,node) ∈ t.inside place ↔ (place ++ [name],node) ∈ t.nodes := by
  have hsingle := t.mem_below_iff place [name] node
  simp only [ne_eq,List.cons_ne_self,not_false_eq_true,and_true] at hsingle
  rw [← hsingle,inside,List.mem_filterMap]
  refine ⟨?_,?_⟩
  · rintro ⟨⟨names,node'⟩,hmem,hsome⟩
    split at hsome
    · cases hsome
      simp_all
    · cases hsome
  · intro hmem
    exact ⟨([name],node),hmem,rfl⟩

theorem le_foldl_depth (entries : List (List String × FileNode)) (depth : Nat) :
    depth ≤ entries.foldl (fun depth e => max depth e.1.length) depth := by
  induction entries generalizing depth with
  | nil => exact le_rfl
  | cons e entries ih => exact (le_max_left depth e.1.length).trans (ih _)

theorem length_le_foldl_depth {entries : List (List String × FileNode)} {e : List String × FileNode}
    (h : e ∈ entries) (depth : Nat) :
    e.1.length ≤ entries.foldl (fun depth e => max depth e.1.length) depth := by
  induction entries generalizing depth with
  | nil => cases h
  | cons e' entries ih =>
    rcases List.mem_cons.mp h with rfl | h
    · exact (le_max_right depth e.1.length).trans (le_foldl_depth entries _)
    · exact ih h _

theorem length_le_depthBelow {t : FileTree} {place : List String} {e : List String × FileNode}
    (h : e ∈ t.below place) : e.1.length ≤ t.depthBelow place := length_le_foldl_depth h 0

/-! ### Folder by folder -/

section Visit

variable {t : FileTree} {sel : Selection} {place : List String} {depth : Nat} {names : List String}
  {e : List String × FileNode}

theorem of_mem_visit (h : e ∈ t.visit sel place depth names) :
    (∃ more, more ≠ [] ∧ e.1 = names ++ more) ∧ (place ++ e.1,e.2) ∈ t.nodes ∧
      e.2.isFolder = false := by
  induction depth generalizing names with
  | zero => cases h
  | succ depth ih =>
    obtain ⟨⟨name,node⟩,hinside,h⟩ := List.mem_flatMap.mp h
    rw [mem_inside_iff] at hinside
    cases hfolder : node.isFolder with
    | true =>
      simp only [hfolder,if_true] at h
      split_ifs at h
      · cases h
      · obtain ⟨⟨more,_,hmore⟩,hnode⟩ := ih h
        exact ⟨⟨name :: more,by simp,by simp [hmore]⟩,hnode⟩
    | false =>
      simp only [hfolder,Bool.false_eq_true,if_false] at h
      split_ifs at h
      · rw [List.mem_singleton.mp h]
        exact ⟨⟨[name],by simp,rfl⟩,by rwa [← List.append_assoc],hfolder⟩
      · cases h

/-- In a proper tree a search that leaves nothing out comes to every file that is not too deep. -/
theorem Proper.mem_visit (hp : t.Proper) {more : List String} {node : FileNode} (hne : more ≠ [])
    (hnode : (place ++ names ++ more,node) ∈ t.nodes) (hfile : node.isFolder = false)
    (hdepth : more.length ≤ depth) :
    (names ++ more,node) ∈ t.visit .everything place depth names := by
  induction depth generalizing names more with
  | zero => exact absurd (List.length_eq_zero_iff.mp (Nat.le_zero.mp hdepth)) hne
  | succ depth ih =>
    cases more with
    | nil => exact absurd rfl hne
    | cons name more =>
      by_cases hlast : more = []
      · subst hlast
        exact List.mem_flatMap.mpr ⟨(name,node),(t.mem_inside_iff _ name node).mpr hnode,
          by simp [hfile,Selection.everything]⟩
      · have hhoused := hp.housed _ hnode (place ++ names ++ [name]).length
          (by simpa using List.length_pos_iff.mpr hlast)
        rw [List.append_cons] at hnode
        rw [show (place ++ names ++ name :: more,node).1 = place ++ names ++ [name] ++ more from
          List.append_cons _ _ _,List.take_left] at hhoused
        have hfolder := mem_of_find? hhoused (by simp)
        rw [List.append_assoc place names [name]] at hnode
        have hdeeper := ih hlast hnode (by simpa using hdepth)
        rw [← List.append_cons] at hdeeper
        exact List.mem_flatMap.mpr ⟨(name,.folder),(t.mem_inside_iff _ name .folder).mpr hfolder,
          by simpa [FileNode.isFolder,Selection.everything] using hdeeper⟩

/-- Whether a selection takes a file when the first `n` of the names are those of folders that have
been entered. -/
def isSelectedFrom (sel : Selection) (n : Nat) (names : List String) : Bool :=
  sel.includes (relativePath names) && !sel.excludes (relativePath names) &&
    ((List.range names.length).drop (n+1)).all fun k =>
      !sel.excludes (relativePath (names.take k) ++ "/")

theorem mem_drop_range {n m k : Nat} : k ∈ (List.range n).drop m ↔ m ≤ k ∧ k < n := by
  rw [List.mem_drop_iff_getElem]
  refine ⟨?_,?_⟩
  · rintro ⟨i,hi,rfl⟩
    rw [List.length_range] at hi
    simp only [List.getElem_range]
    omega
  · rintro ⟨hm,hn⟩
    exact ⟨k-m,by rw [List.length_range]; omega,by rw [List.getElem_range]; omega⟩

theorem isSelectedFrom_eq_true_iff (sel : Selection) (n : Nat) (names : List String) :
    isSelectedFrom sel n names = true ↔ sel.includes (relativePath names) = true ∧
      sel.excludes (relativePath names) = false ∧
      ∀ k, n < k → k < names.length → sel.excludes (relativePath (names.take k) ++ "/") = false := by
  simp only [isSelectedFrom,Bool.and_eq_true,Bool.not_eq_true',List.all_eq_true,mem_drop_range,
    and_assoc,and_imp,Nat.succ_le_iff]

theorem isSelectedFrom_zero (sel : Selection) (names : List String) :
    isSelectedFrom sel 0 names = isSelected sel names := by
  simp [isSelectedFrom,isSelected,foldersAbove,List.all_map,Function.comp_def]

theorem isSelectedFrom_succ {sel : Selection} {n : Nat} {names : List String}
    (hfolder : sel.excludes (relativePath (names.take (n+1)) ++ "/") = false) :
    isSelectedFrom sel (n+1) names = isSelectedFrom sel n names := by
  rw [Bool.eq_iff_iff,isSelectedFrom_eq_true_iff,isSelectedFrom_eq_true_iff]
  refine and_congr_right fun _ => and_congr_right fun _ => ⟨?_,?_⟩
  · intro h k hn hk
    rcases Nat.lt_or_eq_of_le (Nat.succ_le_of_lt hn) with hlater | rfl
    · exact h k hlater hk
    · exact hfolder
  · intro h k hn hk
    exact h k (by omega) hk

/-- A search that leaves out excluded folders comes to those files, in the same order, of a search that
leaves nothing out which the selection takes. -/
theorem visit_eq_filter (t : FileTree) (sel : Selection) (place : List String) (depth : Nat)
    (names : List String) :
    t.visit sel place depth names =
      (t.visit .everything place depth names).filter
        fun e => isSelectedFrom sel names.length e.1 := by
  induction depth generalizing names with
  | zero => rfl
  | succ depth ih =>
    rw [visit,visit,List.filter_flatMap]
    refine List.flatMap_congr fun ⟨name,node⟩ _ => ?_
    have htake {more : List String} : (names ++ [name] ++ more).take (names.length+1) =
        names ++ [name] := List.take_left' (by simp)
    cases hfolder : node.isFolder with
    | true =>
      simp only [hfolder,if_true,Bool.false_eq_true,if_false,Selection.everything]
      cases hexcluded : sel.excludes (relativePath (names ++ [name]) ++ "/") with
      | true =>
        rw [if_pos rfl]
        -- All that is found below has this folder above it.
        refine (List.filter_eq_nil_iff.mpr ?_).symm
        intro e he hselected
        obtain ⟨⟨more,hmore,hnames⟩,-⟩ := of_mem_visit he
        have hbetween := ((isSelectedFrom_eq_true_iff _ _ _).mp hselected).2.2 (names.length+1)
          (by omega) (by rw [hnames]; simpa using List.length_pos_iff.mpr hmore)
        rw [hnames,htake,hexcluded] at hbetween
        cases hbetween
      | false =>
        simp only [Bool.false_eq_true,if_false,ih (names ++ [name])]
        refine List.filter_congr fun e he => ?_
        obtain ⟨⟨more,-,hnames⟩,-⟩ := of_mem_visit he
        rw [List.length_append,List.length_singleton]
        exact isSelectedFrom_succ (by rw [hnames,htake,hexcluded])
    | false =>
      have hnone : (List.range (names ++ [name]).length).drop (names.length+1) = [] := by simp
      have hfile : isSelectedFrom sel names.length (names ++ [name]) =
          (sel.includes (relativePath (names ++ [name])) &&
            !sel.excludes (relativePath (names ++ [name]))) := by
        rw [isSelectedFrom,hnone,List.all_nil,Bool.and_true]
      simp [hfolder,hfile,List.filter_cons,Selection.everything]

/-- A proper tree in which every place is listed once. -/
structure Listed (t : FileTree) : Prop extends t.Proper where
  once : (t.nodes.map Prod.fst).Nodup

theorem Listed.nodup_below (hl : t.Listed) (place : List String) :
    (t.below place).Pairwise fun e e' => e.1 ≠ e'.1 := by
  rw [below,List.pairwise_filterMap]
  refine (List.pairwise_map.mp hl.once).imp ?_
  rintro ⟨p,node⟩ ⟨p',node'⟩ hne e he e' he' heq
  simp only [Option.ite_none_right_eq_some,Bool.and_eq_true,List.isPrefixOf_iff_prefix,
    Option.some.injEq] at he he'
  obtain ⟨⟨⟨more,rfl⟩,-⟩,rfl⟩ := he
  obtain ⟨⟨⟨more',rfl⟩,-⟩,rfl⟩ := he'
  simp only [List.drop_left] at heq
  exact hne (by rw [heq])

theorem Listed.nodup_inside (hl : t.Listed) (place : List String) :
    (t.inside place).Pairwise fun e e' => e.1 ≠ e'.1 := by
  rw [inside,List.pairwise_filterMap]
  refine (hl.nodup_below place).imp ?_
  rintro ⟨names,node⟩ ⟨names',node'⟩ hne e he e' he' heq
  split at he
  · split at he'
    · cases he
      cases he'
      simp_all
    · cases he'
  · cases he

theorem Listed.nodup_visit (hl : t.Listed) (sel : Selection) (place : List String) (depth : Nat)
    (names : List String) : ((t.visit sel place depth names).map Prod.fst).Nodup := by
  rw [visit_eq_filter]
  refine List.Nodup.sublist (List.filter_sublist.map _) ?_
  induction depth generalizing names with
  | zero => simp [visit]
  | succ depth ih =>
    rw [visit,List.map_flatMap,List.nodup_flatMap]
    refine ⟨?_,?_⟩
    · rintro ⟨name,node⟩ -
      cases hfolder : node.isFolder with
      | true => simpa [hfolder,Selection.everything] using ih (names ++ [name])
      | false => simp [hfolder,Selection.everything]
    · refine (hl.nodup_inside (place ++ names)).imp ?_
      -- What is found through a name starts with it.
      have hstarts (name : String) (node : FileNode) (found : List String)
          (hfound : found ∈ List.map Prod.fst (if node.isFolder = true then
            t.visit .everything place depth (names ++ [name]) else [(names ++ [name],node)])) :
          names ++ [name] <+: found := by
        obtain ⟨e,he,rfl⟩ := List.mem_map.mp hfound
        split_ifs at he
        · obtain ⟨⟨more,-,hmore⟩,-⟩ := of_mem_visit he
          exact ⟨more,hmore.symm⟩
        · obtain rfl := List.mem_singleton.mp he
          exact List.prefix_rfl
      rintro ⟨name,node⟩ ⟨name',node'⟩ hne found hfound hfound'
      obtain ⟨more,rfl⟩ := hstarts name node found (by simpa [Selection.everything] using hfound)
      obtain ⟨more',hmore⟩ := hstarts name' node' _ (by simpa [Selection.everything] using hfound')
      simp only [List.append_assoc,List.append_cancel_left_eq,List.singleton_append,
        List.cons.injEq] at hmore
      exact hne hmore.1.symm

end Visit

/-! ### The whole search -/

theorem relativePath_injOn {names names' : List String} (hne : names ≠ []) (hne' : names' ≠ [])
    (hnames : ∀ n ∈ names, '/' ∉ n.toList) (hnames' : ∀ n ∈ names', '/' ∉ n.toList)
    (h : relativePath names = relativePath names') : names = names' := by
  have hsplit := Path.pieces_intercalate hne fun n hn =>
    (Path.pieces_eq_singleton_iff n).mpr (hnames n hn)
  have hsplit' := Path.pieces_intercalate hne' fun n hn =>
    (Path.pieces_eq_singleton_iff n).mpr (hnames' n hn)
  rw [← hsplit,← hsplit']
  exact congrArg Path.pieces h

def foundAt (root : String) (e : List String × FileNode) : FoundFile :=
  ⟨Path.join [root,relativePath e.1],relativePath e.1,e.2.modified,e.2.size⟩

theorem clean_absolute (t : FileTree) (path : String) : Path.Clean (t.absolute path) :=
  Path.clean_absolute (by simp [Path.isAbsolute,Path.ofPieces]) path

theorem absolute_of_clean (t : FileTree) {path : String} (h : Path.Clean path) :
    t.absolute path = path := h.absolute_eq _

theorem walk_of_folder {t : FileTree} {sel : Selection} {root : String} {place : List String}
    (h : t.statLink (t.absolute root) = .ok (place,.folder)) :
    t.walk sel root = .ok
      (((t.visit sel place (t.depthBelow place) []).map (foundAt (t.absolute root))).mergeSort
        fun a b => decide (Text.ofString a.rel ≤ Text.ofString b.rel)) := by
  unfold walk
  simp only [h]
  rfl

theorem walk_of_file {t : FileTree} {sel : Selection} {root : String} {place : List String}
    {node : FileNode} (h : t.statLink (t.absolute root) = .ok (place,node))
    (hfile : node.isFolder = false) :
    t.walk sel root = .ok (if sel.includes "." && !sel.excludes "." then
      [⟨t.absolute root,".",node.modified,node.size⟩] else []) := by
  unfold walk
  simp only [h,hfile,Bool.false_eq_true,if_false,bind,Except.bind,pure,Except.pure]
  split_ifs
  · rw [List.mergeSort_singleton]
  · rw [List.mergeSort_nil]

theorem walk_of_visit {t : FileTree} {sel : Selection} {root : String} {files : List FoundFile}
    (place : List String) (h : t.statLink (t.absolute root) = .ok (place,.folder))
    (hvisit : (t.visit sel place (t.depthBelow place) []).map (foundAt (t.absolute root)) = files)
    (hsorted : files.Pairwise fun f g => Text.ofString f.rel ≤ Text.ofString g.rel) :
    t.walk sel root = .ok files := by
  rw [walk_of_folder h,hvisit,List.mergeSort_of_pairwise (hsorted.imp decide_eq_true)]

theorem walk_congr {t : FileTree} {sel sel' : Selection} {root : String} {place : List String}
    (hroot : t.statLink (t.absolute root) = .ok (place,.folder))
    (h : ∀ e ∈ t.below place, isSelected sel e.1 = isSelected sel' e.1) :
    t.walk sel root = t.walk sel' root := by
  have hvisit : t.visit sel place (t.depthBelow place) [] =
      t.visit sel' place (t.depthBelow place) [] := by
    rw [visit_eq_filter t sel,visit_eq_filter t sel']
    refine List.filter_congr fun e he => ?_
    obtain ⟨⟨more,hmore,hnames⟩,hnode,-⟩ := of_mem_visit he
    rw [List.length_nil,isSelectedFrom_zero,isSelectedFrom_zero]
    exact h e ((t.mem_below_iff place e.1 e.2).mpr ⟨hnode,by simpa [hnames] using hmore⟩)
  rw [walk_of_folder hroot,walk_of_folder hroot,hvisit]

theorem Proper.mem_visit_iff {t : FileTree} (hp : t.Proper) (sel : Selection) (place : List String)
    (names : List String) (node : FileNode) :
    (names,node) ∈ t.visit sel place (t.depthBelow place) [] ↔
      (place ++ names,node) ∈ t.nodes ∧ names ≠ [] ∧ node.isFolder = false ∧
        isSelected sel names = true := by
  rw [visit_eq_filter,List.mem_filter,List.length_nil,isSelectedFrom_zero]
  refine ⟨?_,?_⟩
  · rintro ⟨hfound,hselected⟩
    obtain ⟨⟨more,hmore,hnames⟩,hnode,hfile⟩ := of_mem_visit hfound
    cases hnames
    exact ⟨hnode,hmore,hfile,hselected⟩
  · rintro ⟨hnode,hne,hfile,hselected⟩
    have hdepth := length_le_depthBelow ((t.mem_below_iff place names node).mpr ⟨hnode,hne⟩)
    have hfound : ([] ++ names,node) ∈ t.visit .everything place (t.depthBelow place) [] :=
      hp.mem_visit hne (by simpa using hnode) hfile hdepth
    exact ⟨hfound,hselected⟩

/-- The files that a search finds. -/
theorem mem_walk_iff {t : FileTree} (hp : t.Proper) {sel : Selection} {root : String}
    {files : List FoundFile} (h : t.walk sel root = .ok files) (f : FoundFile) :
    f ∈ files ↔ ∃ place node, t.statLink (t.absolute root) = .ok (place,node) ∧
      if node.isFolder then ∃ names node, (place ++ names,node) ∈ t.nodes ∧ names ≠ [] ∧
          node.isFolder = false ∧ isSelected sel names = true ∧ f = foundAt (t.absolute root) (names,node)
      else (sel.includes "." = true ∧ sel.excludes "." = false) ∧
        f = ⟨t.absolute root,".",node.modified,node.size⟩ := by
  cases hroot : t.statLink (t.absolute root) with
  | error e =>
    simp only [walk,hroot] at h
    cases h
  | ok stat =>
    obtain ⟨place,node⟩ := stat
    cases hfolder : node.isFolder with
    | false =>
      rw [walk_of_file hroot hfolder] at h
      obtain rfl := Except.ok.inj h
      split_ifs <;> simp_all
    | true =>
      cases node with
      | file | link => cases hfolder
      | folder =>
        rw [walk_of_folder hroot] at h
        rw [← Except.ok.inj h,List.mem_mergeSort,List.mem_map]
        refine ⟨?_,?_⟩
        · rintro ⟨⟨names,node⟩,hmem,rfl⟩
          obtain ⟨hnode,hne,hfile,hsel⟩ := (hp.mem_visit_iff sel place names node).mp hmem
          exact ⟨place,.folder,rfl,names,node,hnode,hne,hfile,hsel,rfl⟩
        · rintro ⟨_,_,⟨⟩,names,node,hnode,hne,hfile,hsel,rfl⟩
          exact ⟨(names,node),(hp.mem_visit_iff sel place names node).mpr ⟨hnode,hne,hfile,hsel⟩,
            rfl⟩

/-- Whether a search finds a file that stands below the folder searched. -/
theorem Proper.foundAt_mem_walk_iff {t : FileTree} (hp : t.Proper) {sel : Selection} {root : String}
    {place : List String} (hroot : t.statLink (t.absolute root) = .ok (place,.folder))
    {files : List FoundFile} (h : t.walk sel root = .ok files) {names : List String} {node : FileNode}
    (hne : names ≠ []) (hnode : t.find? (place ++ names) = some node) (hfile : node.isFolder = false) :
    foundAt (t.absolute root) (names,node) ∈ files ↔ isSelected sel names = true := by
  have hmem := mem_of_find? hnode (by simp [hne])
  rw [mem_walk_iff hp h]
  refine ⟨?_,fun hsel => ⟨place,.folder,hroot,names,node,hmem,hne,hfile,hsel,rfl⟩⟩
  rintro ⟨_,_,hroot',hfound⟩
  cases hroot.symm.trans hroot'
  obtain ⟨names',node',hmem',hne',-,hsel,hsame⟩ := hfound
  have hnames : names = names' :=
    relativePath_injOn hne hne' (fun n hn => (hp.named _ hmem n (List.mem_append_right _ hn)).2)
      (fun n hn => (hp.named _ hmem' n (List.mem_append_right _ hn)).2) (congrArg FoundFile.rel hsame)
  rwa [hnames]

theorem Listed.ascending_walk {t : FileTree} (hl : t.Listed) {sel : Selection} {root : String}
    {place : List String} (hroot : t.statLink (t.absolute root) = .ok (place,.folder))
    {files : List FoundFile} (h : t.walk sel root = .ok files) :
    files.Pairwise fun f g => Text.ofString f.rel < Text.ofString g.rel := by
  rw [walk_of_folder hroot] at h
  have hfiles := Except.ok.inj h
  have hsorted : files.Pairwise fun f g => Text.ofString f.rel ≤ Text.ofString g.rel := by
    rw [← hfiles]
    refine (List.pairwise_mergeSort ?_ ?_ _).imp of_decide_eq_true
    · intro f g h hfg hgh
      exact decide_eq_true (List.le_trans (of_decide_eq_true hfg) (of_decide_eq_true hgh))
    · intro f g
      rw [Bool.or_eq_true,decide_eq_true_iff,decide_eq_true_iff]
      exact List.le_total _ _
  have hdistinct : files.Pairwise fun f g => f.rel ≠ g.rel := by
    have hperm : (files.map FoundFile.rel).Perm
        ((t.visit sel place (t.depthBelow place) []).map fun e => relativePath e.1) := by
      rw [← hfiles]
      refine ((List.mergeSort_perm _ _).map FoundFile.rel).trans ?_
      rw [List.map_map]
      exact .refl _
    refine List.pairwise_map.mp (hperm.nodup_iff.mpr ?_)
    refine List.pairwise_map.mpr ?_
    have hvisited := List.pairwise_map.mp (hl.nodup_visit sel place (t.depthBelow place) [])
    refine hvisited.imp_of_mem fun {e e'} he he' hne hsame => hne ?_
    obtain ⟨⟨more,hmore,hnames⟩,hnode,-⟩ := of_mem_visit he
    obtain ⟨⟨more',hmore',hnames'⟩,hnode',-⟩ := of_mem_visit he'
    refine relativePath_injOn (by simpa [hnames] using hmore) (by simpa [hnames'] using hmore') ?_ ?_
      hsame
    · exact fun n hn => (hl.named _ hnode n (List.mem_append_right _ hn)).2
    · exact fun n hn => (hl.named _ hnode' n (List.mem_append_right _ hn)).2
  refine (hsorted.and hdistinct).imp ?_
  rintro f g ⟨hle,hne⟩
  exact Std.lt_of_le_of_ne hle fun hsame => hne (Text.ofString_injective hsame)

/-- The path of a file that a search finds below a folder leads to the folder and on by the names of
the file. -/
theorem Proper.cleanPieces_foundAt {t : FileTree} (hp : t.Proper) {root : String}
    (hroot : Path.Clean root) {place names : List String} {node : FileNode}
    (hmem : (place ++ names,node) ∈ t.nodes) (hne : names ≠ []) :
    Path.cleanPieces (foundAt root (names,node)).path = Path.cleanPieces root ++ names := by
  have hnames : ∀ name ∈ names, Path.Piece name :=
    fun name hname => hp.piece hmem name (List.mem_append_right _ hname)
  change Path.cleanPieces (Path.join [root,"/".intercalate names]) = _
  rw [hroot.join_names hne hnames,Path.cleanPieces_ofPieces]
  intro name hname
  rcases List.mem_append.mp hname with hname | hname
  · exact hroot.piece hname
  · exact hnames name hname

theorem Listed.nodup_paths {t : FileTree} (hl : t.Listed) {sel : Selection} {root : String}
    {files : List FoundFile} (h : t.walk sel root = .ok files) :
    (files.map FoundFile.path).Nodup := by
  cases hstat : t.statLink (t.absolute root) with
  | error e =>
    simp only [walk,hstat] at h
    cases h
  | ok stat =>
    obtain ⟨place,node⟩ := stat
    cases hfolder : node.isFolder with
    | false =>
      rw [walk_of_file hstat hfolder] at h
      rw [← Except.ok.inj h]
      split_ifs <;> simp
    | true =>
      cases node with
      | file | link => cases hfolder
      | folder =>
        have hnames {f : FoundFile} (hf : f ∈ files) : ∃ names, f.rel = relativePath names ∧
            Path.cleanPieces f.path = Path.cleanPieces (t.absolute root) ++ names := by
          obtain ⟨_,_,hstat',hfound⟩ := (mem_walk_iff hl.toProper h f).mp hf
          cases hstat.symm.trans hstat'
          obtain ⟨names,n,hmem,hne,-,-,rfl⟩ := hfound
          exact ⟨names,rfl,hl.toProper.cleanPieces_foundAt (t.clean_absolute root) hmem hne⟩
        refine List.pairwise_map.mpr ((hl.ascending_walk hstat h).imp_of_mem ?_)
        intro f g hf hg hlt hpath
        -- Files with one path have the same names, so their relative paths would be the same.
        obtain ⟨names,hrel,hpieces⟩ := hnames hf
        obtain ⟨names',hrel',hpieces'⟩ := hnames hg
        rw [hpath,hpieces'] at hpieces
        rw [hrel,hrel',List.append_cancel_left hpieces] at hlt
        exact List.lt_irrefl _ hlt

/-- Whether patterns choose the file that names lead to from the folder searched. -/
structure Chosen (outcome : String → String → Glob.Outcome) (includes excludes : List String)
    (names : List String) : Prop where
  included : ∃ pattern ∈ if includes.isEmpty then ["**/*"] else includes,
    outcome pattern (relativePath names) = .matched
  kept : ∀ pattern ∈ excludes, outcome pattern (relativePath names) ≠ .matched
  entered : ∀ folder, folder ≠ [] → folder <+: names → folder ≠ names →
    ∀ pattern ∈ excludes, outcome pattern (relativePath folder ++ "/") ≠ .matched

theorem isSelected_matching_iff (outcome : String → String → Glob.Outcome)
    (includes excludes names : List String) :
    isSelected (.matching outcome includes excludes) names = true ↔
      Chosen outcome includes excludes names := by
  have hexcluded (rel : String) : (Selection.matching outcome includes excludes).excludes rel = false ↔
      ∀ pattern ∈ excludes, outcome pattern rel ≠ .matched := by
    simp [Selection.matching]
  rw [← isSelectedFrom_zero,isSelectedFrom_eq_true_iff]
  simp only [hexcluded]
  refine ⟨?_,?_⟩
  · rintro ⟨hincluded,hkept,hentered⟩
    refine ⟨by simpa [Selection.matching] using hincluded,hkept,?_⟩
    intro folder hne hstarts hproper
    have hlength : folder.length < names.length :=
      lt_of_le_of_ne hstarts.length_le fun hlength => hproper (hstarts.eq_of_length hlength)
    rw [List.prefix_iff_eq_take.mp hstarts]
    exact hentered _ (List.length_pos_iff.mpr hne) hlength
  · rintro ⟨hincluded,hkept,hentered⟩
    refine ⟨by simpa [Selection.matching] using hincluded,hkept,?_⟩
    intro k hk hlength
    have hcount : (names.take k).length = k := List.length_take_of_le hlength.le
    refine hentered _ ?_ (List.take_prefix k names) ?_
    · exact List.length_pos_iff.mp (by rwa [hcount])
    · exact fun hall => hlength.ne (hcount.symm.trans (congrArg List.length hall))

end FileTree

open FileTree

/-- However patterns are matched, and even where matching them fails, a search of a folder finds those
of its files, links among them, whose relative path one of the patterns to include matches and none of
those to exclude does, unless a pattern to exclude matches, with a slash, a folder on the way to the
file. It gives them in the byte order of their relative paths, none of them twice, with the paths that
they have from the top. -/
theorem walk_finds_chosen {t : FileTree} (hl : t.Listed) {root : String} {place : List String}
    (hroot : t.statLink (t.absolute root) = .ok (place,.folder)) (outcome : String → String → Glob.Outcome)
    (includes excludes : List String) :
    ∃ files, t.walk (.matching outcome includes excludes) root = .ok files ∧
      (files.Pairwise fun f g => Text.ofString f.rel < Text.ofString g.rel) ∧
      ∀ f, f ∈ files ↔ ∃ names node, names ≠ [] ∧ t.find? (place ++ names) = some node ∧
        node.isFolder = false ∧ Chosen outcome includes excludes names ∧
        f = ⟨Path.join [t.absolute root,relativePath names],relativePath names,node.modified,node.size⟩ := by
  have hwalk : t.walk (.matching outcome includes excludes) root = _ := walk_of_folder hroot
  refine ⟨_,hwalk,hl.ascending_walk hroot hwalk,?_⟩
  intro f
  rw [mem_walk_iff hl.toProper hwalk]
  simp only [isSelected_matching_iff]
  refine ⟨?_,?_⟩
  · rintro ⟨place',node',hroot',hfound⟩
    cases hroot.symm.trans hroot'
    obtain ⟨names,node,hnode,hne,hfile,hchosen,rfl⟩ := hfound
    exact ⟨names,node,hne,hl.found _ hnode,hfile,hchosen,rfl⟩
  · rintro ⟨names,node,hne,hnode,hfile,hchosen,rfl⟩
    exact ⟨place,.folder,hroot,names,node,mem_of_find? hnode (by simp [hne]),hne,hfile,hchosen,rfl⟩

/-- A folder with a file and a link, one folder that is searched and one that is not. The byte order of
the paths is not the order in which the search comes to them, and the search is from within. -/
def sampleFolder : FileTree where
  nodes := [(["w"],.folder),(["w","a"],.folder),(["w","a","x.py"],.file [1] 3),
    (["w","a-b"],.link "a" 4),(["w","old"],.folder),(["w","old","y.py"],.file [1] 5)]
  workingFolder := ["w","a"]

/-- Patterns that match themselves, apart from one that is not well formed and one that matches
everything. -/
def sampleOutcome (pattern rel : String) : Glob.Outcome :=
  if pattern = "[" then .malformed
  else if pattern = "**/*" ∨ pattern = rel then .matched else .unmatched

theorem mergeSort_pair {α : Type} (le : α → α → Bool) (a b : α) :
    [a,b].mergeSort le = if le a b then [a,b] else [b,a] := by
  simp [List.mergeSort,List.MergeSort.Internal.splitInTwo,List.merge]

theorem listed_sampleFolder : sampleFolder.Listed :=
  ⟨⟨by decide +kernel,by decide +kernel,by decide +kernel⟩,by decide +kernel⟩

theorem walk_finds_chosen_sample : sampleFolder.Listed ∧
    sampleFolder.statLink (sampleFolder.absolute "..") = .ok (["w"],.folder) ∧
    sampleFolder.walk (.matching sampleOutcome [] ["[","old/"]) ".." =
      .ok [⟨"/w/a-b","a-b",4,1⟩,⟨"/w/a/x.py","a/x.py",3,1⟩] ∧
    ¬Chosen sampleOutcome [] ["[","old/"] ["old","y.py"] := by
  have hroot : sampleFolder.statLink (sampleFolder.absolute "..") = .ok (["w"],.folder) := by
    decide +kernel
  have hwalk : sampleFolder.walk (.matching sampleOutcome [] ["[","old/"]) ".." =
      .ok [⟨"/w/a-b","a-b",4,1⟩,⟨"/w/a/x.py","a/x.py",3,1⟩] := by
    have hvisit : (sampleFolder.visit (.matching sampleOutcome [] ["[","old/"]) ["w"]
        (sampleFolder.depthBelow ["w"]) []).map (foundAt (sampleFolder.absolute "..")) =
          [⟨"/w/a/x.py","a/x.py",3,1⟩,⟨"/w/a-b","a-b",4,1⟩] := by decide +kernel
    rw [walk_of_folder hroot,hvisit,mergeSort_pair,if_neg (by decide +kernel)]
  refine ⟨listed_sampleFolder,hroot,hwalk,?_⟩
  intro hchosen
  obtain ⟨files,hfiles,-,hmem⟩ :=
    walk_finds_chosen listed_sampleFolder hroot sampleOutcome [] ["[","old/"]
  have hfound := (hmem _).mpr ⟨["old","y.py"],.file [1] 5,by simp,by decide +kernel,rfl,hchosen,rfl⟩
  rw [← Except.ok.inj (hwalk.symm.trans hfiles)] at hfound
  revert hfound
  decide +kernel

end CircuitNotes
