import CircuitNotes.Files.Tree
import CircuitNotes.Proofs.Buckets

/-! Where paths lead, before and after files are written and folders are made. Neither takes away a
folder or a link, so a path that leads somewhere goes on leading there. -/
namespace CircuitNotes
namespace FileTree

theorem find?_set (t : FileTree) {place : List String} (hplace : place ≠ []) (node : FileNode)
    (q : List String) : (t.set place node).find? q = if q = place then some node else t.find? q := by
  by_cases hq : q = []
  · subst hq
    rw [if_neg (Ne.symm hplace)]
    simp [find?]
  · have hlookup (l : List (List String × FileNode)) :
        (l.filter (fun e => e.1 != place) ++ [(place,node)]).lookup q =
          if q = place then some node else l.lookup q := by
      induction l with
      | nil => simp [lookup_cons_eq_ite]
      | cons e l ih =>
        obtain ⟨p,n⟩ := e
        rw [lookup_cons_eq_ite]
        by_cases hp : p = place
        · subst hp
          simp only [List.filter_cons,bne_self_eq_false,Bool.false_eq_true,if_false,ih]
          by_cases h : q = p <;> simp [h]
        · rw [List.filter_cons,if_pos (by simpa using hp),List.cons_append,lookup_cons_eq_ite,ih]
          by_cases h : q = p
          · subst h; simp [hp]
          · simp [h]
    simp [find?,hq,set,hlookup]

theorem mem_set {t : FileTree} {place : List String} {node : FileNode}
    {e : List String × FileNode} (h : e ∈ (t.set place node).nodes) :
    e = (place,node) ∨ e ∈ t.nodes := by
  rcases List.mem_append.mp h with h | h
  · exact Or.inr (List.mem_filter.mp h).1
  · exact Or.inl (List.mem_singleton.mp h)

/-- A node in the place of another: itself, or a file where there was a file. -/
inductive Replaces : FileNode → FileNode → Prop
  | same (node : FileNode) : Replaces node node
  | file (c c' : Text) (m m' : Int) : Replaces (.file c m) (.file c' m')

/-- A later tree, in which nothing is missing and only files have changed. -/
structure Grows (t t' : FileTree) : Prop where
  workingFolder : t'.workingFolder = t.workingFolder
  kept : ∀ place node, t.find? place = some node → ∃ node', t'.find? place = some node' ∧
    Replaces node node'

theorem Grows.refl (t : FileTree) : Grows t t := ⟨rfl,fun _ node h => ⟨node,h,.same node⟩⟩

theorem Replaces.trans {a b c : FileNode} (hab : Replaces a b) (hbc : Replaces b c) :
    Replaces a c := by
  cases hab with
  | same => exact hbc
  | file => cases hbc <;> exact .file ..

theorem Grows.trans {t t' t'' : FileTree} (h : Grows t t') (h' : Grows t' t'') : Grows t t'' := by
  refine ⟨h'.workingFolder.trans h.workingFolder,?_⟩
  intro place node hnode
  obtain ⟨node',hnode',hr⟩ := h.kept place node hnode
  obtain ⟨node'',hnode'',hr'⟩ := h'.kept place node' hnode'
  exact ⟨node'',hnode'',hr.trans hr'⟩

theorem Grows.folder {t t' : FileTree} (h : Grows t t') {place : List String}
    (hf : t.find? place = some .folder) : t'.find? place = some .folder := by
  obtain ⟨node',hnode',hr⟩ := h.kept place _ hf
  cases hr
  exact hnode'

theorem Grows.link {t t' : FileTree} (h : Grows t t') {place : List String} {target : String}
    {m : Int} (hf : t.find? place = some (.link target m)) :
    t'.find? place = some (.link target m) := by
  obtain ⟨node',hnode',hr⟩ := h.kept place _ hf
  cases hr
  exact hnode'

theorem grows_set {t : FileTree} {place : List String} (hplace : place ≠ []) {node : FileNode}
    (h : ∀ old, t.find? place = some old → Replaces old node) : Grows t (t.set place node) := by
  refine ⟨rfl,?_⟩
  intro q old hold
  by_cases hq : q = place
  · subst hq
    exact ⟨node,by rw [find?_set t hplace,if_pos rfl],h old hold⟩
  · exact ⟨old,by rw [find?_set t hplace,if_neg hq,hold],.same old⟩

theorem Grows.file {t t' : FileTree} (h : Grows t t') {place : List String} {c : Text} {m : Int}
    (hf : t.find? place = some (.file c m)) : ∃ c' m', t'.find? place = some (.file c' m') := by
  obtain ⟨node',hnode',hr⟩ := h.kept place _ hf
  cases hr with
  | same => exact ⟨c,m,hnode'⟩
  | file _ c' _ m' => exact ⟨c',m',hnode'⟩

/-! ### Paths -/

/-- A name that stands for a node in a folder. -/
structure Plain (name : String) : Prop where
  nonempty : name ≠ ""
  notHere : name ≠ "."
  notUp : name ≠ ".."
  short : ¬nameLimit < name.utf8ByteSize

instance (name : String) : Decidable (Plain name) :=
  decidable_of_iff (name ≠ "" ∧ name ≠ "." ∧ name ≠ ".." ∧ ¬nameLimit < name.utf8ByteSize)
    ⟨fun ⟨hempty,hhere,hup,hshort⟩ => ⟨hempty,hhere,hup,hshort⟩,
      fun h => ⟨h.nonempty,h.notHere,h.notUp,h.short⟩⟩

/-- How far names lead, unless they fail. -/
inductive Travels (t : FileTree) (follow : Bool) :
    List String → List String → Journey → Prop
  | stay {here : List String} : Travels t follow here [] (.arrived (.present here .folder false))
  | skip {here rest : List String} {name : String} {j : Journey} (hname : name = "" ∨ name = ".")
      (hrest : Travels t follow here rest j) : Travels t follow here (name :: rest) j
  | up {here rest : List String} {j : Journey} (hrest : Travels t follow here.dropLast rest j) :
      Travels t follow here (".." :: rest) j
  | enter {here rest : List String} {name : String} {j : Journey} (hname : Plain name)
      (hnode : t.find? (here ++ [name]) = some .folder)
      (hrest : Travels t follow (here ++ [name]) rest j) : Travels t follow here (name :: rest) j
  | link {here : List String} {name target : String} {m : Int} (hname : Plain name)
      (hnode : t.find? (here ++ [name]) = some (.link target m)) (hfollow : follow = false) :
      Travels t follow here [name] (.arrived (.present (here ++ [name]) (.link target m) false))
  | detour {here rest : List String} {name target : String} {m : Int} (hname : Plain name)
      (hnode : t.find? (here ++ [name]) = some (.link target m))
      (hfollow : rest ≠ [] ∨ follow = true) :
      Travels t follow here (name :: rest) (.detour here target rest)
  | file {here rest : List String} {name : String} {c : Text} {m : Int} (hname : Plain name)
      (hnode : t.find? (here ++ [name]) = some (.file c m)) (hrest : ∀ n ∈ rest, n = "") :
      Travels t follow here (name :: rest)
        (.arrived (.present (here ++ [name]) (.file c m) (!rest.isEmpty)))
  | missing {here rest : List String} {name : String} (hname : Plain name)
      (hnode : t.find? (here ++ [name]) = none) (hrest : ∀ n ∈ rest, n = "") :
      Travels t follow here (name :: rest) (.arrived (.missing (here ++ [name]) (!rest.isEmpty)))

theorem travel_plain (t : FileTree) (follow : Bool) (here : List String) {name : String}
    (hname : Plain name) (rest : List String) :
    t.travel follow here (name :: rest) = match t.find? (here ++ [name]) with
      | some .folder => t.travel follow (here ++ [name]) rest
      | some (.link target m) =>
        if rest.isEmpty && !follow then .arrived (.present (here ++ [name]) (.link target m) false)
        else .detour here target rest
      | some node => if rest.all (· == "") then
          .arrived (.present (here ++ [name]) node (!rest.isEmpty)) else .failed .notFolder
      | none => if rest.all (· == "") then .arrived (.missing (here ++ [name]) (!rest.isEmpty))
          else .failed .notFound := by
  rw [travel]
  exact (if_neg (by simp [hname.nonempty,hname.notHere])).trans
    ((if_neg (by simp [hname.notUp])).trans (if_neg hname.short))

theorem travel_eq_of_travels {t : FileTree} {follow : Bool} {here names : List String} {j : Journey}
    (h : Travels t follow here names j) : t.travel follow here names = j := by
  induction h with
  | stay => rfl
  | skip hname _ ih => rw [travel,if_pos (by simpa using hname),ih]
  | up _ ih => rw [travel,if_neg (by decide),if_pos (by decide),ih]
  | enter hname hnode _ ih => simp only [travel_plain _ _ _ hname,hnode,ih]
  | link hname hnode hfollow => simp [travel_plain _ _ _ hname,hnode,hfollow]
  | @detour here rest name target m hname hnode hfollow =>
    have hgo : ¬(rest.isEmpty && !follow) = true := by
      rcases hfollow with h | h <;> simp [h]
    simp only [travel_plain _ _ _ hname,hnode,if_neg hgo]
  | @file here rest name c m hname hnode hrest =>
    have hall : rest.all (· == "") = true := by simpa using hrest
    simp only [travel_plain _ _ _ hname,hnode,hall,if_true]
  | @missing here rest name hname hnode hrest =>
    have hall : rest.all (· == "") = true := by simpa using hrest
    simp only [travel_plain _ _ _ hname,hnode,hall,if_true]

theorem travels_of_travel (t : FileTree) (follow : Bool) (here names : List String) :
    (∃ f, t.travel follow here names = .failed f) ∨
      Travels t follow here names (t.travel follow here names) := by
  induction names generalizing here with
  | nil => exact Or.inr .stay
  | cons name rest ih =>
    by_cases hskip : name = "" ∨ name = "."
    · rw [travel,if_pos (by simpa using hskip)]
      exact (ih here).imp_right (.skip hskip)
    by_cases hup : name = ".."
    · subst hup
      rw [travel,if_neg (by decide),if_pos (by decide)]
      exact (ih here.dropLast).imp_right .up
    by_cases hlong : nameLimit < name.utf8ByteSize
    · rw [travel,if_neg (by simpa using hskip),if_neg (by simpa using hup),if_pos hlong]
      exact Or.inl ⟨_,rfl⟩
    have hname : Plain name := ⟨fun h => hskip (Or.inl h),fun h => hskip (Or.inr h),hup,hlong⟩
    rw [travel_plain t follow here hname]
    cases hnode : t.find? (here ++ [name]) with
    | none =>
      by_cases hrest : rest.all (· == "") = true
      · simp only [hrest,if_true]
        exact Or.inr (.missing hname hnode (by simpa using hrest))
      · exact Or.inl ⟨.notFound,by simp only [if_neg hrest]⟩
    | some node =>
      cases node with
      | folder => exact (ih (here ++ [name])).imp_right (.enter hname hnode)
      | link target m =>
        by_cases hend : (rest.isEmpty && !follow) = true
        · obtain ⟨hr,hf⟩ : rest = [] ∧ follow = false := by simpa using hend
          subst hr hf
          exact Or.inr (.link hname hnode rfl)
        · simp only [if_neg hend]
          refine Or.inr (.detour hname hnode ?_)
          by_cases hr : rest = []
          · exact Or.inr (by simpa [hr] using hend)
          · exact Or.inl hr
      | file c m =>
        by_cases hrest : rest.all (· == "") = true
        · simp only [hrest,if_true]
          exact Or.inr (.file hname hnode (by simpa using hrest))
        · exact Or.inl ⟨.notFolder,by simp only [if_neg hrest]⟩

theorem travels_of_eq {t : FileTree} {follow : Bool} {here names : List String} {j : Journey}
    (h : t.travel follow here names = j) (hj : ∀ f, j ≠ .failed f) :
    Travels t follow here names j := by
  rcases t.travels_of_travel follow here names with ⟨f,hf⟩ | htravels
  · exact absurd (h.symm.trans hf) (hj f)
  · exact h ▸ htravels

/-- Where names lead, through no more than so many links. -/
inductive Leads (t : FileTree) (follow : Bool) :
    Nat → List String → List String → Arrival → Prop
  | arrive {links : Nat} {here names : List String} {a : Arrival}
      (h : Travels t follow here names (.arrived a)) : Leads t follow links here names a
  | turn {links : Nat} {here here' names rest : List String} {target : String} {a : Arrival}
      (h : Travels t follow here names (.detour here' target rest)) (htarget : target.isEmpty = false)
      (hrest : Leads t follow links (if Path.isAbsolute target then [] else here')
        (Path.pieces target ++ rest) a) : Leads t follow (links+1) here names a

theorem locateFrom_eq_ok_iff (t : FileTree) (follow : Bool) (links : Nat) (here names : List String)
    (a : Arrival) : t.locateFrom follow links here names = .ok a ↔ Leads t follow links here names a := by
  refine ⟨?_,?_⟩
  · intro h
    induction links generalizing here names with
    | zero =>
      rw [locateFrom] at h
      cases htravel : t.travel follow here names with
      | arrived a' =>
        simp only [htravel,Except.ok.injEq] at h
        exact h ▸ .arrive (travels_of_eq htravel (by simp))
      | failed f => simp [htravel] at h
      | detour here' target rest => simp [htravel] at h
    | succ links ih =>
      rw [locateFrom] at h
      cases htravel : t.travel follow here names with
      | arrived a' =>
        simp only [htravel,Except.ok.injEq] at h
        exact h ▸ .arrive (travels_of_eq htravel (by simp))
      | failed f => simp [htravel] at h
      | detour here' target rest =>
        simp only [htravel] at h
        split at h
        · simp at h
        · rename_i hempty
          exact .turn (travels_of_eq htravel (by simp)) (by simpa using hempty) (ih _ _ h)
  · intro h
    induction h with
    | arrive h =>
      rw [locateFrom,travel_eq_of_travels h]
    | turn h htarget _ ih =>
      rw [locateFrom,travel_eq_of_travels h]
      simp only [htarget,Bool.false_eq_true,if_false,ih]

section Growth

variable {t t' : FileTree} {follow : Bool} {here names place : List String} {slash : Bool}

theorem Travels.detour_of_grows (hg : Grows t t') {follow' : Bool}
    (hfollow : follow = true → follow' = true) {here' rest : List String} {target : String}
    (h : Travels t follow here names (.detour here' target rest)) :
    Travels t' follow' here names (.detour here' target rest) := by
  generalize hj : Journey.detour here' target rest = j at h
  induction h with
  | skip hname _ ih => exact .skip hname (ih hj)
  | up _ ih => exact .up (ih hj)
  | enter hname hnode _ ih => exact .enter hname (hg.folder hnode) (ih hj)
  | detour hname hnode hmay => exact hj ▸ .detour hname (hg.link hnode) (hmay.imp_right hfollow)
  | stay | link | file | missing => cases hj

theorem Travels.present_of_grows (hg : Grows t t') {node : FileNode}
    (h : Travels t follow here names (.arrived (.present place node slash))) :
    ∃ node', Travels t' follow here names (.arrived (.present place node' slash)) ∧
      Replaces node node' := by
  generalize hj : Journey.arrived (.present place node slash) = j at h
  induction h with
  | stay =>
    cases hj
    exact ⟨_,.stay,.same _⟩
  | skip hname _ ih =>
    obtain ⟨node',h',hr⟩ := ih hj
    exact ⟨node',.skip hname h',hr⟩
  | up _ ih =>
    obtain ⟨node',h',hr⟩ := ih hj
    exact ⟨node',.up h',hr⟩
  | enter hname hnode _ ih =>
    obtain ⟨node',h',hr⟩ := ih hj
    exact ⟨node',.enter hname (hg.folder hnode) h',hr⟩
  | link hname hnode hfollow =>
    cases hj
    exact ⟨_,.link hname (hg.link hnode) hfollow,.same _⟩
  | detour | missing => cases hj
  | file hname hnode hrest =>
    cases hj
    obtain ⟨node',hnode',hr⟩ := hg.kept _ _ hnode
    cases hr with
    | same => exact ⟨_,.file hname hnode' hrest,.same _⟩
    | file => exact ⟨_,.file hname hnode' hrest,.file ..⟩

theorem Travels.filled (hg : Grows t t') {c : Text} {m : Int}
    (hfile : t'.find? place = some (.file c m))
    (h : Travels t follow here names (.arrived (.missing place slash))) :
    Travels t' follow here names (.arrived (.present place (.file c m) slash)) := by
  generalize hj : Journey.arrived (.missing place slash) = j at h
  induction h with
  | skip hname _ ih => exact .skip hname (ih hj)
  | up _ ih => exact .up (ih hj)
  | enter hname hnode _ ih => exact .enter hname (hg.folder hnode) (ih hj)
  | missing hname _ hrest =>
    cases hj
    exact .file hname hfile hrest
  | stay | link | detour | file => cases hj

theorem Travels.find?_missing (h : Travels t follow here names (.arrived (.missing place slash))) :
    t.find? place = none ∧ place ≠ [] := by
  generalize hj : Journey.arrived (.missing place slash) = j at h
  induction h with
  | skip _ _ ih | up _ ih | enter _ _ _ ih => exact ih hj
  | missing _ hnode _ =>
    cases hj
    exact ⟨hnode,by simp⟩
  | stay | link | detour | file => cases hj

/-- What is there where links are followed is a folder, or a file at its place. -/
theorem Travels.find?_present {node : FileNode}
    (h : Travels t true here names (.arrived (.present place node slash))) :
    node = .folder ∨ ∃ c m, node = .file c m ∧ t.find? place = some node ∧ place ≠ [] := by
  generalize hj : Journey.arrived (.present place node slash) = j at h
  induction h with
  | stay =>
    cases hj
    exact Or.inl rfl
  | skip _ _ ih | up _ ih | enter _ _ _ ih => exact ih hj
  | link _ _ hfollow => cases hfollow
  | file _ hnode _ =>
    cases hj
    exact Or.inr ⟨_,_,rfl,hnode,by simp⟩
  | detour | missing => cases hj

theorem Leads.present_of_grows (hg : Grows t t') {links : Nat} {node : FileNode}
    (h : Leads t follow links here names (.present place node slash)) :
    ∃ node', Leads t' follow links here names (.present place node' slash) ∧ Replaces node node' := by
  generalize ha : Arrival.present place node slash = a at h
  induction h with
  | arrive h =>
    subst ha
    obtain ⟨node',h',hr⟩ := h.present_of_grows hg
    exact ⟨node',.arrive h',hr⟩
  | turn h htarget _ ih =>
    obtain ⟨node',h',hr⟩ := ih ha
    exact ⟨node',.turn (h.detour_of_grows hg id) htarget h',hr⟩

theorem Leads.filled (hg : Grows t t') {c : Text} {m : Int}
    (hfile : t'.find? place = some (.file c m)) {links : Nat}
    (h : Leads t follow links here names (.missing place slash)) :
    Leads t' follow links here names (.present place (.file c m) slash) := by
  generalize ha : Arrival.missing place slash = a at h
  induction h with
  | arrive h =>
    subst ha
    exact .arrive (h.filled hg hfile)
  | turn h htarget _ ih => exact .turn (h.detour_of_grows hg id) htarget (ih ha)

theorem Leads.exists_travels {links : Nat} {a : Arrival} (h : Leads t follow links here names a) :
    ∃ here' names', Travels t follow here' names' (.arrived a) := by
  induction h with
  | arrive h => exact ⟨_,_,h⟩
  | turn _ _ _ ih => exact ih

end Growth

def startOf (t : FileTree) (path : String) : List String :=
  if Path.isAbsolute path then [] else t.workingFolder

/-- A path that may be asked for at all. -/
structure Askable (path : String) : Prop where
  nonempty : ¬path.isEmpty = true
  noZero : ¬path.toList.contains '\x00' = true
  short : ¬pathLimit < path.utf8ByteSize

theorem locate_eq_ok_iff (t : FileTree) (follow : Bool) (path : String) (a : Arrival) :
    t.locate follow path = .ok a ↔
      Askable path ∧ Leads t follow linkLimit (t.startOf path) (Path.pieces path) a := by
  rw [← locateFrom_eq_ok_iff,locate]
  by_cases h₁ : path.isEmpty = true
  · simp only [if_pos h₁,reduceCtorEq,false_iff]
    exact fun h => h.1.nonempty h₁
  by_cases h₂ : path.toList.contains '\x00' = true
  · simp only [if_neg h₁,if_pos h₂,reduceCtorEq,false_iff]
    exact fun h => h.1.noZero h₂
  by_cases h₃ : pathLimit < path.utf8ByteSize
  · simp only [if_neg h₁,if_neg h₂,if_pos h₃,reduceCtorEq,false_iff]
    exact fun h => h.1.short h₃
  simp only [if_neg h₁,if_neg h₂,if_neg h₃]
  exact (and_iff_right (Askable.mk h₁ h₂ h₃)).symm

theorem lookup_eq_ok_iff (t : FileTree) (follow : Bool) (path : String) (place : List String)
    (node : FileNode) : t.lookup follow path = .ok (place,node) ↔
      t.locate follow path = .ok (.present place node false) := by
  unfold lookup
  cases t.locate follow path with
  | error f => simp [bind,Except.bind]
  | ok a =>
    cases a with
    | missing p slash => simp [bind,Except.bind,throw,throwThe,MonadExceptOf.throw]
    | present p n slash =>
      cases slash <;> simp [bind,Except.bind,throw,throwThe,MonadExceptOf.throw,pure,Except.pure]

theorem startOf_of_grows {t t' : FileTree} (hg : Grows t t') (path : String) :
    t'.startOf path = t.startOf path := by
  simp [startOf,hg.workingFolder]

/-- A path that leads somewhere leads to the same place in a later tree. -/
theorem lookup_of_grows {t t' : FileTree} (hg : Grows t t') {follow : Bool} {path : String}
    {place : List String} {node : FileNode} (h : t.lookup follow path = .ok (place,node)) :
    ∃ node', t'.lookup follow path = .ok (place,node') ∧ Replaces node node' := by
  rw [lookup_eq_ok_iff,locate_eq_ok_iff] at h
  obtain ⟨node',h',hr⟩ := h.2.present_of_grows hg
  refine ⟨node',?_,hr⟩
  rw [lookup_eq_ok_iff,locate_eq_ok_iff,startOf_of_grows hg]
  exact ⟨h.1,h'⟩

theorem lookup_present {t : FileTree} {path : String} {place : List String} {node : FileNode}
    (h : t.lookup true path = .ok (place,node)) :
    node = .folder ∨ ∃ c m, node = .file c m ∧ t.find? place = some node ∧ place ≠ [] := by
  rw [lookup_eq_ok_iff,locate_eq_ok_iff] at h
  obtain ⟨_,_,h'⟩ := h.2.exists_travels
  exact h'.find?_present

theorem read_eq_ok_iff (t : FileTree) (path : String) (content : Text) :
    t.read path = .ok content ↔ ∃ place m, t.lookup true path = .ok (place,.file content m) := by
  unfold read
  cases t.lookup true path with
  | error f => simp
  | ok found =>
    obtain ⟨place,node⟩ := found
    cases node <;> simp

theorem stat_eq_ok_iff (t : FileTree) (path : String) (node : FileNode) :
    t.stat path = .ok node ↔ ∃ place, t.lookup true path = .ok (place,node) := by
  unfold stat
  cases t.lookup true path with
  | error f => simp [failing,Except.map]
  | ok found =>
    obtain ⟨place,n⟩ := found
    simp [failing,Except.map]

/-! ### The name at the end -/

theorem mem_of_find? {t : FileTree} {place : List String} {node : FileNode}
    (h : t.find? place = some node) (hplace : place ≠ []) : (place,node) ∈ t.nodes := by
  have hlookup : t.nodes.lookup place = some node := by simpa [find?,hplace] using h
  obtain ⟨l₁,l₂,hnodes,_⟩ := List.lookup_eq_some_iff.mp hlookup
  simp [hnodes]

/-- What stands under a name is never a link. -/
def NoLinkNamed (t : FileTree) (name : String) : Prop :=
  ∀ e ∈ t.nodes, e.1.getLast? = some name → ∀ target m, e.2 ≠ .link target m

def Arrival.place : Arrival → List String
  | .present place _ _ => place
  | .missing place _ => place

theorem getLast?_cons_cases {α : Type} {a b : α} {rest : List α}
    (h : (a :: rest).getLast? = some b) : rest = [] ∧ a = b ∨ rest.getLast? = some b := by
  cases rest with
  | nil => exact Or.inl ⟨rfl,by simpa using h⟩
  | cons c rest => exact Or.inr (by simpa [List.getLast?_cons_cons] using h)

theorem Travels.last {t : FileTree} {follow : Bool} {here names : List String} {j : Journey}
    {name : String} (hname : name ≠ "" ∧ name ≠ "." ∧ name ≠ "..") (hlinks : t.NoLinkNamed name)
    (h : Travels t follow here names j) (hlast : names.getLast? = some name) :
    (∃ a, j = .arrived a ∧ (Arrival.place a).getLast? = some name) ∨
      ∃ here' target rest, j = .detour here' target rest ∧ rest.getLast? = some name := by
  have hblank {rest : List String} (hrest : ∀ n ∈ rest, n = "") : rest.getLast? ≠ some name :=
    fun h => hname.1 (hrest name (List.mem_of_getLast? h))
  induction h with
  | stay => simp at hlast
  | skip hskip _ ih =>
    rcases getLast?_cons_cases hlast with ⟨_,rfl⟩ | hlast
    · exact absurd hskip (not_or.mpr ⟨hname.1,hname.2.1⟩)
    · exact ih hlast
  | up _ ih =>
    rcases getLast?_cons_cases hlast with ⟨_,rfl⟩ | hlast
    · exact absurd rfl hname.2.2
    · exact ih hlast
  | enter _ _ hrest ih =>
    rcases getLast?_cons_cases hlast with ⟨rfl,rfl⟩ | hlast
    · cases hrest
      exact Or.inl ⟨_,rfl,by simp [Arrival.place]⟩
    · exact ih hlast
  | link => exact Or.inl ⟨_,rfl,by simpa [Arrival.place] using hlast⟩
  | detour _ hnode _ =>
    rcases getLast?_cons_cases hlast with ⟨rfl,rfl⟩ | hlast
    · exact absurd rfl (hlinks _ (mem_of_find? hnode (by simp)) (by simp) _ _)
    · exact Or.inr ⟨_,_,_,rfl,hlast⟩
  | file _ _ hrest | missing _ _ hrest =>
    rcases getLast?_cons_cases hlast with ⟨_,rfl⟩ | hlast
    · exact Or.inl ⟨_,rfl,by simp [Arrival.place]⟩
    · exact absurd hlast (hblank hrest)

theorem Leads.last {t : FileTree} {follow : Bool} {links : Nat} {here names : List String}
    {a : Arrival} {name : String} (hname : name ≠ "" ∧ name ≠ "." ∧ name ≠ "..")
    (hlinks : t.NoLinkNamed name) (h : Leads t follow links here names a)
    (hlast : names.getLast? = some name) : (Arrival.place a).getLast? = some name := by
  induction h with
  | arrive h =>
    obtain ⟨a,ha,hplace⟩ | ⟨_,_,_,hdetour,_⟩ := h.last hname hlinks hlast
    · cases ha
      exact hplace
    · cases hdetour
  | turn h _ _ ih =>
    obtain ⟨a,ha,_⟩ | ⟨_,_,_,hdetour,hrest⟩ := h.last hname hlinks hlast
    · cases ha
    · cases hdetour
      exact ih (by simp [List.getLast?_append,hrest])

/-- A path that ends in a name leads to a place that ends in it, unless through a link of that
name. -/
theorem last_of_lookup {t : FileTree} {follow : Bool} {path : String} {place : List String}
    {node : FileNode} {name : String} (hname : name ≠ "" ∧ name ≠ "." ∧ name ≠ "..")
    (hlinks : t.NoLinkNamed name) (hlast : (Path.pieces path).getLast? = some name)
    (h : t.lookup follow path = .ok (place,node)) : place.getLast? = some name := by
  rw [lookup_eq_ok_iff,locate_eq_ok_iff] at h
  exact h.2.last hname hlinks hlast

/-! ### Changes -/

theorem failing_eq_ok {α : Type} {operation path : String} {r : Except FileFault α} {a : α}
    (h : failing operation path r = .ok a) : r = .ok a := by
  cases r with
  | error f => simp [failing] at h
  | ok b => simpa [failing] using h

/-- Where a file may be written: at a place that is empty or has a file. -/
theorem write_place {t t' : FileTree} {now : Int} {path : String} {content : Text}
    (h : t.write now path content = .ok t') :
    ∃ place, t' = t.set place (.file content now) ∧
      (t.locate true path = .ok (.missing place false) ∨
        ∃ c m, t.lookup true path = .ok (place,.file c m)) := by
  have h' := failing_eq_ok h
  cases hlocate : t.locate true path with
  | error f => simp [hlocate,bind,Except.bind] at h'
  | ok a =>
    cases a with
    | missing place slash =>
      cases slash with
      | true => simp [hlocate,bind,Except.bind,throw,throwThe,MonadExceptOf.throw] at h'
      | false =>
        refine ⟨place,?_,Or.inl rfl⟩
        simpa [hlocate,bind,Except.bind,pure,Except.pure] using h'.symm
    | present place node slash =>
      cases slash with
      | true => simp [hlocate,bind,Except.bind,throw,throwThe,MonadExceptOf.throw] at h'
      | false =>
        have hlookup := (t.lookup_eq_ok_iff true path place node).mpr hlocate
        rcases lookup_present hlookup with rfl | ⟨c,m,rfl,_⟩
        · simp [hlocate,FileNode.isFolder,bind,Except.bind,throw,throwThe,MonadExceptOf.throw] at h'
        · refine ⟨place,?_,Or.inr ⟨c,m,hlookup⟩⟩
          simpa [hlocate,FileNode.isFolder,bind,Except.bind,pure,Except.pure] using h'.symm

/-- A file that is written is read where its path leads, and nothing else has changed. -/
theorem write_eq_ok {t t' : FileTree} {now : Int} {path : String} {content : Text}
    (h : t.write now path content = .ok t') :
    ∃ place, place ≠ [] ∧ t' = t.set place (.file content now) ∧ Grows t t' ∧
      t'.lookup true path = .ok (place,.file content now) := by
  obtain ⟨place,ht,hplace⟩ := write_place h
  rcases hplace with hmissing | ⟨c,m,hfile⟩
  · have hleads := (t.locate_eq_ok_iff true path _).mp hmissing
    obtain ⟨_,_,htravels⟩ := hleads.2.exists_travels
    obtain ⟨hnone,hne⟩ := htravels.find?_missing
    have hg : Grows t t' := ht ▸ grows_set hne (by simp [hnone])
    refine ⟨place,hne,ht,hg,?_⟩
    rw [lookup_eq_ok_iff,locate_eq_ok_iff,startOf_of_grows hg]
    exact ⟨hleads.1,hleads.2.filled hg (by rw [ht,find?_set t hne,if_pos rfl])⟩
  · obtain hfolder | ⟨_,_,_,hfind,hne⟩ := lookup_present hfile
    · cases hfolder
    have hreplaces (old : FileNode) (hold : t.find? place = some old) :
        Replaces old (.file content now) := by
      rw [hfind] at hold
      exact Option.some.inj hold ▸ .file ..
    have hg : Grows t t' := ht ▸ grows_set hne hreplaces
    refine ⟨place,hne,ht,hg,?_⟩
    obtain ⟨node',hlookup,hr⟩ := lookup_of_grows hg hfile
    have hfind' : t'.find? place = some (.file content now) := by
      rw [ht,find?_set t hne,if_pos rfl]
    rcases lookup_present hlookup with rfl | ⟨_,_,_,hnode,_⟩
    · cases hr
    · rw [hlookup,Option.some.inj (hnode.symm.trans hfind')]

/-- A later tree in which a place is as it was, unless a folder has been made there. -/
def Spares (t t' : FileTree) (q : List String) : Prop :=
  t'.find? q = t.find? q ∨ t.find? q = none ∧ t'.find? q = some .folder

theorem Spares.trans {t t' t'' : FileTree} {q : List String} (h : Spares t t' q)
    (h' : Spares t' t'' q) : Spares t t'' q := by
  rcases h' with he' | ⟨hnone',hnew'⟩ <;> rcases h with he | ⟨hnone,hnew⟩
  · exact Or.inl (he'.trans he)
  · exact Or.inr ⟨hnone,he'.trans hnew⟩
  · exact Or.inr ⟨he ▸ hnone',hnew'⟩
  · exact Or.inr ⟨hnone,hnew'⟩

theorem Spares.lookup {t t' : FileTree} {path : String} {q : List String} {node : FileNode}
    (h : Spares t t' q) (hg : Grows t t') (hlookup : t.lookup true path = .ok (q,node)) :
    t'.lookup true path = .ok (q,node) := by
  obtain ⟨node',hlookup',hr⟩ := lookup_of_grows hg hlookup
  rcases lookup_present hlookup with rfl | ⟨c,m,rfl,hfind,_⟩
  · cases hr
    exact hlookup'
  · have hfind' : t'.find? q = some (.file c m) := by
      rcases h with hsame | ⟨hnone,_⟩
      · rw [hsame,hfind]
      · rw [hfind] at hnone
        cases hnone
    rcases lookup_present hlookup' with rfl | ⟨_,_,_,hfound,_⟩
    · cases hr
    · rw [hlookup',Option.some.inj (hfound.symm.trans hfind')]

/-- A later tree that has more folders, and nothing else that is new. -/
structure AddsFolders (t t' : FileTree) : Prop where
  grows : Grows t t'
  spares : ∀ q, Spares t t' q
  mem : ∀ e ∈ t'.nodes, e ∈ t.nodes ∨ e.2 = .folder

theorem AddsFolders.refl (t : FileTree) : AddsFolders t t :=
  ⟨.refl t,fun _ => Or.inl rfl,fun _ => Or.inl⟩

theorem AddsFolders.trans {t t' t'' : FileTree} (h : AddsFolders t t') (h' : AddsFolders t' t'') :
    AddsFolders t t'' := by
  refine ⟨h.grows.trans h'.grows,fun q => (h.spares q).trans (h'.spares q),?_⟩
  · intro e he
    rcases h'.mem e he with he | hfolder
    · exact h.mem e he
    · exact Or.inr hfolder

theorem set_of_makeFolder {t t' : FileTree} {path : String} (h : t.makeFolder path = .ok t') :
    ∃ place slash, t.locate false path = .ok (.missing place slash) ∧ t' = t.set place .folder := by
  have h' := failing_eq_ok h
  cases hlocate : t.locate false path with
  | error f => simp [hlocate,bind,Except.bind] at h'
  | ok a =>
    cases a with
    | present place node slash =>
      simp [hlocate,bind,Except.bind,throw,throwThe,MonadExceptOf.throw] at h'
    | missing place slash =>
      exact ⟨place,slash,rfl,by simpa [hlocate,bind,Except.bind,pure,Except.pure] using h'.symm⟩

theorem addsFolders_of_makeFolder {t t' : FileTree} {path : String}
    (h : t.makeFolder path = .ok t') : AddsFolders t t' := by
  obtain ⟨place,slash,hlocate,rfl⟩ := set_of_makeFolder h
  obtain ⟨_,_,htravels⟩ := ((t.locate_eq_ok_iff false path _).mp hlocate).2.exists_travels
  obtain ⟨hnone,hne⟩ := htravels.find?_missing
  refine ⟨grows_set hne (by simp [hnone]),?_,?_⟩
  · intro q
    unfold Spares
    rw [find?_set t hne]
    by_cases hq : q = place
    · exact Or.inr ⟨hq ▸ hnone,by rw [if_pos hq]⟩
    · exact Or.inl (by rw [if_neg hq])
  · intro e he
    rcases mem_set he with rfl | he
    · exact Or.inr rfl
    · exact Or.inl he

theorem addsFolders_of_makeFoldersAt {t t' : FileTree} {names : List String}
    (h : t.makeFoldersAt names = .ok t') : AddsFolders t t' := by
  induction names generalizing t' with
  | nil =>
    rw [← Except.ok.inj h]
    exact .refl t
  | cons name above ih =>
    rw [makeFoldersAt] at h
    split at h
    · split at h
      · rw [← Except.ok.inj h]
        exact .refl t
      · cases h
    · cases habove : t.makeFoldersAt above with
      | error e => simp [habove,bind,Except.bind] at h
      | ok middle =>
        simp only [habove,bind,Except.bind] at h
        exact (ih habove).trans (addsFolders_of_makeFolder h)

/-- A later tree in which nothing has changed but what a path leads to, folders that have been made
apart. -/
structure TouchesOnly (path : String) (t t' : FileTree) : Prop where
  grows : Grows t t'
  spares : ∀ q, (∀ node, t'.lookup true path ≠ .ok (q,node)) → Spares t t' q

theorem TouchesOnly.refl (path : String) (t : FileTree) : TouchesOnly path t t :=
  ⟨.refl t,fun _ _ => Or.inl rfl⟩

theorem TouchesOnly.trans {path : String} {t t' t'' : FileTree} (h : TouchesOnly path t t')
    (h' : TouchesOnly path t' t'') : TouchesOnly path t t'' := by
  refine ⟨h.grows.trans h'.grows,?_⟩
  intro q hq
  refine (h.spares q ?_).trans (h'.spares q hq)
  -- Where the path leads in between it leads in the end.
  intro node hnode
  obtain ⟨node',hnode',_⟩ := lookup_of_grows h'.grows hnode
  exact hq node' hnode'

theorem AddsFolders.touchesOnly {t t' : FileTree} (h : AddsFolders t t') (path : String) :
    TouchesOnly path t t' := ⟨h.grows,fun q _ => h.spares q⟩

theorem touchesOnly_of_write {t t' : FileTree} {now : Int} {path : String} {content : Text}
    (h : t.write now path content = .ok t') : TouchesOnly path t t' := by
  obtain ⟨place,hne,ht,hg,hlookup⟩ := write_eq_ok h
  refine ⟨hg,?_⟩
  intro q hq
  have hqp : q ≠ place := by
    rintro rfl
    exact hq _ hlookup
  exact Or.inl (by rw [ht,find?_set t hne,if_neg hqp])

end FileTree
end CircuitNotes
