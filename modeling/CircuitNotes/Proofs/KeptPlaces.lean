import CircuitNotes.Proofs.FolderSearch

/-! Places that paths stand for, and files that are put into a tree out of their way. A path stands for
a place also where nothing is yet: the one that it would lead to if the folders on its way were there.
What a path leads to, or that it leads nowhere, stays as it was as long as nothing is put at that place
or in the way to it. -/
namespace CircuitNotes
namespace FileTree

variable {t t' t'' : FileTree} {here names place left : List String} {path : String}

/-! ### Where a path would lead -/

/-- The first place on the way along names where nothing is, with the names left. -/
def gap? (t : FileTree) (here : List String) : List String → Option (List String × List String)
  | [] => none
  | name :: rest =>
    if name = "" ∨ name = "." then gap? t here rest
    else if name = ".." then gap? t here.dropLast rest
    else if nameLimit < name.utf8ByteSize then none
    else match t.find? (here ++ [name]) with
      | none => some (here ++ [name],rest)
      | some .folder => gap? t (here ++ [name]) rest
      | some _ => none

def gapFrom? (t : FileTree) : Nat → List String → List String → Option (List String × List String)
  | links, here, names =>
    match t.travel true here names with
    | .detour here' target rest =>
      match links with
      | 0 => none
      | links+1 => if target.isEmpty then none
        else gapFrom? t links (if Path.isAbsolute target then [] else here') (Path.pieces target ++ rest)
    | _ => t.gap? here names

def downward (names : List String) : List String := names.filter fun name => name ≠ "" ∧ name ≠ "."

/-- A name that does not lead up, and that a node may have. -/
def Downward (name : String) : Prop := name = "" ∨ name = "." ∨ Plain name

instance (name : String) : Decidable (Downward name) := inferInstanceAs (Decidable (_ ∨ _))

/-- The place that a path stands for: where it leads, or where it would lead if the folders that are
missing on its way were there. A path that leads up from a missing folder stands for no place. -/
def placeOf? (t : FileTree) (path : String) : Option (List String) :=
  match t.lookup true path with
  | .ok (place,_) => some place
  | .error .notFound => (t.gapFrom? linkLimit (t.startOf path) (Path.pieces path)).bind fun gap =>
      if ∀ name ∈ gap.2, Downward name then some (gap.1 ++ downward gap.2) else none
  | .error _ => none

theorem gap?_eq_some (h : t.gap? here names = some (place,left)) :
    ∃ here' name, place = here' ++ [name] ∧ Plain name ∧ t.find? place = none ∧
      ∀ t', Grows t t' → t'.travel true here names = t'.travel true here' (name :: left) := by
  induction names generalizing here with
  | nil => cases h
  | cons name rest ih =>
    rw [gap?] at h
    by_cases hskip : name = "" ∨ name = "."
    · rw [if_pos hskip] at h
      obtain ⟨here',name',hplace,hname,hnone,hgo⟩ := ih h
      refine ⟨here',name',hplace,hname,hnone,fun t' hg => ?_⟩
      rw [← hgo t' hg,travel,if_pos (by simpa using hskip)]
    by_cases hup : name = ".."
    · rw [if_neg hskip,if_pos hup] at h
      obtain ⟨here',name',hplace,hname,hnone,hgo⟩ := ih h
      refine ⟨here',name',hplace,hname,hnone,fun t' hg => ?_⟩
      rw [← hgo t' hg,travel,if_neg (by simpa using hskip),if_pos (by simpa using hup)]
    by_cases hlong : nameLimit < name.utf8ByteSize
    · rw [if_neg hskip,if_neg hup,if_pos hlong] at h
      cases h
    rw [if_neg hskip,if_neg hup,if_neg hlong] at h
    have hname : Plain name := ⟨fun h => hskip (Or.inl h),fun h => hskip (Or.inr h),hup,hlong⟩
    cases hnode : t.find? (here ++ [name]) with
    | none =>
      rw [hnode] at h
      cases h
      exact ⟨here,name,rfl,hname,hnode,fun _ _ => rfl⟩
    | some node =>
      rw [hnode] at h
      cases node with
      | file | link => cases h
      | folder =>
        obtain ⟨here',name',hplace,hname',hnone,hgo⟩ := ih h
        refine ⟨here',name',hplace,hname',hnone,fun t' hg => ?_⟩
        rw [← hgo t' hg,travel_plain _ _ _ hname]
        simp only [hg.folder hnode]

theorem travel_detour_of_grows (hg : Grows t t') {here' rest : List String} {target : String}
    (h : t.travel true here names = .detour here' target rest) :
    t'.travel true here names = .detour here' target rest :=
  travel_eq_of_travels ((travels_of_eq h (by simp)).detour_of_grows hg id)

theorem gapFrom?_eq_some {links : Nat} (h : t.gapFrom? links here names = some (place,left)) :
    ∃ here' name, place = here' ++ [name] ∧ Plain name ∧ t.find? place = none ∧
      ∀ t', Grows t t' → ∃ links', t'.locateFrom true links here names =
        t'.locateFrom true links' here' (name :: left) := by
  induction links generalizing here names with
  | zero =>
    rw [gapFrom?] at h
    split at h
    · cases h
    · obtain ⟨here',name,hplace,hname,hnone,hgo⟩ := gap?_eq_some h
      refine ⟨here',name,hplace,hname,hnone,fun t' hg => ⟨0,?_⟩⟩
      rw [locateFrom,locateFrom,hgo t' hg]
  | succ links ih =>
    rw [gapFrom?] at h
    split at h
    · rename_i here₁ target rest htravel
      by_cases htarget : target.isEmpty = true
      · simp only [if_pos htarget] at h
        cases h
      · simp only [if_neg htarget] at h
        obtain ⟨here',name,hplace,hname,hnone,hgo⟩ := ih h
        refine ⟨here',name,hplace,hname,hnone,fun t' hg => ?_⟩
        obtain ⟨links',hlinks'⟩ := hgo t' hg
        refine ⟨links',hlinks' ▸ ?_⟩
        rw [locateFrom,travel_detour_of_grows hg htravel]
        exact if_neg htarget
    · obtain ⟨here',name,hplace,hname,hnone,hgo⟩ := gap?_eq_some h
      refine ⟨here',name,hplace,hname,hnone,fun t' hg => ⟨links+1,?_⟩⟩
      rw [locateFrom,locateFrom,hgo t' hg]

/-! ### Ways that lead nowhere -/

/-- The way ends where nothing is. -/
def Journey.IsLost (j : Journey) : Prop :=
  j = .failed .notFound ∨ ∃ place slash, j = .arrived (.missing place slash)

theorem isLost_of_missing {name : String} (hname : Plain name) (h : t.find? (here ++ [name]) = none)
    (rest : List String) : Journey.IsLost (t.travel true here (name :: rest)) := by
  rw [travel_plain _ _ _ hname]
  simp only [h]
  split_ifs
  · exact Or.inr ⟨_,_,rfl⟩
  · exact Or.inl rfl

/-- Names that lead down to a place where nothing is are lost, or fail at a file above it. -/
theorem travel_downward (hnames : ∀ name ∈ names, Downward name) (hdown : downward names ≠ [])
    (hend : t.find? (here ++ downward names) = none)
    (hlinks : ∀ q target m, q <+: here ++ downward names → here.length < q.length →
      t.find? q ≠ some (.link target m)) :
    Journey.IsLost (t.travel true here names) ∨ t.travel true here names = .failed .notFolder ∧
      ∃ q c m, q <+: here ++ downward names ∧ here.length < q.length ∧ t.find? q = some (.file c m) := by
  induction names generalizing here with
  | nil => exact absurd rfl hdown
  | cons name rest ih =>
    have hrest := (List.forall_mem_cons.mp hnames).2
    by_cases hskip : name = "" ∨ name = "."
    · have heq : downward (name :: rest) = downward rest := by
        rcases hskip with rfl | rfl <;> rfl
      rw [heq] at hdown hend hlinks ⊢
      rw [travel,if_pos (by simpa using hskip)]
      exact ih hrest hdown hend hlinks
    · obtain ⟨hempty,hdot⟩ := not_or.mp hskip
      have hname : Plain name := ((hnames name (by simp)).resolve_left hempty).resolve_left hdot
      have heq : here ++ downward (name :: rest) = here ++ [name] ++ downward rest := by
        simp [downward,hempty,hdot]
      rw [heq] at hend hlinks ⊢
      have hlast (hnode : t.find? (here ++ [name]) ≠ none) : downward rest ≠ [] := by
        intro hnil
        rw [hnil,List.append_nil] at hend
        exact hnode hend
      rw [travel_plain _ _ _ hname]
      cases hnode : t.find? (here ++ [name]) with
      | none =>
        have hlost := isLost_of_missing hname hnode rest
        rw [travel_plain _ _ _ hname,hnode] at hlost
        exact Or.inl hlost
      | some node =>
        cases node with
        | folder =>
          refine (ih hrest (hlast (by simp [hnode])) hend fun q target m hq hlong =>
            hlinks q target m hq (by simp at hlong; omega)).imp_right ?_
          rintro ⟨hfails,q,c,m,hq,hlong,hfile⟩
          exact ⟨hfails,q,c,m,hq,by simp at hlong; omega,hfile⟩
        | link target m =>
          exact absurd hnode (hlinks _ target m (List.prefix_append _ _) (by simp))
        | file c m =>
          have hmore : ¬rest.all (· == "") = true := by
            intro hblank
            refine hlast (by simp [hnode]) (List.filter_eq_nil_iff.mpr fun n hn => ?_)
            simp [beq_iff_eq.mp (List.all_eq_true.mp hblank n hn)]
          exact Or.inr ⟨if_neg hmore,_,c,m,List.prefix_append _ _,by simp,hnode⟩

theorem locate_of_askable (h : Askable path) : t.locate true path =
    t.locateFrom true linkLimit (t.startOf path) (Path.pieces path) := by
  rw [locate,if_neg h.nonempty,if_neg h.noZero,if_neg h.short]
  rfl

theorem locate_of_not_askable (h : ¬Askable path) (t' : FileTree) :
    t.locate true path = t'.locate true path := by
  unfold locate
  split_ifs with hempty hzero hlong
  · rfl
  · rfl
  · rfl
  · exact absurd ⟨hempty,hzero,hlong⟩ h
  · exact absurd ⟨hempty,hzero,hlong⟩ h

section Start

variable {links : Nat} {start : List String}

theorem lookup_of_failed {f : FileFault} (hask : Askable path)
    (hstart : t.locateFrom true linkLimit (t.startOf path) (Path.pieces path) =
      t.locateFrom true links start names)
    (h : t.travel true start names = .failed f) : t.lookup true path = .error f := by
  rw [lookup,locate_of_askable hask,hstart,locateFrom,h]
  rfl

theorem lookup_of_isLost (hask : Askable path)
    (hstart : t.locateFrom true linkLimit (t.startOf path) (Path.pieces path) =
      t.locateFrom true links start names)
    (h : Journey.IsLost (t.travel true start names)) : t.lookup true path = .error .notFound := by
  rcases h with h | ⟨_,_,h⟩
  · exact lookup_of_failed hask hstart h
  · rw [lookup,locate_of_askable hask,hstart,locateFrom,h]
    rfl

end Start

/-! ### Failures -/

theorem travel_failed_of_grows (hg : Grows t t') {f : FileFault} (hf : f ≠ .notFound)
    (h : t.travel true here names = .failed f) : t'.travel true here names = .failed f := by
  induction names generalizing here with
  | nil => cases h
  | cons name rest ih =>
    by_cases hskip : name = "" ∨ name = "."
    · rw [travel,if_pos (by simpa using hskip)] at h ⊢
      exact ih h
    by_cases hup : name = ".."
    · rw [travel,if_neg (by simpa using hskip),if_pos (by simpa using hup)] at h ⊢
      exact ih h
    by_cases hlong : nameLimit < name.utf8ByteSize
    · rw [travel,if_neg (by simpa using hskip),if_neg (by simpa using hup),if_pos hlong] at h ⊢
      exact h
    have hname : Plain name := ⟨fun h => hskip (Or.inl h),fun h => hskip (Or.inr h),hup,hlong⟩
    rw [travel_plain _ _ _ hname] at h ⊢
    cases hnode : t.find? (here ++ [name]) with
    | none =>
      simp only [hnode] at h
      split_ifs at h
      exact absurd (Journey.failed.inj h).symm hf
    | some node =>
      simp only [hnode] at h
      cases node with
      | folder =>
        simp only [hg.folder hnode]
        exact ih h
      | link target m =>
        simp only [hg.link hnode]
        exact h
      | file c m =>
        obtain ⟨c',m',hnode'⟩ := hg.file hnode
        simp only [hnode']
        by_cases hrest : rest.all (· == "") = true
        · simp only [if_pos hrest] at h
          cases h
        · simpa only [if_neg hrest] using h

theorem locateFrom_error_of_grows (hg : Grows t t') {f : FileFault} (hf : f ≠ .notFound) {links : Nat}
    (h : t.locateFrom true links here names = .error f) :
    t'.locateFrom true links here names = .error f := by
  induction links generalizing here names with
  | zero =>
    rw [locateFrom] at h ⊢
    cases htravel : t.travel true here names with
    | arrived a => simp [htravel] at h
    | failed f' =>
      simp only [htravel,Except.error.injEq] at h
      rw [travel_failed_of_grows hg (h ▸ hf) htravel,h]
    | detour here' target rest =>
      simp only [htravel] at h
      rw [travel_detour_of_grows hg htravel]
      exact h
  | succ links ih =>
    rw [locateFrom] at h ⊢
    cases htravel : t.travel true here names with
    | arrived a => simp [htravel] at h
    | failed f' =>
      simp only [htravel,Except.error.injEq] at h
      rw [travel_failed_of_grows hg (h ▸ hf) htravel,h]
    | detour here' target rest =>
      simp only [htravel] at h
      rw [travel_detour_of_grows hg htravel]
      simp only
      split_ifs at h ⊢
      · exact h
      · exact ih h
      · exact ih h

theorem lookup_error_of_grows (hg : Grows t t') {f : FileFault} (hf : f ≠ .notFound)
    (h : t.lookup true path = .error f) : t'.lookup true path = .error f := by
  cases hlocate : t.locate true path with
  | error f' =>
    obtain rfl : f' = f := by
      rw [lookup,hlocate] at h
      exact Except.error.inj h
    have hlocate' : t'.locate true path = .error f' := by
      by_cases hask : Askable path
      · rw [locate_of_askable hask] at hlocate ⊢
        rw [startOf_of_grows hg]
        exact locateFrom_error_of_grows hg hf hlocate
      · rwa [locate_of_not_askable hask t'] at hlocate
    rw [lookup,hlocate']
    rfl
  | ok a =>
    rw [lookup,hlocate] at h
    cases a with
    | missing p slash =>
      exact absurd (Except.error.inj h).symm hf
    | present p node slash =>
      have hleads := (t.locate_eq_ok_iff true path _).mp hlocate
      obtain ⟨node',hleads',-⟩ := hleads.2.present_of_grows hg
      have hlocate' : t'.locate true path = .ok (.present p node' slash) := by
        rw [locate_eq_ok_iff,startOf_of_grows hg]
        exact ⟨hleads.1,hleads'⟩
      rw [lookup,hlocate']
      cases slash with
      | true => exact h
      | false => cases h

/-! ### Places that nothing is put at -/

theorem Proper.find?_below (hp : t.Proper) {q : List String} (h : t.find? place = none)
    (hq : place <+: q) : t.find? q = none := by
  by_contra hsome
  obtain ⟨node,hnode⟩ := Option.ne_none_iff_exists'.mp hsome
  obtain ⟨more,rfl⟩ := hq
  have hne : place ≠ [] := by
    rintro rfl
    cases h
  cases more with
  | nil =>
    rw [List.append_nil,h] at hnode
    cases hnode
  | cons name rest =>
    have hfolder := hp.housed _ (mem_of_find? hnode (by simp)) place.length (by simp)
    rw [List.take_left,h] at hfolder
    cases hfolder

/-- What a path leads to is the same in a later tree without new links, if nothing has changed at the
place that it stands for; but a path that leads nowhere may come to fail at a new file above the place. -/
theorem lookup_of_place_kept (hp : t.Proper) (hg : Grows t t')
    (hlinks : ∀ q target m, t'.find? q = some (.link target m) → t.find? q = some (.link target m))
    (hplace : t.placeOf? path = some place) (hsame : t'.find? place = t.find? place) :
    t'.lookup true path = t.lookup true path ∨
      t.lookup true path = .error .notFound ∧ t'.lookup true path = .error .notFolder ∧
        ∃ q c m, q <+: place ∧ t.find? q = none ∧ t'.find? q = some (.file c m) := by
  unfold placeOf? at hplace
  split at hplace
  · rename_i q node hlookup
    obtain rfl := Option.some.inj hplace
    rw [hlookup]
    exact Or.inl (Spares.lookup (Or.inl hsame) hg hlookup)
  · rename_i hlookup
    obtain ⟨⟨x,left⟩,hgap,hplace⟩ := Option.bind_eq_some_iff.mp hplace
    split_ifs at hplace with hleft
    obtain rfl := Option.some.inj hplace
    obtain ⟨here,name,rfl,hname,hnone,hgo⟩ := gapFrom?_eq_some hgap
    obtain ⟨links,hstart⟩ := hgo t' hg
    rw [← startOf_of_grows hg path] at hstart
    by_cases hask : Askable path
    · have heq : here ++ [name] ++ downward left = here ++ downward (name :: left) := by
        simp [downward,hname.nonempty,hname.notHere]
      simp only [heq] at hsame ⊢
      -- What is on the way below the gap was not there before.
      have hbelow {q : List String} (hq : q <+: here ++ downward (name :: left))
          (hlong : here.length < q.length) : t.find? q = none := by
        refine hp.find?_below hnone (List.prefix_of_prefix_length_le ?_ hq (by simp; omega))
        exact heq ▸ List.prefix_append _ _
      have hdown : downward (name :: left) ≠ [] := by simp [downward,hname.nonempty,hname.notHere]
      have hend : t'.find? (here ++ downward (name :: left)) = none := by
        refine hsame.trans (hbelow (List.prefix_refl _) ?_)
        have := List.length_pos_of_ne_nil hdown
        simp
        omega
      have hnames : ∀ n ∈ name :: left, Downward n :=
        List.forall_mem_cons.mpr ⟨Or.inr (Or.inr hname),hleft⟩
      have hway (q : List String) (target : String) (m : Int)
          (hq : q <+: here ++ downward (name :: left)) (hlong : here.length < q.length) :
          t'.find? q ≠ some (.link target m) := by
        intro hlink
        have hold := hlinks q target m hlink
        rw [hbelow hq hlong] at hold
        cases hold
      rcases travel_downward hnames hdown hend hway with hlost | ⟨hfails,q,c,m,hq,hlong,hfile⟩
      · exact Or.inl ((lookup_of_isLost hask hstart hlost).trans hlookup.symm)
      · exact Or.inr ⟨hlookup,lookup_of_failed hask hstart hfails,q,c,m,hq,hbelow hq hlong,hfile⟩
    · exact Or.inl (by rw [lookup,lookup,locate_of_not_askable hask t])
  · cases hplace

/-! ### Files that are put into a tree -/

/-- A later tree in which nothing has changed but what some paths lead to, and folders that have been
made above that. -/
structure Puts (paths : List String) (t t' : FileTree) : Prop where
  grows : Grows t t'
  links : ∀ q target m, t'.find? q = some (.link target m) → t.find? q = some (.link target m)
  changed : ∀ q, t'.find? q = t.find? q ∨ ∃ path ∈ paths, ∃ place node,
    t'.lookup true path = .ok (place,node) ∧ q <+: place ∧
      (t'.find? q = some .folder ∨ q = place ∧ ∃ c m, node = .file c m)

/-- A path is out of the way of what is put into a tree if none of that is at or below the place that it
stands for. It need not stand for a place if it fails for another reason than that something is
missing. -/
def Avoids (t t' : FileTree) (paths : List String) (path : String) : Prop :=
  t.placeOf? path = none ∧ t.lookup true path ≠ .error .notFound ∨
    ∃ place ∈ t.placeOf? path, ∀ path' ∈ paths, ∀ found ∈ (t'.lookup true path').toOption,
      ¬place <+: found.1

/-- Nothing that is put into a tree is a file above the place that a path stands for. -/
def Reaches (t t' : FileTree) (paths : List String) (path : String) : Prop :=
  ∀ place ∈ t.placeOf? path, ∀ path' ∈ paths, ∀ found ∈ (t'.lookup true path').toOption,
    found.2 ≠ .folder → ¬found.1 <+: place

instance (t t' : FileTree) (paths : List String) (path : String) : Decidable (t.Avoids t' paths path) :=
  inferInstanceAs (Decidable (_ ∨ _))

instance (t t' : FileTree) (paths : List String) (path : String) : Decidable (t.Reaches t' paths path) :=
  inferInstanceAs (Decidable (∀ _ ∈ t.placeOf? path, _))

variable {paths paths' : List String}

theorem Puts.refl (paths : List String) (t : FileTree) : Puts paths t t :=
  ⟨.refl t,fun _ _ _ h => h,fun _ => Or.inl rfl⟩

theorem Puts.mono (h : Puts paths t t') (hpaths : paths ⊆ paths') : Puts paths' t t' := by
  refine ⟨h.grows,h.links,fun q => (h.changed q).imp_right ?_⟩
  rintro ⟨path,hpath,hq⟩
  exact ⟨path,hpaths hpath,hq⟩

theorem Puts.trans (h : Puts paths t t') (h' : Puts paths t' t'') : Puts paths t t'' := by
  refine ⟨h.grows.trans h'.grows,fun q target m hq => h.links q target m (h'.links q target m hq),?_⟩
  intro q
  rcases h'.changed q with hq' | hq'
  · rcases h.changed q with hq | ⟨path,hpath,place,node,hnode,hle,hq⟩
    · exact Or.inl (hq'.trans hq)
    · obtain ⟨node',hnode',hreplaces⟩ := lookup_of_grows h'.grows hnode
      refine Or.inr ⟨path,hpath,place,node',hnode',hle,hq.imp h'.grows.folder ?_⟩
      rintro ⟨rfl,c,m,rfl⟩
      cases hreplaces with
      | same => exact ⟨rfl,c,m,rfl⟩
      | file _ c' _ m' => exact ⟨rfl,c',m',rfl⟩
  · exact Or.inr hq'

theorem Puts.lookup_cases (hp : t.Proper) (h : Puts paths t t') (havoids : t.Avoids t' paths path) :
    t'.lookup true path = t.lookup true path ∨
      t.lookup true path = .error .notFound ∧ t'.lookup true path = .error .notFolder ∧
        ¬t.Reaches t' paths path := by
  rcases havoids with ⟨hnowhere,hfails⟩ | ⟨place,hplace,havoids⟩
  · cases hlookup : t.lookup true path with
    | ok found => simp [placeOf?,hlookup] at hnowhere
    | error f =>
      exact Or.inl (lookup_error_of_grows h.grows (fun hf => hfails (hf ▸ hlookup)) hlookup)
  · have hsame : t'.find? place = t.find? place := by
      refine (h.changed place).resolve_right ?_
      rintro ⟨path',hpath',q,node,hnode,hle,-⟩
      exact havoids path' hpath' (q,node) (by rw [hnode]; rfl) hle
    refine (lookup_of_place_kept hp h.grows h.links hplace hsame).imp_right ?_
    rintro ⟨hnone,hfails,q,c,m,hq,hnew,hfile⟩
    refine ⟨hnone,hfails,fun hreaches => ?_⟩
    rcases h.changed q with hold | ⟨path',hpath',q',node,hnode,hle,hplaced⟩
    · rw [hfile,hnew] at hold
      cases hold
    · rw [hfile] at hplaced
      obtain ⟨rfl,c',m',rfl⟩ := hplaced.resolve_left (by simp)
      exact hreaches place hplace path' hpath' (q,.file c' m') (by rw [hnode]; rfl) (by simp) hq

theorem Puts.lookup_ok_iff (hp : t.Proper) (h : Puts paths t t') (havoids : t.Avoids t' paths path)
    (found : List String × FileNode) :
    t'.lookup true path = .ok found ↔ t.lookup true path = .ok found := by
  rcases h.lookup_cases hp havoids with hsame | ⟨hold,hnew,-⟩
  · rw [hsame]
  · rw [hold,hnew]
    exact ⟨nofun,nofun⟩

theorem Puts.lookup_eq (hp : t.Proper) (h : Puts paths t t') (havoids : t.Avoids t' paths path)
    (hreaches : t.Reaches t' paths path) : t'.lookup true path = t.lookup true path :=
  (h.lookup_cases hp havoids).resolve_right fun hfails => hfails.2.2 hreaches

theorem puts_of_write {now : Int} {content : Text} (h : t.write now path content = .ok t') :
    Puts [path] t t' := by
  obtain ⟨place,hne,rfl,hg,hlookup⟩ := write_eq_ok h
  have hfind (q : List String) := find?_set t hne (.file content now) q
  refine ⟨hg,?_,?_⟩
  · intro q target m hq
    by_cases hplace : q = place
    · rw [hfind,if_pos hplace] at hq
      cases hq
    · rwa [hfind,if_neg hplace] at hq
  · intro q
    by_cases hq : q = place
    · subst hq
      exact Or.inr ⟨_,List.mem_singleton_self _,q,_,hlookup,List.prefix_refl _,Or.inr ⟨rfl,_,_,rfl⟩⟩
    · exact Or.inl (by rw [hfind,if_neg hq])

/-! ### Folders that are made -/

theorem Travels.onward {follow : Bool}
    (h : Travels t true here names (.arrived (.present place .folder false)))
    (more : List String) : t.travel follow here (names ++ more) = t.travel follow place more := by
  generalize hj : Journey.arrived (.present place .folder false) = j at h
  induction h with
  | stay =>
    cases hj
    rfl
  | skip hname _ ih =>
    rw [List.cons_append,travel,if_pos (by simpa using hname)]
    exact ih hj
  | up _ ih =>
    rw [List.cons_append,travel,if_neg (by decide),if_pos (by decide)]
    exact ih hj
  | enter hname hnode _ ih =>
    rw [List.cons_append,travel_plain _ _ _ hname]
    simp only [hnode]
    exact ih hj
  | link | detour | file | missing => cases hj

theorem Travels.detour_onward {follow : Bool} {here' rest more : List String} {target : String}
    (h : Travels t true here names (.detour here' target rest)) (hmore : more ≠ []) :
    Travels t follow here (names ++ more) (.detour here' target (rest ++ more)) := by
  generalize hj : Journey.detour here' target rest = j at h
  induction h with
  | skip hname _ ih => exact .skip hname (ih hj)
  | up _ ih => exact .up (ih hj)
  | enter hname hnode _ ih => exact .enter hname hnode (ih hj)
  | detour hname hnode _ =>
    cases hj
    exact .detour hname hnode (Or.inl (by simp [hmore]))
  | stay | link | file | missing => cases hj

theorem Leads.onward {follow : Bool} {links : Nat} {more : List String} (hmore : more ≠ [])
    (h : Leads t true links here names (.present place .folder false)) :
    ∃ links', t.locateFrom follow links here (names ++ more) = t.locateFrom follow links' place more := by
  generalize ha : Arrival.present place .folder false = a at h
  induction h with
  | @arrive links here names a h =>
    subst ha
    refine ⟨links,?_⟩
    rw [locateFrom,locateFrom,h.onward more]
  | turn h htarget _ ih =>
    obtain ⟨links',hlinks'⟩ := ih ha
    refine ⟨links',hlinks' ▸ ?_⟩
    rw [locateFrom,travel_eq_of_travels (h.detour_onward hmore)]
    simp [htarget]

theorem travels_blank {rest : List String} (hrest : ∀ n ∈ rest, n = "") (here : List String) :
    Travels t true here rest (.arrived (.present here .folder false)) := by
  induction rest with
  | nil => exact .stay
  | cons name rest ih =>
    obtain ⟨hname,hrest⟩ := List.forall_mem_cons.mp hrest
    exact .skip (Or.inl hname) (ih hrest)

theorem Travels.made {follow slash : Bool} (hg : Grows t t') (hfolder : t'.find? place = some .folder)
    (h : Travels t follow here names (.arrived (.missing place slash))) :
    Travels t' true here names (.arrived (.present place .folder false)) := by
  generalize hj : Journey.arrived (.missing place slash) = j at h
  induction h with
  | skip hname _ ih => exact .skip hname (ih hj)
  | up _ ih => exact .up (ih hj)
  | enter hname hnode _ ih => exact .enter hname (hg.folder hnode) (ih hj)
  | missing hname _ hrest =>
    cases hj
    exact .enter hname hfolder (travels_blank hrest _)
  | stay | link | detour | file => cases hj

theorem Leads.made {follow slash : Bool} {links : Nat} (hg : Grows t t')
    (hfolder : t'.find? place = some .folder)
    (h : Leads t follow links here names (.missing place slash)) :
    Leads t' true links here names (.present place .folder false) := by
  generalize ha : Arrival.missing place slash = a at h
  induction h with
  | arrive h =>
    subst ha
    exact .arrive (h.made hg hfolder)
  | turn h htarget _ ih => exact .turn (h.detour_of_grows hg fun _ => rfl) htarget (ih ha)

theorem Leads.missing_of_name {links : Nat} {name : String} {slash : Bool} (hname : Path.Piece name)
    (h : Leads t false links here [name] (.missing place slash)) : place = here ++ [name] := by
  have hskip : ¬(name = "" ∨ name = ".") := not_or.mpr ⟨hname.nonempty,hname.notHere⟩
  cases h with
  | arrive h =>
    cases h with
    | skip h _ => exact absurd h hskip
    | up _ => exact absurd rfl hname.notUp
    | enter _ _ h => cases h
    | missing => rfl
  | turn h =>
    cases h with
    | skip h _ => exact absurd h hskip
    | up _ => exact absurd rfl hname.notUp
    | enter _ _ h => cases h
    | detour _ _ hfollow => simp at hfollow

theorem of_makeFoldersAt {names : List String} (hnames : ∀ name ∈ names, Path.Piece name)
    (h : t.makeFoldersAt names = .ok t') :
    ∃ place, Leads t' true linkLimit [] ("" :: names.reverse) (.present place .folder false) ∧
      ∀ q, t'.find? q = t.find? q ∨ Askable (Path.ofPieces true names.reverse) ∧
        t'.find? q = some .folder ∧ q <+: place := by
  induction names generalizing t' with
  | nil =>
    obtain rfl := Except.ok.inj h
    exact ⟨[],.arrive (.skip (Or.inl rfl) .stay),fun _ => Or.inl rfl⟩
  | cons name above ih =>
    obtain ⟨hname,habove⟩ := List.forall_mem_cons.mp hnames
    have hpieces : Path.pieces (Path.ofPieces true (name :: above).reverse) =
        "" :: (name :: above).reverse :=
      Path.pieces_ofPieces (by simp) fun n hn => (hnames n (List.mem_reverse.mp hn)).single
    have hstart (t : FileTree) : t.startOf (Path.ofPieces true (name :: above).reverse) = [] :=
      if_pos (by simp [Path.isAbsolute,Path.ofPieces])
    rw [makeFoldersAt] at h
    split at h
    · rename_i node hstat
      split_ifs at h with hfolder
      obtain rfl := Except.ok.inj h
      obtain ⟨place,hlookup⟩ := (stat_eq_ok_iff _ _ _).mp hstat
      obtain rfl : node = .folder := by
        cases node with
        | folder => rfl
        | file | link => cases hfolder
      rw [lookup_eq_ok_iff,locate_eq_ok_iff,hpieces,hstart] at hlookup
      exact ⟨place,hlookup.2,fun _ => Or.inl rfl⟩
    · cases hmade : t.makeFoldersAt above with
      | error e => simp [hmade,bind,Except.bind] at h
      | ok middle =>
        simp only [hmade,bind,Except.bind] at h
        obtain ⟨a,hleads,hchanged⟩ := ih habove hmade
        obtain ⟨place,slash,hlocate,rfl⟩ := set_of_makeFolder h
        obtain ⟨hask,hmissing⟩ := (middle.locate_eq_ok_iff _ _ _).mp hlocate
        rw [hpieces,hstart] at hmissing
        obtain ⟨_,_,htravels⟩ := hmissing.exists_travels
        obtain ⟨hnone,hne⟩ := htravels.find?_missing
        -- The new folder is in the one that has been made just before.
        have hplace : place = a ++ [name] := by
          obtain ⟨links,hlinks⟩ : ∃ links, middle.locateFrom false linkLimit []
              ("" :: above.reverse ++ [name]) = middle.locateFrom false links a [name] :=
            hleads.onward (by simp)
          have hfound := (locateFrom_eq_ok_iff _ _ _ _ _ _).mpr hmissing
          rw [List.reverse_cons,← List.cons_append,hlinks,locateFrom_eq_ok_iff] at hfound
          exact hfound.missing_of_name hname
        have hg : Grows middle (middle.set place .folder) := grows_set hne (by simp [hnone])
        have hfind (q : List String) := middle.find?_set hne .folder q
        refine ⟨place,hmissing.made hg (by rw [hfind,if_pos rfl]),fun q => ?_⟩
        rw [hfind]
        by_cases hq : q = place
        · exact Or.inr ⟨hask,if_pos hq,hq ▸ List.prefix_refl _⟩
        · rw [if_neg hq,hplace]
          refine (hchanged q).imp_right ?_
          rintro ⟨-,hfolder,hle⟩
          exact ⟨hask,hfolder,hle.trans (List.prefix_append _ _)⟩

theorem puts_of_makeFolders {folder : String} (hfolder : Path.Clean folder)
    (h : t.makeFolders folder = .ok t') : Puts [folder] t t' := by
  have hnames : ∀ name ∈ (Path.cleanPieces folder).reverse, Path.Piece name :=
    fun _ hname => hfolder.piece (List.mem_reverse.mp hname)
  have hadds := addsFolders_of_makeFoldersAt h
  refine ⟨hadds.grows,?_,?_⟩
  · intro q target m hq
    rcases hadds.spares q with hsame | ⟨-,hnew⟩
    · exact hsame ▸ hq
    · rw [hnew] at hq
      cases hq
  by_cases htop : folder = "/"
  · rw [makeFolders,hfolder.eq_slash_iff.mp htop] at h
    obtain rfl := Except.ok.inj h
    exact fun _ => Or.inl rfl
  · obtain ⟨place,hleads,hchanged⟩ := of_makeFoldersAt hnames h
    rw [List.reverse_reverse] at hleads hchanged
    rw [← hfolder.eq_ofPieces] at hchanged
    refine fun q => (hchanged q).imp_right ?_
    rintro ⟨hask,hnew,hle⟩
    refine ⟨_,List.mem_singleton_self _,place,.folder,?_,hle,Or.inl hnew⟩
    rw [lookup_eq_ok_iff,locate_eq_ok_iff,hfolder.pieces_eq htop,startOf,if_pos hfolder.absolute]
    exact ⟨hask,hleads⟩

end FileTree
end CircuitNotes
