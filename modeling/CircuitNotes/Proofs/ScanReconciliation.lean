import CircuitNotes.Proofs.FolderSearch
import CircuitNotes.Proofs.HistoryViews
import CircuitNotes.Proofs.Texts

/-! A scan brings the history in line with the files. What each file comes to is said first, for any
number of workers; storing and pruning are then followed path by path. -/
namespace CircuitNotes

variable {σ ε : Type}

/-- An access that does what another does, or fails. -/
structure HistoryAccess.Within (a b : HistoryAccess σ) : Prop where
  list : ∀ {s rs}, a.list s = .ok rs → b.list s = .ok rs
  putAll : ∀ {s rs s'}, a.putAll s rs = .ok s' → b.putAll s rs = .ok s'
  delete : ∀ {s path s'}, a.delete s path = .ok s' → b.delete s path = .ok s'

theorem HistoryAccess.within_refusing (a : HistoryAccess σ) (operations : List String) :
    (a.refusing operations).Within a := by
  constructor
  all_goals
    simp only [refusing]
    split_ifs <;> simp

/-- Whether a record is that of a file with some content and of an explanation, made at any time. -/
structure Record.Recounts (r : Record) (f : FoundFile) (source : Text) (x : Explanation) : Prop where
  path : r.path = Text.ofString f.path
  hash : r.hash = contentHash source
  modified : r.modified = f.modified
  circuit : r.circuit = x.circuit
  document : r.document = x.document

theorem Record.Recounts.explanation {r : Record} {f : FoundFile} {source : Text} {x : Explanation}
    (h : r.Recounts f source x) : r.explanation = x := by
  rw [Record.explanation,h.circuit,h.document]

namespace ScanJob

theorem recounts_recordOf (job : ScanJob) (f : FoundFile) (source : Text) (x : Explanation) :
    (job.recordOf f (contentHash source) x).Recounts f source x := by
  generalize hhash : contentHash source = hash
  exact ⟨rfl,hhash.symm,rfl,rfl,rfl⟩

/-- What the explainer may answer for a source while files are scanned, when it has explained nothing
but contents of files before. -/
def Answers (job : ScanJob) (explain : Explaining ε) (e : ε) (source : Text) (x : Explanation) :
    Prop :=
  ∃ earlier : List Text, (∀ s ∈ earlier, ∃ path, job.read path = .ok s) ∧
    x = (explain (earlier.foldl (fun e s => (explain e s).2) e) source).1

/-- What may become of a file, given the explanations that its source may be given. Of a record that is
made all but its date is settled. -/
inductive Outcome (job : ScanJob) (existing : Bucket Record) (answers : Text → Explanation → Prop)
    (file : FoundFile) : FileOutcome → Prop
  | unread {e : ReadError} (hread : job.read file.path = .error e) :
      Outcome job existing answers file (.unread e)
  | skipped {source : Text} {r : Record} (hread : job.read file.path = .ok source)
      (hfound : Bucket.find? existing file.path = some r)
      (hkeeps : job.keeps (contentHash source) r = true) :
      Outcome job existing answers file (.skipped r)
  | explained {source : Text} {x : Explanation} {r : Record} (hread : job.read file.path = .ok source)
      (hnone : ∀ r, Bucket.find? existing file.path = some r →
        job.keeps (contentHash source) r = false)
      (hx : answers source x) (hr : r.Recounts file source x) :
      Outcome job existing answers file (.explained r)

/-- Slots as any number of workers may leave them, whatever the order in which they take the files:
each slot tells of its own file. -/
def Filled (job : ScanJob) (existing : Bucket Record) (answers : Text → Explanation → Prop) :
    List FoundFile → List ScannedFile → Prop :=
  List.Forall₂ fun f s => s.file = f ∧ job.Outcome existing answers f s.outcome

theorem Outcome.mono {job : ScanJob} {existing : Bucket Record}
    {answers answers' : Text → Explanation → Prop} {file : FoundFile} {o : FileOutcome}
    (h : job.Outcome existing answers file o)
    (ha : ∀ source x, answers source x → answers' source x) :
    job.Outcome existing answers' file o := by
  cases h with
  | unread hread => exact .unread hread
  | skipped hread hfound hkeeps => exact .skipped hread hfound hkeeps
  | explained hread hnone hx hr => exact .explained hread hnone (ha _ _ hx) hr

section ScanFile

variable {job : ScanJob} {existing : Bucket Record} {f : FoundFile}

theorem scanFile_of_unread {fault : ReadError} (hread : job.read f.path = .error fault)
    (explain : Explaining ε) (existing : Bucket Record) (e : ε) :
    job.scanFile explain existing e f = (⟨f,.unread fault⟩,e) := by
  simp only [scanFile,hread]

theorem scanFile_of_kept {source : Text} {r : Record} (hread : job.read f.path = .ok source)
    (hkept : (Bucket.find? existing f.path).filter (job.keeps (contentHash source)) = some r)
    (explain : Explaining ε) (e : ε) :
    job.scanFile explain existing e f = (⟨f,.skipped r⟩,e) := by
  simp only [scanFile,hread,hkept]

theorem scanFile_of_changed {source : Text} (hread : job.read f.path = .ok source)
    (hnone : (Bucket.find? existing f.path).filter (job.keeps (contentHash source)) = none)
    (explain : Explaining ε) (e : ε) :
    job.scanFile explain existing e f =
      (⟨f,.explained (job.recordOf f (contentHash source) (explain e source).1)⟩,
        (explain e source).2) := by
  simp only [scanFile,hread,hnone]

theorem keeps_of_changed {hash : Text}
    (hnone : (Bucket.find? existing f.path).filter (job.keeps hash) = none) {r : Record}
    (hr : Bucket.find? existing f.path = some r) : job.keeps hash r = false := by
  simpa [hr] using hnone

end ScanFile

/-- One file: its outcome, and whether the explainer was used for it. -/
theorem scanFile_outcome (job : ScanJob) (explain : Explaining ε) (existing : Bucket Record) (e : ε)
    (f : FoundFile) :
    (job.scanFile explain existing e f).1.file = f ∧
      job.Outcome existing (fun source x => x = (explain e source).1) f
        (job.scanFile explain existing e f).1.outcome ∧
      ((job.scanFile explain existing e f).2 = e ∨ ∃ source, job.read f.path = .ok source ∧
        (job.scanFile explain existing e f).2 = (explain e source).2) := by
  cases hread : job.read f.path with
  | error fault =>
    rw [scanFile_of_unread hread]
    exact ⟨rfl,.unread hread,Or.inl rfl⟩
  | ok source =>
    cases hkept : (Bucket.find? existing f.path).filter (job.keeps (contentHash source)) with
    | some r =>
      obtain ⟨hfound,hkeeps⟩ := Option.filter_eq_some_iff.mp hkept
      rw [scanFile_of_kept hread hkept]
      exact ⟨rfl,.skipped hread hfound hkeeps,Or.inl rfl⟩
    | none =>
      rw [scanFile_of_changed hread hkept]
      exact ⟨rfl,.explained hread (fun _ => keeps_of_changed hkept) rfl (job.recounts_recordOf ..),
        Or.inr ⟨source,rfl,rfl⟩⟩

theorem scanFiles_cons (job : ScanJob) (explain : Explaining ε) (existing : Bucket Record) (e : ε)
    (f : FoundFile) (rest : List FoundFile) :
    job.scanFiles explain existing e (f :: rest) =
      ((job.scanFile explain existing e f).1 ::
          (job.scanFiles explain existing (job.scanFile explain existing e f).2 rest).1,
        (job.scanFiles explain existing (job.scanFile explain existing e f).2 rest).2) := rfl

/-- The files one after another, when the explainer has been used for `earlier` contents. -/
theorem scanFiles_filled (job : ScanJob) (explain : Explaining ε) (existing : Bucket Record) (e : ε)
    (earlier : List Text) (hearlier : ∀ s ∈ earlier, ∃ path, job.read path = .ok s)
    (files : List FoundFile) :
    job.Filled existing (job.Answers explain e) files
      (job.scanFiles explain existing (earlier.foldl (fun e s => (explain e s).2) e) files).1 := by
  induction files generalizing earlier with
  | nil => exact .nil
  | cons f rest ih =>
    obtain ⟨hfile,houtcome,hused⟩ := job.scanFile_outcome explain existing
      (earlier.foldl (fun e s => (explain e s).2) e) f
    rw [scanFiles_cons]
    refine .cons ⟨hfile,houtcome.mono ?_⟩ ?_
    · intro source x hx
      exact ⟨earlier,hearlier,hx⟩
    · rcases hused with hsame | ⟨source,hread,hnext⟩
      · rw [hsame]
        exact ih earlier hearlier
      · -- The explainer has seen one more content, that of the file itself.
        have hmore : ∀ s ∈ earlier ++ [source], ∃ path, job.read path = .ok s := by
          intro s hs
          rcases List.mem_append.mp hs with hs | hs
          · exact hearlier s hs
          · exact ⟨f.path,by rw [List.mem_singleton.mp hs,hread]⟩
        have h := ih (earlier ++ [source]) hmore
        rw [List.foldl_append,List.foldl_cons,List.foldl_nil] at h
        rw [hnext]
        exact h

/-- A scan that ends well, by any number of workers: the files are found, the history is listed,
every slot is filled, and the history is settled. -/
inductive Finishes (job : ScanJob) (answers : Text → Explanation → Prop) (access : HistoryAccess σ)
    (before : σ) : ScanReport → σ → Prop
  | intro {files : List FoundFile} {records : List Record} {slots : List ScannedFile}
      {report : ScanReport} {after : σ}
      (hwalk : job.tree.walk job.selection job.root = .ok files)
      (hlist : access.list before = .ok records)
      (hfilled : job.Filled (byPath records) answers files slots)
      (hsettle : job.settle access before (byPath records) files slots = .ok (report,after)) :
      Finishes job answers access before report after

theorem eq_of_reached (job : ScanJob) {files : List FoundFile}
    (h : ¬(job.reached files).length < files.length) : job.reached files = files := by
  unfold reached at h ⊢
  cases hc : job.cancelAfter with
  | none => rfl
  | some n =>
    simp only [hc,List.length_take] at h ⊢
    exact List.take_of_length_le (by omega)

theorem finishes_of_runWith (job : ScanJob) (explain : Explaining ε) (access : HistoryAccess σ)
    {state state' : ScanState σ ε} {report : ScanReport}
    (h : job.runWith explain access state = (.ok report,state')) :
    job.Finishes (job.Answers explain state.explainer) access state.history report
      state'.history := by
  unfold runWith at h
  cases hwalk : job.tree.walk job.selection job.root with
  | error fault => simp [hwalk] at h
  | ok files =>
    cases hlist : access.list state.history with
    | error fault => simp [hwalk,hlist] at h
    | ok records =>
      simp only [hwalk,hlist] at h
      split_ifs at h with hshort
      · simp at h
      · have hall := eq_of_reached job hshort
        rw [hall] at h
        cases hsettle : job.settle access state.history (byPath records) files
            (job.scanFiles explain (byPath records) state.explainer files).1 with
        | error fault => simp [hsettle] at h
        | ok settled =>
          obtain ⟨report',history⟩ := settled
          simp only [hsettle,Prod.mk.injEq,Except.ok.injEq] at h
          obtain ⟨hreport,hstate⟩ := h
          subst hreport hstate
          exact .intro hwalk hlist (job.scanFiles_filled explain _ _ [] (by simp) files) hsettle

theorem prune_cons_ok {access : HistoryAccess σ} {s s' : σ} {path : Text}
    (h : access.delete s path = .ok s') (rest : List Text) :
    prune access s (path :: rest) = ((prune access s' rest).1,
      path :: (prune access s' rest).2.1,(prune access s' rest).2.2) := by
  simp only [prune,h]

theorem prune_cons_error {access : HistoryAccess σ} {s : σ} {path : Text} {e : HistoryError}
    (h : access.delete s path = .error e) (rest : List Text) :
    prune access s (path :: rest) = ((prune access s rest).1,(prune access s rest).2.1,
      (path,e) :: (prune access s rest).2.2) := by
  simp only [prune,h]

/-- Every path that was to be pruned is reported once, as deleted or as not. -/
theorem perm_prune (access : HistoryAccess σ) (s : σ) (paths : List Text) :
    ((prune access s paths).2.1 ++ (prune access s paths).2.2.map Prod.fst).Perm paths := by
  induction paths generalizing s with
  | nil => exact .refl _
  | cons path rest ih =>
    cases hdelete : access.delete s path with
    | ok s' =>
      rw [prune_cons_ok hdelete]
      exact (ih s').cons path
    | error e =>
      rw [prune_cons_error hdelete]
      exact List.perm_middle.trans ((ih s).cons path)

/-- Pruning takes the entries of the paths whose deletion does not fail, and no others. -/
theorem held?_prune (k : HistoryKind) {access : HistoryAccess k.State}
    (hw : access.Within k.access) (s : k.State) (paths : List Text) (hn : paths.Nodup)
    (path : Text) :
    k.held? (prune access s paths).1 path =
      if path ∈ paths ∧ path ∉ (prune access s paths).2.2.map Prod.fst then none
      else k.held? s path := by
  induction paths generalizing s with
  | nil => simp [prune]
  | cons gone rest ih =>
    obtain ⟨hgone,hrest⟩ := List.nodup_cons.mp hn
    have hfailed (s : k.State) : gone ∉ (prune access s rest).2.2.map Prod.fst := by
      intro h
      exact hgone ((perm_prune access s rest).subset (List.mem_append_right _ h))
    cases hdelete : access.delete s gone with
    | ok s' =>
      rw [prune_cons_ok hdelete,ih s' hrest,k.held?_delete (hw.delete hdelete)]
      by_cases hp : path = gone
      · subst hp
        simp [hgone,hfailed]
      · simp only [List.mem_cons,hp,false_or,if_false]
    | error e =>
      rw [prune_cons_error hdelete,ih s hrest]
      by_cases hp : path = gone
      · subst hp
        simp [hgone]
      · simp only [List.mem_cons,List.map_cons,hp,false_or]

/-- Deleting what a history has at a path fails, when the history is open and has there what it had. -/
def DeletionFails (k : HistoryKind) (access : HistoryAccess k.State) (before : k.State) (path : Text)
    (e : HistoryError) : Prop :=
  ∃ s, k.IsOpen s ∧ k.held? s path = k.held? before path ∧ access.delete s path = .error e

theorem deletionFails_of_prune (k : HistoryKind) {access : HistoryAccess k.State}
    (hw : access.Within k.access) {s : k.State} (hopen : k.IsOpen s) {paths : List Text}
    (hn : paths.Nodup) : ∀ x ∈ (prune access s paths).2.2, DeletionFails k access s x.1 x.2 := by
  induction paths generalizing s with
  | nil => simp [prune]
  | cons path rest ih =>
    obtain ⟨hpath,hrest⟩ := List.nodup_cons.mp hn
    intro x hx
    cases hdelete : access.delete s path with
    | ok s' =>
      rw [prune_cons_ok hdelete] at hx
      have hne : x.1 ≠ path := by
        rintro rfl
        exact hpath ((perm_prune access s' rest).subset
          (List.mem_append_right _ (List.mem_map_of_mem hx)))
      obtain ⟨t,ht,hheld,hfails⟩ := ih (k.isOpen_of_delete hopen (hw.delete hdelete)) hrest x hx
      exact ⟨t,ht,by rw [hheld,k.held?_delete (hw.delete hdelete),if_neg hne],hfails⟩
    | error e =>
      rw [prune_cons_error hdelete] at hx
      rcases List.mem_cons.mp hx with rfl | hx
      · exact ⟨s,hopen,rfl,hdelete⟩
      · exact ih hopen hrest x hx

theorem mem_stale (job : ScanJob) (existing : Bucket Record) (files : List FoundFile)
    (path : Text) :
    path ∈ job.stale existing files ↔ (Bucket.find? existing path).isSome ∧
      Text.ofString (job.folder ++ "/") <+: path ∧ ∀ f ∈ files, Text.ofString f.path ≠ path := by
  simp only [stale,(job.order.perm _).mem_iff,List.mem_filter,Bucket.mem_keys_iff,Bool.and_eq_true,
    Bool.not_eq_true',List.isPrefixOf_iff_prefix]
  simp

theorem nodup_stale (job : ScanJob) (records : List Record) (files : List FoundFile) :
    (job.stale (byPath records) files).Nodup := by
  have hasc (b : Bucket Record) (hb : b.Ascending) :
      (records.foldl (fun b r => Bucket.insert r.path r b) b).Ascending := by
    induction records generalizing b with
    | nil => exact hb
    | cons r rs ih => exact ih _ (Bucket.ascending_insert hb r.path r)
  rw [stale,(job.order.perm _).nodup_iff]
  exact List.Pairwise.filter _ (Bucket.Ascending.distinct (hasc [] List.Pairwise.nil))

theorem perm_stale (job : ScanJob) (order : Arrangement) (existing : Bucket Record)
    (files : List FoundFile) :
    (job.stale existing files).Perm ({ job with order }.stale existing files) :=
  (job.order.perm _).trans (order.perm _).symm

section Filled

variable {job : ScanJob} {existing : Bucket Record} {answers : Text → Explanation → Prop}
  {files : List FoundFile} {slots : List ScannedFile}

theorem Filled.map_file (h : job.Filled existing answers files slots) :
    slots.map ScannedFile.file = files := by
  induction h with
  | nil => rfl
  | cons hhead _ ih => rw [List.map_cons,hhead.1,ih]

theorem Filled.exists_slot (h : job.Filled existing answers files slots) {f : FoundFile}
    (hf : f ∈ files) : ∃ s ∈ slots, job.Outcome existing answers f s.outcome := by
  induction h with
  | nil => simp at hf
  | cons hhead _ ih =>
    rcases List.mem_cons.mp hf with rfl | hf
    · exact ⟨_,List.mem_cons_self,hhead.2⟩
    · obtain ⟨s,hs,hout⟩ := ih hf
      exact ⟨s,List.mem_cons_of_mem _ hs,hout⟩

theorem Filled.exists_file (h : job.Filled existing answers files slots) {s : ScannedFile}
    (hs : s ∈ slots) : ∃ f ∈ files, s.file = f ∧ job.Outcome existing answers f s.outcome := by
  induction h with
  | nil => simp at hs
  | cons hhead _ ih =>
    rcases List.mem_cons.mp hs with rfl | hs
    · exact ⟨_,List.mem_cons_self,hhead⟩
    · obtain ⟨f,hf,hout⟩ := ih hs
      exact ⟨f,List.mem_cons_of_mem _ hf,hout⟩

theorem mem_fresh_iff (slots : List ScannedFile) (r : Record) :
    r ∈ slots.filterMap ScannedFile.explained? ↔ ∃ s ∈ slots, s.outcome = .explained r := by
  rw [List.mem_filterMap]
  refine exists_congr fun s => and_congr_right fun _ => ?_
  cases h : s.outcome <;> simp [ScannedFile.explained?,h]

/-- The records to be stored at a path are those of the file there. -/
theorem Filled.fresh (h : job.Filled existing answers files slots) {r : Record}
    (hr : r ∈ slots.filterMap ScannedFile.explained?) :
    ∃ f ∈ files, ∃ source x, job.read f.path = .ok source ∧
      (∀ r, Bucket.find? existing f.path = some r → job.keeps (contentHash source) r = false) ∧
      answers source x ∧ r.Recounts f source x := by
  obtain ⟨s,hs,hsr⟩ := (mem_fresh_iff slots r).mp hr
  obtain ⟨f,hf,-,hout⟩ := h.exists_file hs
  rw [hsr] at hout
  cases hout with
  | explained hread hnone hx hr => exact ⟨f,hf,_,_,hread,hnone,hx,hr⟩

/-- A file that was read and may not keep its record has one to be stored. -/
theorem Filled.exists_fresh (h : job.Filled existing answers files slots) {f : FoundFile}
    (hf : f ∈ files) {source : Text} (hread : job.read f.path = .ok source)
    (hnone : ∀ r, Bucket.find? existing f.path = some r → job.keeps (contentHash source) r = false) :
    ∃ r ∈ slots.filterMap ScannedFile.explained?, r.path = f.path := by
  obtain ⟨s,hs,hout⟩ := h.exists_slot hf
  cases hso : s.outcome with
  | unread e =>
    rw [hso] at hout
    cases hout with
    | unread hfail => simp [hread] at hfail
  | skipped r =>
    rw [hso] at hout
    cases hout with
    | skipped hread' hfound hkeeps =>
      rw [hread] at hread'
      have hs := Except.ok.inj hread'
      rw [← hs,hnone r hfound] at hkeeps
      cases hkeeps
  | explained r =>
    refine ⟨r,(mem_fresh_iff slots r).mpr ⟨s,hs,hso⟩,?_⟩
    rw [hso] at hout
    cases hout with
    | explained _ _ _ hr => exact hr.path

theorem Filled.stored (h : job.Filled existing answers files slots) {path : String} {r : Record}
    (hr : lastAt? (slots.filterMap ScannedFile.explained?) path = some r) :
    ∃ f ∈ files, ∃ source x, f.path = path ∧ job.read path = .ok source ∧
      (∀ r, Bucket.find? existing path = some r → job.keeps (contentHash source) r = false) ∧
      answers source x ∧ r.Recounts f source x := by
  obtain ⟨hmem,hpath⟩ := lastAt?_eq_some hr
  obtain ⟨f,hf,source,x,hread,hnone,hx,hr⟩ := h.fresh hmem
  have hfp : f.path = path := Text.ofString_injective (hr.path.symm.trans hpath)
  exact ⟨f,hf,source,x,hfp,hfp ▸ hread,hfp ▸ hnone,hx,hr⟩

theorem Filled.not_stored (h : job.Filled existing answers files slots) {path : Text}
    (hp : ∀ f ∈ files, Text.ofString f.path ≠ path) :
    lastAt? (slots.filterMap ScannedFile.explained?) path = none := by
  rw [lastAt?_eq_none_iff]
  intro r hr hpath
  obtain ⟨f,hf,_,_,_,_,_,hrecounts⟩ := h.fresh hr
  exact hp f hf (hrecounts.path.symm.trans hpath)

end Filled

section Settle

variable {job : ScanJob} {slots : List ScannedFile} {files : List FoundFile} {report : ScanReport}

/-- A history that was settled: fresh records are stored, if there are any, and then it is pruned. -/
theorem of_settle {access : HistoryAccess σ} {before after : σ} {existing : Bucket Record}
    (h : job.settle access before existing files slots = .ok (report,after)) :
    report.files = slots ∧ ∃ middle,
      (if (slots.filterMap ScannedFile.explained?).isEmpty then .ok before
        else access.putAll before (slots.filterMap ScannedFile.explained?)) = .ok middle ∧
      prune access middle (job.stale existing files) = (after,report.deleted,report.undeleted) := by
  simp only [settle] at h
  split at h
  · cases h
  · rename_i middle hput
    cases h
    exact ⟨rfl,middle,hput,rfl⟩

theorem files_of_settle {access : HistoryAccess σ} {before after : σ} {existing : Bucket Record}
    (h : job.settle access before existing files slots = .ok (report,after)) :
    report.files = slots := (of_settle h).1

theorem perm_of_settle {access : HistoryAccess σ} {before after : σ} {existing : Bucket Record}
    (h : job.settle access before existing files slots = .ok (report,after)) :
    (report.deleted ++ report.undeleted.map Prod.fst).Perm (job.stale existing files) := by
  obtain ⟨-,middle,-,hprune⟩ := of_settle h
  have hperm := perm_prune access middle (job.stale existing files)
  rwa [hprune] at hperm

theorem mem_stale_of_settle {access : HistoryAccess σ} {before after : σ} {existing : Bucket Record}
    (h : job.settle access before existing files slots = .ok (report,after))
    {x : Text × HistoryError} (hx : x ∈ report.undeleted) : x.1 ∈ job.stale existing files :=
  (perm_of_settle h).subset (List.mem_append_right _ (List.mem_map_of_mem hx))

variable {k : HistoryKind} {access : HistoryAccess k.State} {before after : k.State}
  {records : List Record}

theorem held?_of_stored (hw : access.Within k.access) {fresh : List Record} {middle : k.State}
    (hput : (if fresh.isEmpty then .ok before else access.putAll before fresh) = .ok middle)
    (path : Text) :
    k.held? middle path = ((lastAt? fresh path).map k.form).or (k.held? before path) := by
  split_ifs at hput with hempty
  · rw [List.isEmpty_iff.mp hempty,← Except.ok.inj hput]
    simp
  · exact k.held?_putAll (hw.putAll hput) path

theorem isOpen_of_stored (hw : access.Within k.access) (hopen : k.IsOpen before)
    {fresh : List Record} {middle : k.State}
    (hput : (if fresh.isEmpty then .ok before else access.putAll before fresh) = .ok middle) :
    k.IsOpen middle := by
  split_ifs at hput with hempty
  · rwa [← Except.ok.inj hput]
  · exact k.isOpen_of_putAll hopen (hw.putAll hput)

/-- The history after it was settled, path by path. -/
theorem held?_settle (hw : access.Within k.access)
    (h : job.settle access before (byPath records) files slots = .ok (report,after)) (path : Text) :
    k.held? after path =
      if path ∈ job.stale (byPath records) files ∧ path ∉ report.undeleted.map Prod.fst then none
      else ((lastAt? (slots.filterMap ScannedFile.explained?) path).map k.form).or
        (k.held? before path) := by
  obtain ⟨-,middle,hput,hprune⟩ := of_settle h
  have hheld := held?_prune k hw middle _ (job.nodup_stale records files) path
  rw [hprune] at hheld
  rw [hheld,held?_of_stored hw hput]

theorem deletionFails_of_settle {answers : Text → Explanation → Prop} {existing : Bucket Record}
    (hw : access.Within k.access) (hopen : k.IsOpen before)
    (hfilled : job.Filled existing answers files slots)
    (h : job.settle access before (byPath records) files slots = .ok (report,after))
    {x : Text × HistoryError} (hx : x ∈ report.undeleted) : DeletionFails k access before x.1 x.2 := by
  obtain ⟨-,middle,hput,hprune⟩ := of_settle h
  have hfails := deletionFails_of_prune k hw (isOpen_of_stored hw hopen hput)
    (job.nodup_stale records files)
  rw [hprune] at hfails
  obtain ⟨s,hs,hheld,hdelete⟩ := hfails x hx
  -- Nothing is stored at the path of a record to be deleted.
  have hstale := ((mem_stale ..).mp (mem_stale_of_settle h hx)).2.2
  refine ⟨s,hs,?_,hdelete⟩
  rw [hheld,held?_of_stored hw hput,hfilled.not_stored hstale,Option.map_none,Option.none_or]

end Settle

/-- How the history after a scan follows from the one before it, path by path, given the files found
and the deletions that failed. -/
structure Reconciles (job : ScanJob) (k : HistoryKind) (answers : Text → Explanation → Prop)
    (access : HistoryAccess k.State) (files : List FoundFile)
    (undeleted : List (Text × HistoryError)) (before after : k.State) : Prop where
  unchanged : ∀ f ∈ files, ∀ source r, job.read f.path = .ok source →
    k.recordAt? before f.path = some r → job.force = false → r.hash = contentHash source →
    k.held? after f.path = k.held? before f.path
  renewed : ∀ f ∈ files, ∀ source, job.read f.path = .ok source →
    (∀ r, k.recordAt? before f.path = some r → job.force = true ∨ r.hash ≠ contentHash source) →
    ∃ x r, answers source x ∧ r.Recounts f source x ∧ k.held? after f.path = some (k.form r) ∧
      (k.Fits r → k.recordAt? after f.path = some r)
  unread : ∀ f ∈ files, ∀ e, job.read f.path = .error e →
    k.held? after f.path = k.held? before f.path
  gone : ∀ path, (∀ f ∈ files, Text.ofString f.path ≠ path) →
    Text.ofString (job.folder ++ "/") <+: path → path ∉ undeleted.map Prod.fst →
    k.held? after path = none
  undeleted : ∀ path e, (path,e) ∈ undeleted →
    DeletionFails k access before path e ∧ k.held? after path = k.held? before path
  elsewhere : ∀ path, (∀ f ∈ files, Text.ofString f.path ≠ path) →
    ¬Text.ofString (job.folder ++ "/") <+: path → k.held? after path = k.held? before path

theorem keeps_eq_false_iff (job : ScanJob) (hash : Text) (r : Record) :
    job.keeps hash r = false ↔ job.force = true ∨ r.hash ≠ hash := by
  cases h : job.force <;> simp [keeps,h]

theorem held?_eq_none_of_listed (k : HistoryKind) {s : k.State} {rs : List Record}
    (h : k.access.list s = .ok rs) {path : Text} (hnone : k.recordAt? s path = none) :
    k.held? s path = none := by
  cases he : k.held? s path with
  | none => rfl
  | some e =>
    obtain ⟨r,hr⟩ := (k.mem_listed h).1 path e (Bucket.mem_of_find? he)
    simp [HistoryKind.recordAt?,he,hr] at hnone

/-- What is known of a scan once its history is settled. -/
structure Settled (job : ScanJob) (k : HistoryKind) (answers : Text → Explanation → Prop)
    (existing : Bucket Record) (files : List FoundFile) (slots : List ScannedFile)
    (undeleted : List (Text × HistoryError)) (before after : k.State) : Prop where
  listed : ∀ path, Bucket.find? existing path = k.recordAt? before path
  readable : ∀ path, k.recordAt? before path = none → k.held? before path = none
  filled : job.Filled existing answers files slots
  failed : ∀ x ∈ undeleted, x.1 ∈ job.stale existing files
  entry : ∀ path, k.held? after path =
    if path ∈ job.stale existing files ∧ path ∉ undeleted.map Prod.fst then none
    else ((lastAt? (slots.filterMap ScannedFile.explained?) path).map k.form).or
      (k.held? before path)

namespace Settled

variable {job : ScanJob} {k : HistoryKind} {answers : Text → Explanation → Prop}
  {existing : Bucket Record} {files : List FoundFile} {slots : List ScannedFile}
  {undeleted : List (Text × HistoryError)} {before after : k.State}

theorem entry_of_walked (h : job.Settled k answers existing files slots undeleted before after)
    {f : FoundFile} (hf : f ∈ files) : k.held? after f.path =
      ((lastAt? (slots.filterMap ScannedFile.explained?) f.path).map k.form).or
        (k.held? before f.path) := by
  rw [h.entry,if_neg]
  intro hstale
  exact ((mem_stale ..).mp hstale.1).2.2 f hf rfl

theorem entry_of_kept (h : job.Settled k answers existing files slots undeleted before after)
    {f : FoundFile} (hf : f ∈ files)
    (hkept : ∀ source, job.read f.path = .ok source →
      ∃ r, k.recordAt? before f.path = some r ∧ job.keeps (contentHash source) r = true) :
    k.held? after f.path = k.held? before f.path := by
  rw [h.entry_of_walked hf]
  cases hlast : lastAt? (slots.filterMap ScannedFile.explained?) f.path with
  | none => simp
  | some stored =>
    obtain ⟨_,_,source,_,_,hread,hnone,_,_⟩ := h.filled.stored hlast
    obtain ⟨r,hr,hkeeps⟩ := hkept source hread
    rw [hnone r (by rw [h.listed,hr])] at hkeeps
    cases hkeeps

theorem entry_of_renewed (h : job.Settled k answers existing files slots undeleted before after)
    {f : FoundFile} (hf : f ∈ files) {source : Text} (hread : job.read f.path = .ok source)
    (hnone : ∀ r, k.recordAt? before f.path = some r → job.keeps (contentHash source) r = false) :
    ∃ g ∈ files, ∃ x r, g.path = f.path ∧ answers source x ∧ r.Recounts g source x ∧
      k.held? after f.path = some (k.form r) := by
  obtain ⟨r,hr,hpath⟩ := h.filled.exists_fresh hf hread fun r hr => hnone r (h.listed _ ▸ hr)
  rw [h.entry_of_walked hf]
  cases hlast : lastAt? (slots.filterMap ScannedFile.explained?) f.path with
  | none => exact absurd hpath ((lastAt?_eq_none_iff _ _).mp hlast r hr)
  | some stored =>
    obtain ⟨g,hg,source',x,hgf,hread',_,hx,hrecounts⟩ := h.filled.stored hlast
    cases hread.symm.trans hread'
    exact ⟨g,hg,x,stored,hgf,hx,hrecounts,by simp⟩

theorem entry_of_gone (h : job.Settled k answers existing files slots undeleted before after)
    {path : Text} (hp : ∀ f ∈ files, Text.ofString f.path ≠ path)
    (hbelow : Text.ofString (job.folder ++ "/") <+: path) (hdeleted : path ∉ undeleted.map Prod.fst) :
    k.held? after path = none := by
  rw [h.entry]
  by_cases hstale : path ∈ job.stale existing files
  · rw [if_pos ⟨hstale,hdeleted⟩]
  · have hnone : Bucket.find? existing path = none := by
      by_contra hsome
      exact hstale ((mem_stale ..).mpr ⟨Option.isSome_iff_ne_none.mpr hsome,hbelow,hp⟩)
    rw [h.listed] at hnone
    rw [if_neg fun hc => hstale hc.1,h.filled.not_stored hp,Option.map_none,Option.none_or]
    exact h.readable path hnone

theorem entry_of_undeleted (h : job.Settled k answers existing files slots undeleted before after)
    {x : Text × HistoryError} (hx : x ∈ undeleted) : k.held? after x.1 = k.held? before x.1 := by
  have hp := ((mem_stale ..).mp (h.failed x hx)).2.2
  rw [h.entry,if_neg fun hc => hc.2 (List.mem_map.mpr ⟨x,hx,rfl⟩),h.filled.not_stored hp]
  simp

theorem entry_elsewhere (h : job.Settled k answers existing files slots undeleted before after)
    {path : Text} (hp : ∀ f ∈ files, Text.ofString f.path ≠ path)
    (hoff : ¬Text.ofString (job.folder ++ "/") <+: path) :
    k.held? after path = k.held? before path := by
  rw [h.entry,if_neg fun hc => hoff ((mem_stale ..).mp hc.1).2.1,h.filled.not_stored hp]
  simp

end Settled

theorem settled_of_settle {k : HistoryKind} {job : ScanJob} {answers : Text → Explanation → Prop}
    {access : HistoryAccess k.State} (hw : access.Within k.access) {before after : k.State}
    (hkeyed : k.Keyed before) {records : List Record} (hlist : access.list before = .ok records)
    {files : List FoundFile} {slots : List ScannedFile}
    (hfilled : job.Filled (byPath records) answers files slots) {report : ScanReport}
    (h : job.settle access before (byPath records) files slots = .ok (report,after)) :
    job.Settled k answers (byPath records) files slots report.undeleted before after := by
  have hlisted := hw.list hlist
  exact ⟨k.find?_byPath_list hkeyed hlisted,fun _ => held?_eq_none_of_listed k hlisted,hfilled,
    fun _ hx => mem_stale_of_settle h hx,held?_settle hw h⟩

theorem Finishes.reconciles {k : HistoryKind} {job : ScanJob} {answers : Text → Explanation → Prop}
    {access : HistoryAccess k.State} (hw : access.Within k.access) {before after : k.State}
    (hkeyed : k.Keyed before) (htree : job.tree.Listed) {report : ScanReport}
    (h : job.Finishes answers access before report after) :
    ∃ files, job.tree.walk job.selection job.root = .ok files ∧
      job.Reconciles k answers access files report.undeleted before after := by
  obtain ⟨hwalk,hlist,hfilled,hsettle⟩ := h
  have hs := settled_of_settle hw hkeyed hlist hfilled hsettle
  refine ⟨_,hwalk,?_,?_,?_,?_,?_,?_⟩
  · intro f hf source r hread hr hforce hhash
    apply hs.entry_of_kept hf
    intro source' hread'
    rw [hread] at hread'
    exact ⟨r,hr,by simp [keeps,hforce,hhash,← Except.ok.inj hread']⟩
  · intro f hf source hread hstale
    obtain ⟨g,hg,x,r,hgf,hx,hr,hafter⟩ := hs.entry_of_renewed hf hread fun r hr =>
      (job.keeps_eq_false_iff _ r).mpr (hstale r hr)
    -- No other file is found at this path.
    obtain rfl := List.inj_on_of_nodup_map (htree.nodup_paths hwalk) hg hf hgf
    refine ⟨x,r,hx,hr,hafter,?_⟩
    intro hfits
    rw [HistoryKind.recordAt?,hafter]
    exact k.record?_form hfits
  · intro f hf e hread
    apply hs.entry_of_kept hf
    intro source hsource
    simp [hread] at hsource
  · intro path hp hbelow hdeleted
    exact hs.entry_of_gone hp hbelow hdeleted
  · intro path e he
    exact ⟨deletionFails_of_settle hw (k.isOpen_of_list (hw.list hlist)) hfilled hsettle he,
      hs.entry_of_undeleted he⟩
  · intro path hp hoff
    exact hs.entry_elsewhere hp hoff

/-- A folder with a file that is as its record says, one that is new and one that must not be read. -/
def sampleScan : ScanJob where
  tree := { nodes := [(["p"],.folder),(["p","kept.py"],.file "x" 5),(["p","new.py"],.file "y" 6),
    (["p","secret.py"],.file "z" 7)] }
  root := "/p"
  selection := ⟨fun _ => true,fun _ => false⟩
  denied := ["/p/secret.py"]
  rule := fun source => ⟨{ name := source },{}⟩
  now := .unset

/-- Records of a file elsewhere, of one that is gone and of the one that has not changed. -/
def sampleLedger : Ledger :=
  ⟨[{ path := "/elsewhere.py" },{ path := "/p/gone.py" },
    { path := "/p/kept.py",hash := contentHash "x" }].map fun r : Record => (r.path,r)⟩

theorem keyed_sampleLedger : HistoryKind.memory.Keyed sampleLedger := by
  refine ⟨show (sampleLedger.records.map Prod.fst).Nodup by decide +kernel,?_⟩
  intro path e r he hr
  obtain ⟨r',_,hr'⟩ := List.mem_map.mp (show (path,e) ∈ sampleLedger.records from he)
  obtain ⟨hpath,hrecord⟩ := Prod.mk.inj hr'
  have hre : e = r := Option.some.inj hr
  rw [← hre,← hrecord,hpath]

end ScanJob
end CircuitNotes
