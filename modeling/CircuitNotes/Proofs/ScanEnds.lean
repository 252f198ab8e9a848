import CircuitNotes.Proofs.CachedExplaining
import CircuitNotes.Proofs.ScanReconciliation

/-! What a scan comes to depends on the slots of its files in few ways: whether the history is settled
is decided by the paths of the fresh records alone, and which deletions fail depends neither on what the
history holds nor on the order in which the paths come up. So two scans whose slots agree in their paths
end in the same way. -/
namespace CircuitNotes

variable {σ ε : Type}

/-! ### Reports -/

/-- What a record says of the content of its file. -/
def Record.gist (r : Record) : Text × Explanation := (r.hash,r.explanation)

def ScannedFile.gist (s : ScannedFile) : FoundFile × Option String × Option (Text × Explanation) :=
  (s.file,s.failure?,s.record?.map Record.gist)

namespace ScanReport

/-- Reports that tell the same of every file, in the same order, and the same of the records to be
deleted, in some order. -/
structure SameGist (report report' : ScanReport) : Prop where
  files : report.files.map ScannedFile.gist = report'.files.map ScannedFile.gist
  gatesFound : report.gatesFound = report'.gatesFound
  deletedCount : report.deletedCount = report'.deletedCount
  deleted : report.deleted.Perm report'.deleted
  fileErrors : report.fileErrors = report'.fileErrors
  recordErrors : report.recordErrors.Perm report'.recordErrors

theorem gatesFound_eq (report : ScanReport) : report.gatesFound =
    ((report.files.map ScannedFile.gist).filterMap fun g => g.2.2).foldl
      (fun total g => total+g.2.circuit.gateCount) 0 := by
  have hgists : ((report.files.map ScannedFile.gist).filterMap fun g => g.2.2) =
      (report.files.filterMap ScannedFile.record?).map Record.gist := by
    rw [List.filterMap_map,List.map_filterMap]
    rfl
  rw [hgists,List.foldl_map]
  rfl

theorem fileErrors_eq (report : ScanReport) : report.fileErrors =
    (report.files.map ScannedFile.gist).filterMap fun g =>
      g.2.1.map fun f => Text.ofString (g.1.rel ++ ": " ++ f) := by
  rw [List.filterMap_map]
  rfl

theorem sameGist_of_files {report report' : ScanReport}
    (h : report.files.map ScannedFile.gist = report'.files.map ScannedFile.gist)
    (hdeleted : report.deleted.Perm report'.deleted)
    (hundeleted : report.undeleted.Perm report'.undeleted) : SameGist report report' := by
  refine ⟨h,?_,hdeleted.length_eq,hdeleted,?_,hundeleted.map _⟩
  · rw [gatesFound_eq,gatesFound_eq,h]
  · rw [fileErrors_eq,fileErrors_eq,h]

end ScanReport

/-! ### Histories that may refuse -/

namespace HistoryKind

/-- An access to a history that may also refuse, whatever the history holds, to be listed, to store, or
to delete what stands at certain paths. -/
structure MayRefuse (k : HistoryKind) (access : HistoryAccess k.State) : Prop where
  list : access.list = k.access.list ∨ ∃ e, ∀ s, access.list s = .error e
  putAll : access.putAll = k.access.putAll ∨ ∃ e, ∀ s rs, access.putAll s rs = .error e
  delete : ∀ path, (∀ s, access.delete s path = k.access.delete s path) ∨
    ∃ e, ∀ s, access.delete s path = .error e

theorem mayRefuse_refusing (k : HistoryKind) (operations : List String) :
    k.MayRefuse (k.access.refusing operations) := by
  refine ⟨?_,?_,fun path => ?_⟩
  · by_cases h : "list" ∈ operations
    · exact Or.inr ⟨.refused "list",fun s => if_pos h⟩
    · exact Or.inl (funext fun s => if_neg h)
  · by_cases h : "put" ∈ operations
    · exact Or.inr ⟨.refused "put",fun s rs => if_pos h⟩
    · exact Or.inl (funext fun s => funext fun rs => if_neg h)
  · by_cases h : "delete" ∈ operations
    · exact Or.inr ⟨.refused "delete",fun s => if_pos h⟩
    · exact Or.inl fun s => if_neg h

theorem MayRefuse.within {k : HistoryKind} {access : HistoryAccess k.State}
    (h : k.MayRefuse access) : access.Within k.access := by
  refine ⟨?_,?_,?_⟩
  · intro s rs hs
    rcases h.list with hsame | ⟨e,he⟩
    · rwa [hsame] at hs
    · simp [he] at hs
  · intro s rs s' hs
    rcases h.putAll with hsame | ⟨e,he⟩
    · rwa [hsame] at hs
    · simp [he] at hs
  · intro s path s' hs
    rcases h.delete path with hsame | ⟨e,he⟩
    · rwa [hsame] at hs
    · simp [he] at hs

end HistoryKind

namespace ScanJob

/-! ### Settling -/

def freshOf (slots : List ScannedFile) : List Record := slots.filterMap ScannedFile.explained?

def store (access : HistoryAccess σ) (history : σ) (fresh : List Record) : Except HistoryError σ :=
  if fresh.isEmpty then .ok history else access.putAll history fresh

theorem settle_of_unstored (job : ScanJob) (existing : Bucket Record) (files : List FoundFile)
    {access : HistoryAccess σ} {before : σ} {slots : List ScannedFile} {e : HistoryError}
    (h : store access before (freshOf slots) = .error e) :
    job.settle access before existing files slots = .error (.unstored e) := by
  rw [store,freshOf] at h
  rw [settle,h]

theorem settle_of_stored (job : ScanJob) (existing : Bucket Record) (files : List FoundFile)
    {access : HistoryAccess σ} {before middle : σ} {slots : List ScannedFile}
    (h : store access before (freshOf slots) = .ok middle) :
    job.settle access before existing files slots =
      .ok (⟨slots,(prune access middle (job.stale existing files)).2.1,
        (prune access middle (job.stale existing files)).2.2⟩,
        (prune access middle (job.stale existing files)).1) := by
  rw [store,freshOf] at h
  rw [settle,h]

section Alike

variable {k : HistoryKind} {access : HistoryAccess k.State}

/-- Which deletions fail and why is said path by path, whatever the history holds. -/
theorem exists_fault (hm : k.MayRefuse access) : ∃ fault? : Text → Option HistoryError,
    ∀ s, k.IsOpen s → ∀ paths, (prune access s paths).2 =
      (paths.filter fun path => (fault? path).isNone,
        paths.filterMap fun path => (fault? path).map (path,·)) := by
  have hfault (path : Text) : ∃ fault? : Option HistoryError, ∀ s, k.IsOpen s → match fault? with
      | none => ∃ s', access.delete s path = .ok s' ∧ k.IsOpen s'
      | some e => access.delete s path = .error e := by
    rcases hm.delete path with hsame | ⟨e,he⟩
    · exact ⟨none,fun s hs => by simpa only [hsame] using k.delete_of_isOpen hs path⟩
    · exact ⟨some e,fun s _ => he s⟩
  choose fault? hfault using hfault
  refine ⟨fault?,?_⟩
  intro s hs paths
  induction paths generalizing s with
  | nil => rfl
  | cons path rest ih =>
    have hpath := hfault path s hs
    cases hcase : fault? path with
    | none =>
      rw [hcase] at hpath
      obtain ⟨s',hdelete,hs'⟩ := hpath
      rw [prune_cons_ok hdelete,ih s' hs']
      simp [hcase]
    | some e =>
      rw [hcase] at hpath
      rw [prune_cons_error hpath,ih s hs]
      simp [hcase]

/-- What pruning reports depends neither on what the history holds nor on the order of the paths. -/
theorem prune_alike (hm : k.MayRefuse access) {s s' : k.State} (hs : k.IsOpen s) (hs' : k.IsOpen s')
    {paths paths' : List Text} (h : paths.Perm paths') :
    (prune access s paths).2.1.Perm (prune access s' paths').2.1 ∧
      (prune access s paths).2.2.Perm (prune access s' paths').2.2 := by
  obtain ⟨fault?,hfault⟩ := exists_fault hm
  rw [hfault s hs,hfault s' hs']
  exact ⟨h.filter _,h.filterMap _⟩

theorem store_of_kept (hput : access.putAll = k.access.putAll) {s : k.State} (hs : k.IsOpen s)
    (fresh : List Record) :
    (∃ e, k.batchFault? fresh = some e ∧ store access s fresh = .error e) ∨
      k.batchFault? fresh = none ∧ ∃ s', store access s fresh = .ok s' ∧ k.IsOpen s' := by
  cases fresh with
  | nil => exact Or.inr ⟨rfl,s,rfl,hs⟩
  | cons r rest =>
    simp only [store,List.isEmpty_cons,Bool.false_eq_true,if_false,hput]
    exact k.putAll_of_isOpen hs (r :: rest)

/-- Whether fresh records are stored depends on nothing but the faults of their paths, and on whether
there are any in a history that refuses all of them. -/
theorem store_alike (hm : k.MayRefuse access) {s : k.State} (hs : k.IsOpen s)
    {fresh fresh' : List Record} (hfault : k.batchFault? fresh = k.batchFault? fresh')
    (hput : access.putAll = k.access.putAll ∨ (fresh = [] ↔ fresh' = [])) :
    (∃ e, store access s fresh = .error e ∧ store access s fresh' = .error e) ∨
      ∃ t t', store access s fresh = .ok t ∧ store access s fresh' = .ok t' ∧
        k.IsOpen t ∧ k.IsOpen t' := by
  have hkept (hput : access.putAll = k.access.putAll) :
      (∃ e, store access s fresh = .error e ∧ store access s fresh' = .error e) ∨
        ∃ t t', store access s fresh = .ok t ∧ store access s fresh' = .ok t' ∧
          k.IsOpen t ∧ k.IsOpen t' := by
    rcases store_of_kept hput hs fresh with ⟨e,he,hstore⟩ | ⟨hnone,t,hstore,ht⟩ <;>
      rcases store_of_kept hput hs fresh' with ⟨e',he',hstore'⟩ | ⟨hnone',t',hstore',ht'⟩
    · rw [hfault,he'] at he
      exact Or.inl ⟨e,hstore,by rw [hstore',Option.some.inj he]⟩
    · simp [hfault,hnone'] at he
    · simp [← hfault,hnone] at he'
    · exact Or.inr ⟨t,t',hstore,hstore',ht,ht'⟩
  rcases hput with hput | hempty
  · exact hkept hput
  · rcases hm.putAll with hput | ⟨e,he⟩
    · exact hkept hput
    · by_cases hnil : fresh = []
      · exact Or.inr ⟨s,s,by simp [store,hnil],by simp [store,hempty.mp hnil],hs,hs⟩
      · have hnil' : fresh' ≠ [] := fun h => hnil (hempty.mpr h)
        exact Or.inl ⟨e,by simp [store,hnil,he],by simp [store,hnil',he]⟩

/-- Two fillings of the slots whose fresh records are stored alike lead to the same failure, or to
reports that differ in the slots and in the order of the records to be deleted only. -/
theorem settle_alike (job : ScanJob) (order : Arrangement) (hm : k.MayRefuse access)
    {before : k.State} (hopen : k.IsOpen before) (existing : Bucket Record) (files : List FoundFile)
    {slots slots' : List ScannedFile}
    (hfault : k.batchFault? (freshOf slots) = k.batchFault? (freshOf slots'))
    (hput : access.putAll = k.access.putAll ∨ (freshOf slots = [] ↔ freshOf slots' = [])) :
    (∃ e, job.settle access before existing files slots = .error e ∧
        { job with order }.settle access before existing files slots' = .error e) ∨
      ∃ report report' after after',
        job.settle access before existing files slots = .ok (report,after) ∧
        { job with order }.settle access before existing files slots' = .ok (report',after') ∧
        report.deleted.Perm report'.deleted ∧ report.undeleted.Perm report'.undeleted := by
  rcases store_alike hm hopen hfault hput with ⟨e,he,he'⟩ | ⟨t,t',ht,ht',hopent,hopent'⟩
  · exact Or.inl ⟨.unstored e,job.settle_of_unstored existing files he,
      { job with order }.settle_of_unstored existing files he'⟩
  · obtain ⟨hdeleted,hundeleted⟩ :=
      prune_alike hm hopent hopent' (job.perm_stale order existing files)
    exact Or.inr ⟨_,_,_,_,job.settle_of_stored existing files ht,
      { job with order }.settle_of_stored existing files ht',hdeleted,hundeleted⟩

end Alike

/-! ### Files one by one -/

def bare (job : ScanJob) : Explaining Unit := fun u source => (job.rule source,u)

def cached (job : ScanJob) : Explaining Explainer := fun e source => e.explain job.rule source

/-- What a file comes to if its source is explained by the rule itself. -/
def plain (job : ScanJob) (existing : Bucket Record) (f : FoundFile) : ScannedFile :=
  (job.scanFile job.bare existing () f).1

theorem plain_of_unread {job : ScanJob} {f : FoundFile} {e : ReadError}
    (h : job.read f.path = .error e) (existing : Bucket Record) :
    job.plain existing f = ⟨f,.unread e⟩ := by
  rw [plain,scanFile_of_unread h]

theorem plain_of_kept {job : ScanJob} {existing : Bucket Record} {f : FoundFile} {source : Text}
    {r : Record} (hread : job.read f.path = .ok source)
    (hkept : (Bucket.find? existing f.path).filter (job.keeps (contentHash source)) = some r) :
    job.plain existing f = ⟨f,.skipped r⟩ := by
  rw [plain,scanFile_of_kept hread hkept]

theorem plain_of_changed {job : ScanJob} {existing : Bucket Record} {f : FoundFile} {source : Text}
    (hread : job.read f.path = .ok source)
    (hnone : (Bucket.find? existing f.path).filter (job.keeps (contentHash source)) = none) :
    job.plain existing f =
      ⟨f,.explained (job.recordOf f (contentHash source) (job.rule source))⟩ := by
  rw [plain,scanFile_of_changed hread hnone,bare]

theorem exists_plain (job : ScanJob) (existing : Bucket Record) (f : FoundFile) :
    ∃ o, job.plain existing f = ⟨f,o⟩ ∧
      job.Outcome existing (fun source x => x = job.rule source) f o := by
  obtain ⟨hfile,houtcome,-⟩ := job.scanFile_outcome job.bare existing () f
  exact ⟨_,congrArg (ScannedFile.mk · _) hfile,houtcome⟩

theorem mem_freshOf_plain {job : ScanJob} {existing : Bucket Record} {files : List FoundFile}
    {r : Record} (h : r ∈ freshOf (files.map (job.plain existing))) :
    ∃ f ∈ files, ∃ source, job.read f.path = .ok source ∧
      r = job.recordOf f (contentHash source) (job.rule source) := by
  rw [freshOf,List.filterMap_map,List.mem_filterMap] at h
  obtain ⟨f,hf,hr⟩ := h
  rw [Function.comp_apply] at hr
  refine ⟨f,hf,?_⟩
  cases hread : job.read f.path with
  | error e =>
    rw [plain_of_unread hread] at hr
    cases hr
  | ok source =>
    cases hkept : (Bucket.find? existing f.path).filter (job.keeps (contentHash source)) with
    | some kept =>
      rw [plain_of_kept hread hkept] at hr
      cases hr
    | none =>
      rw [plain_of_changed hread hkept] at hr
      cases hr
      exact ⟨source,rfl,rfl⟩

/-- Slots that are filled by the rule itself. -/
def PlainSlots (job : ScanJob) (existing : Bucket Record) (files : List FoundFile)
    (slots : List ScannedFile) : Prop := slots = files.map (job.plain existing)

theorem filled_plain (job : ScanJob) (existing : Bucket Record) (files : List FoundFile) :
    job.Filled existing (fun source x => x = job.rule source) files
      (files.map (job.plain existing)) := by
  rw [Filled,List.forall₂_map_right_iff,List.forall₂_same]
  intro f _
  obtain ⟨o,ho,houtcome⟩ := job.exists_plain existing f
  rw [ho]
  exact ⟨rfl,houtcome⟩

/-- A way of explaining that answers as the rule does for some contents, and goes on to do so while it
is in one of certain states. -/
def ByRule (job : ScanJob) (explain : Explaining ε) (states : Set ε) (contents : Set Text) : Prop :=
  ∀ e ∈ states, ∀ source ∈ contents,
    (explain e source).1 = job.rule source ∧ (explain e source).2 ∈ states

theorem byRule_bare (job : ScanJob) (contents : Set Text) : job.ByRule job.bare Set.univ contents :=
  fun _ _ _ _ => ⟨rfl,trivial⟩

theorem byRule_cached (job : ScanJob) {contents : Set Text}
    (hinj : Set.InjOn contentHash contents) :
    job.ByRule job.cached {e | e.cache.Recalls job.rule contents} contents := by
  intro e he source hsource
  obtain ⟨hrule,hnext⟩ := Explainer.explain_eq_rule he hinj hsource
  exact ⟨hrule,hnext⟩

/-- Nothing but these contents is read from the files. -/
def Reads (job : ScanJob) (files : List FoundFile) (contents : Set Text) : Prop :=
  ∀ f ∈ files, ∀ source, job.read f.path = .ok source → source ∈ contents

section ByRule

variable {job : ScanJob} {explain : Explaining ε} {states : Set ε} {contents : Set Text}

theorem scanFile_plain (h : job.ByRule explain states contents) {e : ε} (he : e ∈ states)
    (existing : Bucket Record) {f : FoundFile}
    (hf : ∀ source, job.read f.path = .ok source → source ∈ contents) :
    (job.scanFile explain existing e f).1 = job.plain existing f ∧
      (job.scanFile explain existing e f).2 ∈ states := by
  cases hread : job.read f.path with
  | error fault =>
    rw [scanFile_of_unread hread,plain_of_unread hread]
    exact ⟨rfl,he⟩
  | ok source =>
    obtain ⟨hrule,hnext⟩ := h e he source (hf source hread)
    cases hkept : (Bucket.find? existing f.path).filter (job.keeps (contentHash source)) with
    | some r =>
      rw [scanFile_of_kept hread hkept,plain_of_kept hread hkept]
      exact ⟨rfl,he⟩
    | none =>
      rw [scanFile_of_changed hread hkept,plain_of_changed hread hkept,hrule]
      exact ⟨rfl,hnext⟩

theorem scanFiles_plain (h : job.ByRule explain states contents) {e : ε} (he : e ∈ states)
    (existing : Bucket Record) {files : List FoundFile} (hfiles : job.Reads files contents) :
    job.PlainSlots existing files (job.scanFiles explain existing e files).1 := by
  induction files generalizing e with
  | nil => rfl
  | cons f rest ih =>
    obtain ⟨hfile,hnext⟩ := scanFile_plain h he existing (hfiles f List.mem_cons_self)
    have hrest := ih hnext fun g hg => hfiles g (List.mem_cons_of_mem _ hg)
    rw [PlainSlots,scanFiles_cons,hfile,hrest]
    rfl

end ByRule

/-! ### Ends of scans -/

def withHistory (x : Except ScanError ScanReport × ScanState σ ε) :
    Except ScanError ScanReport × σ := (x.1,x.2.history)

/-- What a scan comes to once the history was settled, or was not. -/
def ended (before : σ) : Except ScanError (ScanReport × σ) → Except ScanError ScanReport × σ
  | .error e => (.error e,before)
  | .ok (report,after) => (.ok report,after)

/-- What a scan may come to, with the history that it leaves; `off` says for which files it is called
off, and `fill` how the slots may be filled. -/
inductive Ends (job : ScanJob) (access : HistoryAccess σ) (before : σ) (off : List FoundFile → Prop)
    (fill : Bucket Record → List FoundFile → List ScannedFile → Prop) :
    Except ScanError ScanReport × σ → Prop
  | unwalked {e : FileError} (hwalk : job.tree.walk job.selection job.root = .error e) :
      Ends job access before off fill (.error (.unwalked e),before)
  | unlisted {files : List FoundFile} {e : HistoryError}
      (hwalk : job.tree.walk job.selection job.root = .ok files)
      (hlist : access.list before = .error e) :
      Ends job access before off fill (.error (.unlisted e),before)
  | cancelled {files : List FoundFile} {records : List Record}
      (hwalk : job.tree.walk job.selection job.root = .ok files)
      (hlist : access.list before = .ok records) (hoff : off files) :
      Ends job access before off fill (.error .cancelled,before)
  | gathered {files : List FoundFile} {records : List Record} {slots : List ScannedFile}
      (hwalk : job.tree.walk job.selection job.root = .ok files)
      (hlist : access.list before = .ok records) (hoff : ¬off files)
      (hfill : fill (byPath records) files slots) :
      Ends job access before off fill
        (ended before (job.settle access before (byPath records) files slots))

theorem Ends.of_settle {job : ScanJob} {access : HistoryAccess σ} {before : σ}
    {off : List FoundFile → Prop} {fill : Bucket Record → List FoundFile → List ScannedFile → Prop}
    {files : List FoundFile} {records : List Record} {slots : List ScannedFile}
    {settled : Except ScanError (ScanReport × σ)}
    (hwalk : job.tree.walk job.selection job.root = .ok files)
    (hlist : access.list before = .ok records) (hoff : ¬off files)
    (hfill : fill (byPath records) files slots)
    (hsettle : job.settle access before (byPath records) files slots = settled) :
    job.Ends access before off fill (ended before settled) := by
  rw [← hsettle]
  exact .gathered hwalk hlist hoff hfill

theorem Ends.mono {job : ScanJob} {access : HistoryAccess σ} {before : σ}
    {off : List FoundFile → Prop} {fill fill' : Bucket Record → List FoundFile → List ScannedFile → Prop}
    {x : Except ScanError ScanReport × σ} (h : job.Ends access before off fill x)
    (hfill : ∀ {existing files slots}, fill existing files slots → fill' existing files slots) :
    job.Ends access before off fill' x := by
  cases h with
  | unwalked hwalk => exact .unwalked hwalk
  | unlisted hwalk hlist => exact .unlisted hwalk hlist
  | cancelled hwalk hlist hoff => exact .cancelled hwalk hlist hoff
  | gathered hwalk hlist hoff hslots => exact .gathered hwalk hlist hoff (hfill hslots)

/-- A scan of the files one after another. -/
theorem runWith_ends {job : ScanJob} {explain : Explaining ε} {states : Set ε} {contents : Set Text}
    (h : job.ByRule explain states contents)
    (hreads : ∀ files, job.tree.walk job.selection job.root = .ok files → job.Reads files contents)
    (access : HistoryAccess σ) (before : σ) {e : ε} (he : e ∈ states) :
    job.Ends access before (fun files => (job.reached files).length < files.length) job.PlainSlots
      (withHistory (job.runWith explain access ⟨before,e⟩)) := by
  unfold withHistory runWith
  cases hwalk : job.tree.walk job.selection job.root with
  | error fault => exact .unwalked hwalk
  | ok files =>
    cases hlist : access.list before with
    | error fault => exact .unlisted hwalk hlist
    | ok records =>
      by_cases hshort : (job.reached files).length < files.length
      · simp only [if_pos hshort]
        exact .cancelled hwalk hlist hshort
      · have hslots : _ = _ := scanFiles_plain h he (byPath records) (hreads files hwalk)
        simp only [eq_of_reached job hshort,hslots,lt_irrefl,if_false]
        cases hsettle : job.settle access before (byPath records) files
            (files.map (job.plain (byPath records))) with
        | error fault => exact .of_settle hwalk hlist hshort rfl hsettle
        | ok settled => exact .of_settle hwalk hlist hshort rfl hsettle

/-- Two scans of one history, each with an order of its own for the records to be deleted, that fail
alike, or end well with reports that differ in their slots and in that order only. -/
inductive EndAlike (job : ScanJob) (order : Arrangement) (access : HistoryAccess σ) (before : σ)
    (fill fill' : Bucket Record → List FoundFile → List ScannedFile → Prop) :
    Except ScanError ScanReport × σ → Except ScanError ScanReport × σ → Prop
  | failed {e : ScanError} :
      EndAlike job order access before fill fill' (.error e,before) (.error e,before)
  | settled {files : List FoundFile} {records : List Record} {slots slots' : List ScannedFile}
      {report report' : ScanReport} {after after' : σ}
      (hwalk : job.tree.walk job.selection job.root = .ok files)
      (hlist : access.list before = .ok records)
      (hfill : fill (byPath records) files slots) (hfill' : fill' (byPath records) files slots')
      (hsettle : job.settle access before (byPath records) files slots = .ok (report,after))
      (hsettle' : { job with order }.settle access before (byPath records) files slots' =
        .ok (report',after'))
      (hdeleted : report.deleted.Perm report'.deleted)
      (hundeleted : report.undeleted.Perm report'.undeleted) :
      EndAlike job order access before fill fill' (.ok report,after) (.ok report',after')

/-- Scans that are called off for the same files end alike if their fresh records are stored alike. -/
theorem Ends.alike {k : HistoryKind} {job : ScanJob} {order : Arrangement}
    {access : HistoryAccess k.State} (hm : k.MayRefuse access) {before : k.State}
    {off : List FoundFile → Prop}
    {fill fill' : Bucket Record → List FoundFile → List ScannedFile → Prop}
    (hstored : ∀ {records files slots slots'},
      job.tree.walk job.selection job.root = .ok files → access.list before = .ok records →
      fill (byPath records) files slots → fill' (byPath records) files slots' →
      k.batchFault? (freshOf slots) = k.batchFault? (freshOf slots') ∧
        (access.putAll = k.access.putAll ∨ (freshOf slots = [] ↔ freshOf slots' = [])))
    {x x' : Except ScanError ScanReport × k.State} (h : job.Ends access before off fill x)
    (h' : { job with order }.Ends access before off fill' x') :
    job.EndAlike order access before fill fill' x x' := by
  -- Whether the walk and the listing fail and the scan is called off is the same for both.
  cases h with
  | unwalked hwalk =>
    cases h'
    case unwalked hwalk' =>
      cases hwalk.symm.trans hwalk'
      exact .failed
    all_goals simp_all
  | unlisted hwalk hlist =>
    cases h'
    case unlisted hwalk' hlist' =>
      cases hlist.symm.trans hlist'
      exact .failed
    all_goals simp_all
  | cancelled hwalk hlist hoff =>
    cases h'
    case cancelled => exact .failed
    all_goals simp_all
  | gathered hwalk hlist hoff hfill =>
    cases h'
    case gathered hwalk' hlist' hoff' hfill' =>
      cases hwalk.symm.trans hwalk'
      cases hlist.symm.trans hlist'
      have hopen := k.isOpen_of_list (hm.within.list hlist)
      obtain ⟨hfault,hput⟩ := hstored hwalk hlist hfill hfill'
      rcases job.settle_alike order hm hopen _ _ hfault hput with
        ⟨e,he,he'⟩ | ⟨_,_,_,_,hs,hs',hdeleted,hundeleted⟩
      · rw [he,he']
        exact .failed
      · rw [hs,hs']
        exact .settled hwalk hlist hfill hfill' hs hs' hdeleted hundeleted
    all_goals simp_all

/-! ### A sample -/

def sampleContents : List Text := ["w","x","y"]

theorem injOn_sampleContents : Set.InjOn contentHash {s | s ∈ sampleContents} :=
  fun _ hs _ hs' h => List.inj_on_of_nodup_map
    (show (sampleContents.map contentHash).Nodup by decide +kernel) hs hs' h

def sampleFiles : List FoundFile :=
  [⟨"/p/kept.py","kept.py",5,1⟩,⟨"/p/new.py","new.py",6,1⟩,⟨"/p/secret.py","secret.py",7,1⟩]

theorem walk_sampleScan :
    sampleScan.tree.walk sampleScan.selection sampleScan.root = .ok sampleFiles :=
  FileTree.walk_of_visit ["p"] (by decide +kernel) (by decide +kernel) (by decide +kernel)

theorem reads_sampleScan (files : List FoundFile)
    (h : sampleScan.tree.walk sampleScan.selection sampleScan.root = .ok files) :
    sampleScan.Reads files {s | s ∈ sampleContents} := by
  have hall : ∀ f ∈ sampleFiles, ∀ source ∈ (sampleScan.read f.path).toOption,
      source ∈ sampleContents := by decide +kernel
  intro f hf source hsource
  rw [← Except.ok.inj (walk_sampleScan.symm.trans h)] at hf
  exact hall f hf source (by rw [hsource]; rfl)

end ScanJob
end CircuitNotes
