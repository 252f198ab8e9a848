import CircuitNotes.Proofs.RecordPruning

/-! What the workers of a scan leave in the slots. However they take their steps, every file found has
one slot, and in it stands what the file and its record ask for; an explanation was made for the content
of the file or was found in the cache under its digest. So the history is brought in line with the files
by any number of workers as it is by one. -/
namespace CircuitNotes
namespace ScanJob

variable {σ ε : Type}

/-! ### One worker -/

/-- Whether an explanation may be found under a digest in the course of a scan of these files that began
with an explainer: it was there before, or it is that of a file with this digest. -/
def Remembered (job : ScanJob) (files : List FoundFile) (e : Explainer) (digest : Text)
    (x : Explanation) : Prop :=
  (digest,x) ∈ e.cache.entries ∨
    ∃ f ∈ files, ∃ source, job.read f.path = .ok source ∧ contentHash source = digest ∧
      x = job.rule source

/-- What workers may explain a source as: what is remembered of its digest. -/
def Recalled (job : ScanJob) (files : List FoundFile) (e : Explainer) (source : Text)
    (x : Explanation) : Prop := job.Remembered files e (contentHash source) x

/-- Whether a worker is on the way to what its file may come to. -/
def Heading (job : ScanJob) (existing : Bucket Record) (answers : Text → Explanation → Prop)
    (f : FoundFile) : Stage → Prop
  | .launched | .calledOff | .started => True
  | .read source => job.read f.path = .ok source
  | .changed source | .missed source => job.read f.path = .ok source ∧
      (Bucket.find? existing f.path).filter (job.keeps (contentHash source)) = none
  | .made source x => (job.read f.path = .ok source ∧
      (Bucket.find? existing f.path).filter (job.keeps (contentHash source)) = none) ∧
      answers source x
  | .ready o | .written o | .counted o _ | .told o => job.Outcome existing answers f o

theorem outcome_explained {job : ScanJob} {existing : Bucket Record}
    {answers : Text → Explanation → Prop} {f : FoundFile} {source : Text} {x : Explanation}
    (h : job.read f.path = .ok source ∧
      (Bucket.find? existing f.path).filter (job.keeps (contentHash source)) = none)
    (hx : answers source x) (now : Instant) :
    job.Outcome existing answers f
      (.explained ({ job with now }.recordOf f (contentHash source) x)) :=
  .explained h.1 (fun _ => keeps_of_changed h.2) hx (recounts_recordOf { job with now } f source x)

def Remembers (job : ScanJob) (files : List FoundFile) (e : Explainer) (b : Board) : Prop :=
  ∀ digest x, (digest,x) ∈ b.explainer.cache.entries → job.Remembered files e digest x

section Act

variable {job : ScanJob} {existing : Bucket Record} {files : List FoundFile} {e : Explainer}
  {f : FoundFile} {b : Board} {stage : Stage}

theorem act_heading (hf : f ∈ files) (hb : job.Remembers files e b)
    (h : job.Heading existing (job.Recalled files e) f stage) (total : Nat) (now : Instant) :
    job.Heading existing (job.Recalled files e) f (job.act existing total now f b stage).1 := by
  cases stage with
  | launched =>
    simp only [act]
    split_ifs <;> trivial
  | started =>
    simp only [act]
    cases hread : job.read f.path with
    | error e => exact .unread hread
    | ok source => exact hread
  | read source =>
    simp only [act]
    cases hkept : (Bucket.find? existing f.path).filter (job.keeps (contentHash source)) with
    | some r =>
      obtain ⟨hfound,hkeeps⟩ := Option.filter_eq_some_iff.mp hkept
      exact .skipped h hfound hkeeps
    | none => exact ⟨h,hkept⟩
  | changed source =>
    cases hfound : (b.explainer.cache.get (contentHash source)).1 with
    | none =>
      rw [act_of_miss hfound]
      exact h
    | some x =>
      rw [act_of_hit hfound]
      have hx : job.Recalled files e source x := hb _ x (Recency.mem_of_get hfound)
      exact outcome_explained h hx now
  | missed source => exact ⟨h,Or.inr ⟨f,hf,source,h.1,rfl,rfl⟩⟩
  | made source x => exact outcome_explained h.1 h.2 now
  | calledOff | ready o | written o | counted o n | told o => exact h

/-- What a worker puts into the cache is an explanation of its own file. -/
theorem act_remembers (hb : job.Remembers files e b)
    (h : job.Heading existing (job.Recalled files e) f stage) (total : Nat) (now : Instant) :
    job.Remembers files e (job.act existing total now f b stage).2 := by
  cases stage with
  | started =>
    simp only [act]
    cases job.read f.path <;> exact hb
  | read source =>
    simp only [act]
    cases (Bucket.find? existing f.path).filter (job.keeps (contentHash source)) <;> exact hb
  | changed source =>
    cases hfound : (b.explainer.cache.get (contentHash source)).1 with
    | none =>
      rw [act_of_miss hfound]
      exact hb
    | some x =>
      rw [act_of_hit hfound]
      exact fun digest x hheld => hb digest x (Recency.mem_of_mem_get hheld)
  | made source x =>
    intro digest y hheld
    rcases Recency.mem_of_mem_put hheld with hnew | hheld
    · rw [(Prod.mk.inj hnew).1,(Prod.mk.inj hnew).2]
      exact h.2
    · exact hb digest y hheld
  | launched | calledOff | missed source | ready o | written o | counted o n | told o => exact hb

end Act

/-! ### All workers -/

/-- Whether slots are those of a scan that has walked the folder and listed the history. -/
def HoldsSlots (job : ScanJob) (access : HistoryAccess σ) (files : List FoundFile) (e : Explainer)
    (before : σ) (slots : List ScannedFile) : Prop :=
  ∃ records, access.list before = .ok records ∧
    job.Filled (byPath records) (job.Recalled files e) files slots

/-- What stands in the slots in each phase of a scan, or is on the way to them. -/
def KeepsSlots (job : ScanJob) (access : HistoryAccess σ) (files : List FoundFile) (e : Explainer)
    (before : σ) : Phase → Prop
  | .walking | .listing _ | .failed _ => True
  | .working files' existing waiting workers => workers.map Worker.file ++ waiting = files' ∧
      ∀ w ∈ workers, job.Heading existing (job.Recalled files e) w.file w.stage
  | .storing files' existing slots => job.Filled existing (job.Recalled files e) files' slots
  | .pruning slots _ _ _ => job.HoldsSlots access files e before slots
  | .finished report => job.HoldsSlots access files e before report.files

section KeepsSlots

variable {job : ScanJob} {access : HistoryAccess σ} {jobs : Nat} {before : σ} {s s' : Scanning σ}
  {files : List FoundFile} {e : Explainer}

theorem filled_of_over {existing : Bucket Record} {answers : Text → Explanation → Prop}
    {workers : List Worker} (hheading : ∀ w ∈ workers, job.Heading existing answers w.file w.stage)
    (hover : ∀ w ∈ workers, w.stage.isOver = true) (hon : ∀ w ∈ workers, w.stage ≠ .calledOff) :
    job.Filled existing answers (workers.map Worker.file) (workers.filterMap Worker.slot?) := by
  have hworkers := map_told_slots fun w hw => eq_told_of_over (hover w hw) (hon w hw)
  have hfiles : workers.map Worker.file = (workers.filterMap Worker.slot?).map ScannedFile.file := by
    conv_lhs => rw [← hworkers,List.map_map]
    rfl
  rw [hfiles,Filled,List.forall₂_map_left_iff,List.forall₂_same]
  intro s hs
  exact ⟨rfl,hheading ⟨s.file,.told s.outcome⟩ (hworkers ▸ List.mem_map.mpr ⟨s,hs,rfl⟩)⟩

theorem KeepsSlots.step (hwalk : job.tree.walk job.selection job.root = .ok files)
    (htracks : job.Tracks access before s) (hboard : job.Remembers files e s.board)
    (hs : job.KeepsSlots access files e before s.phase) (hstep : job.Step access jobs s s') :
    job.Remembers files e s'.board ∧ job.KeepsSlots access files e before s'.phase := by
  cases hstep with
  | found | unwalked | unlisted | stopped | unstored => exact ⟨hboard,trivial⟩
  | listed => exact ⟨hboard,List.nil_append _,by simp⟩
  | launch =>
    obtain ⟨hassigned,hheading⟩ := hs
    refine ⟨hboard,?_,?_⟩
    · rw [List.map_append,List.append_assoc]
      exact hassigned
    · intro w hw
      rcases List.mem_append.mp hw with hw | hw
      · exact hheading w hw
      · rw [List.mem_singleton.mp hw]
        trivial
  | @work _ _ _ _ _ _ _ f _ hstage now =>
    obtain ⟨hassigned,hheading⟩ := hs
    have hf : f ∈ files := by
      cases htracks with
      | working hwalk' =>
        cases hwalk.symm.trans hwalk'
        rw [← hassigned]
        simp
    simp only [List.forall_mem_append,List.forall_mem_cons] at hheading
    refine ⟨act_remembers hboard hheading.2.1 _ now,?_,?_⟩
    · rw [← hassigned,List.map_append,List.map_append]
      rfl
    · simp only [List.forall_mem_append,List.forall_mem_cons]
      exact ⟨hheading.1,act_heading hf hboard hheading.2.1 _ now,hheading.2.2⟩
  | gathered hover hon =>
    obtain ⟨hassigned,hheading⟩ := hs
    rw [List.append_nil] at hassigned
    subst hassigned
    exact ⟨hboard,filled_of_over hheading hover hon⟩
  | stored =>
    cases htracks with
    | storing hwalk' hlist =>
      cases hwalk.symm.trans hwalk'
      exact ⟨hboard,_,hlist,hs⟩
  | deleted | undeleted | finished | cancel => exact ⟨hboard,hs⟩

theorem KeepsSlots.runs (hwalk : job.tree.walk job.selection job.root = .ok files)
    (hruns : job.Runs access jobs (.start before e) s) :
    job.Remembers files e s.board ∧ job.KeepsSlots access files e before s.phase := by
  have htracks : job.Tracks access before (.start before e) := .walking
  induction hruns with
  | refl => exact ⟨fun _ _ => Or.inl,trivial⟩
  | tail hruns hstep ih => exact KeepsSlots.step hwalk (htracks.runs hruns) ih.1 ih.2 hstep

theorem phase_of_outcome? {report : ScanReport} {after : σ}
    (h : s.outcome? = some (.ok report,after)) : s.phase = .finished report := by
  obtain ⟨_,_,phase⟩ := s
  cases phase with
  | finished report' =>
    cases h
    rfl
  | _ => cases h

/-- However its workers take their steps, a scan that ends well finishes as one does that recalls
explanations. -/
theorem finishes_of_runs {report : ScanReport} {after : σ}
    (hruns : job.Runs access jobs (.start before e) s)
    (hout : s.outcome? = some (.ok report,after)) :
    ∃ files, job.tree.walk job.selection job.root = .ok files ∧
      job.Finishes (job.Recalled files e) access before report after := by
  obtain ⟨files,hwalk,records,slots,hlist,hsettle⟩ := settles_of_runs hruns hout
  have hholds := (KeepsSlots.runs hwalk hruns).2
  rw [phase_of_outcome? hout] at hholds
  obtain ⟨records',hlist',hfilled⟩ := hholds
  cases hlist.symm.trans hlist'
  rw [files_of_settle hsettle] at hfilled
  exact ⟨files,hwalk,.intro hwalk hlist hfilled hsettle⟩

end KeepsSlots

/-! ### The history -/

/-- What is recalled is what the rule says of the source, if contents are told apart by their digests
and the explainer was used with the rule. -/
theorem Recalled.eq_rule {job : ScanJob} {files : List FoundFile} {e : Explainer} {contents : Set Text}
    (hinj : Set.InjOn contentHash contents) (hreads : job.Reads files contents)
    (he : e.cache.Recalls job.rule contents) {source : Text} (hsource : source ∈ contents)
    {x : Explanation} (h : job.Recalled files e source x) : x = job.rule source := by
  rcases h with hheld | ⟨f,hf,source',hread,hdigest,rfl⟩
  · exact he.eq_rule hinj hsource hheld
  · rw [hinj (hreads f hf source' hread) hsource hdigest]

theorem Reconciles.mono {job : ScanJob} {k : HistoryKind} {answers answers' : Text → Explanation → Prop}
    {access : HistoryAccess k.State} {files : List FoundFile} {undeleted : List (Text × HistoryError)}
    {before after : k.State} (h : job.Reconciles k answers access files undeleted before after)
    (hanswers : ∀ f ∈ files, ∀ source x, job.read f.path = .ok source → answers source x →
      answers' source x) : job.Reconciles k answers' access files undeleted before after := by
  refine { h with renewed := ?_ }
  intro f hf source hread hstale
  obtain ⟨x,r,hx,hrest⟩ := h.renewed f hf source hread hstale
  exact ⟨x,r,hanswers f hf source x hread hx,hrest⟩

/-- A scan that ends well leaves in the history exactly what the files ask for, in both ways of keeping
a history and when its operations may also fail: one that takes the files in order and explains them in
any way, and one by any number of workers through the cache. What the workers explain files as is what
the rule says of them, as far as contents are told apart by their digests. -/
theorem scan_reconciles_history (k : HistoryKind) (job : ScanJob) {access : HistoryAccess k.State}
    (hw : access.Within k.access) {before : k.State} (hkeyed : k.Keyed before)
    (htree : job.tree.Listed) :
    (∀ (ε : Type) (explain : Explaining ε) (e e' : ε) (report : ScanReport) (after : k.State),
      job.runWith explain access ⟨before,e⟩ = (.ok report,⟨after,e'⟩) →
      ∃ files, job.tree.walk job.selection job.root = .ok files ∧
        job.Reconciles k (job.Answers explain e) access files report.undeleted before after) ∧
    ∀ (jobs : Nat) (e : Explainer) (s : Scanning k.State) (report : ScanReport) (after : k.State),
      job.Runs access jobs (.start before e) s → s.outcome? = some (.ok report,after) →
      ∃ files, job.tree.walk job.selection job.root = .ok files ∧
        job.Reconciles k (job.Recalled files e) access files report.undeleted before after ∧
        ∀ contents, Set.InjOn contentHash contents → job.Reads files contents →
          e.cache.Recalls job.rule contents →
          job.Reconciles k (fun source x => x = job.rule source) access files report.undeleted before
            after := by
  refine ⟨?_,?_⟩
  · intro ε explain e e' report after hrun
    exact (job.finishes_of_runWith explain access hrun).reconciles hw hkeyed htree
  · intro jobs e s report after hruns hout
    obtain ⟨files,hwalk,hfinishes⟩ := finishes_of_runs hruns hout
    obtain ⟨files',hwalk',hreconciles⟩ := hfinishes.reconciles hw hkeyed htree
    cases hwalk.symm.trans hwalk'
    refine ⟨files,hwalk,hreconciles,?_⟩
    intro contents hinj hreads he
    refine hreconciles.mono fun f hf source x hread hx => ?_
    exact hx.eq_rule hinj hreads he (hreads f hf source hread)

theorem listed_sampleScan : sampleScan.tree.Listed :=
  ⟨⟨by decide +kernel,by decide +kernel,by decide +kernel⟩,by decide +kernel⟩

/-- Two workers, of which one finds a new file, and a history that deletes nothing. -/
theorem scan_reconciles_history_sample :
    ∃ s report after, sampleScan.Runs (Ledger.access.refusing ["delete"]) 2
        (.start sampleLedger ⟨.empty 0,0⟩) s ∧ s.outcome? = some (.ok report,after) ∧
      sampleScan.Reconciles .memory (fun source x => x = sampleScan.rule source)
        (Ledger.access.refusing ["delete"]) sampleFiles report.undeleted sampleLedger after ∧
      ∃ r, HistoryKind.memory.recordAt? after "/p/new.py" = some r ∧ r.hash = contentHash "y" ∧
        r.modified = 6 ∧ r.circuit.name = "y" := by
  have hok : (sampleScan.run (Ledger.access.refusing ["delete"])
      ⟨sampleLedger,⟨.empty 0,0⟩⟩).1.isOk = true := by
    unfold run runWith
    rw [walk_sampleScan]
    decide +kernel
  have hinorder : ∃ s, sampleScan.Runs (Ledger.access.refusing ["delete"]) 2
      (.start sampleLedger ⟨.empty 0,0⟩) s ∧ _ := runs_in_order rfl sampleLedger ⟨.empty 0,0⟩
  obtain ⟨s,hruns,-,hout,-⟩ := hinorder
  rcases hrun : sampleScan.run (Ledger.access.refusing ["delete"]) ⟨sampleLedger,⟨.empty 0,0⟩⟩ with
    ⟨result,after,_⟩
  rw [hrun] at hok hout
  cases result with
  | error e => cases hok
  | ok report =>
    obtain ⟨files,hwalk,-,hrule⟩ := (scan_reconciles_history .memory sampleScan
      (HistoryAccess.within_refusing Ledger.access ["delete"]) keyed_sampleLedger
      listed_sampleScan).2 2 ⟨.empty 0,0⟩ s report after hruns hout
    cases walk_sampleScan.symm.trans hwalk
    have hreconciles := hrule _ injOn_sampleContents (reads_sampleScan _ walk_sampleScan)
      (Recency.recalls_empty _ _ 0)
    obtain ⟨x,r,rfl,hr,-,hrecord⟩ := hreconciles.renewed ⟨"/p/new.py","new.py",6,1⟩ (by decide) "y"
      (by decide +kernel) (by decide +kernel)
    exact ⟨s,report,after,hruns,hout,hreconciles,r,hrecord trivial,hr.hash,hr.modified,
      congrArg Circuit.name hr.circuit⟩

end ScanJob
end CircuitNotes
