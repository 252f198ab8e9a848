import CircuitNotes.Proofs.ScanEnds

/-! A scan leaves out the files that have not changed and looks explanations up in a cache, and nobody
can tell: one that explains every file by the rule itself comes to the same. Both give a readable
file the digest of its content and the explanation of that content, whether they make a record or
keep one. -/
namespace CircuitNotes

/-- A history whose records stand under their own paths, which it takes, and explain contents with the
digests they name. -/
structure HistoryKind.Faithful (k : HistoryKind) (rule : Text → Explanation) (contents : Set Text)
    (s : k.State) : Prop where
  keyed : k.Keyed s
  taken : ∀ path, (k.held? s path).isSome → k.keyFault? path = none
  explained : ∀ path r, k.recordAt? s path = some r →
    ∃ source ∈ contents, r.gist = (contentHash source,rule source)

theorem Record.Recounts.gist {r : Record} {f : FoundFile} {source : Text}
    {x : Explanation} (h : r.Recounts f source x) : r.gist = (contentHash source,x) := by
  rw [Record.gist,h.hash,h.explanation]

namespace ScanJob

/-- The same scan at another time, of all files whether or not they have changed, with an order of its
own for the records to be deleted. -/
def forced (job : ScanJob) (now : Instant) (order : Arrangement) : ScanJob :=
  { job with force := true,now,order }

@[simp] theorem read_forced (job : ScanJob) (now : Instant) (order : Arrangement) :
    (job.forced now order).read = job.read := rfl

@[simp] theorem rule_forced (job : ScanJob) (now : Instant) (order : Arrangement) :
    (job.forced now order).rule = job.rule := rfl

/-- Whether the records that a scan makes come back from the form in which they are kept. -/
def RecordsFit (job : ScanJob) (k : HistoryKind) : Prop :=
  ∀ files, job.tree.walk job.selection job.root = .ok files → ∀ f ∈ files, ∀ source,
    job.read f.path = .ok source → k.Fits (job.recordOf f (contentHash source) (job.rule source))

/-- What a scan knows of contents, of the files that it has found and of the history as listed. -/
structure Known (job : ScanJob) (k : HistoryKind) (contents : Set Text) (files : List FoundFile)
    (existing : Bucket Record) : Prop where
  distinguished : Set.InjOn contentHash contents
  reads : job.Reads files contents
  taken : ∀ path r, Bucket.find? existing path = some r → k.keyFault? path = none
  explained : ∀ path r, Bucket.find? existing path = some r →
    ∃ source ∈ contents, r.gist = (contentHash source,job.rule source)

section Known

variable {job : ScanJob} {k : HistoryKind} {contents : Set Text} {files : List FoundFile}
  {existing : Bucket Record} {f : FoundFile} {source : Text}

theorem Known.gist_kept (h : job.Known k contents files existing) (hf : f ∈ files)
    (hread : job.read f.path = .ok source) {r : Record}
    (hr : Bucket.find? existing f.path = some r)
    (hkeeps : job.keeps (contentHash source) r = true) :
    r.gist = (contentHash source,job.rule source) := by
  obtain ⟨source',hsource',hgist⟩ := h.explained _ r hr
  have hhash : r.hash = contentHash source := by
    simp only [keeps,Bool.and_eq_true,beq_iff_eq] at hkeeps
    exact hkeeps.2
  obtain ⟨hdigest,-⟩ := Prod.mk.inj (show (r.hash,r.explanation) = _ from hgist)
  rw [hgist,h.distinguished hsource' (h.reads f hf source hread) (hdigest.symm.trans hhash)]

/-- What is told of a file does not depend on whether its record is kept. -/
theorem Known.gist_plain (h : job.Known k contents files existing) (hf : f ∈ files) :
    (job.plain existing f).gist = match job.read f.path with
    | .ok source => (f,none,some (contentHash source,job.rule source))
    | .error e => (f,some ("failed to read file: " ++ e.message),none) := by
  obtain ⟨o,ho,houtcome⟩ := job.exists_plain existing f
  rw [ho]
  cases houtcome with
  | unread hread =>
    rw [hread]
    rfl
  | skipped hread hr hkeeps =>
    simp only [hread,ScannedFile.gist,ScannedFile.record?,ScannedFile.failure?,Option.map_some,
      h.gist_kept hf hread hr hkeeps]
  | explained hread _ hx hr =>
    simp only [hread,hx ▸ hr.gist,ScannedFile.gist,ScannedFile.record?,ScannedFile.failure?,
      Option.map_some]

/-- Whether the fresh records are refused is decided by the paths of the readable files. -/
theorem batchFault?_plain (htaken : ∀ path r, Bucket.find? existing path = some r →
      k.keyFault? path = none) (files : List FoundFile) :
    k.batchFault? (freshOf (files.map (job.plain existing))) =
      files.findSome? fun f => if (job.read f.path).isOk then k.keyFault? f.path else none := by
  induction files with
  | nil => rfl
  | cons f rest ih =>
    obtain ⟨o,ho,houtcome⟩ := job.exists_plain existing f
    rw [List.findSome?_cons,← ih,List.map_cons,ho]
    cases houtcome with
    | unread hread =>
      rw [hread]
      rfl
    | skipped hread hr _ =>
      rw [hread,htaken _ _ hr]
      rfl
    | explained hread _ _ hr =>
      rw [hread,HistoryKind.batchFault?]
      simp only [freshOf,List.filterMap_cons,ScannedFile.explained?,List.findSome?_cons,hr.path]
      rfl

theorem Known.gist_stored (h : job.Known k contents files existing) (hf : f ∈ files)
    (hread : job.read f.path = .ok source) :
    ((lastAt? (freshOf (files.map (job.plain existing))) f.path).or
        (Bucket.find? existing f.path)).map Record.gist =
      some (contentHash source,job.rule source) := by
  have hfilled := job.filled_plain existing files
  cases hlast : lastAt? (freshOf (files.map (job.plain existing))) f.path with
  | some r =>
    obtain ⟨g,_,source',x,_,hread',_,rfl,hr⟩ := hfilled.stored hlast
    cases hread.symm.trans hread'
    rw [Option.some_or,Option.map_some,hr.gist]
  | none =>
    -- Nothing is stored here, so the record that is there was kept.
    obtain ⟨r,hr,hkeeps⟩ : ∃ r, Bucket.find? existing f.path = some r ∧
        job.keeps (contentHash source) r = true := by
      by_contra hnone
      obtain ⟨r,hmem,hpath⟩ := hfilled.exists_fresh hf hread fun r hr =>
        Bool.eq_false_iff.mpr fun hkeeps => hnone ⟨r,hr,hkeeps⟩
      exact (lastAt?_eq_none_iff _ _).mp hlast r hmem hpath
    rw [Option.none_or,hr,Option.map_some,h.gist_kept hf hread hr hkeeps]

end Known

theorem lastAt?_plain_of_unread (job : ScanJob) (existing : Bucket Record) {files : List FoundFile}
    {path : Text}
    (h : ∀ f ∈ files, Text.ofString f.path = path → ∀ source, job.read f.path ≠ .ok source) :
    lastAt? (freshOf (files.map (job.plain existing))) path = none := by
  rw [lastAt?_eq_none_iff]
  intro r hr hpath
  obtain ⟨f,hf,source,hread,rfl⟩ := mem_freshOf_plain hr
  exact h f hf hpath source hread

theorem recordAt?_settle (k : HistoryKind) {access : HistoryAccess k.State}
    (hw : access.Within k.access) {job : ScanJob} {before after : k.State} {records : List Record}
    {files : List FoundFile} {slots : List ScannedFile} {report : ScanReport}
    (h : job.settle access before (byPath records) files slots = .ok (report,after))
    (hfits : ∀ r ∈ freshOf slots, k.Fits r) (path : Text) : k.recordAt? after path =
      if path ∈ job.stale (byPath records) files ∧ path ∉ report.undeleted.map Prod.fst then none
      else (lastAt? (freshOf slots) path).or (k.recordAt? before path) := by
  rw [HistoryKind.recordAt?,held?_settle hw h path]
  split_ifs
  · rfl
  · change (((lastAt? (freshOf slots) path).map k.form).or (k.held? before path)).bind k.record? = _
    cases hlast : lastAt? (freshOf slots) path with
    | none => rfl
    | some r => exact k.record?_form (hfits r (lastAt?_eq_some hlast).1)

/-- Two scans of one history that fail alike, or end well, tell the same and leave histories whose
records say the same. -/
inductive Indistinguishable (k : HistoryKind) (before : k.State) :
    Except ScanError ScanReport × k.State → Except ScanError ScanReport × k.State → Prop
  | failed {e : ScanError} : Indistinguishable k before (.error e,before) (.error e,before)
  | ended {report report' : ScanReport} {after after' : k.State} (hreport : report.SameGist report')
      (hhistory : ∀ path, (k.recordAt? after path).map Record.gist =
        (k.recordAt? after' path).map Record.gist) :
      Indistinguishable k before (.ok report,after) (.ok report',after')

theorem Ends.of_forced {job : ScanJob} {now : Instant} {order : Arrangement}
    {access : HistoryAccess σ} {before : σ} {off : List FoundFile → Prop}
    {fill : Bucket Record → List FoundFile → List ScannedFile → Prop}
    {x : Except ScanError ScanReport × σ} (h : (job.forced now order).Ends access before off fill x) :
    { job with order }.Ends access before off fill x := by
  cases h with
  | unwalked hwalk => exact .unwalked hwalk
  | unlisted hwalk hlist => exact .unlisted hwalk hlist
  | cancelled hwalk hlist hoff => exact .cancelled hwalk hlist hoff
  | gathered hwalk hlist hoff hfill => exact .gathered hwalk hlist hoff hfill

theorem Known.forced {job : ScanJob} {k : HistoryKind} {contents : Set Text}
    {files : List FoundFile} {existing : Bucket Record} (h : job.Known k contents files existing)
    (now : Instant) (order : Arrangement) : (job.forced now order).Known k contents files existing :=
  ⟨h.distinguished,h.reads,h.taken,h.explained⟩

/-- What the records of two histories say, if the fresh records of a scan are stored in one of them and
those of a forced scan in the other. -/
theorem Known.gist_or {job : ScanJob} {k : HistoryKind} {contents : Set Text}
    {files : List FoundFile} {existing : Bucket Record} (h : job.Known k contents files existing)
    (now : Instant) (order : Arrangement) (path : Text) :
    ((lastAt? (freshOf (files.map (job.plain existing))) path).or
        (Bucket.find? existing path)).map Record.gist =
      ((lastAt? (freshOf (files.map ((job.forced now order).plain existing))) path).or
        (Bucket.find? existing path)).map Record.gist := by
  by_cases hfile : ∃ f ∈ files, Text.ofString f.path = path ∧
      ∃ source, job.read f.path = .ok source
  · obtain ⟨f,hf,rfl,source,hread⟩ := hfile
    rw [h.gist_stored hf hread,(h.forced now order).gist_stored hf hread,rule_forced]
  · have hunread : ∀ f ∈ files, Text.ofString f.path = path →
        ∀ source, job.read f.path ≠ .ok source :=
      fun f hf hpath source hread => hfile ⟨f,hf,hpath,source,hread⟩
    rw [job.lastAt?_plain_of_unread existing hunread,
      (job.forced now order).lastAt?_plain_of_unread existing hunread]

theorem known_of_list {k : HistoryKind} {job : ScanJob} {contents : Set Text}
    (hinj : Set.InjOn contentHash contents) {files : List FoundFile}
    (hreads : job.Reads files contents) {before : k.State}
    (hbefore : k.Faithful job.rule contents before) {records : List Record}
    (hlist : k.access.list before = .ok records) : job.Known k contents files (byPath records) := by
  have hfind := k.find?_byPath_list hbefore.keyed hlist
  refine ⟨hinj,hreads,?_,?_⟩
  · intro path r hr
    rw [hfind] at hr
    obtain ⟨entry,hentry,_⟩ := Option.bind_eq_some_iff.mp hr
    exact hbefore.taken path (by rw [hentry]; rfl)
  · intro path r hr
    exact hbefore.explained path r (hfind path ▸ hr)

theorem RecordsFit.fresh {job : ScanJob} {k : HistoryKind} (h : job.RecordsFit k)
    {files : List FoundFile} (hwalk : job.tree.walk job.selection job.root = .ok files)
    (existing : Bucket Record) {r : Record} (hr : r ∈ freshOf (files.map (job.plain existing))) :
    k.Fits r := by
  obtain ⟨f,hf,source,hread,rfl⟩ := mem_freshOf_plain hr
  exact h files hwalk f hf source hread

/-- Scans that end alike cannot be told apart if one has kept the records of unchanged files and the
other has explained them anew. -/
theorem EndAlike.indistinguishable {k : HistoryKind} {job : ScanJob} {access : HistoryAccess k.State}
    (hw : access.Within k.access) {contents : Set Text} {before : k.State}
    (hkeyed : k.Keyed before) {now : Instant} {order : Arrangement}
    (hknown : ∀ {records files}, job.tree.walk job.selection job.root = .ok files →
      access.list before = .ok records → job.Known k contents files (byPath records))
    (hfits : job.RecordsFit k) (hfits' : (job.forced now order).RecordsFit k)
    {x x' : Except ScanError ScanReport × k.State}
    (h : job.EndAlike order access before job.PlainSlots (job.forced now order).PlainSlots x x') :
    Indistinguishable k before x x' := by
  cases h with
  | failed => exact .failed
  | settled hwalk hlist hfill hfill' hsettle hsettle' hdeleted hundeleted =>
    have hexisting := hknown hwalk hlist
    subst hfill hfill'
    refine .ended (ScanReport.sameGist_of_files ?_ hdeleted hundeleted) ?_
    · rw [files_of_settle hsettle,files_of_settle hsettle',List.map_map,List.map_map]
      refine List.map_congr_left fun f hf => ?_
      simp only [Function.comp_apply,hexisting.gist_plain hf,
        (hexisting.forced now order).gist_plain hf,read_forced,rule_forced]
    · intro path
      rw [recordAt?_settle k hw hsettle (fun r => hfits.fresh hwalk _) path,
        recordAt?_settle k hw hsettle' (fun r => hfits'.fresh hwalk _) path]
      simp only [(job.perm_stale order _ _).mem_iff,(hundeleted.map Prod.fst).mem_iff]
      split_ifs
      · rfl
      · rw [← k.find?_byPath_list hkeyed (hw.list hlist) path]
        exact hexisting.gist_or now order path

/-- A scan that keeps the records of unchanged files and looks explanations up in a cache comes to the
same as one that explains every file anew by the rule, in whatever orders the two come to the records to
be deleted. -/
theorem shortcuts_invisible (k : HistoryKind) (job : ScanJob) {access : HistoryAccess k.State}
    (hm : k.MayRefuse access) (hput : access.putAll = k.access.putAll) {contents : Set Text}
    (hinj : Set.InjOn contentHash contents)
    (hreads : ∀ files, job.tree.walk job.selection job.root = .ok files → job.Reads files contents)
    {before : k.State} (hbefore : k.Faithful job.rule contents before) {e : Explainer}
    (he : e.cache.Recalls job.rule contents) (now : Instant) (order : Arrangement)
    (hfits : job.RecordsFit k) (hfits' : (job.forced now order).RecordsFit k) :
    Indistinguishable k before (withHistory (job.run access ⟨before,e⟩))
      (withHistory ((job.forced now order).runWith job.bare access ⟨before,()⟩)) := by
  have hends := runWith_ends (job.byRule_cached hinj) hreads access before he
  have hends' := (runWith_ends ((job.forced now order).byRule_bare contents) hreads access before
    (Set.mem_univ ())).of_forced
  have hknown {records : List Record} {files : List FoundFile}
      (hwalk : job.tree.walk job.selection job.root = .ok files)
      (hlist : access.list before = .ok records) : job.Known k contents files (byPath records) :=
    known_of_list hinj (hreads files hwalk) hbefore (hm.within.list hlist)
  have halike := hends.alike hm (fun hwalk hlist hfill hfill' => ?_) hends'
  · exact halike.indistinguishable hm.within hbefore.keyed hknown hfits hfits'
  · have htaken := (hknown hwalk hlist).taken
    refine ⟨?_,Or.inl hput⟩
    rw [hfill,hfill',batchFault?_plain htaken,batchFault?_plain htaken,read_forced]

def sampleFaithful : Ledger :=
  ⟨[("/p/gone.py","w"),("/p/kept.py","x"),("/p/lost.py","w")].map fun (path,source) =>
    (path,{ path,hash := contentHash source,circuit := { name := source } })⟩

/-- An explainer that has room for one explanation, that of the new file. -/
def sampleExplainer : Explainer :=
  ["w","y"].foldl (fun e source => (e.explain sampleScan.rule source).2) ⟨.empty 1,0⟩

theorem faithful_sampleFaithful :
    HistoryKind.memory.Faithful sampleScan.rule {s | s ∈ sampleContents} sampleFaithful := by
  have hown : ∀ x ∈ sampleFaithful.records, x.2.path = x.1 := by decide +kernel
  have hexplained : ∀ x ∈ sampleFaithful.records, ∃ source ∈ sampleContents,
      x.2.gist = (contentHash source,sampleScan.rule source) := by decide +kernel
  refine ⟨⟨show (sampleFaithful.records.map Prod.fst).Nodup by decide,?_⟩,fun _ _ => rfl,?_⟩
  · intro path r r' hr hr'
    rw [← Option.some.inj hr']
    exact hown (path,r) hr
  · intro path r hr
    obtain ⟨r',hr',hsame⟩ := Option.bind_eq_some_iff.mp hr
    rw [← Option.some.inj hsame]
    exact hexplained (path,r') (Bucket.mem_of_find? hr')

def sampleOrder : Arrangement := ⟨List.reverse,List.reverse_perm⟩

/-- Neither of two records can be deleted, and the two scans come to them in different orders. -/
theorem shortcuts_invisible_sample :
    Indistinguishable .memory sampleFaithful
        (withHistory (sampleScan.run (Ledger.access.refusing ["delete"])
          ⟨sampleFaithful,sampleExplainer⟩))
        (withHistory ((sampleScan.forced ⟨1,0⟩ sampleOrder).runWith sampleScan.bare
          (Ledger.access.refusing ["delete"]) ⟨sampleFaithful,()⟩)) ∧
      (sampleScan.run (Ledger.access.refusing ["delete"])
        ⟨sampleFaithful,sampleExplainer⟩).1.toOption.map
          (fun r => (r.explainedCount,r.skippedCount,r.undeleted.map Prod.fst)) =
        some (1,1,[("/p/gone.py" : Text),("/p/lost.py" : Text)]) ∧
      (sampleScan.run (Ledger.access.refusing ["delete"])
        ⟨sampleFaithful,sampleExplainer⟩).2.explainer.cache.hits = 1 ∧
      ((sampleScan.forced ⟨1,0⟩ sampleOrder).runWith sampleScan.bare
        (Ledger.access.refusing ["delete"]) ⟨sampleFaithful,()⟩).1.toOption.map
          (fun r => r.undeleted.map Prod.fst) =
        some [("/p/lost.py" : Text),("/p/gone.py" : Text)] := by
  have hcache : sampleExplainer.cache.Recalls sampleScan.rule {s | s ∈ sampleContents} :=
    Explainer.recalls_foldl (Recency.recalls_empty _ _ _) injOn_sampleContents (by decide)
  have hput : (Ledger.access.refusing ["delete"]).putAll = Ledger.access.putAll := by
    funext s rs
    simp [HistoryAccess.refusing]
  refine ⟨shortcuts_invisible .memory sampleScan (HistoryKind.memory.mayRefuse_refusing ["delete"]) hput
    injOn_sampleContents reads_sampleScan faithful_sampleFaithful hcache ⟨1,0⟩ sampleOrder
    (fun _ _ _ _ _ _ => trivial) fun _ _ _ _ _ _ => trivial,?_,?_,?_⟩
  · unfold run runWith
    rw [walk_sampleScan]
    decide +kernel
  · unfold run runWith
    rw [walk_sampleScan]
    decide +kernel
  · have hwalk : (sampleScan.forced ⟨1,0⟩ sampleOrder).tree.walk
        (sampleScan.forced ⟨1,0⟩ sampleOrder).selection (sampleScan.forced ⟨1,0⟩ sampleOrder).root =
          .ok sampleFiles := walk_sampleScan
    unfold runWith
    rw [hwalk]
    decide +kernel

end ScanJob
end CircuitNotes
