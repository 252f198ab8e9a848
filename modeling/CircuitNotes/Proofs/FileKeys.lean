import CircuitNotes.Proofs.RecordPruning
import CircuitNotes.Proofs.ShownExplanations

/-! The key of a file in the history. It is the path by which the file is found, and a search finds files
by clean paths only. A path that is given with a command is cleaned if it is relative; an absolute one is
taken as it is. So a file has a second key as soon as it is named by an absolute path that is not clean,
under which neither another name nor a search will find it. -/
namespace CircuitNotes

open Work Project FileTree

/-! ### Clean keys -/

namespace Path

/-- A path that leads to a clean key: it is clean, or it is relative and will be cleaned. -/
def Tidy (path : String) : Prop := isAbsolute path = true → clean path = path

instance (path : String) : Decidable (Tidy path) := inferInstanceAs (Decidable (_ → _))

end Path

namespace Project

variable {p : Project}

theorem resolve_eq_absolute_iff (p : Project) (path : String) :
    p.resolve path = Path.absolute p.root path ↔ Path.Tidy path := by
  unfold resolve Path.absolute Path.Tidy
  split_ifs with h
  · simp [h,eq_comm]
  · simp [h]

theorem resolve_of_not_tidy {path : String} (h : ¬Path.Tidy path) : p.resolve path = path := by
  rw [Path.Tidy,Classical.not_imp] at h
  exact if_pos h.1

theorem clean_resolve_iff (hroot : Path.isAbsolute p.root = true) (path : String) :
    Path.Clean (p.resolve path) ↔ Path.Tidy path := by
  refine ⟨fun h => ?_,fun h => ?_⟩
  · by_contra htidy
    rw [resolve_of_not_tidy htidy] at h
    exact htidy fun _ => h.clean
  · rw [(p.resolve_eq_absolute_iff path).mpr h]
    exact Path.clean_absolute hroot path

/-- Two ways of writing the path of a file have the same key if they are the same or both tidy. -/
theorem resolve_eq_resolve_iff {a b : String}
    (h : Path.absolute p.root b = Path.absolute p.root a) :
    p.resolve b = p.resolve a ↔ b = a ∨ Path.Tidy a ∧ Path.Tidy b := by
  constructor
  · intro hkey
    by_cases ha : Path.Tidy a
    · refine Or.inr ⟨ha,?_⟩
      rw [← p.resolve_eq_absolute_iff,h,hkey,(p.resolve_eq_absolute_iff a).mpr ha]
    · by_cases hb : Path.Tidy b
      · refine absurd ?_ ha
        rw [← p.resolve_eq_absolute_iff,← h,← hkey,(p.resolve_eq_absolute_iff b).mpr hb]
      · rw [resolve_of_not_tidy ha,resolve_of_not_tidy hb] at hkey
        exact Or.inl hkey
  · rintro (rfl | ⟨ha,hb⟩)
    · rfl
    · rw [(p.resolve_eq_absolute_iff a).mpr ha,(p.resolve_eq_absolute_iff b).mpr hb,h]

end Project

namespace FileTree

theorem clean_of_mem_walk {t : FileTree} {sel : Selection} {root : String} {files : List FoundFile}
    (h : t.walk sel root = .ok files) {f : FoundFile} (hf : f ∈ files) : Path.Clean f.path := by
  have hroot := t.clean_absolute root
  cases hstat : t.statLink (t.absolute root) with
  | error e =>
    simp only [walk,hstat] at h
    cases h
  | ok stat =>
    obtain ⟨place,node⟩ := stat
    cases hfolder : node.isFolder with
    | false =>
      rw [walk_of_file hstat hfolder] at h
      obtain rfl := Except.ok.inj h
      split_ifs at hf
      · rw [List.mem_singleton.mp hf]
        exact hroot
      · cases hf
    | true =>
      cases node with
      | file | link => cases hfolder
      | folder =>
        rw [walk_of_folder hstat] at h
        rw [← Except.ok.inj h,List.mem_mergeSort,List.mem_map] at hf
        obtain ⟨e,-,rfl⟩ := hf
        exact Path.clean_join hroot.absolute _

end FileTree

theorem Project.resolve_found_iff {p : Project} (hroot : Path.isAbsolute p.root = true) {t : FileTree}
    (hp : t.Proper) {sel : Selection} {folder : String} {files : List FoundFile}
    (h : t.walk sel folder = .ok files) {a : String}
    (hbelow : Path.Below (t.absolute folder) (Path.absolute p.root a)) :
    (∃ f ∈ files, f.path = p.resolve a) ↔
      Path.Tidy a ∧ t.Takes sel folder (Path.absolute p.root a) := by
  rw [← walked_iff_takes hp h (Path.clean_absolute hroot a) hbelow]
  refine ⟨?_,?_⟩
  · rintro ⟨f,hf,hpath⟩
    have hclean := clean_of_mem_walk h hf
    rw [hpath,clean_resolve_iff hroot] at hclean
    exact ⟨hclean,f,hf,hpath.trans ((p.resolve_eq_absolute_iff a).mpr hclean)⟩
  · rintro ⟨htidy,hfound⟩
    rwa [(p.resolve_eq_absolute_iff a).mpr htidy]

/-! ### Showing -/

theorem Database.find?_of_put_ne {db db' : Database} {r : Record} (h : db.put r = .ok db')
    {path : Text} (hne : path ≠ r.path) :
    Bucket.find? db'.records path = Bucket.find? db.records path := by
  rw [Database.eq_of_put h]
  simp only [Bucket.find?_insert]
  exact if_neg hne

namespace Project

variable {p : Project} {w w' : World} {db db' : Database}

theorem result_showRecord_missing (h : p.StoredHistory w.tree db) {file : String}
    (hnone : Bucket.find? db.records (p.resolve file) = none) :
    ∃ w', result (p.showRecord file) w = (.error (.noRecord file),w') := by
  obtain ⟨c,hheld,rfl,hsettled⟩ := h
  obtain ⟨c',t,log,hopen,hdatabase,hopened⟩ := result_existingHistory hheld hsettled
  have hget : c'.ask (·.get (p.resolve file)) = .error (.notFound (p.resolve file)) := by
    simp only [Connection.ask,hopen,if_true,hdatabase,Database.get,hnone]
  refine ⟨{ w with tree := t,log := log,journal := c'.journal },?_⟩
  rw [showRecord,result_bind,hopened]
  simp only [hget]
  rfl

/-- What later commands that show the source by another path come to, after it was explained by the
path `a` with the history as it was just before and as it is since then. -/
structure ShownBy (p : Project) (a b : String) (described : Text) (e : Explanation)
    (db db' : Database) : Prop where
  found : p.resolve b = p.resolve a → ∀ (s : Surroundings) (u : FileTree) (args : List String)
    (p' : Project), Asks args (.show b) → Opens s u args p' → p'.root = p.root →
    p'.config.output.format = p.config.output.format → p'.palette = p.palette →
    p'.StoredHistory u db' → (run s u args).failure = none ∧
      (run s u args).world.stdout = described ++ "\n" ++ e.document.markdown
  missing : p.resolve b ≠ p.resolve a → Bucket.find? db.records (p.resolve b) = none →
    ∀ (s : Surroundings) (u : FileTree) (args : List String) (p' : Project), Asks args (.show b) →
      Opens s u args p' → p'.root = p.root → p'.StoredHistory u db' →
      (run s u args).failure = some (.noRecord b)

theorem shownBy_of_put {a b : String} {source described : Text} {modified : Int}
    (hput : db.put (p.recordOf (p.resolve a) source modified (p.rule source)) = .ok db')
    (hfits : Short (Packed.record (p.recordOf (p.resolve a) source modified (p.rule source))))
    (hdescribed : ∀ (q : Project) (v : World), q.palette = p.palette →
      result (q.printResult p.config.output.format (p.rule source).circuit) v =
        (.ok (),{ v with stdout := v.stdout ++ described })) :
    p.ShownBy a b described (p.rule source) db db' where
  found := by
    intro hkey s u args p' hasks hopens hroot hformat hpalette hstored
    obtain ⟨log,hrun⟩ := run_show hasks hopens
    obtain ⟨r',hdecoded,-,hsame⟩ := Packed.read?_explanation hfits
      (hasLongNumbers_explainSource p.config.scan.constructor source)
    have hcircuit : r'.circuit = (p.rule source).circuit := congrArg Explanation.circuit hsame
    have hdocument : r'.document = (p.rule source).document := congrArg Explanation.document hsame
    have hresolve : p'.resolve b = p.resolve b := by rw [resolve,resolve,hroot]
    have hpath : (p.recordOf (p.resolve a) source modified (p.rule source)).path =
        Text.ofString (p'.resolve b) := by
      rw [hresolve,hkey]
      rfl
    have hprint (v : World) : result (p'.printResult p'.config.output.format r'.circuit) v =
        (.ok (),{ v with stdout := v.stdout ++ described }) := by
      rw [hformat,hcircuit]
      exact hdescribed p' v hpalette
    obtain ⟨w',hshown,hstdout⟩ := result_showRecord (w:={ tree := u,log := log })
      (remembers_of_put hstored hput) hpath hdecoded hprint
    rw [hrun,hshown]
    refine ⟨rfl,?_⟩
    change w'.stdout = _
    rw [hstdout,hdocument]
    simp
  missing := by
    intro hkey hnone s u args p' hasks hopens hroot hstored
    obtain ⟨log,hrun⟩ := run_show hasks hopens
    have hresolve : p'.resolve b = p.resolve b := by rw [resolve,resolve,hroot]
    have hnone' : Bucket.find? db'.records (p'.resolve b) = none := by
      rw [hresolve,Database.find?_of_put_ne hput,hnone]
      exact fun heq => hkey (Text.ofString_injective heq)
    obtain ⟨w',hshown⟩ := result_showRecord_missing (w:={ tree := u,log := log }) hstored hnone'
    rw [hrun,hshown]
    rfl

end Project

/-! ### Scanning -/

theorem FileTree.AddsFolders.read {t t' : FileTree} (h : t.AddsFolders t') {path : String}
    {content : Text} (hread : t.read path = .ok content) : t'.read path = .ok content := by
  obtain ⟨place,m,hlookup⟩ := (read_eq_ok_iff _ _ _).mp hread
  exact (read_eq_ok_iff _ _ _).mpr ⟨place,m,(h.spares place).lookup h.grows hlookup⟩

namespace ScanJob

section Outcome

variable {job : ScanJob} {existing : Bucket Record} {answers : Text → Explanation → Prop}
  {f : FoundFile} {outcome : FileOutcome} {source : Text}

theorem Outcome.eq_skipped (h : job.Outcome existing answers f outcome)
    (hread : job.read f.path = .ok source) {r : Record} (hfound : Bucket.find? existing f.path = some r)
    (hkeeps : job.keeps (contentHash source) r = true) : outcome = .skipped r := by
  cases h with
  | unread hfail => cases hread.symm.trans hfail
  | skipped _ hfound' _ => rw [Option.some.inj (hfound.symm.trans hfound')]
  | explained hread' hnone _ =>
    cases hread.symm.trans hread'
    cases hkeeps.symm.trans (hnone r hfound)

theorem Outcome.exists_explained (h : job.Outcome existing answers f outcome)
    (hread : job.read f.path = .ok source) (hnone : Bucket.find? existing f.path = none) :
    ∃ r, outcome = .explained r := by
  cases h with
  | unread hfail => cases hread.symm.trans hfail
  | skipped _ hfound _ => cases hnone.symm.trans hfound
  | explained _ _ _ _ => exact ⟨_,rfl⟩

end Outcome

theorem undeleted_of_prune {c : Connection} (hopen : c.isOpen = true) (paths : List Text) :
    (prune Connection.access c paths).2.2 = [] := by
  induction paths generalizing c with
  | nil => rfl
  | cons path rest ih =>
    have hdelete : Connection.access.delete c path = .ok (c.commit (c.database.delete path)) := by
      simp only [Connection.access,Connection.update,Connection.ask,hopen,if_true]
      rfl
    rw [prune_cons_ok hdelete]
    exact ih hopen

theorem undeleted_of_settle {job : ScanJob} {c after : Connection} (hopen : c.isOpen = true)
    {existing : Bucket Record} {files : List FoundFile} {slots : List ScannedFile}
    {report : ScanReport}
    (h : job.settle Connection.access c existing files slots = .ok (report,after)) :
    report.undeleted = [] := by
  simp only [settle] at h
  split at h
  · cases h
  · rename_i middle hmiddle
    have hmiddle' : middle.isOpen = true := by
      split_ifs at hmiddle
      · exact Except.ok.inj hmiddle ▸ hopen
      · obtain ⟨_,_,_,rfl⟩ := Connection.of_update hmiddle
        exact hopen
    rw [← (Prod.mk.inj (Except.ok.inj h)).1]
    exact undeleted_of_prune hmiddle' _

end ScanJob

namespace Project

section Scanning

variable {p : Project} {w w' : World} {db : Database} {argument : Option String} {o : ScanOptions}

theorem of_scanHistory {history : Option Connection} {opened : World}
    (henabled : p.config.history.enabled = true) (hstored : p.StoredHistory w.tree db)
    (h : result p.scanHistory w = (.ok history,opened)) :
    ∃ c, history = some c ∧ c.database = db ∧ c.isOpen = true := by
  obtain ⟨c₀,hheld,rfl,hsettled⟩ := hstored
  rw [scanHistory,if_pos henabled] at h
  obtain ⟨_,w₁,hfolder,h⟩ := result_bind_eq_ok h
  obtain ⟨c,w₂,hopened,h⟩ := result_bind_eq_ok h
  cases h
  have hfolders : Keeps (fun v => v.tree.read (historyPath p.root) = .ok (Storage.encode c₀))
      (p.makeDataFolder CommandError.noDataFolder) (fun _ => True) :=
    keeps_change fun _ _ hv ht => (addsFolders_of_makeFoldersAt ht).read hv
  have hheld₁ := (hfolders w hheld).1
  rw [hfolder] at hheld₁
  obtain ⟨c',t,hconnect,hopen,hdatabase⟩ := connect_of_read hheld₁ p.now.seconds
  have hprepare := Connection.prepare_of_settled hopen (hdatabase ▸ hsettled)
  obtain ⟨_,_,_,hresult⟩ := result_openHistory hconnect hprepare
  cases (result_because_eq_ok hopened).symm.trans hresult
  exact ⟨_,rfl,hdatabase,hopen⟩

theorem quiet_journal (journal : List Database) : Quiet (fun w => w.journal = journal) :=
  fun _ _ _ hw => hw

theorem journal_of_keepScan
    {found : Except ScanError ScanReport × Option Connection × Explainer}
    {told : ScanReport × Explainer} (h : result (p.keepScan found) w = (.ok told,w'))
    {c : Connection} (hc : found.2.1 = some c) : w'.journal = c.journal := by
  obtain ⟨outcome,kept,explainer⟩ := found
  obtain rfl : kept = some c := hc
  cases outcome with
  | error e => cases h
  | ok report =>
    obtain ⟨_,w₁,hkeep,h⟩ := result_bind_eq_ok h
    obtain ⟨_,w₂,hlog,h⟩ := result_bind_eq_ok h
    cases h
    have hkept : w₁.journal = c.journal := by
      have hkeep' : result (p.keepHistory c : Work CommandError Unit) w = (.ok (),w₁) := hkeep
      rw [keepHistory,result_modify] at hkeep'
      cases hstore : w.tree.store p.now.seconds (historyPath p.root) c with
      | ok t =>
        simp only [hstore] at hkeep'
        cases hkeep'
        rfl
      | error e =>
        simp only [hstore] at hkeep'
        cases hkeep'
        rfl
    have hlogged := (keeps_forM (l:=report.files) (fun s _ => keeps_log (ε:=CommandError)
      (quiet_journal w₁.journal) p .debug ("explained " ++ s.file.rel)) w₁ rfl).1
    rw [hlog] at hlogged
    exact hlogged.trans hkept

theorem ScanRun.journal_eq (scan : p.ScanRun argument o w w')
    (h : result (p.scan argument o) w = (.ok (),w')) : w'.journal = scan.settled.journal := by
  obtain ⟨told,settled,hsettled,h⟩ := result_bind_eq_ok h
  cases scan.settles.symm.trans hsettled
  obtain ⟨⟨written,unwritten⟩,documented,hdocumented,htell⟩ := result_bind_eq_ok h
  have hdocuments := (keeps_writeDocuments_of (p:=p) (I:=fun v => v.journal = scan.settled.journal)
    (fun _ _ => Keeps.bind (keeps_change fun _ _ hv _ => hv) fun _ _ =>
      keeps_change fun _ _ hv _ => hv) (p.documentsFolder o) scan.report.files scan.settled rfl).1
  rw [hdocumented] at hdocuments
  have htold := (keeps_tellScan (quiet_journal documented.journal) p (p.documentsFolder o) scan.report
    written unwritten scan.explainer documented rfl).1
  rw [htell] at htold
  exact htold.trans hdocuments

/-- A scan that ends well with a stored history: how it has filled the slots of the files, and the history
that it has left. -/
theorem ScanRun.exists_finishes (scan : p.ScanRun argument o w w')
    (h : result (p.scan argument o) w = (.ok (),w')) (henabled : p.config.history.enabled = true)
    (hstored : p.StoredHistory w.tree db) :
    ∃ c after answers earlier, c.database = db ∧ scan.report.undeleted = [] ∧
      (p.scanJob p.selection scan.opened.tree ((argument.map p.resolve).getD p.root)
        o.force).Finishes answers Connection.access c scan.report after ∧
      w'.journal = after.database :: earlier := by
  obtain ⟨c,hhistory,hdatabase,hopen⟩ := of_scanHistory henabled hstored scan.opens
  obtain ⟨history,opened,w₁,hopens,hkept⟩ := exists_keepScan scan.settles
  cases scan.opens.symm.trans hopens
  have hfound := scan.found
  rw [hhistory] at hkept hfound
  have hrun : ∃ state, (p.scanJob p.selection scan.opened.tree ((argument.map p.resolve).getD p.root)
      o.force).run Connection.access ⟨c,⟨.empty 0,0⟩⟩ = (.ok scan.report,state) ∧
      scan.settled.journal = state.history.journal :=
    ⟨_,Prod.ext hfound rfl,journal_of_keepScan hkept rfl⟩
  obtain ⟨state,hrun,hjournal⟩ := hrun
  have hfinishes := ScanJob.finishes_of_runWith _ _ Connection.access hrun
  have hready := (p.upholds_logged.keeps_scanHistory w trivial).2 scan.history (by rw [scan.opens]) c
    hhistory
  obtain ⟨-,earlier,hlogged⟩ := p.upholds_logged.scans _ c scan.report state rfl hready hrun
  refine ⟨c,state.history,_,earlier,hdatabase,?_,hfinishes,?_⟩
  · obtain ⟨_,_,_,hsettle⟩ := hfinishes
    exact ScanJob.undeleted_of_settle hopen hsettle
  · rw [scan.journal_eq h,hjournal,hlogged]

end Scanning

/-- What a scan makes of a source that was explained by the path `a`, with the history as it was just
before and just after that: if the path is tidy, the file is recognised and keeps its one record; if it
is not, no file is found by that path, the file is explained again under its own, and the first record is
deleted if its path starts with that of the folder. -/
structure MetByScan (p : Project) (a : String) (source : Text) (db db' : Database) (opened : FileTree)
    (folder : String) (force : Bool) (report : ScanReport) (db'' : Database) : Prop where
  recognised : Path.Tidy a → force = false → ∀ f ∈ report.files, f.file.path = p.resolve a →
    opened.read f.file.path = .ok source →
    (∃ r, f.outcome = .skipped r ∧ r.explanation = p.rule source) ∧
      Bucket.find? db''.records (p.resolve a) = Bucket.find? db'.records (p.resolve a)
  /-- Nothing is stored for the file under another key. -/
  single : Path.Tidy a → ∀ key, Path.absolute p.root key = Path.absolute p.root a →
    key ≠ p.resolve a → Bucket.find? db'.records key = none → Bucket.find? db''.records key = none
  unseen : ¬Path.Tidy a → ∀ f ∈ report.files, f.file.path ≠ p.resolve a
  again : ¬Path.Tidy a → ∀ f ∈ report.files, f.file.path = Path.absolute p.root a →
    Bucket.find? db.records f.file.path = none → (∃ held, opened.read f.file.path = .ok held) →
    (∃ r, f.outcome = .explained r) ∧ Bucket.find? db''.records f.file.path ≠ none
  dropped : ¬Path.Tidy a → Text.ofString (folder ++ "/") <+: Text.ofString a →
    Bucket.find? db''.records (p.resolve a) = none
  left : ¬Path.Tidy a → ¬Text.ofString (folder ++ "/") <+: Text.ofString a →
    Bucket.find? db''.records (p.resolve a) = Bucket.find? db'.records (p.resolve a)

section MetByScan

variable {p : Project} {a : String} {source : Text} {modified : Int} {db db' : Database}
  (hput : db.put (p.recordOf (p.resolve a) source modified (p.rule source)) = .ok db')
  (hfits : Short (Packed.record (p.recordOf (p.resolve a) source modified (p.rule source))))
include hput hfits

theorem exists_recordAt? {c : Connection} (hdatabase : c.database = db') :
    ∃ r, HistoryKind.database.recordAt? c (p.resolve a) = some r ∧
      r.hash = contentHash source ∧ r.explanation = p.rule source := by
  obtain ⟨r,hdecoded,hhash,hexplanation⟩ := Packed.read?_explanation hfits
    (hasLongNumbers_explainSource p.config.scan.constructor source)
  have hheld : HistoryKind.database.held? c (p.resolve a) = some (Packed.record
      (p.recordOf (p.resolve a) source modified (p.rule source))) := by
    rw [HistoryKind.held?,HistoryKind.entries,hdatabase]
    exact Database.find?_of_put hput
  refine ⟨r,?_,hhash.trans (p.hash_recordOf (p.resolve a) source modified (p.rule source)),
    hexplanation.trans (p.explanation_recordOf (p.resolve a) source modified (p.rule source))⟩
  rw [HistoryKind.recordAt?,hheld,Option.bind_some,HistoryKind.record?,hdecoded]
  rfl

theorem metByScan_of_finishes (hroot : Path.isAbsolute p.root = true) {job : ScanJob}
    (hdenied : job.denied = []) {answers : Text → Explanation → Prop}
    {c after : Connection} {report : ScanReport} (hdatabase : c.database = db')
    (hkeyed : HistoryKind.database.Keyed c)
    (hfinishes : job.Finishes answers Connection.access c report after)
    (hdeleted : report.undeleted = []) :
    p.MetByScan a source db db' job.tree job.folder job.force report after.database := by
  have hw : Connection.access.Within HistoryKind.database.access := ⟨id,id,id⟩
  have hheld (c : Connection) (path : Text) :
      HistoryKind.database.held? c path = Bucket.find? c.database.records path := rfl
  obtain ⟨r,hr,hhash,hexplanation⟩ := exists_recordAt? hput hfits hdatabase
  obtain @⟨files,_,_,_,_,hwalk,hlist,hfilled,hsettle⟩ := hfinishes
  have hs' := ScanJob.settled_of_settle (k:=.database) hw hkeyed hlist hfilled hsettle
  have hfiles := ScanJob.files_of_settle hsettle
  have hexisting := HistoryKind.find?_byPath_list .database hkeyed (hw.list hlist)
  have hclean {f : FoundFile} (hf : f ∈ files) : Path.Clean f.path := clean_of_mem_walk hwalk hf
  have hread {path : String} {content : Text} (h : job.tree.read path = .ok content) :
      job.read path = .ok content := by
    simp [ScanJob.read,hdenied,h]
  have hkey (htidy : ¬Path.Tidy a) {f : FoundFile} (hf : f ∈ files) : f.path ≠ p.resolve a := by
    intro hpath
    exact htidy ((clean_resolve_iff hroot a).mp (hpath ▸ hclean hf))
  have hother (htidy : ¬Path.Tidy a) : ∀ f ∈ files, Text.ofString f.path ≠ Text.ofString (p.resolve a) :=
    fun f hf heq => hkey htidy hf (Text.ofString_injective heq)
  refine ⟨?_,?_,?_,?_,?_,?_⟩
  · intro htidy hforce s hs hpath hsource
    rw [hfiles] at hs
    obtain ⟨f,hf,rfl,houtcome⟩ := hfilled.exists_file hs
    rw [← hpath] at hr ⊢
    refine ⟨⟨r,?_,hexplanation⟩,?_⟩
    · exact houtcome.eq_skipped (hread hsource) ((hexisting _).trans hr)
        (by simp [ScanJob.keeps,hforce,hhash])
    · have hentry := hs'.entry_of_kept hf fun source' hsource' => by
        cases (hread hsource).symm.trans hsource'
        exact ⟨r,hr,by simp [ScanJob.keeps,hforce,hhash]⟩
      rwa [hheld,hheld,hdatabase] at hentry
  · intro htidy key hsame hne hnone
    have hunfound : ∀ f ∈ files, Text.ofString f.path ≠ Text.ofString key := by
      intro f hf heq
      have hpath := Text.ofString_injective heq
      refine hne ?_
      rw [(p.resolve_eq_absolute_iff a).mpr htidy,← hsame,← hpath,(hclean hf).absolute_eq]
    by_cases hbelow : Text.ofString (job.folder ++ "/") <+: Text.ofString key
    · have hentry := hs'.entry_of_gone hunfound hbelow (by simp [hdeleted])
      rwa [hheld] at hentry
    · have hentry := hs'.entry_elsewhere hunfound hbelow
      rwa [hheld,hheld,hdatabase,hnone] at hentry
  · intro htidy s hs
    rw [hfiles] at hs
    obtain ⟨f,hf,rfl,-⟩ := hfilled.exists_file hs
    exact hkey htidy hf
  · rintro htidy s hs hpath hnone ⟨held,hsource⟩
    rw [hfiles] at hs
    obtain ⟨f,hf,rfl,houtcome⟩ := hfilled.exists_file hs
    have hunrecorded : HistoryKind.database.recordAt? c s.file.path = none := by
      rw [HistoryKind.recordAt?,hheld,hdatabase,Database.find?_of_put_ne hput (hother htidy _ hf),hnone]
      rfl
    obtain ⟨_,_,_,_,_,_,_,hentry⟩ := hs'.entry_of_renewed hf (hread hsource) fun r hr => by
      rw [hunrecorded] at hr
      cases hr
    rw [hheld] at hentry
    refine ⟨houtcome.exists_explained (hread hsource) ((hexisting _).trans hunrecorded),?_⟩
    rw [hentry]
    exact Option.some_ne_none _
  · intro htidy hbelow
    rw [← resolve_of_not_tidy (p:=p) htidy] at hbelow
    have hentry := hs'.entry_of_gone (hother htidy) hbelow (by simp [hdeleted])
    rwa [hheld] at hentry
  · intro htidy hoff
    rw [← resolve_of_not_tidy (p:=p) htidy] at hoff
    have hentry := hs'.entry_elsewhere (hother htidy) hoff
    rwa [hheld,hheld,hdatabase] at hentry

end MetByScan

end Project

theorem result_scan_of_opens {s : Surroundings} {u : FileTree} {args : List String} {p : Project}
    {argument : Option String} {o : ScanOptions} (hasks : Asks args (.scan argument o))
    (hopens : Opens s u args p) (hends : (run s u args).failure = none) :
    result (p.scan argument o) (p.opened u) = (.ok (),(run s u args).world) := by
  have hrun : run s u args = .ofResult (result (p.scan argument o) (p.opened u)) := by
    refine run_eq_of_opens (·.scan argument o) (fun l hcommand => ?_) hasks hopens
    unfold CommandLine.execute
    rw [hcommand]
  rw [hrun] at hends ⊢
  rcases hresult : result (p.scan argument o) (p.opened u) with ⟨outcome,w'⟩
  rw [hresult] at hends
  cases outcome with
  | error e => cases hends
  | ok _ => rfl

/-- Ways of writing one path are one key, by which a search finds the file, exactly as far as they are
tidy. A source that was explained by a tidy path is found by every other one, and a scan recognises it. A
path that is absolute and not clean is a key of its own: by another path the source is not found, unless
it had a record before, and a scan neither recognises the file nor keeps the record. -/
theorem file_key_agrees_iff {p : Project} (hclean : Path.Clean p.root) :
    (∀ a b, Path.absolute p.root b = Path.absolute p.root a →
      (p.resolve b = p.resolve a ↔ b = a ∨ Path.Tidy a ∧ Path.Tidy b)) ∧
    (∀ (a : String) (t : FileTree) (sel : Selection) (folder : String) (files : List FoundFile),
      t.Proper → Path.Clean folder → t.walk sel folder = .ok files →
      Path.Below folder (Path.absolute p.root a) →
      ((∃ f ∈ files, f.path = p.resolve a) ↔
        Path.Tidy a ∧ t.Takes sel folder (Path.absolute p.root a))) ∧
    ∀ (s : Surroundings) (u : FileTree) (args : List String) (a : String) (o : ExplainOptions),
      Recorded s u args p a o →
      ∃ source described db db' earlier, u.read (p.resolve a) = .ok source ∧
        (run s u args).world.stdout =
          described ++ (if o.printDocument then (p.rule source).document.markdown else []) ∧
        (run s u args).world.journal = db' :: db :: earlier ∧
        p.StoredHistory (run s u args).world.tree db' ∧
        (∀ b, p.ShownBy a b described (p.rule source) db db') ∧
        ∀ (s' : Surroundings) (u' : FileTree) (args' : List String) (p' : Project)
          (argument : Option String) (o' : ScanOptions), Asks args' (.scan argument o') →
          Opens s' u' args' p' → p'.config.history.enabled = true →
          p'.StoredHistory u' db' → HistoryKind.database.Keyed { database := db' } →
          (run s' u' args').failure = none →
          ∃ scan : p'.ScanRun argument o' (p'.opened u') (run s' u' args').world,
            ∃ db'' earlier', (run s' u' args').world.journal = db'' :: earlier' ∧
              p.MetByScan a source db db' scan.opened.tree
                (Path.clean ((argument.map p'.resolve).getD p'.root)) o'.force scan.report db'' := by
  have hroot := hclean.absolute
  refine ⟨fun a b => resolve_eq_resolve_iff,?_,?_⟩
  · intro a t sel folder files hproper hfolder hwalk hbelow
    exact resolve_found_iff hroot hproper hwalk (by rwa [t.absolute_of_clean hfolder])
  intro s u args a o h
  obtain ⟨source,modified,described,db,db',earlier,hread,hjournal,hput,hstored,hprinted,hdescribed⟩ :=
    h.exists_put
  have hfits := h.fits source modified hread
  refine ⟨source,described,db,db',earlier,hread,hprinted,hjournal,hstored,?_,?_⟩
  · intro b
    exact shownBy_of_put hput hfits hdescribed
  intro s' u' args' p' argument o' hasks hopens henabled hstored' hkeyed hends
  have hscan := result_scan_of_opens hasks hopens hends
  obtain ⟨scan⟩ := exists_scanRun hscan
  obtain ⟨c,after,answers,earlier',rfl,hdeleted,hfinishes,hjournal'⟩ :=
    scan.exists_finishes hscan henabled (p'.tree_opened u' ▸ hstored')
  have habsolute : Path.isAbsolute ((argument.map p'.resolve).getD p'.root) = true := by
    cases argument with
    | none => exact hopens.clean_root.absolute
    | some path => exact isAbsolute_resolve hopens.clean_root.absolute path
  have hfolder : scan.opened.tree.absolute ((argument.map p'.resolve).getD p'.root) =
      Path.clean ((argument.map p'.resolve).getD p'.root) := if_pos habsolute
  rw [← hfolder]
  exact ⟨scan,after.database,earlier',hjournal',metByScan_of_finishes hput hfits hroot rfl rfl
    ⟨hkeyed.distinct,hkeyed.own⟩ hfinishes hdeleted⟩

theorem file_key_agrees_iff_sample :
    ∃ u source described,
      (run { now := .unset } sampleOutdated ["explain","a.py","--print-doc"]).world.tree = u ∧
      sampleOutdated.read "/p/a.py" = .ok source ∧
      (run { now := .unset } u ["show","./a.py"]).failure = none ∧
      (run { now := .unset } u ["show","./a.py"]).world.stdout =
        described ++ "\n" ++ (explainSource defaultConstructor source).document.markdown := by
  obtain ⟨hkeys,-,hexplained⟩ := file_key_agrees_iff told_sampleOutdated.opens.clean_root
  obtain ⟨source,described,db,db',_,hread,_,_,hstored,hshown,_⟩ :=
    hexplained _ _ _ _ _ told_sampleOutdated.toRecorded
  have hargs : CommandLine.ofArguments ["show","./a.py"] = .ok { command := .show "./a.py" } := by
    decide +kernel
  have hopens : Opens { now := .unset }
      (run { now := .unset } sampleOutdated ["explain","a.py","--print-doc"]).world.tree
      ["show","./a.py"] sampleSettled :=
    told_sampleOutdated.opens.later ⟨_,_,ofArguments_printed,hargs,rfl,rfl⟩ rfl proper_sampleOutdated
      (puts_of_run told_sampleOutdated.asks told_sampleOutdated.opens rfl told_sampleOutdated.ends)
      (settingsAvoid_sampleOutdated hargs)
  have hkey : sampleSettled.resolve "./a.py" = sampleSettled.resolve "a.py" :=
    (hkeys "a.py" "./a.py" (by decide +kernel)).mpr (Or.inr (by decide +kernel))
  obtain ⟨hends,hprinted⟩ := (hshown "./a.py").found hkey _ _ _ _ ⟨_,hargs,rfl⟩ hopens rfl rfl rfl
    hstored
  have hresolve : sampleSettled.resolve "a.py" = "/p/a.py" := by decide +kernel
  rw [hresolve] at hread
  exact ⟨_,source,described,rfl,hread,hends,hprinted⟩

def sampleUncleaned : FileTree :=
  (run { now := .unset } sampleProject ["explain","/p/./a.py"]).world.tree

theorem sampleUncleaned_evaluated :
    (run { now := .unset } sampleProject ["explain","/p/./a.py"]).failure = none ∧
    (run { now := .unset } sampleUncleaned ["show","a.py"]).failure = some (.noRecord "a.py") ∧
    IsSample sampleUncleaned ∧ (sampleScanned sampleUncleaned).failure = none ∧
    (sampleScanned sampleUncleaned).world.stdout =
      "Scan complete:\n  Files explained:   1\n  Files skipped:     0 (unchanged)\n" ++
      "  Records deleted:   1 (removed)\n  Gates found:       1\n  Documents written: 1\n" ++
      "\nDocuments stored at: /p/.circuitdoc/docs\n" := by
  decide +kernel

/-- Explained by a path with a dot in it, the source is not found by its name, and a scan explains it
once more and deletes the record. -/
theorem uncleaned_path_splits_file :
    Path.absolute "/p" "/p/./a.py" = Path.absolute "/p" "a.py" ∧
    (run { now := .unset } sampleProject ["explain","/p/./a.py"]).failure = none ∧
    ∃ u, (run { now := .unset } sampleProject ["explain","/p/./a.py"]).world.tree = u ∧
      (run { now := .unset } u ["show","a.py"]).failure = some (.noRecord "a.py") ∧
      (run { now := .unset } u ["scan"]).failure = none ∧
      (run { now := .unset } u ["scan"]).world.stdout =
        "Scan complete:\n  Files explained:   1\n  Files skipped:     0 (unchanged)\n" ++
        "  Records deleted:   1 (removed)\n  Gates found:       1\n  Documents written: 1\n" ++
        "\nDocuments stored at: /p/.circuitdoc/docs\n" := by
  obtain ⟨hends,hmissing,hsample,hscanned,hprinted⟩ := sampleUncleaned_evaluated
  refine ⟨by decide +kernel,hends,sampleUncleaned,rfl,hmissing,?_⟩
  rw [hsample.run]
  exact ⟨hscanned,hprinted⟩

end CircuitNotes
