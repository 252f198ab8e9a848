import CircuitNotes.Proofs.DocumentFreshness
import CircuitNotes.Proofs.ScanScheduling

/-! A scan that fails changes nothing. Whatever goes wrong and whenever it does, the history is touched
only once nothing can make the scan fail any more; and a command whose scan has failed ends before it
writes the first document. -/
namespace CircuitNotes

variable {σ : Type}

/-! ### Scans -/

/-- What may go wrong whatever the files and the history are like: a folder cannot be walked, the
history cannot be listed, the transaction that stores the records is refused, or a record cannot be
deleted. -/
inductive Mishap : Scanning σ → Scanning σ → Prop
  | walk {h : σ} {b : Board} (e : FileError) : Mishap ⟨h,b,.walking⟩ ⟨h,b,.failed (.unwalked e)⟩
  | list {h : σ} {b : Board} {files : List FoundFile} (e : HistoryError) :
      Mishap ⟨h,b,.listing files⟩ ⟨h,b,.failed (.unlisted e)⟩
  | store {h : σ} {b : Board} {files : List FoundFile} {existing : Bucket Record}
      {slots : List ScannedFile} (e : HistoryError) :
      Mishap ⟨h,b,.storing files existing slots⟩ ⟨h,b,.failed (.unstored e)⟩
  | delete {h : σ} {b : Board} {slots : List ScannedFile} {path : Text} {rest gone : List Text}
      {left : List (Text × HistoryError)} (e : HistoryError) :
      Mishap ⟨h,b,.pruning slots (path :: rest) gone left⟩
        ⟨h,b,.pruning slots rest gone (left ++ [(path,e)])⟩

def Phase.mayFail : Phase → Bool
  | pruning .. | finished _ => false
  | _ => true

theorem Mishap.of_mayFail {s s' : Scanning σ} (h : Mishap s s') (hs' : s'.phase.mayFail = true) :
    s.phase.mayFail = true ∧ s'.history = s.history := by
  cases h with
  | walk | list | store => exact ⟨rfl,rfl⟩
  | delete => cases hs'

theorem Scanning.mayFail_of_outcome? {s : Scanning σ} {e : ScanError} {after : σ}
    (h : s.outcome? = some (.error e,after)) : s.phase.mayFail = true ∧ s.history = after := by
  obtain ⟨history,board,phase⟩ := s
  cases phase with
  | failed e' =>
    cases h
    exact ⟨rfl,rfl⟩
  | _ => cases h

namespace ScanJob

/-- What a scan may come to in any number of steps, between which anything may go wrong. -/
abbrev UnluckyRuns (job : ScanJob) (access : HistoryAccess σ) (jobs : Nat) :
    Scanning σ → Scanning σ → Prop :=
  Relation.ReflTransGen fun s s' => job.Step access jobs s s' ∨ Mishap s s'

variable {job : ScanJob} {access : HistoryAccess σ} {jobs : Nat} {s s' : Scanning σ}

/-- A step after which a scan may fail starts where it may fail, and leaves the history as it is. -/
theorem Step.of_mayFail (h : job.Step access jobs s s') (hs' : s'.phase.mayFail = true) :
    s.phase.mayFail = true ∧ s'.history = s.history := by
  cases h with
  | stored | deleted | undeleted | finished => cases hs'
  | cancel hb => exact ⟨hs',rfl⟩
  | _ => exact ⟨rfl,rfl⟩

theorem UnluckyRuns.history_eq (h : job.UnluckyRuns access jobs s s')
    (hs' : s'.phase.mayFail = true) : s'.history = s.history := by
  induction h with
  | refl => rfl
  | tail _ hstep ih =>
    obtain ⟨hfail,hhistory⟩ := hstep.elim (·.of_mayFail hs') (·.of_mayFail hs')
    exact hhistory.trans (ih hfail)

theorem runs_calledOff (history : σ) (existing : Bucket Record) (files : List FoundFile) {b : Board}
    (hb : b.cancelled = true) {waiting : List FoundFile} (hwaiting : waiting ≠ [])
    {workers : List Worker} (hover : ∀ w ∈ workers, w.stage.isOver = true) :
    job.Runs access jobs ⟨history,b,.working files existing waiting workers⟩
      ⟨history,b,.failed .cancelled⟩ := by
  induction waiting generalizing workers with
  | nil => exact absurd rfl hwaiting
  | cons f rest ih =>
    have hact : job.act existing files.length job.now f b .launched = (.calledOff,b) := by
      simp [act,hb]
    have hwork : job.Step access jobs
        ⟨history,b,.working files existing rest (workers ++ [⟨f,.launched⟩])⟩ _ := .work rfl job.now
    rw [hact] at hwork
    have hover' : ∀ w ∈ workers ++ [⟨f,.calledOff⟩], w.stage.isOver = true := by
      intro w hw
      rcases List.mem_append.mp hw with hw | hw
      · exact hover w hw
      · rw [List.mem_singleton.mp hw]
        rfl
    refine .head (.launch (activeCount_lt hover jobs files)) (.head hwork ?_)
    cases rest with
    | nil => exact .single (.stopped hover' ⟨⟨f,.calledOff⟩,by simp,rfl⟩)
    | cons f' rest => exact ih (by simp) hover'

theorem history_of_runWith {ε : Type} {explain : Explaining ε} {state : ScanState σ ε} {e : ScanError}
    (h : (job.runWith explain access state).1 = .error e) :
    (job.runWith explain access state).2.history = state.history := by
  unfold runWith at h ⊢
  cases hwalk : job.tree.walk job.selection job.root with
  | error fault => rfl
  | ok files =>
    cases hlist : access.list state.history with
    | error fault => rfl
    | ok records =>
      simp only [hwalk,hlist] at h ⊢
      split_ifs at h ⊢ with hcancelled
      · rfl
      · cases hsettle : job.settle access state.history (byPath records) files
            (job.scanFiles explain (byPath records) state.explainer (job.reached files)).1 with
        | error fault => rfl
        | ok settled => simp [hsettle] at h

end ScanJob

/-! ### Commands -/

/-- A world whose files are those of a tree but for what a path leads to and for folders that have
been made. -/
def World.Within (path : String) (t : FileTree) (w : World) : Prop := t.TouchesOnly path w.tree

theorem World.quiet_within (path : String) (t : FileTree) : Work.Quiet (World.Within path t) :=
  fun _ _ _ hw => hw

namespace FileTree

theorem touchesOnly_of_connect {t t' : FileTree} {now : Int} {path : String} {c : Connection}
    (h : t.connect now path = .ok (c,t')) : t.TouchesOnly path t' := by
  obtain ⟨_,_,_,hstore⟩ := of_connect h
  exact touchesOnly_of_write hstore

end FileTree

namespace Project

open Work FileTree

theorem upholds_within (p : Project) (t : FileTree) :
    p.Upholds (World.Within (historyPath p.root) t) (fun _ => True) where
  quiet := World.quiet_within _ t
  folders := fun _ _ hw ht => hw.trans ((addsFolders_of_makeFoldersAt ht).touchesOnly _)
  connects := fun _ _ _ _ hw₀ _ hconnect => hw₀.trans (touchesOnly_of_connect hconnect)
  prepares := fun _ _ _ _ _ _ _ _ => trivial
  stores := fun _ _ _ hw _ hstore => hw.trans (touchesOnly_of_write hstore)
  journals := fun _ _ hw _ => hw
  scans := fun _ _ _ _ _ _ _ => trivial

/-! ### How a command may fail -/

variable {E : CommandError → Prop}

theorem failsOnly_writeDocuments (p : Project) (folder : String) (files : List ScannedFile) :
    FailsOnly E (p.writeDocuments folder files) := by
  induction files with
  | nil => exact failsOnly_pure _
  | cons s rest ih =>
    rw [Project.writeDocuments]
    cases s.record? with
    | none => exact ih
    | some r =>
      refine failsOnly_files.bind fun t => ?_
      by_cases hskip : (s.isSkipped && (t.stat (documentPath folder s.file.rel)).isOk) = true
      · simp only [if_pos hskip]
        exact ih
      · simp only [if_neg hskip]
        refine (failsOnly_attempt _).bind fun outcome => ?_
        cases outcome with
        | ok _ => exact ih.bind fun _ => failsOnly_pure _
        | error e => exact ih.bind fun _ => failsOnly_pure _

theorem failsOnly_finishScan (p : Project) (o : ScanOptions) (told : ScanReport × Explainer) :
    FailsOnly E (p.finishScan o told) := by
  unfold Project.finishScan
  refine (p.failsOnly_writeDocuments _ _).bind fun documented => ?_
  unfold Project.tellScan
  refine (failsOnly_print _).bind fun _ => (failsOnly_log p _ _).bind fun _ => ?_
  by_cases hnone : (!(told.1.errors ++ documented.2).isEmpty) = true
  · simp only [if_pos hnone]
    refine (failsOnly_print _).bind fun _ => ?_
    exact (failsOnly_forM fun _ => failsOnly_log p _ _).bind fun _ => failsOnly_print _
  · simp only [if_neg hnone]
    exact failsOnly_print _

theorem result_keepScan_of_error (p : Project) (o : ScanOptions)
    {found : Except ScanError ScanReport × Option Connection × Explainer} {e : ScanError}
    (h : found.1 = .error e) (w : World) :
    result (p.keepScan found >>= p.finishScan o) w = (.error (.unscanned e),w) := by
  obtain ⟨outcome,kept,explainer⟩ := found
  cases h
  rfl

theorem of_keepScan_error {p : Project}
    {found : Except ScanError ScanReport × Option Connection × Explainer} {e : CommandError}
    {w w' : World} (h : result (p.keepScan found) w = (.error e,w')) :
    w' = w ∧ ∃ fault, found.1 = .error fault ∧ e = .unscanned fault := by
  obtain ⟨outcome,kept,explainer⟩ := found
  cases outcome with
  | error fault =>
    cases h
    exact ⟨rfl,fault,rfl,rfl⟩
  | ok report =>
    have hkept : FailsOnly (fun _ => False) (kept.forM p.keepHistory : Work CommandError PUnit) := by
      cases kept with
      | none => exact failsOnly_pure _
      | some c => exact failsOnly_modify _
    have hnever : FailsOnly (fun _ => False) (p.keepScan (.ok report,kept,explainer)) :=
      hkept.bind fun _ => (failsOnly_forM fun _ => failsOnly_log p _ _).bind fun _ =>
        failsOnly_pure _
    exact (hnever w e w' h).elim

def ElseThanScan (e : CommandError) : Prop := ∀ fault, e ≠ .unscanned fault

theorem failsOnly_scanHistory (p : Project) : FailsOnly ElseThanScan p.scanHistory := by
  unfold Project.scanHistory
  split_ifs
  · refine (failsOnly_change ?_).bind fun _ => ?_
    · exact fun _ _ => by simp
    · exact (failsOnly_because _ fun _ _ => by simp).bind fun _ => failsOnly_pure _
  · exact failsOnly_pure _

/-- The stages of a command whose scan fails: the history is opened, the scan fails and leaves it as
it was opened, and the command ends with the files and the transactions that there were then. -/
structure FailedScan (p : Project) (argument : Option String) (o : ScanOptions) (w w' : World)
    (fault : ScanError) where
  history : Option Connection
  /-- When the files are looked for. -/
  opened : World
  explainer : Explainer
  opens : result p.scanHistory w = (.ok history,opened)
  fails : scanned (p.scanJob p.selection opened.tree ((argument.map p.resolve).getD p.root) o.force)
    history = (.error fault,history,explainer)
  tree : w'.tree = opened.tree
  journal : w'.journal = opened.journal

theorem scanned_of_error {job : ScanJob} {c : Option Connection} {fault : ScanError}
    (h : (scanned job c).1 = .error fault) : (scanned job c).2.1 = c := by
  cases c with
  | none => rfl
  | some c => exact congrArg some (ScanJob.history_of_runWith h)

theorem quiet_files (w₀ : World) :
    Quiet (fun w => w.tree = w₀.tree ∧ w.journal = w₀.journal) := fun _ _ _ hw => hw

theorem failedScan_of_scanFolder {p : Project} {argument : Option String} {o : ScanOptions}
    {w w' : World} {fault : ScanError}
    (h : result (p.scanFolder p.selection argument o) w = (.error (.unscanned fault),w')) :
    Nonempty (p.FailedScan argument o w w' fault) := by
  unfold Project.scanFolder at h
  rcases result_bind_eq_error h with h | ⟨node,w₁,hstat,h⟩
  · exact absurd rfl (failsOnly_ask (E:=ElseThanScan) (fun _ _ => by simp) _ _ _ h fault)
  obtain ⟨rfl,_⟩ := result_ask_eq_ok hstat
  by_cases hfolder : (!node.isFolder) = true
  · simp only [if_pos hfolder] at h
    rcases result_bind_eq_error h with h | ⟨_,_,h,_⟩ <;> cases h
  · simp only [if_neg hfolder] at h
    rcases result_bind_eq_error h with h | ⟨history,opened,hopened,h⟩
    · exact absurd rfl (p.failsOnly_scanHistory _ _ _ h fault)
    rcases result_bind_eq_error h with h | ⟨_,w₂,hlog,h⟩
    · exact (failsOnly_log (E:=fun _ => False) p _ _ _ _ _ h).elim
    have hquiet := (keeps_log (ε:=CommandError) (quiet_files opened) p .info
      ("Scanning " ++ (argument.map p.resolve).getD p.root ++ "...") opened ⟨rfl,rfl⟩).1
    rw [hlog] at hquiet
    obtain ⟨htree,hjournal⟩ := hquiet
    rw [result_runScan,htree] at h
    obtain ⟨rfl,_,hfails,hfault⟩ := of_keepScan_error h
    cases hfault
    exact ⟨⟨history,opened,_,hopened,Prod.ext hfails (Prod.ext (scanned_of_error hfails) rfl),htree,
      hjournal⟩⟩

theorem scanFolder_of_scan {p : Project} {argument : Option String} {o : ScanOptions} {w w' : World}
    {e : CommandError} (h : result (p.scan argument o) w = (.error e,w')) :
    result (p.scanFolder p.selection argument o) w = (.error e,w') := by
  rcases result_bind_eq_error h with h | ⟨told,w₁,_,h⟩
  · exact h
  · exact (p.failsOnly_finishScan (E:=fun _ => False) o told w₁ e w' h).elim

end Project

namespace CommandLine

open Work Project

theorem keeps_tree_openProject (l : CommandLine) (s : Surroundings) (u : FileTree) :
    Keeps (fun w => w.tree = u) (l.openProject s) (fun p => p.root = l.projectRoot u) := by
  unfold CommandLine.openProject
  refine Keeps.bind (keeps_files (T:=fun t => t = u) fun w hw => hw) fun t ht => ?_
  subst ht
  simp only
  generalize (if l.configPath.isEmpty then Config.loadFrom t (l.projectRoot t)
    else Config.load t l.configPath) = loaded
  cases loaded with
  | error e => exact keeps_throw _
  | ok c => exact Keeps.bind (keeps_log (quiet_tree t) _ _ _) fun _ _ => keeps_pure rfl

theorem failsOnly_openProject {E : CommandError → Prop} (hE : ∀ e, E (.config e)) (l : CommandLine)
    (s : Surroundings) : FailsOnly E (l.openProject s) := by
  unfold CommandLine.openProject
  refine failsOnly_files.bind fun t => ?_
  simp only
  generalize (if l.configPath.isEmpty then Config.loadFrom t (l.projectRoot t)
    else Config.load t l.configPath) = loaded
  cases loaded with
  | error e => exact failsOnly_throw (hE e)
  | ok c => exact (failsOnly_log _ _ _).bind fun _ => failsOnly_pure _

end CommandLine

open Work Project

/-- A scan by the program that fails: either the project cannot be opened, or its scan fails before
the first document may be written. -/
theorem scanFolder_of_run {s : Surroundings} {u : FileTree} {args : List String} {l : CommandLine}
    {argument : Option String} {o : ScanOptions} {e : CommandError}
    (hargs : CommandLine.ofArguments args = .ok l) (hcommand : l.command = .scan argument o)
    (hfails : (run s u args).failure = some e) :
    result (l.openProject s) { tree := u } = (.error e,(run s u args).world) ∨
      ∃ p w, result (l.openProject s) { tree := u } = (.ok p,w) ∧
        result (p.scanFolder p.selection argument o) w = (.error e,(run s u args).world) := by
  rw [run_scan s u hargs hcommand] at hfails ⊢
  rcases hresult : result (l.openProject s >>= fun p => p.scan argument o) { tree := u } with
    ⟨outcome,w'⟩
  rw [hresult] at hfails
  cases outcome with
  | ok a => cases hfails
  | error e' =>
    cases hfails
    refine (result_bind_eq_error hresult).imp_right ?_
    rintro ⟨p,w,hopen,h⟩
    exact ⟨p,w,hopen,scanFolder_of_scan h⟩

section Run

variable {s : Surroundings} {u : FileTree} {args : List String} {l : CommandLine}
  {argument : Option String} {o : ScanOptions} {e : CommandError}
  (hargs : CommandLine.ofArguments args = .ok l) (hcommand : l.command = .scan argument o)
  (hfails : (run s u args).failure = some e)
include hargs hcommand hfails

theorem touchesOnly_of_failed_run :
    u.TouchesOnly (historyPath (l.projectRoot u)) (run s u args).world.tree := by
  have hopened := l.keeps_tree_openProject s u { tree := u } rfl
  rcases scanFolder_of_run hargs hcommand hfails with h | ⟨p,w,hopen,h⟩
  · rw [h] at hopened
    rw [hopened.1]
    exact .refl _ u
  · rw [hopen] at hopened
    obtain ⟨htree,hroot⟩ := hopened
    rw [← hroot p rfl]
    have hwithin := ((p.upholds_within u).keeps_scanFolder p.selection argument o w
      (htree ▸ .refl _ _)).1
    rwa [h] at hwithin

theorem failedScan_of_failed_run {fault : ScanError} (he : e = .unscanned fault) :
    ∃ p w, result (l.openProject s) { tree := u } = (.ok p,w) ∧
      Nonempty (p.FailedScan argument o w (run s u args).world fault) := by
  subst he
  rcases scanFolder_of_run hargs hcommand hfails with h | ⟨p,w,hopen,h⟩
  · exact absurd rfl (l.failsOnly_openProject (E:=ElseThanScan) (fun _ _ => nofun) s _ _ _ h fault)
  · exact ⟨p,w,hopen,failedScan_of_scanFolder h⟩

end Run

/-- With any number of workers, whatever goes wrong and whenever it is called off, a scan leaves the
history as it was until it cannot fail any more; so a scan that fails leaves it, also if it takes the
files one after another. A command whose scan has failed ends there; and a command that scans and
fails, for whatever reason, has written no file but that of the history, which then holds what it held
when the scan began. -/
theorem failed_scan_changes_nothing :
    (∀ (σ : Type) (job : ScanJob) (access : HistoryAccess σ) (jobs : Nat) (before : σ) (e : Explainer)
      (s : Scanning σ), job.UnluckyRuns access jobs (.start before e) s →
        (s.phase.mayFail = true → s.history = before) ∧
        ∀ (fault : ScanError) (after : σ), s.outcome? = some (.error fault,after) →
          after = before ∧ ∀ (p : Project) (o : ScanOptions) (kept : Option Connection) (w : World),
            result (p.keepScan (.error fault,kept,s.board.explainer) >>= p.finishScan o) w =
              (.error (.unscanned fault),w)) ∧
    (∀ (σ ε : Type) (job : ScanJob) (explain : Explaining ε) (access : HistoryAccess σ)
      (state : ScanState σ ε) (fault : ScanError),
      (job.runWith explain access state).1 = .error fault →
        (job.runWith explain access state).2.history = state.history) ∧
    ∀ (s : Surroundings) (u : FileTree) (args : List String) (l : CommandLine)
      (argument : Option String) (o : ScanOptions) (e : CommandError),
      CommandLine.ofArguments args = .ok l → l.command = .scan argument o →
      (run s u args).failure = some e →
        u.TouchesOnly (historyPath (l.projectRoot u)) (run s u args).world.tree ∧
        ∀ fault, e = .unscanned fault → ∃ p w, result (l.openProject s) { tree := u } = (.ok p,w) ∧
          Nonempty (p.FailedScan argument o w (run s u args).world fault) := by
  refine ⟨?_,?_,?_⟩
  · intro σ job access jobs before e s hruns
    refine ⟨hruns.history_eq,?_⟩
    intro fault after hout
    obtain ⟨hfail,rfl⟩ := Scanning.mayFail_of_outcome? hout
    exact ⟨hruns.history_eq hfail,fun p o kept w => p.result_keepScan_of_error o rfl w⟩
  · intro σ ε job explain access state fault h
    exact ScanJob.history_of_runWith h
  · intro s u args l argument o e hargs hcommand hfails
    exact ⟨touchesOnly_of_failed_run hargs hcommand hfails,
      fun fault he => failedScan_of_failed_run hargs hcommand hfails he⟩

def sampleSpoiled : FileTree :=
  (sampleProject.set ["p",".circuitdoc"] .folder).set ["p",".circuitdoc","history.db"]
    (.file (Storage.encode { database :=
      { Database.migrate {} defaultConstructor with records := [("/p/a.py",[0xC1])] } }) 5)

theorem sampleSpoiled_evaluated : IsSample sampleSpoiled ∧
    (sampleScanned sampleSpoiled).failure =
      some (.unscanned (.unlisted (.undecodable "/p/a.py"))) := by
  decide +kernel

namespace ScanJob

/-- A scan of the sample that is called off when one of the files has been handled. -/
theorem runs_sampleScan_calledOff : ∃ s : Scanning Ledger,
    sampleScan.Runs Ledger.access 2 (.start sampleLedger ⟨.empty 0,0⟩) s ∧ s.board.processed = 1 ∧
      s.outcome? = some (.error .cancelled,s.history) := by
  have hwalked : sampleScan.Runs Ledger.access 2 (.start sampleLedger ⟨.empty 0,0⟩) _ :=
    .head (.found walk_sampleScan) (.single (.listed rfl))
  have hfirst : sampleScan.Runs Ledger.access 2 ⟨_,_,.working sampleFiles _ sampleFiles.tail _⟩ _ :=
    (sampleScan.actsAlone_launched (byPath sampleLedger.list) sampleFiles.length
      ⟨"/p/kept.py","kept.py",5,1⟩ { explainer := ⟨.empty 0,0⟩ } rfl).runs sampleLedger [] []
  refine ⟨_,(hwalked.tail (.launch (by decide))).trans (hfirst.trans (.head (.cancel rfl)
    (runs_calledOff sampleLedger _ _ rfl (by decide) ?_))),rfl,rfl⟩
  simp [Stage.isOver]

theorem sampleScan_refused : ∃ fault, (sampleScan.runWith sampleScan.bare
    (Ledger.access.refusing ["put"]) ⟨sampleLedger,()⟩).1 = .error fault := by
  have hfails : (sampleScan.runWith sampleScan.bare (Ledger.access.refusing ["put"])
      ⟨sampleLedger,()⟩).1.isOk = false := by
    unfold runWith
    rw [walk_sampleScan]
    decide +kernel
  cases hout : (sampleScan.runWith sampleScan.bare (Ledger.access.refusing ["put"])
      ⟨sampleLedger,()⟩).1 with
  | error fault => exact ⟨fault,rfl⟩
  | ok report =>
    rw [hout] at hfails
    cases hfails

end ScanJob

def sampleLine : CommandLine := { command := .scan none {} }

theorem failed_scan_changes_nothing_sample :
    (∃ s, ScanJob.sampleScan.UnluckyRuns Ledger.access 2
        (.start ScanJob.sampleLedger ⟨.empty 0,0⟩) s ∧
      s.board.processed = 1 ∧ s.outcome? = some (.error .cancelled,ScanJob.sampleLedger)) ∧
    (∃ fault, (ScanJob.sampleScan.runWith ScanJob.sampleScan.bare (Ledger.access.refusing ["put"])
        ⟨ScanJob.sampleLedger,()⟩).1 = .error fault ∧
      (ScanJob.sampleScan.runWith ScanJob.sampleScan.bare (Ledger.access.refusing ["put"])
        ⟨ScanJob.sampleLedger,()⟩).2.history = ScanJob.sampleLedger) ∧
    (run { now := .unset } sampleSpoiled ["scan"]).failure =
        some (.unscanned (.unlisted (.undecodable "/p/a.py"))) ∧
      sampleSpoiled.TouchesOnly (historyPath (sampleLine.projectRoot sampleSpoiled))
        (run { now := .unset } sampleSpoiled ["scan"]).world.tree ∧
      ∃ p w, result (sampleLine.openProject { now := .unset }) { tree := sampleSpoiled } =
          (.ok p,w) ∧
        Nonempty (p.FailedScan none {} w (run { now := .unset } sampleSpoiled ["scan"]).world
          (.unlisted (.undecodable "/p/a.py"))) := by
  obtain ⟨hworkers,hfiles,hcommand⟩ := failed_scan_changes_nothing
  obtain ⟨s,hruns,hprocessed,hout⟩ := ScanJob.runs_sampleScan_calledOff
  have hunlucky : ScanJob.sampleScan.UnluckyRuns Ledger.access 2
      (.start ScanJob.sampleLedger ⟨.empty 0,0⟩) s :=
    Relation.ReflTransGen.mono (fun _ _ => Or.inl) _ _ hruns
  have hhistory := ((hworkers _ _ _ _ _ _ _ hunlucky).2 _ _ hout).1
  obtain ⟨fault,hrefused⟩ := ScanJob.sampleScan_refused
  have hspoiled : (run { now := .unset } sampleSpoiled ["scan"]).failure =
      some (.unscanned (.unlisted (.undecodable "/p/a.py"))) := by
    rw [sampleSpoiled_evaluated.1.run]
    exact sampleSpoiled_evaluated.2
  obtain ⟨htouches,hfailed⟩ := hcommand { now := .unset } sampleSpoiled ["scan"] sampleLine none {} _
    (by decide +kernel) rfl hspoiled
  exact ⟨⟨s,hunlucky,hprocessed,hhistory ▸ hout⟩,⟨fault,hrefused,hfiles _ _ _ _ _ _ _ hrefused⟩,
    hspoiled,htouches,hfailed _ rfl⟩

end CircuitNotes
