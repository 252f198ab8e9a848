import CircuitNotes.Proofs.DocumentChecking
import CircuitNotes.Proofs.SchemaPreparation
import CircuitNotes.Proofs.StoredExplanations
import CircuitNotes.Proofs.StoredForm

/-! Showing a source after it was explained repeats what was printed then. The explanation goes into the
stored form of a record, into the database, into its file, and all the way back; the database is brought
to the schema on both ways, the second time without any loss. -/
namespace CircuitNotes

open Work Project FileTree

theorem Database.Settled.put {db db' : Database} {constructor : String} {r : Record}
    (h : db.Settled constructor) (hput : db.put r = .ok db') : db'.Settled constructor := by
  cases eq_of_put hput
  exact h

namespace Connection

theorem of_update {c c' : Connection} {change : Database → Except HistoryError Database}
    (h : c.update change = .ok c') :
    c.isOpen = true ∧ ∃ db, change c.database = .ok db ∧ c' = c.commit db := by
  obtain ⟨db,hask,hc'⟩ := exceptBind_eq_ok h
  simp only [ask] at hask
  split_ifs at hask with hopen
  exact ⟨hopen,db,hask,(Except.ok.inj hc').symm⟩

/-- The latest state in the journal is the one that the database is in. -/
def Logged (c : Connection) : Prop := ∃ earlier, c.journal = c.database :: earlier

theorem logged_commit (c : Connection) (db : Database) : (c.commit db).Logged := ⟨c.journal,rfl⟩

theorem logged_reopen (c : Connection) : c.reopen.Logged := ⟨c.journal,rfl⟩

theorem Logged.prepare {c c' : Connection} {constructor reason : String} (h : c.Logged)
    (hprepare : c.prepare constructor = .ok (reason,c')) : c'.Logged := by
  obtain ⟨_,s,_,_,rfl⟩ := of_prepare hprepare
  exact List.foldlRecOn (motive := Logged) _ _ h fun c _ change _ => c.logged_commit _

end Connection

theorem Project.upholds_logged (p : Project) :
    p.Upholds (fun _ => True) (fun c => c.isOpen = true ∧ c.Logged) where
  quiet := fun _ _ _ _ => trivial
  folders := fun _ _ _ _ => trivial
  connects := fun _ _ _ _ _ _ _ => trivial
  prepares := by
    intro w c t reason c' _ hconnect hprepare
    obtain ⟨held,_,rfl,_⟩ := of_connect hconnect
    exact ⟨Connection.isOpen_of_prepare hprepare,held.logged_reopen.prepare hprepare⟩
  stores := fun _ _ _ _ _ _ => trivial
  journals := fun _ _ _ _ => trivial
  scans := by
    intro job c report state _ hc hrun
    have hupdate {c c' : Connection} {change : Database → Except HistoryError Database}
        (h : c.update change = .ok c') : c'.isOpen = true ∧ c'.Logged := by
      obtain ⟨hopen,db,_,rfl⟩ := Connection.of_update h
      exact ⟨hopen,c.logged_commit db⟩
    refine (job.finishes_of_runWith _ _ hrun).keeps (I:=fun c => c.isOpen = true ∧ c.Logged)
      (R:=fun _ => True) ?_ ?_ (fun _ _ _ _ _ _ => trivial) hc
    · exact fun _ _ _ _ _ hput => hupdate hput
    · exact fun _ _ _ _ hdelete => hupdate hdelete

/-! ### The file of the history -/

namespace FileTree

theorem exists_write_of_read {t : FileTree} {path : String} {content : Text}
    (h : t.read path = .ok content) (now : Int) (content' : Text) :
    ∃ t', t.write now path content' = .ok t' := by
  obtain ⟨place,m,hlookup⟩ := (read_eq_ok_iff _ _ _).mp h
  have hlocate := (lookup_eq_ok_iff _ _ _ _ _).mp hlookup
  refine ⟨t.set place (.file content' now),?_⟩
  unfold FileTree.write
  rw [hlocate]
  rfl

theorem read_of_connect {t t' : FileTree} {now : Int} {path : String} {c : Connection}
    (h : t.connect now path = .ok (c,t')) : t'.read path = .ok (Storage.encode c) := by
  obtain ⟨_,_,_,hstore⟩ := of_connect h
  exact read_of_write hstore

theorem connect_of_read {t : FileTree} {path : String} {c : Connection}
    (h : t.read path = .ok (Storage.encode c)) (now : Int) :
    ∃ c' t', t.connect now path = .ok (c',t') ∧ c'.isOpen = true ∧ c'.database = c.database := by
  have hnonempty : (Storage.encode c).isEmpty = false := rfl
  have hheld : t.databaseAt path = .ok { database := c.database,revision := c.revision } := by
    unfold databaseAt
    simp only [h,hnonempty,Bool.false_eq_true,if_false,Storage.decode?_encode]
  obtain ⟨t',ht'⟩ := exists_write_of_read h now (Storage.encode
    ({ database := c.database,revision := c.revision } : Connection).reopen)
  have hstore : t.store now path
      ({ database := c.database,revision := c.revision } : Connection).reopen = .ok t' := ht'
  refine ⟨({ database := c.database,revision := c.revision } : Connection).reopen,t',?_,rfl,rfl⟩
  simp only [connect,hheld,bind,Except.bind,hstore]
  rfl

end FileTree

namespace Project

variable {ε : Type} {p : Project} {w w' : World}

theorem result_keepHistory {content : Text} (h : w.tree.read (historyPath p.root) = .ok content)
    (c : Connection) : ∃ t, t.read (historyPath p.root) = .ok (Storage.encode c) ∧
      result (p.keepHistory c : Work ε Unit) w = (.ok (),{ w with tree := t,journal := c.journal }) := by
  obtain ⟨t,ht⟩ := exists_write_of_read h p.now.seconds (Storage.encode c)
  have hstore : w.tree.store p.now.seconds (historyPath p.root) c = .ok t := ht
  refine ⟨t,read_of_write ht,?_⟩
  rw [keepHistory,result_modify]
  simp only [hstore]

theorem result_openHistory_unconnected {e : HistoryError}
    (h : w.tree.connect p.now.seconds (historyPath p.root) = .error e) :
    result p.openHistory w = (.error e,w) := by
  rw [openHistory,result_bind,result_files]
  simp only [h]
  exact result_throw e w

theorem result_openHistory_unprepared {c : Connection} {t : FileTree} {e : HistoryError}
    (hconnect : w.tree.connect p.now.seconds (historyPath p.root) = .ok (c,t))
    (hprepare : c.prepare p.config.scan.constructor = .error e) :
    result p.openHistory w = (.error e,{ w with tree := t,journal := c.journal }) := by
  rw [openHistory,result_bind,result_files]
  simp only [hconnect]
  rw [result_bind,result_modify]
  simp only [hprepare]
  exact result_throw e _

/-- Opening the history prints nothing and keeps the database, if it can be kept. -/
theorem result_openHistory_prepared {c c' : Connection} {t : FileTree} {reason : String}
    (hconnect : w.tree.connect p.now.seconds (historyPath p.root) = .ok (c,t))
    (hprepare : c.prepare p.config.scan.constructor = .ok (reason,c')) :
    ∃ log, result p.openHistory w = (.ok c',{ w with
      tree := (t.store p.now.seconds (historyPath p.root) c').toOption.getD t
      log := log
      journal := c'.journal }) := by
  have hkeep : result (p.keepHistory c' : Work HistoryError Unit)
      { w with tree := t,journal := c.journal } = (.ok (),{ w with
        tree := (t.store p.now.seconds (historyPath p.root) c').toOption.getD t
        journal := c'.journal }) := by
    rw [keepHistory,result_modify]
    cases t.store p.now.seconds (historyPath p.root) c' <;> rfl
  rw [openHistory,result_bind,result_files]
  simp only [hconnect]
  rw [result_bind,result_modify]
  simp only [hprepare]
  rw [result_bind,hkeep]
  by_cases hreason : (reason != "") = true
  · obtain ⟨log,hlog⟩ := p.result_log (ε:=HistoryError) (w:={ w with
      tree := (t.store p.now.seconds (historyPath p.root) c').toOption.getD t
      journal := c'.journal }) .info ("History cleared: " ++ reason)
    simp only [if_pos hreason]
    rw [result_bind,hlog]
    exact ⟨log,rfl⟩
  · simp only [if_neg hreason]
    exact ⟨w.log,rfl⟩

theorem result_openHistory {c c' : Connection} {t : FileTree} {reason : String}
    (hconnect : w.tree.connect p.now.seconds (historyPath p.root) = .ok (c,t))
    (hprepare : c.prepare p.config.scan.constructor = .ok (reason,c')) :
    ∃ t' log, t'.read (historyPath p.root) = .ok (Storage.encode c') ∧
      result p.openHistory w = (.ok c',{ w with tree := t',log := log,journal := c'.journal }) := by
  obtain ⟨t',ht'⟩ := exists_write_of_read (read_of_connect hconnect) p.now.seconds (Storage.encode c')
  have hstore : t.store p.now.seconds (historyPath p.root) c' = .ok t' := ht'
  obtain ⟨log,hopened⟩ := result_openHistory_prepared hconnect hprepare
  rw [hstore] at hopened
  exact ⟨t',log,read_of_write ht',hopened⟩

theorem of_openHistory {c : Connection} (h : result p.openHistory w = (.ok c,w')) :
    w'.stdout = w.stdout ∧ c.database.Settled p.config.scan.constructor ∧
      w'.tree.read (historyPath p.root) = .ok (Storage.encode c) := by
  cases hconnect : w.tree.connect p.now.seconds (historyPath p.root) with
  | error e =>
    rw [result_openHistory_unconnected hconnect] at h
    cases h
  | ok opened =>
    obtain ⟨c₀,t⟩ := opened
    cases hprepare : c₀.prepare p.config.scan.constructor with
    | error e =>
      rw [result_openHistory_unprepared hconnect hprepare] at h
      cases h
    | ok prepared =>
      obtain ⟨reason,c₁⟩ := prepared
      obtain ⟨t',log,ht',hopened⟩ := result_openHistory hconnect hprepare
      rw [hopened] at h
      cases h
      exact ⟨rfl,Connection.settled_of_prepare hprepare,ht'⟩

/-- Files of a project whose history has a record. -/
def Remembers (p : Project) (t : FileTree) (r : Record) : Prop :=
  ∃ c : Connection, t.read (historyPath p.root) = .ok (Storage.encode c) ∧
    c.database.Settled p.config.scan.constructor ∧
    Bucket.find? c.database.records r.path = some (Packed.record r)

/-- The file of the history holds a database at the schema of the project. -/
def StoredHistory (p : Project) (t : FileTree) (db : Database) : Prop :=
  ∃ c : Connection, t.read (historyPath p.root) = .ok (Storage.encode c) ∧ c.database = db ∧
    db.Settled p.config.scan.constructor

/-- A record that is put into the history is in its file, with all that was there just before. -/
theorem exists_put_of_recordSource {r : Record} (h : result (p.recordSource r) w = (.ok (),w')) :
    w'.stdout = w.stdout ∧ ∃ db db' earlier, w'.journal = db' :: db :: earlier ∧
      db.put r = .ok db' ∧ p.StoredHistory w'.tree db' := by
  obtain ⟨_,w₁,hfolder,h⟩ := result_bind_eq_ok h
  obtain ⟨c,w₂,hopened,h⟩ := result_bind_eq_ok h
  have hfolders : Keeps (fun v => v.stdout = w.stdout) (p.makeDataFolder RecordingError.noFolder)
      (fun _ => True) := keeps_change fun _ _ hv _ => hv
  have hfolder' := (hfolders w rfl).1
  rw [hfolder] at hfolder'
  have hopened' := result_because_eq_ok hopened
  obtain ⟨hstdout,hsettled,hheld⟩ := of_openHistory hopened'
  obtain ⟨-,earlier,hlogged⟩ := (p.upholds_logged.keeps_openHistory w₁ trivial).2 c (by rw [hopened'])
  cases hupdate : c.update (·.put r) with
  | error e =>
    simp only [hupdate] at h
    cases h
  | ok c' =>
    obtain ⟨-,db',hput,rfl⟩ := Connection.of_update hupdate
    obtain ⟨t,ht,hkeep⟩ := result_keepHistory (ε:=RecordingError) hheld (c.commit db')
    simp only [hupdate,hkeep] at h
    cases h
    refine ⟨hstdout.trans hfolder',c.database,db',earlier,?_,hput,_,ht,rfl,hsettled.put hput⟩
    exact congrArg (db' :: ·) hlogged

theorem remembers_of_put {t : FileTree} {db db' : Database} {r : Record}
    (hstored : p.StoredHistory t db') (hput : db.put r = .ok db') : p.Remembers t r := by
  obtain ⟨c,hheld,rfl,hsettled⟩ := hstored
  exact ⟨c,hheld,hsettled,Database.find?_of_put hput⟩

def recordingWarning (p : Project) (why : RecordingError) : Text :=
  LogLevel.warn.line p.palette ("history not updated: " ++ why.message)

/-- Either the history has been told of a source, or the last thing logged is a warning. -/
theorem of_rememberSource {r : Record} {a : Unit}
    (h : result (p.rememberSource r : Work ε Unit) w = (.ok a,w')) :
    result (p.recordSource r) w = (.ok (),w') ∨ ∃ why, p.recordingWarning why <:+ w'.log := by
  unfold rememberSource at h
  rw [result_bind,result_attempt] at h
  rcases hresult : result (p.recordSource r) w with ⟨outcome,w₁⟩
  rw [hresult] at h
  cases outcome with
  | ok _ =>
    cases h
    exact Or.inl rfl
  | error why =>
    have hshown : LogLevel.isShown .warn (.ofSetting p.config.logging.level) = true := by
      cases LogLevel.ofSetting p.config.logging.level <;> rfl
    simp only [Project.log,if_pos hshown] at h
    cases h
    exact Or.inr ⟨why,List.suffix_append _ _⟩

/-! ### Printing -/

/-- What is printed of a circuit depends on the project by its colours only. -/
theorem of_printResult {format : String} {c : Circuit} {a : Unit}
    (h : result (p.printResult format c) w = (.ok a,w')) :
    ∃ described, w' = { w with stdout := w.stdout ++ described } ∧
      ∀ (q : Project) (v : World), q.palette = p.palette →
        result (q.printResult format c) v = (.ok (),{ v with stdout := v.stdout ++ described }) := by
  unfold printResult at h ⊢
  split at h
  · cases h
    exact ⟨_,rfl,fun _ _ _ => rfl⟩
  · cases h
    refine ⟨_,rfl,?_⟩
    intro q v hpalette
    rw [hpalette]
    rfl
  · cases h

theorem stdout_of_writeDocument {path : String} {d : Document} {because : FileError → ε} {a : Unit}
    (h : result (p.writeDocument path d because) w = (.ok a,w')) : w'.stdout = w.stdout := by
  have hkeeps : Keeps (fun v => v.stdout = w.stdout) (p.writeDocument path d because) (fun _ => True) :=
    Keeps.bind (keeps_change fun _ _ hv _ => hv) fun _ _ => keeps_change fun _ _ hv _ => hv
  have hkept := (hkeeps w rfl).1
  rwa [h] at hkept

theorem of_printExplanation {o : ExplainOptions} {e : Explanation} {a : Unit}
    (h : result (p.printExplanation o e) w = (.ok a,w')) :
    ∃ described, w'.log = w.log ∧ w'.journal = w.journal ∧
      w'.stdout = w.stdout ++ described ++ (if o.printDocument then e.document.markdown else []) ∧
      ∀ (q : Project) (v : World), q.palette = p.palette →
        result (q.printResult (if o.format.isEmpty then p.config.output.format else o.format)
          e.circuit) v = (.ok (),{ v with stdout := v.stdout ++ described }) := by
  unfold printExplanation at h
  obtain ⟨_,w₁,hresult,h⟩ := result_bind_eq_ok h
  obtain ⟨described,rfl,hdescribed⟩ := of_printResult hresult
  by_cases hprints : o.printDocument = true
  · rw [if_pos hprints] at h ⊢
    cases h
    exact ⟨described,rfl,rfl,rfl,hdescribed⟩
  · rw [if_neg hprints] at h ⊢
    cases h
    exact ⟨described,rfl,rfl,(List.append_nil _).symm,hdescribed⟩

theorem result_existingHistory {c : Connection}
    (hheld : w.tree.read (historyPath p.root) = .ok (Storage.encode c))
    (hsettled : c.database.Settled p.config.scan.constructor) :
    ∃ c' t log, c'.isOpen = true ∧ c'.database = c.database ∧
      result p.existingHistory w = (.ok c',{ w with tree := t,log := log,journal := c'.journal }) := by
  obtain ⟨c',t,hconnect,hopen,hdatabase⟩ := connect_of_read hheld p.now.seconds
  have hprepare := Connection.prepare_of_settled hopen (hdatabase ▸ hsettled)
  obtain ⟨t',log,_,hopened⟩ := result_openHistory hconnect hprepare
  have hthere : p.lacksHistory w.tree = false := by
    obtain ⟨place,m,hlookup⟩ := (read_eq_ok_iff _ _ _).mp hheld
    unfold lacksHistory
    rw [(stat_eq_ok_iff _ _ _).mpr ⟨place,hlookup⟩]
  refine ⟨c',t',log,hopen,hdatabase,?_⟩
  unfold existingHistory
  rw [result_bind,result_files]
  simp only [hthere,Bool.false_eq_true,if_false]
  rw [result_because,hopened]
  rfl

theorem result_showRecord {file : String} {r r' : Record} {described : Text}
    (h : p.Remembers w.tree r) (hpath : r.path = Text.ofString (p.resolve file))
    (hread : Packed.read? (Packed.record r) = some (r',[]))
    (hprint : ∀ v, result (p.printResult p.config.output.format r'.circuit) v =
      (.ok (),{ v with stdout := v.stdout ++ described })) :
    ∃ w', result (p.showRecord file) w = (.ok (),w') ∧
      w'.stdout = w.stdout ++ described ++ ("\n" ++ r'.document.markdown) := by
  obtain ⟨c,hheld,hsettled,hfind⟩ := h
  obtain ⟨c',t,log,hopen,hdatabase,hopened⟩ := result_existingHistory hheld hsettled
  have hget : c'.ask (·.get (p.resolve file)) = .ok r' := by
    simp only [Connection.ask,hopen,if_true,hdatabase,Database.get,← hpath,hfind,Database.decode,hread]
  have hshown : result (p.showRecord file) w = result (p.printResult p.config.output.format r'.circuit >>=
      fun _ => Work.print ("\n" ++ r'.document.markdown))
      { w with tree := t,log := log,journal := c'.journal } := by
    rw [showRecord,result_bind,hopened]
    simp only [hget]
  rw [hshown,result_bind,hprint]
  exact ⟨_,rfl,rfl⟩

end Project

theorem run_show {s : Surroundings} {u : FileTree} {args : List String} {file : String} {p : Project}
    (hasks : Asks args (.show file)) (hopens : Opens s u args p) :
    ∃ log, run s u args = .ofResult (result (p.showRecord file) { tree := u,log := log }) := by
  refine run_of_opens (·.showRecord file) (fun l hcommand => ?_) hasks hopens
  unfold CommandLine.execute
  rw [hcommand]

/-- A source has been explained, and the history has been told of it without a warning. -/
structure Recorded (s : Surroundings) (u : FileTree) (args : List String) (p : Project) (file : String)
    (o : ExplainOptions) : Prop where
  asks : Asks args (.explain file o)
  opens : Opens s u args p
  writes : o.check = false
  format : o.format.isEmpty = true ∨ o.format = p.config.output.format
  records : p.recordsHistory o = true
  ends : (run s u args).failure = none
  unwarned : ∀ why, ¬p.recordingWarning why <:+ (run s u args).world.log
  /-- The record is no longer than its stored form can count. -/
  fits : ∀ source modified, u.read (p.resolve file) = .ok source →
    Short (Packed.record (p.recordOf (p.resolve file) source modified (p.rule source)))

theorem Recorded.exists_put {s : Surroundings} {u : FileTree} {args : List String} {p : Project}
    {file : String} {o : ExplainOptions} (h : Recorded s u args p file o) :
    ∃ source modified described db db' earlier, u.read (p.resolve file) = .ok source ∧
      (run s u args).world.journal = db' :: db :: earlier ∧
      db.put (p.recordOf (p.resolve file) source modified (p.rule source)) = .ok db' ∧
      p.StoredHistory (run s u args).world.tree db' ∧
      (run s u args).world.stdout =
        described ++ (if o.printDocument then (p.rule source).document.markdown else []) ∧
      ∀ (q : Project) (v : World), q.palette = p.palette →
        result (q.printResult p.config.output.format (p.rule source).circuit) v =
          (.ok (),{ v with stdout := v.stdout ++ described }) := by
  obtain ⟨log,⟨r⟩⟩ := exists_explainRun_of_run h.asks h.opens h.writes h.ends
  obtain ⟨described,hlog,hjournal,hprinted,hdescribed⟩ := of_printExplanation r.prints
  have hformat : (if o.format.isEmpty then p.config.output.format else o.format) =
      p.config.output.format := by
    rcases h.format with hempty | hsame
    · rw [if_pos hempty]
    · rw [hsame,ite_self]
  rw [hformat] at hdescribed
  rcases of_rememberSource (r.remembers h.records) with hrecorded | ⟨why,hwarned⟩
  · obtain ⟨hstdout,db,db',earlier,hrecords,hput,hstored⟩ := exists_put_of_recordSource hrecorded
    have hsilent : r.remembered.stdout = [] := by
      obtain ⟨log₁,hnoted⟩ := r.notes
      obtain ⟨log₂,hlogged⟩ := r.logs
      rw [hstdout,hlogged]
      change r.documented.stdout = []
      rw [stdout_of_writeDocument r.documents,hnoted]
    rw [hsilent,List.nil_append] at hprinted
    refine ⟨r.source,r.modified,described,db,db',earlier,r.reads,hjournal.trans hrecords,hput,?_,
      hprinted,hdescribed⟩
    rwa [r.tree_eq]
  · -- Nothing is logged after the warning.
    exact absurd (hlog ▸ hwarned) (h.unwarned why)

/-- A source has been explained with its document printed, and the history has been told of it without
a warning. -/
structure Told (s : Surroundings) (u : FileTree) (args : List String) (p : Project) (file : String)
    (o : ExplainOptions) : Prop extends Recorded s u args p file o where
  prints : o.printDocument = true

theorem Told.remembers {s : Surroundings} {u : FileTree} {args : List String} {p : Project}
    {file : String} {o : ExplainOptions} (h : Told s u args p file o) :
    ∃ source modified described, u.read (p.resolve file) = .ok source ∧
      p.Remembers (run s u args).world.tree
        (p.recordOf (p.resolve file) source modified (p.rule source)) ∧
      (run s u args).world.stdout = described ++ (p.rule source).document.markdown ∧
      ∀ (q : Project) (v : World), q.palette = p.palette →
        result (q.printResult p.config.output.format (p.rule source).circuit) v =
          (.ok (),{ v with stdout := v.stdout ++ described }) := by
  obtain ⟨source,modified,described,_,_,_,hread,_,hput,hstored,hprinted,hdescribed⟩ := h.exists_put
  rw [if_pos h.prints] at hprinted
  exact ⟨source,modified,described,hread,remembers_of_put hstored hput,hprinted,hdescribed⟩

/-- A command finds a project with the same root, settings and colours as an earlier one. That is so if
it looks for the same project in the same surroundings, and the files that have been put into the tree
since are out of the way of the settings. -/
def FindsAgain (s : Surroundings) (u : FileTree) (args : List String) (p : Project)
    (paths : List String) (s' : Surroundings) (u' : FileTree) (args' : List String) : Prop :=
  (∃ p', Opens s' u' args' p' ∧ p'.root = p.root ∧ p'.config = p.config ∧ p'.palette = p.palette) ∨
    SameProject args args' ∧ s'.environment = s.environment ∧ s'.palette = s.palette ∧ u.Proper ∧
      SettingsAvoid args' p.root paths u u'

theorem FindsAgain.opens {s s' : Surroundings} {u u' : FileTree} {args args' : List String}
    {p : Project} {paths : List String} (h : FindsAgain s u args p paths s' u' args')
    (hopens : Opens s u args p) (hputs : u.Puts paths u') :
    ∃ p', Opens s' u' args' p' ∧ p'.root = p.root ∧ p'.config = p.config ∧ p'.palette = p.palette := by
  rcases h with hfound | ⟨hsame,henv,hpalette,hp,havoid⟩
  · exact hfound
  · exact ⟨_,hopens.later hsame henv hp hputs havoid,rfl,rfl,hpalette.trans hopens.palette_eq.symm⟩

/-- After a source was explained with its document printed, and the history was told of it, showing the
source under the same settings ends well, and prints the description of the circuit as it was printed
then, an empty line and the document. What the history held before makes no difference. -/
theorem show_repeats_explanation {s : Surroundings} {u : FileTree} {args : List String} {p : Project}
    {file : String} {o : ExplainOptions} (h : Told s u args p file o) :
    ∃ source described, u.read (p.resolve file) = .ok source ∧
      (run s u args).world.stdout = described ++ (p.rule source).document.markdown ∧
      ∀ s' args', Asks args' (.show file) →
        FindsAgain s u args p (p.written o) s' (run s u args).world.tree args' →
        (run s' (run s u args).world.tree args').failure = none ∧
        (run s' (run s u args).world.tree args').world.stdout =
          described ++ "\n" ++ (p.rule source).document.markdown := by
  obtain ⟨source,modified,described,hread,hremembers,hprinted,hdescribed⟩ := h.remembers
  refine ⟨source,described,hread,hprinted,fun s' args' hasks hfinds => ?_⟩
  obtain ⟨p',hopens,hroot,hconfig,hpalette⟩ :=
    hfinds.opens h.opens (puts_of_run h.asks h.opens h.writes h.ends)
  obtain ⟨log,hrun⟩ := run_show hasks hopens
  obtain ⟨r',hdecoded,-,hsame⟩ := Packed.read?_explanation (h.fits source modified hread)
    (hasLongNumbers_explainSource p.config.scan.constructor source)
  have hcircuit : r'.circuit = (p.rule source).circuit := congrArg Explanation.circuit hsame
  have hdocument : r'.document = (p.rule source).document := congrArg Explanation.document hsame
  have hremembers' : p'.Remembers (run s u args).world.tree
      (p.recordOf (p.resolve file) source modified (p.rule source)) := by
    rw [Remembers,hroot,hconfig]
    exact hremembers
  have hpath : (p.recordOf (p.resolve file) source modified (p.rule source)).path =
      Text.ofString (p'.resolve file) := by
    rw [Project.resolve,Project.resolve,hroot]
    rfl
  have hprint (v : World) : result (p'.printResult p'.config.output.format r'.circuit) v =
      (.ok (),{ v with stdout := v.stdout ++ described }) := by
    rw [hconfig,hcircuit]
    exact hdescribed p' v hpalette
  obtain ⟨w',hshown,hstdout⟩ := result_showRecord
    (w:={ tree := (run s u args).world.tree,log := log }) hremembers' hpath hdecoded hprint
  refine ⟨?_,?_⟩
  · rw [hrun,hshown]
    rfl
  · rw [hrun,hshown]
    change w'.stdout = _
    rw [hstdout,hdocument]
    simp

/-- The sample with a history that has an earlier record of the source and one of another. -/
def sampleOutdated : FileTree :=
  (sampleProject.set ["p",".circuitdoc"] .folder).set ["p",".circuitdoc","history.db"]
    (.file (Storage.encode { database := ⟨[("/p/a.py","old"),("/p/b.py","other")],
      [("schema_version","1")]⟩ }) 5)

theorem read_sampleOutdated : sampleOutdated.read (sampleSettled.resolve "a.py") = .ok sampleOld := by
  decide +kernel

def sampleLog : Text := "info: Document written to: /p/circuit.md\n"

theorem run_sampleOutdated :
    (run { now := .unset } sampleOutdated ["explain","a.py","--print-doc"]).failure = none ∧
    (run { now := .unset } sampleOutdated ["explain","a.py","--print-doc"]).world.log = sampleLog ∧
    ∀ q ∈ ({ command := .show "a.py" } : CommandLine).settingsFiles "/p", sampleOutdated.Avoids
      (run { now := .unset } sampleOutdated ["explain","a.py","--print-doc"]).world.tree
      (sampleSettled.written { printDocument := true }) q := by
  decide +kernel

theorem ofArguments_printed : CommandLine.ofArguments ["explain","a.py","--print-doc"] =
    .ok { command := .explain "a.py" { printDocument := true } } := by
  decide +kernel

theorem told_sampleOutdated : Told { now := .unset } sampleOutdated ["explain","a.py","--print-doc"]
    sampleSettled "a.py" { printDocument := true } where
  asks := ⟨_,ofArguments_printed,rfl⟩
  opens := opens_of_result ofArguments_printed (by decide +kernel)
  writes := rfl
  prints := rfl
  format := Or.inl rfl
  records := rfl
  ends := run_sampleOutdated.1
  unwarned := by
    intro why hwarned
    rw [run_sampleOutdated.2.1] at hwarned
    obtain ⟨before,hbefore⟩ := hwarned
    have hstart : (sampleSettled.recordingWarning why).take 4 = "warn" := rfl
    have hnowhere : ∀ k ≤ sampleLog.length, (sampleLog.drop k).take 4 ≠ "warn" := by decide
    have hle : before.length ≤ sampleLog.length := by simp [← hbefore]
    apply hnowhere before.length hle
    rw [← hbefore,List.drop_left,hstart]
  fits := by
    intro source modified hread
    cases hread.symm.trans read_sampleOutdated
    have hfits : Short (Packed.record (sampleSettled.recordOf (sampleSettled.resolve "a.py") sampleOld 5
        (sampleSettled.rule sampleOld))) := by decide +kernel
    -- The time of the last change always takes as many bytes.
    simpa only [Short,Packed.record,recordOf,MessagePack.writeFields,MessagePack.writeLong,
      List.flatMap_cons,List.length_cons,List.length_append,length_bigEndianInt] using hfits

theorem proper_sampleOutdated : sampleOutdated.Proper :=
  ⟨by decide +kernel,by decide +kernel,by decide +kernel⟩

theorem settingsAvoid_sampleOutdated {args : List String} {c : Command}
    (hargs : CommandLine.ofArguments args = .ok { command := c }) :
    SettingsAvoid args "/p" (sampleSettled.written { printDocument := true }) sampleOutdated
      (run { now := .unset } sampleOutdated ["explain","a.py","--print-doc"]).world.tree := by
  intro l hl
  cases hargs.symm.trans hl
  exact ⟨run_sampleOutdated.2.2,fun hasked => absurd rfl hasked⟩

theorem show_repeats_explanation_sample :
    ∃ u described, (run { now := .unset } sampleOutdated ["explain","a.py","--print-doc"]).world.tree = u ∧
      (run { now := .unset } sampleOutdated ["explain","a.py","--print-doc"]).world.stdout =
        described ++ (explainSource defaultConstructor sampleOld).document.markdown ∧
      (run { now := .unset } u ["show","a.py"]).failure = none ∧
      (run { now := .unset } u ["show","a.py"]).world.stdout =
        described ++ "\n" ++ (explainSource defaultConstructor sampleOld).document.markdown := by
  have hargs : CommandLine.ofArguments ["show","a.py"] = .ok { command := .show "a.py" } := by
    decide +kernel
  obtain ⟨source,described,hread,hprinted,hrepeats⟩ := show_repeats_explanation told_sampleOutdated
  obtain ⟨hends,hshown⟩ := hrepeats { now := .unset } ["show","a.py"] ⟨_,hargs,rfl⟩
    (Or.inr ⟨⟨_,_,ofArguments_printed,hargs,rfl,rfl⟩,rfl,rfl,proper_sampleOutdated,
      settingsAvoid_sampleOutdated hargs⟩)
  cases hread.symm.trans read_sampleOutdated
  exact ⟨_,described,rfl,hprinted,hends,hshown⟩

end CircuitNotes
