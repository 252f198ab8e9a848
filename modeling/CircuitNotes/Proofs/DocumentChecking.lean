import CircuitNotes.Proofs.DocumentReading
import CircuitNotes.Proofs.KeptSettings
import CircuitNotes.Proofs.ScanFailure

/-! Explaining a source into a document, and checking the document against the source. A check changes
no file and tells whether the document holds what would be written; what explaining has written stays
there, so the check that follows finds it, until the source is replaced by one with other blocks. -/
namespace CircuitNotes

open Work Project FileTree

def Asks (args : List String) (c : Command) : Prop :=
  ∃ l, CommandLine.ofArguments args = .ok l ∧ l.command = c

/-- Arguments that are about a project, which can be opened on the files that there are. -/
def Opens (s : Surroundings) (u : FileTree) (args : List String) (p : Project) : Prop :=
  ∃ l w, CommandLine.ofArguments args = .ok l ∧
    result (l.openProject s) { tree := u } = (.ok p,w)

theorem opens_of_result {s : Surroundings} {u : FileTree} {args : List String} {l : CommandLine}
    {p : Project} (hargs : CommandLine.ofArguments args = .ok l)
    (h : (result (l.openProject s) { tree := u }).1 = .ok p) : Opens s u args p :=
  ⟨l,_,hargs,Prod.ext h rfl⟩

theorem Opens.clean_root {s : Surroundings} {u : FileTree} {args : List String} {p : Project}
    (h : Opens s u args p) : Path.Clean p.root := by
  obtain ⟨l,w,-,hopen⟩ := h
  obtain ⟨c,-,rfl⟩ := CommandLine.of_openProject (congrArg Prod.fst hopen)
  exact Path.clean_absolute (by simp [Path.isAbsolute,Path.ofPieces]) _

theorem Opens.palette_eq {s : Surroundings} {u : FileTree} {args : List String} {p : Project}
    (h : Opens s u args p) : p.palette = s.palette := by
  obtain ⟨l,w,-,hopen⟩ := h
  obtain ⟨c,-,rfl⟩ := CommandLine.of_openProject (congrArg Prod.fst hopen)
  rfl

/-- Arguments that are about the same project, and look for its settings in the same files. -/
def SameProject (args args' : List String) : Prop :=
  ∃ l l', CommandLine.ofArguments args = .ok l ∧ CommandLine.ofArguments args' = .ok l' ∧
    l'.root = l.root ∧ l'.configPath = l.configPath

/-- The files that settings come from are out of the way of what is put into a tree; and if one was
asked for, no file is put above it. -/
def SettingsAvoid (args : List String) (root : String) (paths : List String) (u u' : FileTree) : Prop :=
  ∀ l, CommandLine.ofArguments args = .ok l → (∀ q ∈ l.settingsFiles root, u.Avoids u' paths q) ∧
    (¬l.configPath.isEmpty = true → u.Reaches u' paths l.configPath)

/-- After files were written out of the way of its settings, a project is opened as before. -/
theorem Opens.later {s s' : Surroundings} {u u' : FileTree} {args args' : List String} {p : Project}
    {paths : List String} (h : Opens s u args p) (hsame : SameProject args args')
    (henv : s'.environment = s.environment) (hp : u.Proper) (hputs : u.Puts paths u')
    (havoid : SettingsAvoid args' p.root paths u u') :
    Opens s' u' args' { p with palette := s'.palette,now := s'.now } := by
  obtain ⟨l,l',hargs,hargs',hroot,hpath⟩ := hsame
  obtain ⟨l₀,w,hargs₀,hopen⟩ := h
  cases hargs.symm.trans hargs₀
  obtain ⟨havoids,hreaches⟩ := havoid l' hargs'
  have hfiles : l'.settingsFiles p.root = l.settingsFiles p.root := by
    rw [CommandLine.settingsFiles,CommandLine.settingsFiles,hpath]
  rw [hfiles] at havoids
  rw [hpath] at hreaches
  have hsettings : l.SameSettings p.root u u' := by
    refine ⟨fun q hq => hputs.lookup_ok_iff hp (havoids q hq),fun hasked => ?_⟩
    exact hputs.lookup_eq hp (havoids _ (by simp [CommandLine.settingsFiles,hasked])) (hreaches hasked)
  exact opens_of_result hargs' (hsettings.openProject_eq hroot hpath henv hputs.grows.workingFolder
    (by rw [hopen]))

/-- What a document counts as holding: nothing, where it is missing. -/
def FileTree.Holds (t : FileTree) (path : String) (held : Text) : Prop :=
  t.read path = .ok held ∨ held = [] ∧ ∃ e, t.read path = .error e ∧ e.fault = .notFound

/-! ### Single steps -/

section Steps

variable {ε : Type} {w w' : World}

theorem Work.result_modify (f : World → World) :
    result (modify f : Work ε Unit) w = (.ok (),f w) := rfl

theorem Work.result_because_eq_ok {ε' α : Type} {x : Work ε' α} {f : ε' → ε} {a : α}
    (h : result (x.because f) w = (.ok a,w')) : result x w = (.ok a,w') := by
  rw [result_because] at h
  rcases hresult : result x w with ⟨outcome,w₁⟩
  rw [hresult] at h
  cases outcome with
  | error e => cases h
  | ok a' =>
    cases h
    rfl

theorem Project.result_noteExplanation (p : Project) (argument : String) (e : Explanation) :
    ∃ log, result (p.noteExplanation argument e : Work ε Unit) w = (.ok (),{ w with log := log }) := by
  unfold Project.noteExplanation
  by_cases hname : e.circuit.name.isEmpty = true
  · simp only [if_pos hname,result_bind]
    obtain ⟨log,hlog⟩ := p.result_log (ε:=ε) (w:=w) .warn
      ("no " ++ p.config.scan.constructor ++ "(...) declaration found in " ++ argument)
    rw [hlog]
    exact p.result_log (w:={ w with log := log }) _ _
  · simp only [if_neg hname]
    exact p.result_log _ _

theorem Project.of_readSource {path argument : String} {found : Text × Int}
    (h : result (readSource path argument) w = (.ok found,w')) :
    w' = w ∧ w.tree.read path = .ok found.1 := by
  obtain ⟨node,w₁,hstat,h⟩ := result_bind_eq_ok h
  obtain ⟨rfl,_⟩ := result_ask_eq_ok hstat
  by_cases hfolder : node.isFolder = true
  · simp only [if_pos hfolder] at h
    obtain ⟨_,_,hthrow,_⟩ := result_bind_eq_ok h
    cases hthrow
  · simp only [if_neg hfolder] at h
    obtain ⟨source,w₂,hread,h⟩ := result_bind_eq_ok h
    obtain ⟨rfl,hsource⟩ := result_ask_eq_ok hread
    cases h
    exact ⟨rfl,hsource⟩

end Steps

def Project.opened (p : Project) (u : FileTree) : World :=
  (result (p.log .debug ("config: constructor=" ++ p.config.scan.constructor ++ " format=" ++
    p.config.output.format ++ " document=" ++ p.config.output.document) : Work CommandError Unit)
    { tree := u }).2

theorem Project.exists_opened_eq (p : Project) (u : FileTree) :
    ∃ log, p.opened u = { tree := u,log := log } := by
  obtain ⟨log,hlog⟩ := p.result_log (ε:=CommandError) (w:={ tree := u }) .debug
    ("config: constructor=" ++ p.config.scan.constructor ++ " format=" ++
      p.config.output.format ++ " document=" ++ p.config.output.document)
  exact ⟨log,by rw [opened,hlog]⟩

theorem Project.tree_opened (p : Project) (u : FileTree) : (p.opened u).tree = u := by
  obtain ⟨log,hlog⟩ := p.exists_opened_eq u
  rw [hlog]

theorem Project.journal_opened (p : Project) (u : FileTree) : (p.opened u).journal = [] := by
  obtain ⟨log,hlog⟩ := p.exists_opened_eq u
  rw [hlog]

theorem CommandLine.opened_of_openProject {l : CommandLine} {s : Surroundings} {u : FileTree}
    {p : Project} {w : World} (h : result (l.openProject s) { tree := u } = (.ok p,w)) :
    w = p.opened u := by
  unfold CommandLine.openProject at h
  obtain ⟨t,w₁,hfiles,h⟩ := result_bind_eq_ok h
  cases hfiles
  simp only at h
  generalize (if l.configPath.isEmpty then Config.loadFrom u (l.projectRoot u)
    else Config.load u l.configPath) = loaded at h
  cases loaded with
  | error e => cases h
  | ok c =>
    obtain ⟨_,w₂,hlog,h⟩ := result_bind_eq_ok h
    cases h
    exact (congrArg Prod.snd hlog).symm

theorem run_eq_of_opens {s : Surroundings} {u : FileTree} {args : List String} {c : Command}
    {p : Project} (work : Project → Work CommandError Unit)
    (hwork : ∀ l : CommandLine, l.command = c → l.execute s = l.openProject s >>= work)
    (hasks : Asks args c) (hopens : Opens s u args p) :
    run s u args = .ofResult (result (work p) (p.opened u)) := by
  obtain ⟨l,hargs,hcommand⟩ := hasks
  obtain ⟨l',w,hargs',hopen⟩ := hopens
  cases hargs.symm.trans hargs'
  rw [l.opened_of_openProject hopen] at hopen
  unfold run
  rw [hargs]
  change Outcome.ofResult (result (l.execute s) { tree := u }) = _
  rw [hwork l hcommand,result_bind,hopen]

theorem run_of_opens {s : Surroundings} {u : FileTree} {args : List String} {c : Command}
    {p : Project} (work : Project → Work CommandError Unit)
    (hwork : ∀ l : CommandLine, l.command = c → l.execute s = l.openProject s >>= work)
    (hasks : Asks args c) (hopens : Opens s u args p) :
    ∃ log, run s u args = .ofResult (result (work p) { tree := u,log := log }) := by
  obtain ⟨log,hlog⟩ := p.exists_opened_eq u
  exact ⟨log,hlog ▸ run_eq_of_opens work hwork hasks hopens⟩

theorem CommandLine.execute_explain {l : CommandLine} {s : Surroundings} {file : String}
    {o : ExplainOptions} (h : l.command = .explain file o) :
    l.execute s = l.openProject s >>= (·.explain file o) := by
  unfold CommandLine.execute
  rw [h]

theorem run_explain {s : Surroundings} {u : FileTree} {args : List String} {file : String}
    {o : ExplainOptions} {p : Project} (hasks : Asks args (.explain file o))
    (hopens : Opens s u args p) :
    ∃ log, run s u args = .ofResult (result (p.explain file o) { tree := u,log := log }) :=
  run_of_opens (·.explain file o) (fun _ => CommandLine.execute_explain) hasks hopens

/-! ### Checking -/

theorem Project.quiet_check {I : World → Prop} (hI : Quiet I) (p : Project) (file : String)
    {o : ExplainOptions} (hcheck : o.check = true) : Keeps I (p.explain file o) (fun _ => True) := by
  unfold Project.explain
  refine Keeps.bind (quiet_readSource _ _) fun found _ => ?_
  refine Keeps.bind (p.quiet_noteExplanation hI _ _) fun _ _ => ?_
  simp only [if_pos hcheck]
  exact p.quiet_checkDocument hI _ _

def Project.recordsHistory (p : Project) (o : ExplainOptions) : Bool :=
  p.config.history.enabled && !o.noHistory

/-- What explaining a source into a document that ends well consists of. -/
structure Project.ExplainRun (p : Project) (file : String) (o : ExplainOptions) (w w' : World) where
  source : Text
  modified : Int
  /-- When the document may be written. -/
  noted : World
  documented : World
  /-- When the history may be told. -/
  logged : World
  remembered : World
  reads : w.tree.read (p.resolve file) = .ok source
  notes : ∃ log, noted = { w with log := log }
  documents : result (p.writeDocument (p.explainedIn o) (p.rule source).document
    CommandError.unwrittenDocument) noted = (.ok (),documented)
  logs : ∃ log, logged = { documented with log := log }
  remembers : p.recordsHistory o = true →
    result (p.rememberSource (p.recordOf (p.resolve file) source modified (p.rule source)) :
      Work CommandError Unit) logged = (.ok (),remembered)
  forgets : p.recordsHistory o = false → remembered = logged
  prints : result (p.printExplanation o (p.rule source)) remembered = (.ok (),w')

theorem Project.exists_explainRun {p : Project} {file : String} {o : ExplainOptions} {w w' : World}
    (hcheck : o.check = false) (h : result (p.explain file o) w = (.ok (),w')) :
    Nonempty (p.ExplainRun file o w w') := by
  obtain ⟨⟨source,modified⟩,w₁,hsource,hnote⟩ := result_bind_eq_ok h
  obtain ⟨rfl,hread⟩ := of_readSource hsource
  obtain ⟨log,hnoted⟩ := p.result_noteExplanation (ε:=CommandError) (w:=w₁) file (p.rule source)
  simp only at hnote
  rw [result_bind,hnoted] at hnote
  simp only [hcheck,Bool.false_eq_true,if_false] at hnote
  obtain ⟨_,documented,hdocumented,hlog⟩ := result_bind_eq_ok hnote
  obtain ⟨log',hlogged⟩ := p.result_log (ε:=CommandError) (w:=documented) .info
    ("Document written to: " ++ p.explainedIn o)
  rw [result_bind,hlogged] at hlog
  simp only at hlog
  cases hhistory : p.recordsHistory o with
  | true =>
    rw [if_pos (show (p.config.history.enabled && !o.noHistory) = true from hhistory)] at hlog
    obtain ⟨_,remembered,hremembered,hprint⟩ := result_bind_eq_ok hlog
    exact ⟨⟨source,modified,_,documented,_,remembered,hread,⟨log,rfl⟩,hdocumented,⟨log',rfl⟩,
      fun _ => hremembered,fun hno => (nomatch hhistory.symm.trans hno),hprint⟩⟩
  | false =>
    rw [if_neg (show ¬(p.config.history.enabled && !o.noHistory) = true from
      ne_true_of_eq_false hhistory)] at hlog
    exact ⟨⟨source,modified,_,documented,_,_,hread,⟨log,rfl⟩,hdocumented,⟨log',rfl⟩,
      fun hyes => (nomatch hhistory.symm.trans hyes),fun _ => rfl,hlog⟩⟩

/-! ### What explaining leaves -/

namespace FileTree

theorem read_of_write {t t' : FileTree} {now : Int} {path : String} {content : Text}
    (h : t.write now path content = .ok t') : t'.read path = .ok content := by
  obtain ⟨place,-,-,-,hlookup⟩ := write_eq_ok h
  exact (read_eq_ok_iff _ _ _).mpr ⟨place,now,hlookup⟩

theorem TouchesOnly.read {t t' : FileTree} {path path' : String} {content : Text}
    (h : t.TouchesOnly path t') (hread : t.read path' = .ok content) (hapart : t'.Apart path' path) :
    t'.read path' = .ok content := by
  obtain ⟨place,m,hlookup⟩ := (read_eq_ok_iff _ _ _).mp hread
  obtain ⟨node,hnode,_⟩ := lookup_of_grows h.grows hlookup
  have hspares := h.spares place fun node' => hapart place node node' hnode
  exact (read_eq_ok_iff _ _ _).mpr ⟨place,m,hspares.lookup h.grows hlookup⟩

theorem Apart.later {t t' : FileTree} {path path' : String} {content content' : Text}
    (h : t.Apart path path') (hg : Grows t t') (hread : t.read path = .ok content)
    (hread' : t.read path' = .ok content') : t'.Apart path path' := by
  obtain ⟨place,m,hlookup⟩ := (read_eq_ok_iff _ _ _).mp hread
  obtain ⟨place',m',hlookup'⟩ := (read_eq_ok_iff _ _ _).mp hread'
  obtain ⟨node,hnode,_⟩ := lookup_of_grows hg hlookup
  obtain ⟨node',hnode',_⟩ := lookup_of_grows hg hlookup'
  intro q n n' hq hq'
  rw [hnode] at hq
  rw [hnode'] at hq'
  cases hq
  cases hq'
  exact h place _ _ hlookup hlookup'

theorem Apart.symm {t : FileTree} {path path' : String} (h : t.Apart path path') :
    t.Apart path' path := fun place node node' hnode hnode' => h place node' node hnode' hnode

end FileTree

namespace Project

theorem touchesOnly_of_writeDocument {ε : Type} {p : Project} {path : String} {d : Document}
    {because : FileError → ε} {a : Unit} {w w' : World}
    (h : result (p.writeDocument path d because) w = (.ok a,w')) :
    w.tree.TouchesOnly path w'.tree := by
  obtain ⟨place,hg,hlookup,hspares⟩ := of_writeDocument h
  refine ⟨hg,fun q hq => hspares q ?_⟩
  rintro rfl
  exact hq _ hlookup

theorem isAbsolute_resolve {p : Project} (hroot : Path.isAbsolute p.root = true) (path : String) :
    Path.isAbsolute (p.resolve path) = true := by
  unfold resolve
  split_ifs with h
  · exact h
  · exact (Path.clean_join hroot path).absolute

def written (p : Project) (o : ExplainOptions) : List String :=
  [p.explainedIn o,Path.directory (p.explainedIn o)] ++
    if p.recordsHistory o then [historyPath p.root,dataFolder p.root] else []

theorem puts_of_writeDocument {ε : Type} {p : Project} {path : String} {d : Document}
    {because : FileError → ε} {a : Unit} {w w' : World} (hpath : Path.isAbsolute path = true)
    (h : result (p.writeDocument path d because) w = (.ok a,w')) :
    w.tree.Puts [path,Path.directory path] w'.tree := by
  obtain ⟨_,w₁,hfolders,hwrite⟩ := result_bind_eq_ok h
  obtain ⟨t,ht,rfl⟩ := result_change_eq_ok hfolders
  obtain ⟨t',ht',rfl⟩ := result_change_eq_ok hwrite
  exact ((puts_of_makeFolders (Path.clean_directory hpath) ht).mono (by simp)).trans
    ((puts_of_write ht').mono (by simp))

theorem upholds_puts (p : Project) (hroot : Path.isAbsolute p.root = true) (t : FileTree) :
    p.Upholds (fun w => t.Puts [historyPath p.root,dataFolder p.root] w.tree) (fun _ => True) where
  quiet := fun _ _ _ hw => hw
  folders := by
    intro _ _ hw ht
    have hclean : Path.Clean (dataFolder p.root) := Path.clean_join hroot _
    exact hw.trans ((puts_of_makeFolders hclean ht).mono (by simp))
  connects := by
    intro _ _ _ _ hw₀ _ hconnect
    obtain ⟨_,_,_,hstore⟩ := of_connect hconnect
    exact hw₀.trans ((puts_of_write hstore).mono (by simp))
  prepares := fun _ _ _ _ _ _ _ _ => trivial
  stores := fun _ _ _ hw _ hstore => hw.trans ((puts_of_write hstore).mono (by simp))
  journals := fun _ _ hw _ => hw
  scans := fun _ _ _ _ _ _ _ => trivial

/-- Whether the source, its document and the history are different files. -/
structure Separate (p : Project) (file : String) (o : ExplainOptions) (t : FileTree) : Prop where
  document : t.Apart (p.resolve file) (p.explainedIn o)
  history : t.Apart (p.explainedIn o) (historyPath p.root)
  /-- The history changes when it is told of a source, which it cannot be itself then. -/
  source : p.recordsHistory o = true → t.Apart (p.resolve file) (historyPath p.root)

section ExplainRun

variable {p : Project} {file : String} {o : ExplainOptions} {w w' : World}

theorem ExplainRun.tree_eq (r : p.ExplainRun file o w w') : w'.tree = r.remembered.tree := by
  have h := (p.quiet_printExplanation (quiet_tree r.remembered.tree) o (p.rule r.source) _ rfl).1
  rwa [r.prints] at h

theorem ExplainRun.tree_of_forgets (r : p.ExplainRun file o w w') (h : p.recordsHistory o = false) :
    w'.tree = r.documented.tree := by
  obtain ⟨log,hlogged⟩ := r.logs
  rw [r.tree_eq,r.forgets h,hlogged]

theorem ExplainRun.touchesOnly (r : p.ExplainRun file o w w') :
    r.documented.tree.TouchesOnly (historyPath p.root) w'.tree := by
  cases hhistory : p.recordsHistory o with
  | false =>
    rw [r.tree_of_forgets hhistory]
    exact .refl _ _
  | true =>
    obtain ⟨log,hlogged⟩ := r.logs
    have hwithin := ((p.upholds_within r.documented.tree).keeps_rememberSource (ε:=CommandError)
      (r:=p.recordOf (p.resolve file) r.source r.modified (p.rule r.source))
      (fun _ _ _ _ => trivial) r.logged (hlogged ▸ .refl _ _)).1
    rw [r.remembers hhistory] at hwithin
    rw [r.tree_eq]
    exact hwithin

theorem ExplainRun.puts (r : p.ExplainRun file o w w') (hroot : Path.isAbsolute p.root = true) :
    w.tree.Puts (p.written o) w'.tree := by
  obtain ⟨log,hnoted⟩ := r.notes
  have hdocument := puts_of_writeDocument (isAbsolute_resolve hroot _) r.documents
  rw [hnoted] at hdocument
  refine (hdocument.mono (by simp [written,explainedIn])).trans ?_
  cases hhistory : p.recordsHistory o with
  | false =>
    rw [r.tree_of_forgets hhistory]
    exact .refl _ _
  | true =>
    obtain ⟨log,hlogged⟩ := r.logs
    have hputs := ((p.upholds_puts hroot r.documented.tree).keeps_rememberSource (ε:=CommandError)
      (r:=p.recordOf (p.resolve file) r.source r.modified (p.rule r.source))
      (fun _ _ _ _ => trivial) r.logged (hlogged ▸ .refl _ _)).1
    rw [r.remembers hhistory] at hputs
    rw [r.tree_eq]
    exact hputs.mono (by simp [written,hhistory])

theorem ExplainRun.read_kept (r : p.ExplainRun file o w w') {path : String} {content : Text}
    (hread : r.documented.tree.read path = .ok content)
    (hapart : p.recordsHistory o = true → w'.tree.Apart path (historyPath p.root)) :
    w'.tree.read path = .ok content := by
  cases hhistory : p.recordsHistory o with
  | false => rwa [r.tree_of_forgets hhistory]
  | true => exact r.touchesOnly.read hread (hapart hhistory)

theorem ExplainRun.document_read (r : p.ExplainRun file o w w') (h : p.Separate file o w'.tree) :
    w'.tree.read (p.explainedIn o) = .ok (p.rule r.source).document.markdown := by
  obtain ⟨place,_,hlookup,_⟩ := of_writeDocument r.documents
  exact r.read_kept ((read_eq_ok_iff _ _ _).mpr ⟨place,_,hlookup⟩) fun _ => h.history

theorem ExplainRun.source_read (r : p.ExplainRun file o w w') (h : p.Separate file o w'.tree) :
    w'.tree.read (p.resolve file) = .ok r.source := by
  obtain ⟨log,hnoted⟩ := r.notes
  have htouches := touchesOnly_of_writeDocument r.documents
  rw [hnoted] at htouches
  exact r.read_kept (htouches.read r.reads (h.document.of_grows r.touchesOnly.grows)) h.source

end ExplainRun

end Project

/-- A source has been explained into a document, by arguments that ask for it. -/
structure Explained (s : Surroundings) (u : FileTree) (args : List String) (p : Project)
    (file : String) (o : ExplainOptions) : Prop where
  asks : Asks args (.explain file o)
  writes : o.check = false
  opens : Opens s u args p
  ends : (run s u args).failure = none
  separate : p.Separate file o (run s u args).world.tree

section Run

variable {s : Surroundings} {u : FileTree} {args : List String} {p : Project} {file : String}
  {o : ExplainOptions}

theorem exists_explainRun_of_run (hasks : Asks args (.explain file o)) (hopens : Opens s u args p)
    (hwrites : o.check = false) (hends : (run s u args).failure = none) :
    ∃ log, Nonempty (p.ExplainRun file o { tree := u,log := log } (run s u args).world) := by
  obtain ⟨log,hrun⟩ := run_explain hasks hopens
  rw [hrun] at hends ⊢
  rcases hresult : result (p.explain file o) { tree := u,log := log } with ⟨outcome,w'⟩
  rw [hresult] at hends
  cases outcome with
  | error e => cases hends
  | ok _ => exact ⟨log,exists_explainRun hwrites hresult⟩

theorem puts_of_run (hasks : Asks args (.explain file o)) (hopens : Opens s u args p)
    (hwrites : o.check = false) (hends : (run s u args).failure = none) :
    u.Puts (p.written o) (run s u args).world.tree := by
  obtain ⟨log,⟨r⟩⟩ := exists_explainRun_of_run hasks hopens hwrites hends
  exact r.puts hopens.clean_root.absolute

theorem Explained.puts (h : Explained s u args p file o) :
    u.Puts (p.written o) (run s u args).world.tree := puts_of_run h.asks h.opens h.writes h.ends

theorem Explained.reads (h : Explained s u args p file o) :
    ∃ source, u.read (p.resolve file) = .ok source ∧
      (run s u args).world.tree.read (p.resolve file) = .ok source ∧
      (run s u args).world.tree.read (p.explainedIn o) = .ok (p.rule source).document.markdown := by
  obtain ⟨log,⟨r⟩⟩ := exists_explainRun_of_run h.asks h.opens h.writes h.ends
  exact ⟨r.source,r.reads,r.source_read h.separate,r.document_read h.separate⟩

end Run

end CircuitNotes
