import CircuitNotes.Command.Sources
import CircuitNotes.Proofs.KeptPlaces
import CircuitNotes.Proofs.Works

/-! The settings of a project. They come from a few files, each of which may be missing; a command that
looks for the same project finds it with the same settings as long as these files lead to the same as
before, which they do if whatever has been written is out of their way. -/
namespace CircuitNotes

open Work

namespace FileTree

variable {t t' : FileTree} {path : String}

theorem read_ok_iff_of_lookup
    (h : ∀ found, t'.lookup true path = .ok found ↔ t.lookup true path = .ok found) (content : Text) :
    t'.read path = .ok content ↔ t.read path = .ok content := by
  simp only [read_eq_ok_iff,h]

theorem stat_isOk_of_lookup
    (h : ∀ found, t'.lookup true path = .ok found ↔ t.lookup true path = .ok found) :
    (t'.stat path).isOk = (t.stat path).isOk := by
  have hok (t : FileTree) : (t.stat path).isOk = true ↔ ∃ found, t.lookup true path = .ok found := by
    rw [stat]
    cases t.lookup true path with
    | error f => simp [failing,Except.map,Except.isOk,Except.toBool]
    | ok found => simp [failing,Except.map,Except.isOk,Except.toBool]
  rw [Bool.eq_iff_iff,hok,hok]
  simp only [h]

end FileTree

namespace Config

variable {t t' : FileTree} {root path : String}

theorem load_of_lookup (h : t'.lookup true path = t.lookup true path) : load t' path = load t path := by
  rw [load,load,FileTree.read,FileTree.read,h]

/-- For the settings in a file of the project it makes no difference why the file cannot be found. -/
theorem load_of_isOk (hstat : (t.stat path).isOk = true)
    (h : ∀ found, t'.lookup true path = .ok found ↔ t.lookup true path = .ok found) :
    load t' path = load t path := by
  cases hlookup : t.lookup true path with
  | error f =>
    rw [FileTree.stat,hlookup] at hstat
    cases hstat
  | ok found => exact load_of_lookup (((h found).mpr hlookup).trans hlookup.symm)

theorem loadFrom_of_lookup
    (hown : ∀ found, t'.lookup true (Path.join [root,"circuitdoc.yaml"]) = .ok found ↔
      t.lookup true (Path.join [root,"circuitdoc.yaml"]) = .ok found)
    (hhidden : ∀ found, t'.lookup true (Path.join [dataFolder root,"config.yaml"]) = .ok found ↔
      t.lookup true (Path.join [dataFolder root,"config.yaml"]) = .ok found) :
    loadFrom t' root = loadFrom t root := by
  simp only [loadFrom,FileTree.stat_isOk_of_lookup hown,FileTree.stat_isOk_of_lookup hhidden]
  split_ifs with hfirst hsecond
  · exact load_of_isOk hfirst hown
  · exact load_of_isOk hsecond hhidden
  · rfl

end Config

namespace CommandLine

def loaded (l : CommandLine) (t : FileTree) : Except ConfigError Config :=
  if l.configPath.isEmpty then Config.loadFrom t (l.projectRoot t) else Config.load t l.configPath

/-- The project that a command line opens is made of its root, the settings in the files and the
variables of the environment. -/
theorem openProject_eq (l : CommandLine) (s : Surroundings) (u : FileTree) :
    (result (l.openProject s) { tree := u }).1 =
      ((l.loaded u).mapError CommandError.config).map fun c => ⟨l.projectRoot u,
        c.withEnvironment (projectEnvironment s.environment u (l.projectRoot u)),s.palette,s.now⟩ := by
  unfold openProject
  rw [result_bind,result_files]
  simp only
  rw [show (if l.configPath.isEmpty then Config.loadFrom u (l.projectRoot u)
    else Config.load u l.configPath) = l.loaded u from rfl]
  cases l.loaded u with
  | error e => rfl
  | ok c =>
    obtain ⟨log,hlog⟩ := Project.result_log (ε:=CommandError) (w:={ tree := u })
      ⟨l.projectRoot u,c.withEnvironment (projectEnvironment s.environment u (l.projectRoot u)),
        s.palette,s.now⟩ .debug _
    simp only
    rw [result_bind,hlog]
    rfl

variable {l l' : CommandLine} {s s' : Surroundings} {u u' : FileTree} {p : Project}

theorem of_openProject (h : (result (l.openProject s) { tree := u }).1 = .ok p) :
    ∃ c, l.loaded u = .ok c ∧ p = ⟨l.projectRoot u,
      c.withEnvironment (projectEnvironment s.environment u (l.projectRoot u)),s.palette,s.now⟩ := by
  rw [openProject_eq] at h
  cases hloaded : l.loaded u with
  | error e =>
    rw [hloaded] at h
    cases h
  | ok c =>
    rw [hloaded] at h
    exact ⟨c,rfl,(Except.ok.inj h).symm⟩

/-- The files that settings come from lead to the same in two trees, or nowhere in both; and if one was
asked for, it leads nowhere for the same reason. -/
structure SameSettings (l : CommandLine) (root : String) (u u' : FileTree) : Prop where
  found : ∀ q ∈ l.settingsFiles root, ∀ found,
    u'.lookup true q = .ok found ↔ u.lookup true q = .ok found
  asked : ¬l.configPath.isEmpty = true → u'.lookup true l.configPath = u.lookup true l.configPath

theorem SameSettings.loaded_eq (h : l.SameSettings (l.projectRoot u) u u')
    (hroot : l'.projectRoot u' = l.projectRoot u) (hpath : l'.configPath = l.configPath) :
    l'.loaded u' = l.loaded u := by
  unfold loaded
  rw [hpath,hroot]
  by_cases hempty : l.configPath.isEmpty = true
  · rw [if_pos hempty,if_pos hempty]
    exact Config.loadFrom_of_lookup (h.found _ (by simp [settingsFiles]))
      (h.found _ (by simp [settingsFiles]))
  · rw [if_neg hempty,if_neg hempty]
    exact Config.load_of_lookup (h.asked hempty)

theorem SameSettings.environment_eq {root : String} (h : l.SameSettings root u u') (env : Environment) :
    projectEnvironment env u' root = projectEnvironment env u root := by
  have hread := FileTree.read_ok_iff_of_lookup (h.found (Path.join [root,".env"]) (by simp [settingsFiles]))
  unfold projectEnvironment
  cases hold : u.read (Path.join [root,".env"]) with
  | ok content => rw [(hread content).mpr hold]
  | error e =>
    cases hnew : u'.read (Path.join [root,".env"]) with
    | error e' => rfl
    | ok content =>
      rw [(hread content).mp hnew] at hold
      cases hold

/-- A project is found again by a command line that looks for it in the same way, if its settings are
the same. -/
theorem SameSettings.openProject_eq (h : l.SameSettings p.root u u') (hroot : l'.root = l.root)
    (hpath : l'.configPath = l.configPath) (henv : s'.environment = s.environment)
    (hfolder : u'.workingFolder = u.workingFolder)
    (hopen : (result (l.openProject s) { tree := u }).1 = .ok p) :
    (result (l'.openProject s') { tree := u' }).1 = .ok { p with palette := s'.palette,now := s'.now } := by
  have hroot' : l'.projectRoot u' = l.projectRoot u := by
    rw [projectRoot,projectRoot,hroot,hfolder]
  obtain ⟨c,hloaded,rfl⟩ := of_openProject hopen
  rw [CommandLine.openProject_eq,h.loaded_eq hroot' hpath,hloaded,hroot',henv,h.environment_eq]
  rfl

end CommandLine
end CircuitNotes
