import CircuitNotes.Proofs.DefaultSelection
import CircuitNotes.Proofs.HistoryCoherence

/-! Which documents are fresh after a scan. The turns of the files are followed one by one: each
either leaves the tree as it is or writes one document, and what a document holds in the end is
decided when its turn comes. -/
namespace CircuitNotes

namespace FileTree

/-- Paths that do not lead to the same place. -/
def Apart (t : FileTree) (path path' : String) : Prop :=
  ∀ place node node', t.lookup true path = .ok (place,node) → t.lookup true path' ≠ .ok (place,node')

theorem Apart.of_grows {t t' : FileTree} {path path' : String} (h : t'.Apart path path')
    (hg : Grows t t') : t.Apart path path' := by
  intro place node node' hnode hnode'
  obtain ⟨_,hlater,_⟩ := lookup_of_grows hg hnode
  obtain ⟨_,hlater',_⟩ := lookup_of_grows hg hnode'
  exact h place _ _ hlater hlater'

theorem read_congr {t t' : FileTree} {path : String}
    (h : t.lookup true path = t'.lookup true path) : t.read path = t'.read path := by
  unfold FileTree.read
  rw [h]

theorem isOk_stat_iff (t : FileTree) (path : String) :
    (t.stat path).isOk = true ↔ ∃ place node, t.lookup true path = .ok (place,node) := by
  refine ⟨?_,?_⟩
  · intro h
    cases hstat : t.stat path with
    | error e =>
      rw [hstat] at h
      cases h
    | ok node =>
      obtain ⟨place,hplace⟩ := (t.stat_eq_ok_iff path node).mp hstat
      exact ⟨place,node,hplace⟩
  · rintro ⟨place,node,h⟩
    rw [(t.stat_eq_ok_iff path node).mpr ⟨place,h⟩]
    rfl

end FileTree

namespace Project

open Work FileTree

variable {p : Project} {folder : String} {w w' : World} {n : Nat}

/-- A document that is written is found where its path leads, and every other place is spared. -/
theorem of_writeDocument {ε : Type} {path : String} {d : Document} {because : FileError → ε}
    {a : Unit} (h : result (p.writeDocument path d because) w = (.ok a,w')) :
    ∃ place, Grows w.tree w'.tree ∧
      w'.tree.lookup true path = .ok (place,.file d.markdown p.now.seconds) ∧
      ∀ q, q ≠ place → Spares w.tree w'.tree q := by
  obtain ⟨_,w₁,hfolders,hwrite⟩ := result_bind_eq_ok h
  obtain ⟨t,hmade,rfl⟩ := result_change_eq_ok hfolders
  obtain ⟨t',hwritten,rfl⟩ := result_change_eq_ok hwrite
  have hadds := addsFolders_of_makeFoldersAt hmade
  obtain ⟨place,hne,ht,hg,hlookup⟩ := write_eq_ok hwritten
  refine ⟨place,hadds.grows.trans hg,hlookup,?_⟩
  intro q hq
  refine (hadds.spares q).trans (Or.inl ?_)
  change t'.find? q = _
  rw [ht,find?_set t hne,if_neg hq]

/-- What the turn of a file may come to when nothing goes wrong. -/
inductive Turn (folder : String) (s : ScannedFile) (t : FileTree) : FileTree → Prop
  | unrecorded (hnone : s.record? = none) : Turn folder s t t
  | left (hskipped : s.isSkipped = true)
      (hstat : (t.stat (documentPath folder s.file.rel)).isOk = true) : Turn folder s t t
  | written {r : Record} {t' : FileTree} {place : List String} {m : Int}
      (hrecord : s.record? = some r)
      (hneeded : s.isSkipped = false ∨ (t.stat (documentPath folder s.file.rel)).isOk = false)
      (hgrows : Grows t t')
      (hlookup : t'.lookup true (documentPath folder s.file.rel) =
        .ok (place,.file r.document.markdown m))
      (hspares : ∀ q, q ≠ place → Spares t t' q) : Turn folder s t t'

theorem turn_of_writeDocuments {s : ScannedFile} {rest : List ScannedFile}
    (h : result (p.writeDocuments folder (s :: rest)) w = (.ok (n,[]),w')) :
    ∃ m w₁, Turn folder s w.tree w₁.tree ∧
      result (p.writeDocuments folder rest) w₁ = (.ok (m,[]),w') := by
  rw [Project.writeDocuments] at h
  cases hrecord : s.record? with
  | none =>
    rw [hrecord] at h
    exact ⟨n,w,.unrecorded hrecord,h⟩
  | some r =>
    rw [hrecord] at h
    simp only [result_bind,result_files] at h
    by_cases hskip :
        (s.isSkipped && (w.tree.stat (documentPath folder s.file.rel)).isOk) = true
    · rw [if_pos hskip] at h
      obtain ⟨hskipped,hstat⟩ := Bool.and_eq_true_iff.mp hskip
      exact ⟨n,w,.left hskipped hstat,h⟩
    · rw [if_neg hskip] at h
      have hneeded := Bool.and_eq_false_iff.mp (Bool.not_eq_true _ ▸ hskip)
      obtain ⟨outcome,w₁,hattempt,hrest⟩ := result_bind_eq_ok h
      rw [result_attempt] at hattempt
      obtain ⟨houtcome,hw₁⟩ := Prod.mk.inj hattempt
      cases outcome with
      | error e =>
        obtain ⟨more,w₂,_,hend⟩ := result_bind_eq_ok hrest
        cases hend
      | ok a =>
        have hwritten : result (p.writeDocument (documentPath folder s.file.rel) r.document id) w =
            (.ok a,w₁) := Prod.ext (Except.ok.inj houtcome) hw₁
        obtain ⟨place,hg,hlookup,hspares⟩ := of_writeDocument hwritten
        obtain ⟨⟨m,errors⟩,w₂,hmore,hend⟩ := result_bind_eq_ok hrest
        cases hend
        exact ⟨m,w₁,.written hrecord hneeded hg hlookup hspares,hmore⟩

theorem Turn.grows {s : ScannedFile} {t t' : FileTree} (h : Turn folder s t t') : Grows t t' := by
  cases h with
  | unrecorded => exact .refl t
  | left => exact .refl t
  | written _ _ hg => exact hg

theorem Turn.spares {s : ScannedFile} {t t' : FileTree} (h : Turn folder s t t') {q : List String}
    (hq : ∀ node, t'.lookup true (documentPath folder s.file.rel) ≠ .ok (q,node)) :
    Spares t t' q := by
  cases h with
  | unrecorded => exact Or.inl rfl
  | left => exact Or.inl rfl
  | written _ _ _ hlookup hspares =>
    apply hspares
    rintro rfl
    exact hq _ hlookup

theorem grows_of_writeDocuments {files : List ScannedFile}
    (h : result (p.writeDocuments folder files) w = (.ok (n,[]),w')) : Grows w.tree w'.tree := by
  induction files generalizing w n with
  | nil =>
    cases h
    exact .refl _
  | cons s rest ih =>
    obtain ⟨m,w₁,hturn,hrest⟩ := turn_of_writeDocuments h
    exact hturn.grows.trans (ih hrest)

theorem spares_of_writeDocuments {files : List ScannedFile}
    (h : result (p.writeDocuments folder files) w = (.ok (n,[]),w')) {q : List String}
    (hq : ∀ s ∈ files, ∀ node,
      w'.tree.lookup true (documentPath folder s.file.rel) ≠ .ok (q,node)) :
    Spares w.tree w'.tree q := by
  induction files generalizing w n with
  | nil =>
    cases h
    exact Or.inl rfl
  | cons s rest ih =>
    obtain ⟨m,w₁,hturn,hrest⟩ := turn_of_writeDocuments h
    have hmore := ih hrest fun s' hs' => hq s' (List.mem_cons_of_mem _ hs')
    refine (hturn.spares ?_).trans hmore
    intro node hnode
    -- Where the document leads after its turn it leads in the end.
    obtain ⟨node',hnode',_⟩ := lookup_of_grows (grows_of_writeDocuments hrest) hnode
    exact hq s List.mem_cons_self node' hnode'

theorem writeDocuments_append (p : Project) (folder : String) (before after : List ScannedFile) :
    p.writeDocuments folder (before ++ after) = do
      let first ← p.writeDocuments folder before
      let second ← p.writeDocuments folder after
      return (first.1 + second.1,first.2 ++ second.2) := by
  induction before with
  | nil => simp [Project.writeDocuments]
  | cons s rest ih =>
    rw [List.cons_append,Project.writeDocuments,Project.writeDocuments]
    cases s.record? with
    | none => exact ih
    | some r =>
      simp only [bind_assoc]
      refine bind_congr fun t => ?_
      by_cases hskip : (s.isSkipped && (t.stat (documentPath folder s.file.rel)).isOk) = true
      · simp only [if_pos hskip]
        exact ih
      · simp only [if_neg hskip,bind_assoc]
        refine bind_congr fun outcome => ?_
        cases outcome with
        | ok _ => simp [ih,Nat.add_right_comm]
        | error e => simp [ih]

theorem turn_between {before after : List ScannedFile} {s : ScannedFile}
    (h : result (p.writeDocuments folder (before ++ s :: after)) w = (.ok (n,[]),w')) :
    ∃ i j w₁ w₂, result (p.writeDocuments folder before) w = (.ok (i,[]),w₁) ∧
      Turn folder s w₁.tree w₂.tree ∧
      result (p.writeDocuments folder after) w₂ = (.ok (j,[]),w') := by
  rw [writeDocuments_append] at h
  obtain ⟨⟨i,errors⟩,w₁,hbefore,h⟩ := result_bind_eq_ok h
  obtain ⟨⟨k,errors'⟩,w₃,hmore,h⟩ := result_bind_eq_ok h
  rw [result_pure] at h
  obtain ⟨hcounts,hw⟩ := Prod.mk.inj h
  obtain ⟨_,herrors⟩ := Prod.mk.inj (Except.ok.inj hcounts)
  obtain ⟨rfl,rfl⟩ := List.append_eq_nil_iff.mp herrors
  subst hw
  obtain ⟨j,w₂,hturn,hafter⟩ := turn_of_writeDocuments hmore
  exact ⟨i,j,w₁,w₂,hbefore,hturn,hafter⟩

/-- What the document of a file holds in the end is decided when its turn comes, if no later document
leads to the same place. -/
theorem Turn.read_iff {s : ScannedFile} {r : Record} {after : List ScannedFile} {t : FileTree}
    (hturn : Turn folder s t w.tree) (hrecord : s.record? = some r)
    (hafter : result (p.writeDocuments folder after) w = (.ok (n,[]),w'))
    (hapart : ∀ s' ∈ after, w'.tree.Apart (documentPath folder s.file.rel)
      (documentPath folder s'.file.rel)) :
    w'.tree.read (documentPath folder s.file.rel) = .ok r.document.markdown ↔
      s.isSkipped = false ∨ (t.stat (documentPath folder s.file.rel)).isOk = false ∨
        t.read (documentPath folder s.file.rel) = .ok r.document.markdown := by
  have hgrows := grows_of_writeDocuments hafter
  have hkeeps {place : List String} {node : FileNode}
      (h : w.tree.lookup true (documentPath folder s.file.rel) = .ok (place,node)) :
      w'.tree.lookup true (documentPath folder s.file.rel) = .ok (place,node) := by
    obtain ⟨node',hnode',_⟩ := lookup_of_grows hgrows h
    refine (spares_of_writeDocuments hafter ?_).lookup hgrows h
    intro s' hs' node''
    exact hapart s' hs' place node' node'' hnode'
  cases hturn with
  | unrecorded hnone =>
    rw [hrecord] at hnone
    cases hnone
  | left hskipped hstat =>
    obtain ⟨place,node,hlookup⟩ := (isOk_stat_iff _ _).mp hstat
    rw [read_congr ((hkeeps hlookup).trans hlookup.symm),hskipped,hstat]
    simp
  | written hrecord' hneeded _ hlookup _ =>
    have hr : _ = r := Option.some.inj (hrecord'.symm.trans hrecord)
    have hread := (read_eq_ok_iff _ _ _).mpr ⟨_,_,hkeeps hlookup⟩
    rw [hr] at hread
    refine iff_of_true hread ?_
    rcases hneeded with hexplained | hmissing
    · exact Or.inl hexplained
    · exact Or.inr (Or.inl hmissing)

/-- What the document of a file holds before any is written it still holds when its turn comes, if no
earlier document leads to the same place. -/
theorem read_until_turn {path : String} {before : List ScannedFile} {content : Text}
    (hbefore : result (p.writeDocuments folder before) w = (.ok (n,[]),w'))
    (hapart : ∀ s' ∈ before, w'.tree.Apart path (documentPath folder s'.file.rel))
    (hread : w.tree.read path = .ok content) : w'.tree.read path = .ok content := by
  obtain ⟨place,m,hlookup⟩ := (read_eq_ok_iff _ _ _).mp hread
  have hgrows := grows_of_writeDocuments hbefore
  obtain ⟨node,hnode,_⟩ := lookup_of_grows hgrows hlookup
  refine (read_eq_ok_iff _ _ _).mpr ⟨place,m,?_⟩
  refine (spares_of_writeDocuments hbefore ?_).lookup hgrows hlookup
  intro s' hs' node'
  exact hapart s' hs' place node node' hnode

end Project

/-! ### What the records of a scan tell -/

/-- A record that stands for a source under a constructor: it has the digest of the source, and it
was made of a source with its digest under a constructor with the same fingerprint; if it was stored
in between, then as far as its form gives it back. -/
def Record.StandsFor (r : Record) (source : Text) (constructor : String) : Prop :=
  r.hash = contentHash source ∧
    ∃ r₀ : Record, (r₀.Storable → r₀ = r) ∧ r₀.Explains (fingerprint constructor)

theorem Connection.Ready.listed {c : Connection} {constructor : String} (h : c.Ready constructor)
    {records : List Record} (hlist : Connection.access.list c = .ok records) {r : Record}
    (hr : r ∈ records) :
    ∃ r₀ : Record, (r₀.Storable → r₀ = r) ∧ r₀.Explains (fingerprint constructor) := by
  simp only [Connection.access,Connection.ask] at hlist
  split_ifs at hlist
  obtain ⟨e,he,hdecode⟩ := ((Database.mem_list hlist).2 r).mp hr
  obtain ⟨r₀,stamp,_,hread,hstamp,hexplains⟩ := h.sound.database.coherent e he
  rw [h.stamp] at hstamp
  refine ⟨r₀,?_,Option.some.inj hstamp ▸ hexplains⟩
  intro hfits
  rw [Database.decode_eq_ok_iff,hread hfits] at hdecode
  exact Option.some.inj hdecode

namespace ScanJob

variable {σ : Type} {job : ScanJob} {answers : Text → Explanation → Prop}
  {access : HistoryAccess σ} {before after : σ} {report : ScanReport}

theorem Finishes.walked (h : job.Finishes answers access before report after) :
    job.tree.walk job.selection job.root = .ok (report.files.map ScannedFile.file) := by
  obtain ⟨hwalk,_,hfilled,hsettle⟩ := h
  rw [hwalk,files_of_settle hsettle,hfilled.map_file]

theorem Finishes.standsFor {constructor : String}
    (h : job.Finishes answers access before report after)
    (hanswers : ∀ source x, answers source x → ∃ source',
      contentHash source' = contentHash source ∧ x = explainSource constructor source')
    (hlisted : ∀ records, access.list before = .ok records → ∀ r ∈ records,
      ∃ r₀ : Record, (r₀.Storable → r₀ = r) ∧ r₀.Explains (fingerprint constructor))
    {s : ScannedFile} (hs : s ∈ report.files) {r : Record} (hr : s.record? = some r) :
    ∃ source, job.read s.file.path = .ok source ∧ r.StandsFor source constructor := by
  obtain ⟨_,hlist,hfilled,hsettle⟩ := h
  rw [files_of_settle hsettle] at hs
  obtain ⟨f,_,rfl,houtcome⟩ := hfilled.exists_file hs
  cases hso : s.outcome with
  | unread e => simp [ScannedFile.record?,hso] at hr
  | skipped r' =>
    have hrr : r' = r := by simpa [ScannedFile.record?,hso] using hr
    rw [hso,hrr] at houtcome
    cases houtcome with
    | skipped hread hfound hkeeps =>
      rw [find?_byPath] at hfound
      simp only [ScanJob.keeps,Bool.and_eq_true,beq_iff_eq] at hkeeps
      exact ⟨_,hread,hkeeps.2,hlisted _ hlist r (lastAt?_eq_some hfound).1⟩
  | explained r' =>
    have hrr : r' = r := by simpa [ScannedFile.record?,hso] using hr
    rw [hso,hrr] at houtcome
    cases houtcome with
    | explained hread _ hx hrecounts =>
      obtain ⟨source',hhash,rfl⟩ := hanswers _ _ hx
      refine ⟨_,hread,hrecounts.hash,_,fun _ => rfl,source',constructor,?_,rfl,hrecounts.explanation⟩
      rw [hrecounts.hash,hhash]

end ScanJob

theorem ScanReport.exists_record {report : ScanReport} (h : report.errors = []) {s : ScannedFile}
    (hs : s ∈ report.files) : ∃ r, s.record? = some r := by
  have hnone := (List.append_eq_nil_iff.mp h).1
  rw [fileErrors,List.filterMap_eq_nil_iff] at hnone
  have hfailure := hnone s hs
  cases hso : s.outcome with
  | unread e => simp [ScannedFile.failure?,hso] at hfailure
  | skipped r => exact ⟨r,by simp [ScannedFile.record?,hso]⟩
  | explained r => exact ⟨r,by simp [ScannedFile.record?,hso]⟩

namespace Project

open Work

theorem of_scanned {job : ScanJob} {constructor : String}
    (hrule : job.rule = explainSource constructor) {c : Option Connection}
    (hc : ∀ c', c = some c' → c'.Ready constructor) {report : ScanReport}
    (h : (scanned job c).1 = .ok report) :
    job.tree.walk job.selection job.root = .ok (report.files.map ScannedFile.file) ∧
      ∀ s ∈ report.files, ∀ r, s.record? = some r →
        ∃ source, job.read s.file.path = .ok source ∧ r.StandsFor source constructor := by
  have hanswers (source : Text) (x : Explanation)
      (hx : job.Answers (fun (e : Explainer) source => e.explain job.rule source) ⟨.empty 0,0⟩
        source x) :
      ∃ source', contentHash source' = contentHash source ∧ x = explainSource constructor source' := by
    rw [← hrule]
    exact (Explainer.follows_empty job.rule 0 0).answers hx
  cases c with
  | none =>
    have hfinishes := job.finishes_of_runWith _ Ledger.access (Prod.ext h rfl)
    refine ⟨hfinishes.walked,?_⟩
    intro s hs r hr
    refine hfinishes.standsFor hanswers ?_ hs hr
    intro records hlist r hr
    rw [← Except.ok.inj hlist] at hr
    cases hr
  | some c =>
    have hfinishes := job.finishes_of_runWith _ Connection.access (Prod.ext h rfl)
    refine ⟨hfinishes.walked,?_⟩
    intro s hs r hr
    exact hfinishes.standsFor hanswers (fun records hlist r hr => (hc c rfl).listed hlist hr) hs hr

/-- The stages of a scan that ends well. -/
structure ScanRun (p : Project) (argument : Option String) (o : ScanOptions) (w w' : World) where
  history : Option Connection
  /-- When the files are looked for. -/
  opened : World
  report : ScanReport
  explainer : Explainer
  /-- When the first document may be written. -/
  settled : World
  written : Nat
  unwritten : List Text
  /-- When the last document has been written. -/
  documented : World
  opens : result p.scanHistory w = (.ok history,opened)
  settles : result (p.scanFolder p.selection argument o) w = (.ok (report,explainer),settled)
  found : (scanned (p.scanJob p.selection opened.tree ((argument.map p.resolve).getD p.root) o.force)
    history).1 = .ok report
  documents : result (p.writeDocuments (p.documentsFolder o) report.files) settled =
    (.ok (written,unwritten),documented)
  tree : w'.tree = documented.tree

theorem quiet_tree (t : FileTree) : Quiet (fun w => w.tree = t) := fun _ _ _ hw => hw

theorem of_keepScan {p : Project} {found : Except ScanError ScanReport × Option Connection × Explainer}
    {told : ScanReport × Explainer} {w w' : World} (h : result (p.keepScan found) w = (.ok told,w')) :
    found.1 = .ok told.1 := by
  obtain ⟨outcome,kept,explainer⟩ := found
  cases outcome with
  | error e => cases h
  | ok report =>
    obtain ⟨_,w₁,_,h⟩ := result_bind_eq_ok h
    obtain ⟨_,w₂,_,h⟩ := result_bind_eq_ok h
    cases h
    rfl

theorem exists_keepScan {p : Project} {sel : Selection} {argument : Option String} {o : ScanOptions}
    {w w' : World} {told : ScanReport × Explainer}
    (h : result (p.scanFolder sel argument o) w = (.ok told,w')) :
    ∃ history opened w₁, result p.scanHistory w = (.ok history,opened) ∧
      result (p.keepScan (scanned (p.scanJob sel opened.tree
        ((argument.map p.resolve).getD p.root) o.force) history)) w₁ = (.ok told,w') := by
  unfold Project.scanFolder at h
  obtain ⟨node,w₁,hstat,h⟩ := result_bind_eq_ok h
  obtain ⟨rfl,_⟩ := result_ask_eq_ok hstat
  by_cases hfolder : (!node.isFolder) = true
  · simp only [if_pos hfolder] at h
    obtain ⟨_,_,hthrow,_⟩ := result_bind_eq_ok h
    cases hthrow
  · simp only [if_neg hfolder] at h
    obtain ⟨history,opened,hopened,h⟩ := result_bind_eq_ok h
    obtain ⟨_,w₂,hlog,h⟩ := result_bind_eq_ok h
    have hw₂ := (keeps_log (ε:=CommandError) (quiet_tree opened.tree) p .info
      ("Scanning " ++ (argument.map p.resolve).getD p.root ++ "...") opened rfl).1
    rw [hlog] at hw₂
    obtain ⟨t,w₃,hfiles,h⟩ := result_bind_eq_ok h
    cases hfiles
    refine ⟨history,opened,w₂,hopened,?_⟩
    rw [← hw₂]
    exact h

theorem of_scanFolder {p : Project} {sel : Selection} {argument : Option String} {o : ScanOptions}
    {w w' : World} {told : ScanReport × Explainer}
    (h : result (p.scanFolder sel argument o) w = (.ok told,w')) :
    ∃ history opened, result p.scanHistory w = (.ok history,opened) ∧
      (scanned (p.scanJob sel opened.tree ((argument.map p.resolve).getD p.root) o.force)
        history).1 = .ok told.1 := by
  obtain ⟨history,opened,_,hopened,hkept⟩ := exists_keepScan h
  exact ⟨history,opened,hopened,of_keepScan hkept⟩

theorem exists_scanRun {p : Project} {argument : Option String} {o : ScanOptions} {w w' : World}
    (h : result (p.scan argument o) w = (.ok (),w')) : Nonempty (p.ScanRun argument o w w') := by
  obtain ⟨⟨report,explainer⟩,settled,hsettled,h⟩ := result_bind_eq_ok h
  obtain ⟨⟨written,unwritten⟩,documented,hdocumented,htell⟩ := result_bind_eq_ok h
  obtain ⟨history,opened,hopened,hfound⟩ := of_scanFolder hsettled
  have htree := (keeps_tellScan (quiet_tree documented.tree) p (p.documentsFolder o) report written
    unwritten explainer documented rfl).1
  rw [htell] at htree
  exact ⟨⟨history,opened,report,explainer,settled,written,unwritten,documented,hopened,hsettled,
    hfound,hdocumented,htree⟩⟩

def documentOf (p : Project) (o : ScanOptions) (f : ScannedFile) : String :=
  documentPath (p.documentsFolder o) f.file.rel

/-- What a scan makes of the document of a file with a record, whose turn comes after those of the
files before it. -/
structure ScanRun.Documents {p : Project} {argument : Option String} {o : ScanOptions} {w w' : World}
    (scan : p.ScanRun argument o w w') (before : List ScannedFile) (f : ScannedFile) (r : Record)
    (turn : World) : Prop where
  reached : ∃ n, result (p.writeDocuments (p.documentsFolder o) before) scan.settled =
    (.ok (n,[]),turn)
  /-- The document tells what the record does exactly if the file was explained anew, or there was no
  document yet, or it told that already. -/
  fresh : w'.tree.read (p.documentOf o f) = .ok r.document.markdown ↔
    f.isSkipped = false ∨ (turn.tree.stat (p.documentOf o f)).isOk = false ∨
      turn.tree.read (p.documentOf o f) = .ok r.document.markdown
  /-- A document that no earlier file shares waits for its turn as it is. -/
  waits : (∀ f' ∈ before, w'.tree.Apart (p.documentOf o f) (p.documentOf o f')) →
    ∀ content, scan.settled.tree.read (p.documentOf o f) = .ok content →
      turn.tree.read (p.documentOf o f) = .ok content

theorem ScanRun.exists_documents {p : Project} {argument : Option String} {o : ScanOptions}
    {w w' : World} (scan : p.ScanRun argument o w w') (hwritten : scan.unwritten = [])
    {before after : List ScannedFile} {f : ScannedFile} {r : Record}
    (hfiles : scan.report.files = before ++ f :: after) (hr : f.record? = some r)
    (hapart : ∀ f' ∈ after, w'.tree.Apart (p.documentOf o f) (p.documentOf o f')) :
    ∃ turn, scan.Documents before f r turn := by
  have hdocuments := scan.documents
  rw [hfiles,hwritten] at hdocuments
  obtain ⟨n,_,turn,w₂,hbefore,hturn,hafter⟩ := turn_between hdocuments
  rw [scan.tree] at hapart
  refine ⟨turn,⟨n,hbefore⟩,?_,?_⟩
  · rw [scan.tree]
    exact hturn.read_iff hr hafter hapart
  · intro hearlier content hread
    rw [scan.tree] at hearlier
    have hgrows := hturn.grows.trans (grows_of_writeDocuments hafter)
    exact read_until_turn hbefore (fun f' hf' => (hearlier f' hf').of_grows hgrows) hread

end Project

open Work Project

theorem run_scan (s : Surroundings) (u : FileTree) {args : List String} {l : CommandLine}
    {argument : Option String} {o : ScanOptions} (hargs : CommandLine.ofArguments args = .ok l)
    (hcommand : l.command = .scan argument o) :
    run s u args =
      .ofResult (result (l.openProject s >>= fun p => p.scan argument o) { tree := u }) := by
  have hexecute : l.execute s = l.openProject s >>= fun p => p.scan argument o := by
    unfold CommandLine.execute
    rw [hcommand]
  unfold run
  rw [hargs,← hexecute]
  rfl

theorem scan_of_run {s : Surroundings} {u : FileTree} {args : List String} {l : CommandLine}
    {argument : Option String} {o : ScanOptions} (hargs : CommandLine.ofArguments args = .ok l)
    (hcommand : l.command = .scan argument o) (hok : (run s u args).failure = none) :
    ∃ p w, result (l.openProject s) { tree := u } = (.ok p,w) ∧
      result (p.scan argument o) w = (.ok (),(run s u args).world) := by
  rw [run_scan s u hargs hcommand] at hok ⊢
  rcases hresult : result (l.openProject s >>= fun p => p.scan argument o) { tree := u } with
    ⟨outcome,w'⟩
  rw [hresult] at hok
  cases outcome with
  | error e => cases hok
  | ok a => exact result_bind_eq_ok hresult

/-- What a scan that ended well has made of the files that it found: if it tells of no error, every
one of them has a record which stands for what it held, and its document, if no later one leads to
the same place, is as the record and the turn of the file say. -/
structure Project.ScanRun.Accounted {p : Project} {argument : Option String} {o : ScanOptions}
    {w w' : World} (scan : p.ScanRun argument o w w') : Prop where
  walked : scan.opened.tree.walk p.selection ((argument.map p.resolve).getD p.root) =
    .ok (scan.report.files.map ScannedFile.file)
  documents : scan.report.errors = [] → scan.unwritten = [] →
    ∀ before f after, scan.report.files = before ++ f :: after →
      (∀ f' ∈ after, w'.tree.Apart (p.documentOf o f) (p.documentOf o f')) →
      ∃ r source turn, f.record? = some r ∧ scan.opened.tree.read f.file.path = .ok source ∧
        r.StandsFor source p.config.scan.constructor ∧ scan.Documents before f r turn

/-- Whatever was done before to a project that started without a history, after a scan that ends well
and tells of no error the document of a file is fresh exactly if the file was explained anew, or had
no document when its turn came, or had a fresh one already. -/
theorem document_fresh_iff {t u : FileTree} {journal : List Database} (ht : t.NoHistory)
    (hlife : Life t journal u) (s : Surroundings) {args : List String} {l : CommandLine}
    {argument : Option String} {o : ScanOptions} (hargs : CommandLine.ofArguments args = .ok l)
    (hcommand : l.command = .scan argument o) (hok : (run s u args).failure = none) :
    ∃ p w, result (l.openProject s) { tree := u } = (.ok p,w) ∧
      ∃ scan : p.ScanRun argument o w (run s u args).world, scan.Accounted := by
  obtain ⟨p,w,hopen,hscan⟩ := scan_of_run hargs hcommand hok
  obtain ⟨scan⟩ := exists_scanRun hscan
  have hworld : World.Sound { tree := u } := ⟨(hlife.sound ht).1,by simp⟩
  have hw : w.Sound := by
    have h := (l.keeps_openProject s _ hworld).1
    rwa [hopen] at h
  have hready := (p.keeps_scanHistory w hw).2 scan.history (by rw [scan.opens])
  obtain ⟨hwalk,hrecords⟩ := of_scanned rfl hready scan.found
  refine ⟨p,w,hopen,scan,hwalk,?_⟩
  intro herrors hwritten before f after hfiles hapart
  have hf : f ∈ scan.report.files := by simp [hfiles]
  obtain ⟨r,hr⟩ := ScanReport.exists_record herrors hf
  obtain ⟨source,hread,hstands⟩ := hrecords f hf r hr
  obtain ⟨turn,hturn⟩ := scan.exists_documents hwritten hfiles hr hapart
  refine ⟨r,source,turn,hr,?_,hstands,hturn⟩
  simp only [ScanJob.read,scanJob,List.not_mem_nil,if_false] at hread
  cases hcontent : scan.opened.tree.read f.file.path with
  | error e => simp [hcontent] at hread
  | ok content => simpa [hcontent] using hread

/-! ### A document that stays stale -/

theorem ScanJob.scanFiles_selection {ε : Type} (job : ScanJob) (sel : Selection)
    (explain : Explaining ε) (existing : Bucket Record) (e : ε) (files : List FoundFile) :
    { job with selection := sel }.scanFiles explain existing e files =
      job.scanFiles explain existing e files := by
  induction files generalizing e with
  | nil => rfl
  | cons f rest ih =>
    rw [scanFiles_cons,scanFiles_cons,ih]
    rfl

theorem ScanJob.run_congr {σ : Type} (job : ScanJob) (sel : Selection) (access : HistoryAccess σ)
    (state : ScanState σ)
    (h : job.tree.walk job.selection job.root = job.tree.walk sel job.root) :
    job.run access state = { job with selection := sel }.run access state := by
  unfold ScanJob.run ScanJob.runWith
  rw [h]
  simp only [scanFiles_selection]
  rfl

theorem Project.scanned_congr (job : ScanJob) (sel : Selection) (c : Option Connection)
    (h : job.tree.walk job.selection job.root = job.tree.walk sel job.root) :
    scanned job c = scanned { job with selection := sel } c := by
  cases c <;> simp only [scanned,job.run_congr sel _ _ h]

theorem Project.result_runScan (p : Project) (sel : Selection) (path : String) (force : Bool)
    (c : Option Connection) (w : World) : result (p.runScan sel path force c) w =
      result (p.keepScan (scanned (p.scanJob sel w.tree path force) c)) w := by
  rw [runScan,result_bind,result_files]

theorem Project.scanFolder_congr {p : Project} {sel sel' : Selection} {argument : Option String}
    {o : ScanOptions} {w : World}
    (h : ∀ history opened, result p.scanHistory w = (.ok history,opened) →
      opened.tree.walk sel ((argument.map p.resolve).getD p.root) =
        opened.tree.walk sel' ((argument.map p.resolve).getD p.root)) :
    result (p.scanFolder sel argument o) w = result (p.scanFolder sel' argument o) w := by
  unfold Project.scanFolder
  simp only [result_bind,result_ask]
  cases w.tree.stat ((argument.map p.resolve).getD p.root) with
  | error e => rfl
  | ok node =>
    by_cases hfolder : (!node.isFolder) = true
    · simp only [if_pos hfolder,result_bind,result_throw]
    · simp only [if_neg hfolder,result_bind]
      rcases hhistory : result p.scanHistory w with ⟨history,opened⟩
      cases history with
      | error e => rfl
      | ok history =>
        have htree := (keeps_log (ε:=CommandError) (quiet_tree opened.tree) p .info
          ("Scanning " ++ (argument.map p.resolve).getD p.root ++ "...") opened rfl).1
        simp only
        rcases hlog : result (p.log .info ("Scanning " ++ (argument.map p.resolve).getD p.root ++
          "...") : Work CommandError Unit) opened with ⟨logged,w₁⟩
        rw [hlog] at htree
        cases logged with
        | error e => rfl
        | ok _ =>
          have hwalk := h history opened hhistory
          rw [← htree] at hwalk
          simp only [result_runScan]
          rw [scanned_congr (p.scanJob sel w₁.tree ((argument.map p.resolve).getD p.root) o.force) sel'
            history hwalk]
          rfl

def sampleSettled : Project := ⟨"/p",{},⟨false⟩,.unset⟩

/-- A selection that finds in the sample what that of the settings does. -/
def sampleSelection : Selection := ⟨(· == "a.py"),fun _ => false⟩

def sampleNames : List (List String) :=
  [["a.py"],["circuit.md"],[".circuitdoc"],[".circuitdoc","history.db"],[".circuitdoc","docs"],
    [".circuitdoc","docs","a.md"]]

theorem sampleSelection_agrees : ∀ names ∈ sampleNames,
    FileTree.isSelected sampleSettled.selection names = FileTree.isSelected sampleSelection names := by
  intro names hnames
  have hne : names ≠ [] := by
    rintro rfl
    exact absurd hnames (by decide +kernel)
  have hsplit := List.dropLast_append_getLast hne
  have hnamed : ∀ names ∈ sampleNames, ∀ n ∈ names, '/' ∉ n.toList := by decide +kernel
  have hmeant : ∀ names ∈ sampleNames, ∀ hne : names ≠ [],
      (PythonName (names.getLast hne) ∧ ∀ folder ∈ names.dropLast, folder ∉ passedOver) ↔
        FileTree.isSelected sampleSelection names = true := by decide +kernel
  have hchosen := chosen_default_iff (hsplit.symm ▸ hnamed names hnames)
  rw [hsplit] at hchosen
  rw [Bool.eq_iff_iff,← hmeant names hnames hne,← hchosen]
  exact FileTree.isSelected_matching_iff Glob.outcome _ _ names

def sampleScanned (u : FileTree) : Outcome :=
  .ofResult (result (sampleSettled.scanFolder sampleSelection none {} >>=
    sampleSettled.finishScan {}) { tree := u })

def sampleOpened (u : FileTree) : FileTree := (result sampleSettled.scanHistory { tree := u }).2.tree

/-- A tree that is the folder of the sample with nothing in it but what may be there, also when the
history has been opened. -/
def IsSample (u : FileTree) : Prop :=
  result (({ command := .scan none {} } : CommandLine).openProject { now := .unset }) { tree := u } =
      (.ok sampleSettled,{ tree := u }) ∧
    (sampleOpened u).statLink ((sampleOpened u).absolute "/p") = .ok (["p"],.folder) ∧
    ∀ e ∈ (sampleOpened u).below ["p"], e.1 ∈ sampleNames

instance (u : FileTree) : Decidable (IsSample u) := by
  unfold IsSample
  infer_instance

theorem IsSample.run {u : FileTree} (h : IsSample u) :
    run { now := .unset } u ["scan"] = sampleScanned u := by
  obtain ⟨hopen,hroot,hnames⟩ := h
  have hargs : CommandLine.ofArguments ["scan"] = .ok { command := .scan none {} } := by decide +kernel
  have hfolder : result (sampleSettled.scanFolder sampleSettled.selection none {}) { tree := u } =
      result (sampleSettled.scanFolder sampleSelection none {}) { tree := u } := by
    have hpath : (Option.map sampleSettled.resolve none).getD sampleSettled.root = "/p" := rfl
    apply Project.scanFolder_congr
    intro history opened hhistory
    rw [sampleOpened,hhistory] at hroot hnames
    rw [hpath]
    exact FileTree.walk_congr hroot fun e he => sampleSelection_agrees _ (hnames e he)
  unfold CircuitNotes.run
  rw [hargs]
  change Outcome.ofResult (result (({ command := .scan none {} } : CommandLine).openProject
    { now := .unset } >>= fun p => p.scanFolder p.selection none {} >>= p.finishScan {})
      { tree := u }) = _
  rw [result_bind,hopen]
  simp only
  rw [result_bind,hfolder,sampleScanned,result_bind]

def sampleOld : Text := "q = QuantumCircuit(1)\nq.h(0)\n"

def sampleNew : Text := "q = QuantumCircuit(1)\nq.x(0)\n"

/-- The sample after its source was changed and then explained on its own. -/
def sampleExplainedAlone (o : Outcome) : FileTree :=
  (run { now := .unset } (o.world.tree.set ["p","a.py"] (.file sampleNew 6))
    ["explain","a.py"]).world.tree

theorem sample_evaluated : IsSample sampleProject ∧
    IsSample (sampleExplainedAlone (sampleScanned sampleProject)) ∧
    (sampleScanned (sampleExplainedAlone (sampleScanned sampleProject))).failure = none ∧
    (sampleScanned (sampleExplainedAlone (sampleScanned sampleProject))).world.log =
      "info: Scanning /p...\n" ∧
    (sampleScanned (sampleExplainedAlone (sampleScanned sampleProject))).world.tree.read "/p/a.py" =
      .ok sampleNew ∧
    (sampleScanned (sampleExplainedAlone (sampleScanned sampleProject))).world.tree.read
        "/p/.circuitdoc/docs/a.md" =
      .ok (explainSource defaultConstructor sampleOld).document.markdown ∧
    (explainSource defaultConstructor sampleOld).document.markdown ≠
      (explainSource defaultConstructor sampleNew).document.markdown := by
  decide +kernel

/-- A source that is scanned, changed, explained on its own and scanned again without an error keeps
the document of what it was before. -/
theorem scan_leaves_stale_document :
    ∃ o, run { now := .unset } (sampleExplainedAlone (run { now := .unset } sampleProject ["scan"]))
        ["scan"] = o ∧
      o.failure = none ∧ o.world.log = "info: Scanning /p...\n" ∧
      o.world.tree.read "/p/a.py" = .ok sampleNew ∧
      o.world.tree.read "/p/.circuitdoc/docs/a.md" =
        .ok (explainSource defaultConstructor sampleOld).document.markdown ∧
      (explainSource defaultConstructor sampleOld).document.markdown ≠
        (explainSource defaultConstructor sampleNew).document.markdown := by
  obtain ⟨hfirst,hsecond,hmore⟩ := sample_evaluated
  rw [hfirst.run]
  exact ⟨_,hsecond.run,hmore⟩

theorem document_fresh_iff_sample : ∃ journal u, Life sampleProject journal u ∧
    (run { now := .unset } u ["scan"]).failure = none ∧
    ∃ p w, result (({ command := .scan none {} } : CommandLine).openProject { now := .unset })
        { tree := u } = (.ok p,w) ∧
      ∃ scan : p.ScanRun none {} w (run { now := .unset } u ["scan"]).world, scan.Accounted := by
  obtain ⟨hfirst,hsecond,hok,_⟩ := sample_evaluated
  have hedit := (run { now := .unset } sampleProject ["scan"]).world.tree.edited_set ["p","a.py"]
    (by decide) (.file sampleNew 6)
  have hlife {o : Outcome} (hrun : run { now := .unset }
      ((run { now := .unset } sampleProject ["scan"]).world.tree.set ["p","a.py"] (.file sampleNew 6))
      ["explain","a.py"] = o) := Life.command (.edit (.command .start rfl) hedit) hrun
  have hscan : (run { now := .unset }
      (sampleExplainedAlone (run { now := .unset } sampleProject ["scan"])) ["scan"]).failure = none := by
    rw [hfirst.run,hsecond.run]
    exact hok
  refine ⟨_,_,hlife rfl,hscan,?_⟩
  exact document_fresh_iff noHistory_sampleProject (hlife rfl) { now := .unset } (by decide +kernel)
    rfl hscan

end CircuitNotes
