import CircuitNotes.Proofs.DocumentChecking

/-! What explaining a source leaves behind when it fails. All that can go wrong is found out before the
document is written, except that the format of the result is not supported: then everything has been
done that is done with another format, and only the result is not printed. -/
namespace CircuitNotes

open Work Project FileTree

namespace Project

def chosenFormat (p : Project) (o : ExplainOptions) : String :=
  if o.format.isEmpty then p.config.output.format else o.format

/-- Explaining a source, but for printing the result. -/
def explained (p : Project) (file : String) (o : ExplainOptions) : Work CommandError Explanation := do
  let (source,modified) ← readSource (p.resolve file) file
  let e := p.rule source
  p.noteExplanation file e
  p.writeDocument (p.explainedIn o) e.document .unwrittenDocument
  p.log .info ("Document written to: " ++ p.explainedIn o)
  if p.recordsHistory o then
    p.rememberSource (p.recordOf (p.resolve file) source modified e)
  return e

theorem explain_eq (p : Project) (file : String) {o : ExplainOptions} (hcheck : o.check = false) :
    p.explain file o = p.explained file o >>= p.printExplanation o := by
  simp only [explain,explained,hcheck,Bool.false_eq_true,if_false,bind_assoc]
  refine bind_congr fun found => bind_congr fun _ => bind_congr fun _ => bind_congr fun _ => ?_
  cases hhistory : p.recordsHistory o <;>
    simp_all [recordsHistory]

variable {p : Project} {file : String} {o : ExplainOptions} {w w' : World} {e : CommandError}

def ElseThanFormat (e : CommandError) : Prop := ∀ format, e ≠ .unsupportedFormat format

theorem failsOnly_readSource (path argument : String) :
    FailsOnly ElseThanFormat (readSource path argument) := by
  unfold readSource
  refine (failsOnly_ask fun _ _ => nofun).bind fun node => ?_
  by_cases hfolder : node.isFolder = true
  · simp only [if_pos hfolder]
    exact (failsOnly_throw fun _ => nofun).bind fun _ =>
      (failsOnly_ask fun _ _ => nofun).bind fun _ => failsOnly_pure _
  · simp only [if_neg hfolder]
    exact (failsOnly_ask fun _ _ => nofun).bind fun _ => failsOnly_pure _

theorem failsOnly_noteExplanation {ε : Type} {E : ε → Prop} (p : Project) (argument : String)
    (found : Explanation) : FailsOnly E (p.noteExplanation argument found) := by
  intro w e w' h
  obtain ⟨log,hnoted⟩ := p.result_noteExplanation (ε:=ε) (w:=w) argument found
  rw [hnoted] at h
  cases h

theorem failsOnly_checkDocument (p : Project) (path : String) (d : Document) :
    FailsOnly ElseThanFormat (p.checkDocument path d) := by
  unfold checkDocument heldDocument
  refine (failsOnly_files.bind fun t => ?_).bind fun held => ?_
  · cases t.read path with
    | ok content => exact failsOnly_pure _
    | error e =>
      simp only
      split_ifs
      · exact failsOnly_pure _
      · exact failsOnly_throw fun _ => nofun
  · split_ifs
    · exact failsOnly_print _
    · exact (failsOnly_print _).bind fun _ => failsOnly_throw fun _ => nofun

theorem failsOnly_rememberSource {ε : Type} {E : ε → Prop} (p : Project) (r : Record) :
    FailsOnly E (p.rememberSource r) := by
  unfold rememberSource
  refine (failsOnly_attempt _).bind fun outcome => ?_
  cases outcome with
  | ok _ => exact failsOnly_pure _
  | error why => exact failsOnly_log _ _ _

/-- A document that could not be written is as it was. -/
theorem addsFolders_of_writeDocument {ε : Type} {path : String} {d : Document}
    {because : FileError → ε} {e : ε} (h : result (p.writeDocument path d because) w = (.error e,w')) :
    w.tree.AddsFolders w'.tree ∧ w'.journal = w.journal := by
  unfold writeDocument at h
  rw [result_bind,result_change] at h
  cases hfolders : w.tree.makeFolders (Path.directory path) with
  | error fault =>
    simp only [hfolders] at h
    cases h
    exact ⟨.refl _,rfl⟩
  | ok t =>
    simp only [hfolders,result_change] at h
    split at h
    · cases h
    · cases h
      exact ⟨addsFolders_of_makeFoldersAt hfolders,rfl⟩

/-- What goes wrong before the result is printed leaves the files and the history alone. -/
theorem of_explained_error (h : result (p.explained file o) w = (.error e,w')) :
    ElseThanFormat e ∧ w.tree.AddsFolders w'.tree ∧ w'.journal = w.journal := by
  rcases result_bind_eq_error h with hread | ⟨⟨source,modified⟩,w₁,hread,hnote⟩
  · have hsame := (quiet_readSource (I:=(· = w)) (p.resolve file) file w rfl).1
    rw [hread] at hsame
    subst hsame
    exact ⟨failsOnly_readSource _ _ _ _ _ hread,.refl _,rfl⟩
  · obtain ⟨rfl,-⟩ := of_readSource hread
    obtain ⟨log,hnoted⟩ := p.result_noteExplanation (ε:=CommandError) (w:=w₁) file (p.rule source)
    simp only at hnote
    rw [result_bind,hnoted] at hnote
    rcases result_bind_eq_error hnote with hwrite | ⟨_,documented,_,hlog⟩
    · have hfails : FailsOnly ElseThanFormat (p.writeDocument (p.explainedIn o)
          (p.rule source).document .unwrittenDocument) :=
        (failsOnly_change fun _ _ => nofun).bind fun _ => failsOnly_change fun _ _ => nofun
      have hsame := addsFolders_of_writeDocument hwrite
      exact ⟨hfails _ _ _ hwrite,hsame⟩
    · -- The rest cannot fail.
      exfalso
      rcases result_bind_eq_error hlog with hlog | ⟨_,logged,_,hremember⟩
      · exact failsOnly_log (E:=fun _ => False) p _ _ _ _ _ hlog
      · split_ifs at hremember
        · exact ((p.failsOnly_rememberSource (E:=fun _ => False) _).bind fun _ => failsOnly_pure _)
            _ _ _ hremember
        · cases hremember

/-! ### The format of the result -/

def IsFormat (format : String) : Prop := format = "json" ∨ format = "text"

theorem of_printExplanation_error {found : Explanation}
    (h : result (p.printExplanation o found) w = (.error e,w')) :
    e = .unsupportedFormat (p.chosenFormat o) ∧ ¬IsFormat (p.chosenFormat o) ∧ w' = w := by
  rcases result_bind_eq_error h with h | ⟨_,w₁,_,h⟩
  · unfold printResult at h
    split at h
    · cases h
    · cases h
    · rename_i hjson htext
      cases h
      exact ⟨rfl,not_or.mpr ⟨hjson,htext⟩,rfl⟩
  · split_ifs at h <;> cases h

theorem result_printExplanation {found : Explanation} (h : IsFormat (p.chosenFormat o)) :
    ∃ printed, result (p.printExplanation o found) w = (.ok (),{ w with stdout := printed }) := by
  have hresult : ∃ described, result (p.printResult (p.chosenFormat o) found.circuit) w =
      (.ok (),{ w with stdout := described }) := by
    rcases h with h | h
    · exact ⟨_,by rw [h]; rfl⟩
    · exact ⟨_,by rw [h]; rfl⟩
  obtain ⟨described,hdescribed⟩ := hresult
  rw [printExplanation,result_bind]
  rw [chosenFormat] at hdescribed
  rw [hdescribed]
  simp only
  split_ifs
  · exact ⟨_,rfl⟩
  · exact ⟨_,rfl⟩

/-- Explaining that fails has either left the files and the history alone, or done everything but print
the result in a format that is not supported. -/
theorem of_explain_error (h : result (p.explain file o) w = (.error e,w')) :
    ElseThanFormat e ∧ w.tree.AddsFolders w'.tree ∧ w'.journal = w.journal ∨
      o.check = false ∧ e = .unsupportedFormat (p.chosenFormat o) ∧ ¬IsFormat (p.chosenFormat o) ∧
        ∃ found, result (p.explained file o) w = (.ok found,w') := by
  cases hcheck : o.check with
  | true =>
    have hsame := (p.quiet_check (I:=fun v => v.tree = w.tree ∧ v.journal = w.journal)
      (fun _ _ _ hv => hv) file hcheck w ⟨rfl,rfl⟩).1
    rw [h] at hsame
    have hfails : FailsOnly ElseThanFormat (p.explain file o) := by
      unfold explain
      refine (failsOnly_readSource _ _).bind fun found => ?_
      simp only [hcheck,if_true]
      exact (p.failsOnly_noteExplanation _ _).bind fun _ => p.failsOnly_checkDocument _ _
    exact Or.inl ⟨hfails _ _ _ h,hsame.1 ▸ .refl _,hsame.2⟩
  | false =>
    rw [p.explain_eq file hcheck] at h
    rcases result_bind_eq_error h with h | ⟨found,w₁,hfound,h⟩
    · exact Or.inl (of_explained_error h)
    · obtain ⟨he,hformat,rfl⟩ := of_printExplanation_error h
      exact Or.inr ⟨rfl,he,hformat,found,hfound⟩

theorem result_explain_of_isFormat {found : Explanation} {format : String} (hcheck : o.check = false)
    (hfound : result (p.explained file o) w = (.ok found,w')) (hformat : IsFormat format) :
    ∃ printed, result (p.explain file { o with format := format }) w =
      (.ok (),{ w' with stdout := printed }) := by
  have hchosen : IsFormat (p.chosenFormat { o with format := format }) := by
    rcases hformat with rfl | rfl
    · exact Or.inl rfl
    · exact Or.inr rfl
  have hsame : p.explained file { o with format := format } = p.explained file o := rfl
  rw [p.explain_eq file (o:={ o with format := format }) hcheck,result_bind,hsame,hfound]
  exact result_printExplanation hchosen

end Project

/-! ### The program -/

section Run

variable {s : Surroundings} {u : FileTree} {args : List String} {file : String} {o : ExplainOptions}
  {e : CommandError}

/-- A command that explains a source and fails, for whatever reason, also if its arguments are not
understood or its project cannot be opened. -/
theorem of_failed_run
    (hexplain : ∀ l, CommandLine.ofArguments args = .ok l → l.command = .explain file o)
    (hfails : (run s u args).failure = some e) :
    (ElseThanFormat e ∧ u.AddsFolders (run s u args).world.tree ∧ (run s u args).world.journal = []) ∨
      ∃ p found, Opens s u args p ∧ o.check = false ∧ e = .unsupportedFormat (p.chosenFormat o) ∧
        ¬IsFormat (p.chosenFormat o) ∧
        result (p.explained file o) (p.opened u) = (.ok found,(run s u args).world) := by
  cases hargs : CommandLine.ofArguments args with
  | error usage =>
    have hrun : run s u args = ⟨{ tree := u },some (.usage usage)⟩ := by
      unfold run
      rw [hargs]
    rw [hrun] at hfails ⊢
    cases hfails
    exact Or.inl ⟨fun _ => nofun,.refl u,rfl⟩
  | ok l =>
    have hcommand := hexplain l hargs
    rcases hopen : result (l.openProject s) { tree := u } with ⟨outcome,w⟩
    cases outcome with
    | error fault =>
      have hrun : run s u args = ⟨w,some fault⟩ := by
        unfold run
        rw [hargs]
        change Outcome.ofResult (result (l.execute s) { tree := u }) = _
        rw [CommandLine.execute_explain hcommand,result_bind,hopen]
        rfl
      have hsame := (l.quiet_openProject (I:=fun v => v.tree = u ∧ v.journal = [])
        (fun _ _ _ hv => hv) s { tree := u } ⟨rfl,rfl⟩).1
      have helse := l.failsOnly_openProject (E:=ElseThanFormat) (fun _ _ => nofun) s _ _ _ hopen
      rw [hopen] at hsame
      rw [hrun] at hfails ⊢
      cases hfails
      exact Or.inl ⟨helse,hsame.1 ▸ .refl u,hsame.2⟩
    | ok p =>
      have hopens : Opens s u args p := ⟨l,w,hargs,hopen⟩
      have hrun := run_eq_of_opens (·.explain file o) (fun _ => CommandLine.execute_explain)
        ⟨l,hargs,hcommand⟩ hopens
      rcases hend : result (p.explain file o) (p.opened u) with ⟨outcome,w'⟩
      rw [hend] at hrun
      cases outcome with
      | ok _ =>
        rw [hrun] at hfails
        cases hfails
      | error fault =>
        rw [hrun] at hfails ⊢
        cases hfails
        rcases of_explain_error hend with ⟨helse,hadds,hjournal⟩ | ⟨hcheck,rfl,hformat,found,hfound⟩
        · rw [p.tree_opened] at hadds
          rw [p.journal_opened] at hjournal
          exact Or.inl ⟨helse,hadds,hjournal⟩
        · exact Or.inr ⟨p,found,hopens,hcheck,rfl,hformat,hfound⟩

theorem run_explain_of_isFormat {p : Project} {found : Explanation} {w : World}
    (hcheck : o.check = false) (hfound : result (p.explained file o) (p.opened u) = (.ok found,w))
    {args' : List String} {format : String}
    (hasks : Asks args' (.explain file { o with format := format })) (hopens : Opens s u args' p)
    (hformat : IsFormat format) :
    (run s u args').failure = none ∧ (run s u args').world.tree = w.tree ∧
      (run s u args').world.journal = w.journal := by
  obtain ⟨printed,hprinted⟩ := result_explain_of_isFormat hcheck hfound hformat
  have hrun := run_eq_of_opens (·.explain file { o with format := format })
    (fun _ => CommandLine.execute_explain) hasks hopens
  rw [hrun,hprinted]
  exact ⟨rfl,rfl,rfl⟩

/-- A command that explains a source and fails leaves every file and the history as they were, if only
the format of its result is supported; at most it has made folders. If the format is not supported, the
command fails after it has done all that it does with another format: it has written the document and
told the history. -/
theorem failed_explain_traces
    (hexplain : ∀ l, CommandLine.ofArguments args = .ok l → l.command = .explain file o)
    (hfails : (run s u args).failure = some e) :
    (ElseThanFormat e →
      u.AddsFolders (run s u args).world.tree ∧ (run s u args).world.journal = []) ∧
    ∀ format, e = .unsupportedFormat format → ¬IsFormat format ∧ o.check = false ∧
      ∃ p source, Opens s u args p ∧ format = p.chosenFormat o ∧
        u.read (p.resolve file) = .ok source ∧
        ((p.recordsHistory o = true →
            (run s u args).world.tree.Apart (p.explainedIn o) (historyPath p.root)) →
          (run s u args).world.tree.read (p.explainedIn o) =
            .ok (p.rule source).document.markdown) ∧
        ∀ args' format', Asks args' (.explain file { o with format := format' }) →
          Opens s u args' p → IsFormat format' →
          (run s u args').failure = none ∧
            (run s u args').world.tree = (run s u args).world.tree ∧
            (run s u args').world.journal = (run s u args).world.journal := by
  rcases of_failed_run hexplain hfails with ⟨helse,hsame⟩ | ⟨p,found,hopens,hcheck,rfl,hformat,hfound⟩
  · exact ⟨fun _ => hsame,fun format he => absurd he (helse format)⟩
  · refine ⟨fun helse => absurd rfl (helse _),?_⟩
    rintro _ ⟨⟩
    obtain ⟨printed,hprinted⟩ := result_explain_of_isFormat hcheck hfound (Or.inl rfl)
    obtain ⟨r⟩ := exists_explainRun (o:={ o with format := "json" }) hcheck hprinted
    have hread := r.reads
    rw [p.tree_opened] at hread
    refine ⟨hformat,hcheck,p,r.source,hopens,rfl,hread,?_,?_⟩
    · intro hapart
      obtain ⟨place,_,hlookup,_⟩ := of_writeDocument r.documents
      exact r.read_kept ((read_eq_ok_iff _ _ _).mpr ⟨place,_,hlookup⟩) hapart
    · intro args' format' hasks hopens' hformat'
      exact run_explain_of_isFormat hcheck hfound hasks hopens' hformat'

end Run

def sampleDocumented : FileTree :=
  sampleProject.set ["p","circuit.md"]
    (.file (explainSource defaultConstructor sampleOld).document.markdown Instant.unset.seconds)

theorem failed_explain_traces_sample :
    (run { now := .unset } sampleDocumented ["explain","b.py"]).failure =
        some (.noSource ⟨"stat","/p/b.py",.notFound⟩) ∧
      sampleDocumented.AddsFolders
        (run { now := .unset } sampleDocumented ["explain","b.py"]).world.tree ∧
    (run { now := .unset } sampleProject ["explain","a.py","-f","xml","--no-history"]).failure =
        some (.unsupportedFormat "xml") ∧
      (run { now := .unset } sampleProject ["explain","a.py","-f","xml","--no-history"]).world.tree =
        sampleDocumented := by
  have hlone : CommandLine.ofArguments ["explain","b.py"] =
      .ok { command := .explain "b.py" {} } := by decide +kernel
  have hxml : CommandLine.ofArguments ["explain","a.py","-f","xml","--no-history"] =
      .ok { command := .explain "a.py" { format := "xml",noHistory := true } } := by decide +kernel
  have hjson : CommandLine.ofArguments ["explain","a.py","-f","json","--no-history"] =
      .ok { command := .explain "a.py" { format := "json",noHistory := true } } := by decide +kernel
  have hmissing : (run { now := .unset } sampleDocumented ["explain","b.py"]).failure =
      some (.noSource ⟨"stat","/p/b.py",.notFound⟩) := by decide +kernel
  have hformat : (run { now := .unset } sampleProject
      ["explain","a.py","-f","xml","--no-history"]).failure = some (.unsupportedFormat "xml") := by
    decide +kernel
  have hended : (run { now := .unset } sampleProject
      ["explain","a.py","-f","json","--no-history"]).world.tree = sampleDocumented := by decide +kernel
  refine ⟨hmissing,?_,hformat,?_⟩
  · have hexplain (l : CommandLine) (hl : CommandLine.ofArguments ["explain","b.py"] = .ok l) :
        l.command = .explain "b.py" {} := by
      cases hlone.symm.trans hl
      rfl
    exact ((failed_explain_traces hexplain hmissing).1 fun _ => nofun).1
  · have hexplain (l : CommandLine)
        (hl : CommandLine.ofArguments ["explain","a.py","-f","xml","--no-history"] = .ok l) :
        l.command = .explain "a.py" { format := "xml",noHistory := true } := by
      cases hxml.symm.trans hl
      rfl
    obtain ⟨-,-,p,_,⟨l,w,hl,hopen⟩,-,-,-,hsupported⟩ :=
      (failed_explain_traces hexplain hformat).2 "xml" rfl
    have hsettled : (result (({ command := .explain "a.py" { format := "xml",noHistory := true } } :
        CommandLine).openProject { now := .unset }) { tree := sampleProject }).1 =
          .ok sampleSettled := by decide +kernel
    cases hxml.symm.trans hl
    rw [hopen] at hsettled
    cases hsettled
    have hsame := hsupported _ "json" ⟨_,hjson,rfl⟩ (opens_of_result hjson (by decide +kernel))
      (Or.inl rfl)
    exact hsame.2.1.symm.trans hended

/-- A format that is not supported does not keep the document from being written, nor the history from
being told. -/
theorem unsupported_format_leaves_document :
    (run { now := .unset } sampleProject ["explain","a.py","-f","xml"]).failure =
        some (.unsupportedFormat "xml") ∧
      (sampleProject.read "/p/circuit.md").toOption = none ∧
      (run { now := .unset } sampleProject ["explain","a.py","-f","xml"]).world.tree.read
        "/p/circuit.md" = .ok (explainSource defaultConstructor sampleOld).document.markdown ∧
      (run { now := .unset } sampleProject ["explain","a.py","-f","xml"]).world.journal.head?.map
        (·.records.map Prod.fst) = some [Text.ofString "/p/a.py"] := by
  decide +kernel

end CircuitNotes
