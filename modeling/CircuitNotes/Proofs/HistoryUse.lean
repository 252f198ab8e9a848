import CircuitNotes.Command.Explain
import CircuitNotes.Command.Scan
import CircuitNotes.Proofs.Trees
import CircuitNotes.Proofs.Works

/-! How a project uses its history, for every condition on the world that the single steps keep: the
folder is made, the database is connected and brought to the schema, and it is kept in its file, when
it has been opened and when a scan has ended well. -/
namespace CircuitNotes
namespace Project

open Work FileTree

/-- A condition on the world that a project keeps whenever it uses its history, while the database that
it works with satisfies another. -/
structure Upholds (p : Project) (I : World → Prop) (Q : Connection → Prop) : Prop where
  quiet : Quiet I
  folders : ∀ w t, I w → w.tree.makeFolders (dataFolder p.root) = .ok t → I { w with tree := t }
  /-- The files that are connected to are those of some world, which need not be the present one. -/
  connects : ∀ w₀ w c t, I w₀ → I w →
    w₀.tree.connect p.now.seconds (historyPath p.root) = .ok (c,t) →
    I { w with tree := t,journal := c.journal }
  prepares : ∀ w c t reason c', I w →
    w.tree.connect p.now.seconds (historyPath p.root) = .ok (c,t) →
    c.prepare p.config.scan.constructor = .ok (reason,c') → Q c'
  stores : ∀ w t c, I w → Q c → w.tree.store p.now.seconds (historyPath p.root) c = .ok t →
    I { w with tree := t,journal := c.journal }
  journals : ∀ w c, I w → Q c → I { w with journal := c.journal }
  scans : ∀ (job : ScanJob) (c : Connection) (report : ScanReport) (state : ScanState Connection),
    job.rule = p.rule → Q c →
    job.run Connection.access ⟨c,⟨.empty 0,0⟩⟩ = (.ok report,state) → Q state.history

namespace Upholds

variable {p : Project} {I : World → Prop} {Q : Connection → Prop} {ε : Type}
  (h : p.Upholds I Q)
include h

theorem keeps_makeDataFolder (because : FileError → ε) :
    Keeps I (p.makeDataFolder because) (fun _ => True) :=
  keeps_change fun w t hw ht => h.folders w t hw ht

theorem keeps_keepHistory {c : Connection} (hc : Q c) :
    Keeps I (p.keepHistory c : Work ε Unit) (fun _ => True) := by
  apply keeps_modify
  intro w hw
  cases hstore : w.tree.store p.now.seconds (historyPath p.root) c with
  | ok t => exact h.stores w t c hw hc hstore
  | error e => exact h.journals w c hw hc

theorem keeps_openHistory : Keeps I p.openHistory Q := by
  unfold Project.openHistory
  refine Keeps.bind (keeps_files (T:=fun t => ∃ w, I w ∧ w.tree = t) fun w hw => ⟨w,hw,rfl⟩) ?_
  rintro t ⟨w₀,hw₀,rfl⟩
  cases hconnect : w₀.tree.connect p.now.seconds (historyPath p.root) with
  | error e => exact keeps_throw e
  | ok opened =>
    obtain ⟨c,t⟩ := opened
    refine Keeps.bind (keeps_modify fun w hw => h.connects w₀ w c t hw₀ hw hconnect) fun _ _ => ?_
    cases hprepare : c.prepare p.config.scan.constructor with
    | error e => exact keeps_throw e
    | ok prepared =>
      obtain ⟨reason,c'⟩ := prepared
      have hc' := h.prepares w₀ c t reason c' hw₀ hconnect hprepare
      refine Keeps.bind (h.keeps_keepHistory hc') fun _ _ => ?_
      by_cases hreason : (reason != "") = true
      · simp only [if_pos hreason]
        exact Keeps.bind (keeps_log h.quiet p _ _) fun _ _ => keeps_pure hc'
      · simp only [if_neg hreason]
        exact keeps_pure hc'

theorem keeps_scanHistory : Keeps I p.scanHistory (fun c => ∀ c', c = some c' → Q c') := by
  unfold Project.scanHistory
  split_ifs
  · refine Keeps.bind (h.keeps_makeDataFolder _) fun _ _ => ?_
    refine Keeps.bind (h.keeps_openHistory.because _) fun c hc => keeps_pure ?_
    intro c' hc'
    exact Option.some.inj hc' ▸ hc
  · exact keeps_pure (by simp)

theorem keeps_keepScan {found : Except ScanError ScanReport × Option Connection × Explainer}
    (hkept : ∀ report c, found.1 = .ok report → found.2.1 = some c → Q c) :
    Keeps I (p.keepScan found) (fun _ => True) := by
  obtain ⟨outcome,kept,explainer⟩ := found
  cases outcome with
  | error e => exact keeps_throw _
  | ok report =>
    have hmore : Keeps I (kept.forM p.keepHistory : Work CommandError PUnit) (fun _ => True) := by
      cases kept with
      | none => exact keeps_pure trivial
      | some c => exact h.keeps_keepHistory (hkept report c rfl rfl)
    refine Keeps.bind hmore fun _ _ => ?_
    exact Keeps.bind (keeps_forM fun s _ => keeps_log h.quiet p _ _) fun _ _ => keeps_pure trivial

theorem keeps_runScan (sel : Selection) (path : String) (force : Bool) {c : Option Connection}
    (hc : ∀ c', c = some c' → Q c') : Keeps I (p.runScan sel path force c) (fun _ => True) := by
  unfold Project.runScan
  refine Keeps.bind (keeps_files (T:=fun _ => True) fun _ _ => trivial) fun t _ =>
    h.keeps_keepScan ?_
  intro report c' hreport hkept
  cases c with
  | none => cases hkept
  | some c =>
    rw [← Option.some.inj hkept]
    exact h.scans _ c report _ rfl (hc c rfl) (Prod.ext hreport rfl)

/-- Until the first document may be written, a scan does nothing but use the history. -/
theorem keeps_scanFolder (sel : Selection) (argument : Option String) (o : ScanOptions) :
    Keeps I (p.scanFolder sel argument o) (fun _ => True) := by
  unfold Project.scanFolder
  refine Keeps.bind (keeps_ask _ _) fun node _ => ?_
  by_cases hfolder : (!node.isFolder) = true
  · simp only [if_pos hfolder]
    exact Keeps.bind (keeps_throw (Q:=fun _ => False) _) fun _ hfalse => hfalse.elim
  · simp only [if_neg hfolder]
    refine Keeps.bind h.keeps_scanHistory fun c hc => ?_
    exact Keeps.bind (keeps_log h.quiet p _ _) fun _ _ => h.keeps_runScan _ _ _ hc

theorem keeps_recordSource {r : Record}
    (hput : ∀ c c', Q c → c.update (·.put r) = .ok c' → Q c') :
    Keeps I (p.recordSource r) (fun _ => True) := by
  unfold Project.recordSource
  refine Keeps.bind (h.keeps_makeDataFolder _) fun _ _ => ?_
  refine Keeps.bind (h.keeps_openHistory.because _) fun c hc => ?_
  cases hupdate : c.update (·.put r) with
  | error e => exact keeps_throw _
  | ok c' => exact h.keeps_keepHistory (hput c c' hc hupdate)

theorem keeps_rememberSource {r : Record}
    (hput : ∀ c c', Q c → c.update (·.put r) = .ok c' → Q c') :
    Keeps I (p.rememberSource r : Work ε Unit) (fun _ => True) := by
  unfold Project.rememberSource
  refine Keeps.bind (h.keeps_recordSource hput).attempt fun outcome _ => ?_
  cases outcome with
  | ok _ => exact keeps_pure trivial
  | error why => exact keeps_log h.quiet p _ _

end Upholds
end Project
end CircuitNotes
