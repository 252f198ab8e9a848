import CircuitNotes.Proofs.ScanAccounting

/-! A scan with one worker at a time. It takes up a file only when it is through with the one before,
so the explainer and the slots come out as those of the files one after another, but for the dates. -/
namespace CircuitNotes

namespace ScanJob

variable {σ ε : Type}

theorem scanFiles_append_singleton (job : ScanJob) (explain : Explaining ε) (existing : Bucket Record)
    (e : ε) (files : List FoundFile) (f : FoundFile) :
    job.scanFiles explain existing e (files ++ [f]) =
      ((job.scanFiles explain existing e files).1 ++
          [(job.scanFile explain existing (job.scanFiles explain existing e files).2 f).1],
        (job.scanFile explain existing (job.scanFiles explain existing e files).2 f).2) := by
  induction files generalizing e with
  | nil => rfl
  | cons g rest ih =>
    rw [List.cons_append,scanFiles_cons,ih,scanFiles_cons]
    rfl

/-! ### One file -/

/-- How far a worker is that is alone with a file, what the explainer was when it took the file up, and
what it is now. -/
def Alone (job : ScanJob) (existing : Bucket Record) (f : FoundFile) (e now : Explainer) :
    Stage → Prop
  | .launched | .calledOff | .started => now = e
  | .read source => job.read f.path = .ok source ∧ now = e
  | .changed source => job.read f.path = .ok source ∧
      (Bucket.find? existing f.path).filter (job.keeps (contentHash source)) = none ∧ now = e
  | .missed source => job.read f.path = .ok source ∧
      (Bucket.find? existing f.path).filter (job.keeps (contentHash source)) = none ∧
      (e.cache.get (contentHash source)).1 = none ∧ now = e
  | .made source x => job.read f.path = .ok source ∧
      (Bucket.find? existing f.path).filter (job.keeps (contentHash source)) = none ∧
      (e.cache.get (contentHash source)).1 = none ∧ x = job.rule source ∧
      now = { e with calls := e.calls + 1 }
  | .ready o | .written o | .counted o _ | .told o =>
      o.undated = (job.scanFile job.cached existing e f).1.outcome.undated ∧
      now = (job.scanFile job.cached existing e f).2

theorem act_alone {job : ScanJob} {existing : Bucket Record} {f : FoundFile} {e : Explainer}
    {b : Board} {stage : Stage} (h : job.Alone existing f e b.explainer stage) (total : Nat)
    (now : Instant) :
    job.Alone existing f e (job.act existing total now f b stage).2.explainer
      (job.act existing total now f b stage).1 := by
  cases stage with
  | launched =>
    simp only [act]
    split_ifs <;> exact h
  | started =>
    have he : b.explainer = e := h
    simp only [act]
    cases hread : job.read f.path with
    | error fault =>
      change _ ∧ _
      rw [scanFile_of_unread hread]
      exact ⟨rfl,he⟩
    | ok source => exact ⟨hread,he⟩
  | read source =>
    obtain ⟨hread,he⟩ := h
    simp only [act]
    cases hkept : (Bucket.find? existing f.path).filter (job.keeps (contentHash source)) with
    | some r =>
      change _ ∧ _
      rw [scanFile_of_kept hread hkept]
      exact ⟨rfl,he⟩
    | none => exact ⟨hread,hkept,he⟩
  | changed source =>
    obtain ⟨hread,hnone,rfl⟩ := h
    cases hfound : (b.explainer.cache.get (contentHash source)).1 with
    | none =>
      rw [act_of_miss hfound]
      exact ⟨hread,hnone,hfound,rfl⟩
    | some x =>
      rw [act_of_hit hfound]
      change _ ∧ _
      rw [scanFile_of_changed hread hnone,cached,Explainer.explain_of_hit hfound]
      exact ⟨rfl,rfl⟩
  | missed source =>
    obtain ⟨hread,hnone,hmiss,rfl⟩ := h
    exact ⟨hread,hnone,hmiss,rfl,rfl⟩
  | made source x =>
    obtain ⟨hread,hnone,hmiss,rfl,hb⟩ := h
    change _ ∧ _
    rw [scanFile_of_changed hread hnone,cached,Explainer.explain_of_miss hmiss,act,hb]
    exact ⟨rfl,rfl⟩
  | calledOff | ready o | written o | counted o n | told o => exact h

/-! ### File after file -/

def toldFiles (workers : List Worker) : List FoundFile :=
  (workers.filter fun w => w.stage.isTold).map Worker.file

/-- Explainer and slots, but for the dates, are those of the files one after another. -/
structure InOrder (job : ScanJob) (existing : Bucket Record) (e : Explainer) (files : List FoundFile)
    (now : Explainer) (slots : List ScannedFile) : Prop where
  explainer : now = (job.scanFiles job.cached existing e files).2
  slots : slots.map ScannedFile.undated =
    (job.scanFiles job.cached existing e files).1.map ScannedFile.undated

/-- Workers that took up the files one after another: all of them are over, or all but the last. -/
inductive InTurn (job : ScanJob) (existing : Bucket Record) (e : Explainer) :
    Explainer → List Worker → Prop
  | idle {now : Explainer} {workers : List Worker} (hover : ∀ w ∈ workers, w.stage.isOver = true)
      (horder : job.InOrder existing e (toldFiles workers) now (workers.filterMap Worker.slot?)) :
      InTurn job existing e now workers
  | busy {last now : Explainer} {workers : List Worker} {f : FoundFile} {stage : Stage}
      (hover : ∀ w ∈ workers, w.stage.isOver = true)
      (horder : job.InOrder existing e (toldFiles workers) last (workers.filterMap Worker.slot?))
      (hstage : stage.isOver = false) (halone : job.Alone existing f last now stage) :
      InTurn job existing e now (workers ++ [⟨f,stage⟩])

section InTurn

variable {job : ScanJob} {existing : Bucket Record} {e last now : Explainer} {workers : List Worker}
  {f : FoundFile} {stage : Stage}

theorem InOrder.append_calledOff
    (h : job.InOrder existing e (toldFiles workers) now (workers.filterMap Worker.slot?))
    (f : FoundFile) :
    job.InOrder existing e (toldFiles (workers ++ [⟨f,.calledOff⟩])) now
      (List.filterMap Worker.slot? (workers ++ [⟨f,.calledOff⟩])) := by
  have hfiles : toldFiles (workers ++ [⟨f,.calledOff⟩]) = toldFiles workers := by
    simp [toldFiles,Stage.isTold]
  have hslots : List.filterMap Worker.slot? (workers ++ [⟨f,.calledOff⟩]) =
      workers.filterMap Worker.slot? := by
    rw [List.filterMap_append]
    exact List.append_nil _
  rwa [hfiles,hslots]

theorem InOrder.append_told
    (h : job.InOrder existing e (toldFiles workers) last (workers.filterMap Worker.slot?))
    {o : FileOutcome} (halone : job.Alone existing f last now (.told o)) :
    job.InOrder existing e (toldFiles (workers ++ [⟨f,.told o⟩])) now
      (List.filterMap Worker.slot? (workers ++ [⟨f,.told o⟩])) := by
  obtain ⟨hslot,hnow⟩ := halone
  have hfiles : toldFiles (workers ++ [⟨f,.told o⟩]) = toldFiles workers ++ [f] := by
    simp [toldFiles,Stage.isTold]
  have hslots : List.filterMap Worker.slot? (workers ++ [⟨f,.told o⟩]) =
      workers.filterMap Worker.slot? ++ [⟨f,o⟩] := List.filterMap_append
  have hundated : ScannedFile.undated ⟨f,o⟩ =
      (job.scanFile job.cached existing last f).1.undated := by
    rw [ScannedFile.undated,ScannedFile.undated,hslot,
      (job.scanFile_outcome job.cached existing last f).1]
  refine ⟨?_,?_⟩
  · rw [hfiles,scanFiles_append_singleton,← h.explainer,hnow]
  · rw [hfiles,hslots,scanFiles_append_singleton,← h.explainer,List.map_append,List.map_append,h.slots,
      List.map_singleton,List.map_singleton,hundated]

theorem InTurn.of_alone (hover : ∀ w ∈ workers, w.stage.isOver = true)
    (horder : job.InOrder existing e (toldFiles workers) last (workers.filterMap Worker.slot?))
    (halone : job.Alone existing f last now stage) :
    job.InTurn existing e now (workers ++ [⟨f,stage⟩]) := by
  cases hstage : stage.isOver with
  | false => exact .busy hover horder hstage halone
  | true =>
    refine .idle ?_ ?_
    · simpa [or_imp,forall_and,hstage] using hover
    · cases stage with
      | calledOff =>
        have hnow : now = last := halone
        exact hnow ▸ horder.append_calledOff f
      | told o => exact horder.append_told halone
      | _ => cases hstage

theorem inTurn_nil (job : ScanJob) (existing : Bucket Record) (e : Explainer) :
    job.InTurn existing e e [] := .idle (by simp) ⟨rfl,rfl⟩

/-- The next file is taken up when no worker is at one. -/
theorem InTurn.launch (h : job.InTurn existing e now workers)
    (hidle : ∀ w ∈ workers, w.stage.isOver = true) (f : FoundFile) :
    job.InTurn existing e now (workers ++ [⟨f,.launched⟩]) := by
  cases h with
  | idle hover horder => exact .of_alone hover horder rfl
  | busy hover horder hstage halone =>
    have hlast := hidle _ (List.mem_append_right _ List.mem_cons_self)
    simp [hstage] at hlast

/-- Only the last worker can take a step. -/
theorem InTurn.work {b : Board} {front back : List Worker}
    (h : job.InTurn existing e b.explainer (front ++ ⟨f,stage⟩ :: back))
    (hstage : stage.isOver = false) (total : Nat) (now : Instant) :
    job.InTurn existing e (job.act existing total now f b stage).2.explainer
      (front ++ ⟨f,(job.act existing total now f b stage).1⟩ :: back) := by
  generalize hworkers : front ++ ⟨f,stage⟩ :: back = workers at h
  cases h with
  | idle hover horder =>
    have hthis := hover ⟨f,stage⟩ (hworkers ▸ by simp)
    simp [hstage] at hthis
  | @busy last _ others g stage' hover horder hstage' halone =>
    rcases List.eq_nil_or_concat back with rfl | ⟨more,w,rfl⟩
    · obtain ⟨rfl,hlast⟩ := List.append_inj' hworkers rfl
      cases hlast
      exact .of_alone hover horder (act_alone halone total now)
    · -- Any other worker is over.
      rw [List.concat_eq_append,← List.cons_append,← List.append_assoc] at hworkers
      obtain ⟨rfl,-⟩ := List.append_inj' hworkers rfl
      have hthis := hover ⟨f,stage⟩ (by simp)
      simp [hstage] at hthis

end InTurn

/-! ### The scan as a whole -/

/-- Slots in order, of a scan that has walked the folder and listed the history. -/
def HoldsOrder (job : ScanJob) (access : HistoryAccess σ) (before : σ) (e now : Explainer)
    (slots : List ScannedFile) : Prop :=
  ∃ files records, job.tree.walk job.selection job.root = .ok files ∧
    access.list before = .ok records ∧ job.InOrder (byPath records) e files now slots

/-- What one worker has come to in each phase of a scan. -/
def KeepsOrder (job : ScanJob) (access : HistoryAccess σ) (before : σ) (e now : Explainer) :
    Phase → Prop
  | .walking | .listing _ => now = e
  | .working _ existing _ workers => job.InTurn existing e now workers
  | .storing files existing slots => job.InOrder existing e files now slots
  | .pruning slots _ _ _ => job.HoldsOrder access before e now slots
  | .finished report => job.HoldsOrder access before e now report.files
  | .failed _ => True

section KeepsOrder

variable {job : ScanJob} {access : HistoryAccess σ} {jobs : Nat} {before : σ} {e : Explainer}
  {s s' : Scanning σ}

theorem toldFiles_of_over {workers : List Worker} (hover : ∀ w ∈ workers, w.stage.isOver = true)
    (hon : ∀ w ∈ workers, w.stage ≠ .calledOff) : toldFiles workers = workers.map Worker.file := by
  rw [toldFiles,List.filter_eq_self.mpr]
  intro w hw
  obtain ⟨o,ho⟩ := eq_told_of_over (hover w hw) (hon w hw)
  rw [ho]
  rfl

theorem over_of_activeCount {workers : List Worker} {files : List FoundFile} (hjobs : jobs ≤ 1)
    (h : activeCount workers < workerLimit jobs files) : ∀ w ∈ workers, w.stage.isOver = true := by
  have hidle : activeCount workers = 0 := by
    rw [workerLimit] at h
    omega
  simpa [activeCount,List.countP_eq_zero] using hidle

theorem KeepsOrder.step (hjobs : jobs ≤ 1) (htracks : job.Tracks access before s)
    (hslots : ∀ files, job.tree.walk job.selection job.root = .ok files →
      job.KeepsSlots access files e before s.phase)
    (hs : job.KeepsOrder access before e s.board.explainer s.phase)
    (hstep : job.Step access jobs s s') :
    job.KeepsOrder access before e s'.board.explainer s'.phase := by
  cases hstep with
  | unwalked | unlisted | stopped | unstored => trivial
  | found | deleted | undeleted | finished | cancel => exact hs
  | listed =>
    have he : _ = e := hs
    rw [KeepsOrder,he]
    exact inTurn_nil job _ e
  | launch hlimit => exact hs.launch (over_of_activeCount hjobs hlimit) _
  | work hstage now => exact hs.work hstage _ now
  | gathered hover hon =>
    obtain ⟨files,hwalk⟩ : ∃ files, job.tree.walk job.selection job.root = .ok files := by
      cases htracks with
      | working hwalk => exact ⟨_,hwalk⟩
    have hfiles := (hslots files hwalk).1
    rw [List.append_nil,← toldFiles_of_over hover hon] at hfiles
    cases hs with
    | idle _ horder => exact hfiles ▸ horder
    | busy _ _ hstage _ =>
      have hlast := hover _ (List.mem_append_right _ List.mem_cons_self)
      simp [hstage] at hlast
  | stored =>
    cases htracks with
    | storing hwalk hlist => exact ⟨_,_,hwalk,hlist,hs⟩

theorem KeepsOrder.runs (hjobs : jobs ≤ 1)
    (hruns : job.Runs access jobs (.start before e) s) :
    job.KeepsOrder access before e s.board.explainer s.phase := by
  have htracks : job.Tracks access before (.start before e) := .walking
  induction hruns with
  | refl => rfl
  | tail hruns hstep ih =>
    exact ih.step hjobs (htracks.runs hruns) (fun _ hwalk => (KeepsSlots.runs hwalk hruns).2) hstep

/-- A scan with one worker at a time that ends well has done what is done with the files one after
another. -/
theorem holdsOrder_of_runs (hjobs : jobs ≤ 1) {report : ScanReport} {after : σ}
    (hruns : job.Runs access jobs (.start before e) s)
    (hout : s.outcome? = some (.ok report,after)) :
    job.HoldsOrder access before e s.board.explainer report.files := by
  have hkeeps := KeepsOrder.runs hjobs hruns
  rw [phase_of_outcome? hout] at hkeeps
  exact hkeeps

end KeepsOrder

end ScanJob
end CircuitNotes
