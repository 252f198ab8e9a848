import CircuitNotes.Proofs.ScanScheduling

/-! A scan that is called off before it begins. Only the workers ask whether it is, so it is refused if
there is a file for one of them; a folder without a file to scan is settled as in any other scan, and
the records below it go. -/
namespace CircuitNotes

variable {σ ε : Type}

def Scanning.startCalledOff (before : σ) (e : Explainer) : Scanning σ :=
  ⟨before,{ explainer := e,cancelled := true },.walking⟩

namespace ScanJob

/-- How a scan ends that is called off as soon as there is a file, and fills no slot. -/
abbrev EndsCalledOff (job : ScanJob) (access : HistoryAccess σ) (before : σ) :
    Except ScanError ScanReport × σ → Prop :=
  job.Ends access before (· ≠ []) fun _ _ slots => slots = []

/-- Where a scan can be that was called off before it began: no worker has begun with its file, and
the board is as it was. -/
inductive Idle (job : ScanJob) (access : HistoryAccess σ) (before : σ) (b : Board) :
    Scanning σ → Prop
  | walking : Idle job access before b ⟨before,b,.walking⟩
  | listing {files : List FoundFile} (hwalk : job.tree.walk job.selection job.root = .ok files) :
      Idle job access before b ⟨before,b,.listing files⟩
  | working {files waiting : List FoundFile} {records : List Record} {workers : List Worker}
      (hwalk : job.tree.walk job.selection job.root = .ok files)
      (hlist : access.list before = .ok records)
      (hassigned : workers.map Worker.file ++ waiting = files)
      (hidle : ∀ w ∈ workers, w.stage = .launched ∨ w.stage = .calledOff) :
      Idle job access before b ⟨before,b,.working files (byPath records) waiting workers⟩
  | storing {records : List Record} (hwalk : job.tree.walk job.selection job.root = .ok [])
      (hlist : access.list before = .ok records) :
      Idle job access before b ⟨before,b,.storing [] (byPath records) []⟩
  | pruning {h : σ} {records : List Record} {paths gone : List Text}
      {left : List (Text × HistoryError)} (hwalk : job.tree.walk job.selection job.root = .ok [])
      (hlist : access.list before = .ok records)
      (hsettle : job.settle access before (byPath records) [] [] =
        .ok (⟨[],gone ++ (prune access h paths).2.1,left ++ (prune access h paths).2.2⟩,
          (prune access h paths).1)) :
      Idle job access before b ⟨h,b,.pruning [] paths gone left⟩
  | failed {e : ScanError} (hend : job.EndsCalledOff access before (.error e,before)) :
      Idle job access before b ⟨before,b,.failed e⟩
  | finished {h : σ} {report : ScanReport} (hend : job.EndsCalledOff access before (.ok report,h)) :
      Idle job access before b ⟨h,b,.finished report⟩

section Idle

variable {job : ScanJob} {access : HistoryAccess σ} {jobs : Nat} {before : σ} {b : Board}
  {s s' : Scanning σ}

theorem act_idle (hb : b.cancelled = true) (existing : Bucket Record) (total : Nat) (now : Instant)
    (f : FoundFile) {stage : Stage} (h : stage = .launched ∨ stage = .calledOff) :
    job.act existing total now f b stage = (.calledOff,b) := by
  rcases h with rfl | rfl
  · simp [act,hb]
  · rfl

/-- Idle workers that are through with their files were called off, so that there are none if none
was. -/
theorem eq_nil_of_idle {workers : List Worker}
    (hidle : ∀ w ∈ workers, w.stage = .launched ∨ w.stage = .calledOff)
    (hover : ∀ w ∈ workers, w.stage.isOver = true) (hon : ∀ w ∈ workers, w.stage ≠ .calledOff) :
    workers = [] := by
  rw [List.eq_nil_iff_forall_not_mem]
  intro w hw
  rcases hidle w hw with hstage | hstage
  · have hw' := hover w hw
    rw [hstage] at hw'
    cases hw'
  · exact hon w hw hstage

theorem Idle.step (hb : b.cancelled = true) (hs : job.Idle access before b s)
    (hstep : job.Step access jobs s s') : job.Idle access before b s' := by
  cases hstep with
  | found hwalk =>
    cases hs with
    | walking => exact .listing hwalk
  | unwalked hwalk =>
    cases hs with
    | walking => exact .failed (.unwalked hwalk)
  | listed hlist =>
    cases hs with
    | listing hwalk => exact .working hwalk hlist rfl (by simp)
  | unlisted hlist =>
    cases hs with
    | listing hwalk => exact .failed (.unlisted hwalk hlist)
  | launch =>
    cases hs with
    | working hwalk hlist hassigned hidle =>
      refine .working hwalk hlist (by simpa using hassigned) ?_
      intro w hw
      rcases List.mem_append.mp hw with hw | hw
      · exact hidle w hw
      · rw [List.mem_singleton.mp hw]
        exact Or.inl rfl
  | @work _ _ _ _ _ _ _ f stage hstage now =>
    cases hs with
    | working hwalk hlist hassigned hidle =>
      rw [act_idle hb _ _ now f (hidle ⟨f,stage⟩ (by simp))]
      refine .working hwalk hlist (by simpa using hassigned) ?_
      intro w hw
      simp only [List.mem_append,List.mem_cons] at hw
      rcases hw with hw | rfl | hw
      · exact hidle w (by simp [hw])
      · exact Or.inr rfl
      · exact hidle w (by simp [hw])
  | stopped hover hoff =>
    cases hs with
    | working hwalk hlist hassigned hidle =>
      obtain ⟨w,hw,-⟩ := hoff
      refine .failed (.cancelled hwalk hlist ?_)
      rw [← hassigned]
      simp [List.ne_nil_of_mem hw]
  | gathered hover hon =>
    cases hs with
    | working hwalk hlist hassigned hidle =>
      obtain rfl := eq_nil_of_idle hidle hover hon
      obtain rfl := hassigned
      exact .storing hwalk hlist
  | stored hstore =>
    cases hs with
    | storing hwalk hlist => exact .pruning hwalk hlist (job.settle_of_stored _ _ hstore)
  | unstored hstore =>
    cases hs with
    | storing hwalk hlist => cases hstore
  | deleted hdelete =>
    cases hs with
    | pruning hwalk hlist hsettle =>
      rw [prune_cons_ok hdelete] at hsettle
      refine .pruning hwalk hlist ?_
      rw [hsettle,List.append_assoc]
      rfl
  | undeleted hdelete =>
    cases hs with
    | pruning hwalk hlist hsettle =>
      rw [prune_cons_error hdelete] at hsettle
      refine .pruning hwalk hlist ?_
      rw [hsettle,List.append_assoc]
      rfl
  | finished =>
    cases hs with
    | pruning hwalk hlist hsettle =>
      simp only [prune,List.append_nil] at hsettle
      exact .finished (.of_settle hwalk hlist (not_not_intro rfl) rfl hsettle)
  | cancel hlive =>
    cases hs <;> simp [hb] at hlive

theorem Idle.runs (hb : b.cancelled = true) (hs : job.Idle access before b s)
    (hruns : job.Runs access jobs s s') : job.Idle access before b s' := by
  induction hruns with
  | refl => exact hs
  | tail _ hstep ih => exact ih.step hb hstep

theorem Idle.board_eq (hs : job.Idle access before b s) : s.board = b := by
  cases hs <;> rfl

theorem Idle.ends (hs : job.Idle access before b s) {x : Except ScanError ScanReport × σ}
    (hx : s.outcome? = some x) : job.EndsCalledOff access before x := by
  cases hs with
  | failed hend => rwa [← Option.some.inj hx]
  | finished hend => rwa [← Option.some.inj hx]
  | _ => cases hx

end Idle

/-! ### How such a scan ends -/

section EndsCalledOff

variable {job : ScanJob} {access : HistoryAccess σ} {before : σ}
  {x x' : Except ScanError ScanReport × σ}

theorem ended_settle_nil (job : ScanJob) (access : HistoryAccess σ) (before : σ)
    (existing : Bucket Record) :
    ended before (job.settle access before existing [] []) =
      (.ok ⟨[],(prune access before (job.stale existing [])).2.1,
          (prune access before (job.stale existing [])).2.2⟩,
        (prune access before (job.stale existing [])).1) := by
  have hstored : store access before (freshOf []) = .ok before := rfl
  rw [job.settle_of_stored existing [] hstored]
  rfl

theorem Ends.eq_cancelled_iff (h : job.EndsCalledOff access before x) :
    x = (.error .cancelled,before) ↔
      ∃ files records, job.tree.walk job.selection job.root = .ok files ∧ files ≠ [] ∧
        access.list before = .ok records := by
  cases h with
  | unwalked hwalk => simp [hwalk]
  | unlisted hwalk hlist => simp [hwalk,hlist]
  | cancelled hwalk hlist hoff => simpa [hwalk,hlist] using hoff
  | @gathered files records slots hwalk hlist hoff hfill =>
    obtain rfl : files = [] := not_not.mp hoff
    subst hfill
    rw [ended_settle_nil]
    simp [hwalk]

theorem Ends.eq_pruned (h : job.EndsCalledOff access before x) {records : List Record}
    (hwalk : job.tree.walk job.selection job.root = .ok [])
    (hlist : access.list before = .ok records) :
    x = (.ok ⟨[],(prune access before (job.stale (byPath records) [])).2.1,
        (prune access before (job.stale (byPath records) [])).2.2⟩,
      (prune access before (job.stale (byPath records) [])).1) := by
  cases h with
  | unwalked hwalk' => simp [hwalk] at hwalk'
  | unlisted _ hlist' => simp [hlist] at hlist'
  | cancelled hwalk' _ hoff =>
    cases hwalk.symm.trans hwalk'
    exact absurd rfl hoff
  | gathered hwalk' hlist' _ hfill =>
    cases hwalk.symm.trans hwalk'
    cases hlist.symm.trans hlist'
    subst hfill
    exact job.ended_settle_nil access before (byPath records)

theorem Ends.unique (h : job.EndsCalledOff access before x)
    (h' : job.EndsCalledOff access before x') : x = x' := by
  cases h <;> cases h' <;> simp_all

theorem runWith_endsCalledOff (job : ScanJob) (explain : Explaining ε) (access : HistoryAccess σ)
    (before : σ) (e : ε) :
    job.EndsCalledOff access before
        (withHistory ({ job with cancelAfter := some 0 }.runWith explain access ⟨before,e⟩)) ∧
      ({ job with cancelAfter := some 0 }.runWith explain access ⟨before,e⟩).2.explainer = e := by
  unfold withHistory runWith
  cases hwalk : job.tree.walk job.selection job.root with
  | error fault => exact ⟨.unwalked hwalk,rfl⟩
  | ok files =>
    cases hlist : access.list before with
    | error fault => exact ⟨.unlisted hwalk hlist,rfl⟩
    | ok records =>
      cases files with
      | cons f rest => exact ⟨.cancelled hwalk hlist (List.cons_ne_nil f rest),rfl⟩
      | nil =>
        have hstored : store access before (freshOf []) = .ok before := rfl
        have hsettle := job.settle_of_stored (byPath records) [] hstored
        exact ⟨.of_settle hwalk hlist (not_not_intro rfl) rfl hsettle,rfl⟩

end EndsCalledOff

/-- A scan that is called off before it begins ends, in whatever order its workers take their steps,
as the files one after another do. Nothing is explained and nothing is told. It is refused with the
history as it was exactly if a file was found and the history could be listed; where none was found, it
ends well and prunes the history as if no file were left. -/
theorem calledOff_scan_refused_iff (job : ScanJob) (access : HistoryAccess σ) (jobs : Nat)
    (before : σ) (e : Explainer) :
    (WellFounded fun s' s => job.Step access jobs s s') ∧
      (∃ s x, job.Runs access jobs (.startCalledOff before e) s ∧ s.outcome? = some x) ∧
      ({ job with cancelAfter := some 0 }.run access ⟨before,e⟩).2.explainer = e ∧
      ∀ s x, job.Runs access jobs (.startCalledOff before e) s → s.outcome? = some x →
        s.board = { explainer := e,cancelled := true } ∧
        x = withHistory ({ job with cancelAfter := some 0 }.run access ⟨before,e⟩) ∧
        (x = (.error .cancelled,before) ↔
          ∃ files records, job.tree.walk job.selection job.root = .ok files ∧ files ≠ [] ∧
            access.list before = .ok records) ∧
        ∀ records, job.tree.walk job.selection job.root = .ok [] →
          access.list before = .ok records →
          x = (.ok ⟨[],(prune access before (job.stale (byPath records) [])).2.1,
              (prune access before (job.stale (byPath records) [])).2.2⟩,
            (prune access before (job.stale (byPath records) [])).1) := by
  obtain ⟨s,x,hruns,-,hx⟩ := job.exists_end access jobs (.startCalledOff before e)
  obtain ⟨hends,hexplainer⟩ := runWith_endsCalledOff job job.cached access before e
  refine ⟨job.wellFounded_step access jobs,⟨s,x,hruns,hx⟩,hexplainer,?_⟩
  intro s x hruns hx
  have hidle : job.Idle access before { explainer := e,cancelled := true }
      (.startCalledOff before e) := .walking
  have hs := hidle.runs rfl hruns
  refine ⟨hs.board_eq,(hs.ends hx).unique hends,(hs.ends hx).eq_cancelled_iff,?_⟩
  intro records hwalk hlist
  exact (hs.ends hx).eq_pruned hwalk hlist

theorem calledOff_scan_refused_sample :
    ∃ s, sampleScan.Runs Ledger.access 2 (.startCalledOff sampleLedger ⟨.empty 0,0⟩) s ∧
      s.outcome? = some (.error .cancelled,sampleLedger) := by
  obtain ⟨-,⟨s,x,hruns,hx⟩,-,hall⟩ :=
    calledOff_scan_refused_iff sampleScan Ledger.access 2 sampleLedger ⟨.empty 0,0⟩
  obtain ⟨-,-,hrefused,-⟩ := hall s x hruns hx
  have hx' := hrefused.mpr ⟨sampleFiles,_,walk_sampleScan,List.cons_ne_nil _ _,rfl⟩
  exact ⟨s,hruns,hx' ▸ hx⟩

def sampleUnselected : ScanJob :=
  { sampleScan with selection := ⟨fun _ => false,fun _ => false⟩ }

theorem walk_sampleUnselected :
    sampleUnselected.tree.walk sampleUnselected.selection sampleUnselected.root = .ok [] :=
  FileTree.walk_of_visit ["p"] (by decide +kernel) (by decide +kernel) (by decide +kernel)

/-- A scan that is called off before it begins and finds no file deletes the record of a file that stands
in the folder. -/
theorem calledOff_scan_prunes :
    ∃ after, withHistory ({ sampleUnselected with cancelAfter := some 0 }.run Ledger.access
        ⟨sampleLedger,⟨.empty 0,0⟩⟩) = (.ok ⟨[],["/p/gone.py","/p/kept.py"],[]⟩,after) ∧
      HistoryKind.memory.held? after "/p/kept.py" = none ∧
      HistoryKind.memory.held? sampleLedger "/p/kept.py" ≠ none := by
  refine ⟨⟨[("/elsewhere.py",{ path := "/elsewhere.py" })]⟩,?_,by decide +kernel,by decide +kernel⟩
  unfold run runWith
  rw [walk_sampleUnselected]
  rfl

end ScanJob
end CircuitNotes
