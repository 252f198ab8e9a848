import CircuitNotes.Proofs.ScanWorkers

/-! A scan comes to the same in whatever order its workers take their steps. No order goes on for ever
or gets stuck; and since each slot is filled as the rule says, whoever found an explanation in the
cache or made it, the end is that of the files one after another. -/
namespace CircuitNotes

variable {σ : Type}

namespace Scanning

def start (before : σ) (e : Explainer) : Scanning σ := ⟨before,{ explainer := e },.walking⟩

def outcome? (s : Scanning σ) : Option (Except ScanError ScanReport × σ) :=
  match s.phase with
  | .failed e => some (.error e,s.history)
  | .finished report => some (.ok report,s.history)
  | _ => none

end Scanning

/-! ### Every scan ends -/

namespace Stage

def rank : Stage → Nat
  | launched => 9
  | started => 8
  | read _ => 7
  | changed _ => 6
  | missed _ => 5
  | made _ _ => 4
  | ready _ => 3
  | written _ => 2
  | counted _ _ => 1
  | told _ | calledOff => 0

end Stage

/-- The phases still to come, and the steps to be taken in this one. -/
def Phase.rank : Phase → Nat × Nat
  | walking => (5,0)
  | listing _ => (4,0)
  | working _ _ waiting workers =>
      (3,10*waiting.length + (workers.map fun w => w.stage.rank).sum)
  | storing _ _ _ => (2,0)
  | pruning _ paths _ _ => (1,paths.length)
  | failed _ | finished _ => (0,0)

def Scanning.rank (s : Scanning σ) : Nat × Nat × Nat :=
  (s.phase.rank.1,s.phase.rank.2,if s.board.cancelled then 0 else 1)

namespace ScanJob

theorem rank_act {stage : Stage} (h : stage.isOver = false) (job : ScanJob)
    (existing : Bucket Record) (total : Nat) (now : Instant) (f : FoundFile) (b : Board) :
    (job.act existing total now f b stage).1.rank < stage.rank := by
  cases stage with
  | launched =>
    simp only [act]
    split_ifs <;> simp [Stage.rank]
  | calledOff | told o => cases h
  | started | read source | changed source =>
    simp only [act]
    split <;> simp [Stage.rank]
  | missed source | made source x | ready o | written o | counted o n => simp [act,Stage.rank]

theorem Step.rank_lt {job : ScanJob} {access : HistoryAccess σ} {jobs : Nat} {s s' : Scanning σ}
    (h : job.Step access jobs s s') :
    Prod.Lex (· < ·) (Prod.Lex (· < ·) (· < ·)) s'.rank s.rank := by
  cases h with
  | found | unwalked | listed | unlisted | stopped | gathered | stored | unstored | finished =>
    exact .left _ _ (by simp [Phase.rank])
  | launch =>
    refine .right _ (.left _ _ ?_)
    simp only [Phase.rank,List.length_cons,List.map_append,List.map_singleton,List.sum_append,
      List.sum_singleton,Stage.rank]
    omega
  | work hstage now =>
    have hrank := rank_act hstage job
    refine .right _ (.left _ _ ?_)
    simp only [Phase.rank,List.map_append,List.map_cons,List.sum_append,List.sum_cons]
    gcongr
    exact hrank ..
  | deleted | undeleted =>
    refine .right _ (.left _ _ ?_)
    simp [Phase.rank]
  | cancel hb =>
    refine .right _ (.right _ ?_)
    simp [hb]

/-- No scan goes on for ever. -/
theorem wellFounded_step (job : ScanJob) (access : HistoryAccess σ) (jobs : Nat) :
    WellFounded fun s' s => job.Step access jobs s s' :=
  Subrelation.wf (fun h => h.rank_lt)
    (InvImage.wf Scanning.rank (WellFounded.prod_lex wellFounded_lt
      (WellFounded.prod_lex wellFounded_lt wellFounded_lt)))

theorem activeCount_lt {workers : List Worker} (h : ∀ w ∈ workers, w.stage.isOver = true)
    (jobs : Nat) (files : List FoundFile) : activeCount workers < workerLimit jobs files := by
  have hidle : activeCount workers = 0 :=
    List.countP_eq_zero.mpr fun w hw => by simp [h w hw]
  rw [hidle,workerLimit]
  omega

/-- A scan that is not over can go on, without being called off. -/
theorem exists_step (job : ScanJob) (access : HistoryAccess σ) (jobs : Nat) {s : Scanning σ}
    (hs : s.outcome? = none) :
    ∃ s', job.Step access jobs s s' ∧ s'.board.cancelled = s.board.cancelled := by
  obtain ⟨h,b,phase⟩ := s
  cases phase with
  | walking =>
    cases hwalk : job.tree.walk job.selection job.root with
    | ok files => exact ⟨_,.found hwalk,rfl⟩
    | error e => exact ⟨_,.unwalked hwalk,rfl⟩
  | listing files =>
    cases hlist : access.list h with
    | ok records => exact ⟨_,.listed hlist,rfl⟩
    | error e => exact ⟨_,.unlisted hlist,rfl⟩
  | working files existing waiting workers =>
    by_cases hactive : ∃ w ∈ workers, w.stage.isOver = false
    · obtain ⟨⟨f,stage⟩,hw,hstage⟩ := hactive
      obtain ⟨front,back,rfl⟩ := List.append_of_mem hw
      exact ⟨_,.work hstage job.now,act_cancelled ..⟩
    · have hover : ∀ w ∈ workers, w.stage.isOver = true := by simpa using hactive
      cases waiting with
      | cons f rest => exact ⟨_,.launch (activeCount_lt hover jobs files),rfl⟩
      | nil =>
        by_cases hoff : ∃ w ∈ workers, w.stage = .calledOff
        · exact ⟨_,.stopped hover hoff,rfl⟩
        · exact ⟨_,.gathered hover fun w hw hstage => hoff ⟨w,hw,hstage⟩,rfl⟩
  | storing files existing slots =>
    cases hstore : store access h (freshOf slots) with
    | ok h' => exact ⟨_,.stored hstore,rfl⟩
    | error e => exact ⟨_,.unstored hstore,rfl⟩
  | pruning slots paths gone left =>
    cases paths with
    | nil => exact ⟨_,.finished,rfl⟩
    | cons path rest =>
      cases hdelete : access.delete h path with
      | ok h' => exact ⟨_,.deleted hdelete,rfl⟩
      | error e => exact ⟨_,.undeleted hdelete,rfl⟩
  | failed e => cases hs
  | finished report => cases hs

theorem exists_end (job : ScanJob) (access : HistoryAccess σ) (jobs : Nat) (s : Scanning σ) :
    ∃ s' x, job.Runs access jobs s s' ∧ s'.board.cancelled = s.board.cancelled ∧
      s'.outcome? = some x := by
  induction s using (job.wellFounded_step access jobs).induction with
  | _ s ih =>
    cases hout : s.outcome? with
    | some x => exact ⟨s,x,.refl,rfl,hout⟩
    | none =>
      obtain ⟨next,hstep,hnext⟩ := job.exists_step access jobs hout
      obtain ⟨s',x,hruns,hs',hx⟩ := ih next hstep
      exact ⟨s',x,.head hstep hruns,hs'.trans hnext,hx⟩

def Bounded (jobs : Nat) (s : Scanning σ) : Prop :=
  ∀ files existing waiting workers, s.phase = .working files existing waiting workers →
    activeCount workers ≤ workerLimit jobs files

theorem Step.bounded {job : ScanJob} {access : HistoryAccess σ} {jobs : Nat} {s s' : Scanning σ}
    (h : job.Step access jobs s s') (hs : Bounded jobs s) : Bounded jobs s' := by
  cases h with
  | listed =>
    rintro _ _ _ _ ⟨⟩
    exact Nat.zero_le _
  | launch hlimit =>
    rintro _ _ _ _ ⟨⟩
    rw [activeCount,List.countP_append]
    exact hlimit
  | work hstage now =>
    have hactive := hs _ _ _ _ rfl
    rintro _ _ _ _ ⟨⟩
    rw [activeCount,List.countP_append,List.countP_cons] at hactive ⊢
    simp only [hstage,Bool.not_false,if_true] at hactive
    split_ifs <;> omega
  | cancel hb => exact hs
  | _ => rintro _ _ _ _ ⟨⟩

theorem bounded_of_runs {job : ScanJob} {access : HistoryAccess σ} {jobs : Nat} {before : σ}
    {e : Explainer} {s : Scanning σ} (h : job.Runs access jobs (.start before e) s) :
    Bounded jobs s := by
  induction h with
  | refl => rintro _ _ _ _ ⟨⟩
  | tail _ hstep ih => exact hstep.bounded ih

/-! ### One file after another -/

abbrev ActsAlone (job : ScanJob) (existing : Bucket Record) (total : Nat) (f : FoundFile) :
    Stage × Board → Stage × Board → Prop :=
  Relation.ReflTransGen fun p q =>
    p.1.isOver = false ∧ job.act existing total job.now f p.2 p.1 = q

section ActsAlone

variable (job : ScanJob) (existing : Bucket Record) (total : Nat) (f : FoundFile) (b : Board)

theorem actsAlone_ready (o : FileOutcome) :
    job.ActsAlone existing total f (.ready o,b)
      (.told o,{ b with
        processed := b.processed+1
        told := b.told ++ [⟨b.processed+1,total,f.rel⟩] }) :=
  .head ⟨rfl,rfl⟩ (.head ⟨rfl,rfl⟩ (.single ⟨rfl,rfl⟩))

/-- A worker that is left alone does what a scan does with one file. -/
theorem actsAlone_launched (hb : b.cancelled = false) :
    job.ActsAlone existing total f (.launched,b)
      (.told (job.scanFile job.cached existing b.explainer f).1.outcome,
        { b with
          explainer := (job.scanFile job.cached existing b.explainer f).2
          processed := b.processed+1
          told := b.told ++ [⟨b.processed+1,total,f.rel⟩] }) := by
  have hready {stage : Stage} {b' : Board} {o : FileOutcome}
      (h : job.ActsAlone existing total f (stage,b) (.ready o,b')) :=
    h.trans (job.actsAlone_ready existing total f b' o)
  refine .head ⟨rfl,show _ = (Stage.started,b) by simp [act,hb]⟩ ?_
  cases hread : job.read f.path with
  | error e =>
    rw [scanFile_of_unread hread]
    exact hready (.single ⟨rfl,by simp only [act,hread]⟩)
  | ok source =>
    refine .head ⟨rfl,show _ = (Stage.read source,b) by simp only [act,hread]⟩ ?_
    cases hkept : (Bucket.find? existing f.path).filter (job.keeps (contentHash source)) with
    | some r =>
      rw [scanFile_of_kept hread hkept]
      exact hready (.single ⟨rfl,by simp only [act,hkept]⟩)
    | none =>
      rw [scanFile_of_changed hread hkept]
      refine .head ⟨rfl,show _ = (Stage.changed source,b) by simp only [act,hkept]⟩ ?_
      cases hfound : (b.explainer.cache.get (contentHash source)).1 with
      | some x =>
        rw [cached,Explainer.explain_of_hit hfound]
        exact hready (.single ⟨rfl,act_of_hit hfound⟩)
      | none =>
        rw [cached,Explainer.explain_of_miss hfound]
        exact hready (.head ⟨rfl,act_of_miss hfound⟩ (.head ⟨rfl,rfl⟩ (.single ⟨rfl,rfl⟩)))

end ActsAlone

section InOrder

variable {job : ScanJob} {access : HistoryAccess σ} {jobs : Nat}

theorem ActsAlone.runs {existing : Bucket Record} {files waiting : List FoundFile} {f : FoundFile}
    {p q : Stage × Board} (h : job.ActsAlone existing files.length f p q) (history : σ)
    (front back : List Worker) :
    job.Runs access jobs ⟨history,p.2,.working files existing waiting (front ++ ⟨f,p.1⟩ :: back)⟩
      ⟨history,q.2,.working files existing waiting (front ++ ⟨f,q.1⟩ :: back)⟩ := by
  induction h with
  | refl => exact .refl
  | tail _ hstep ih =>
    obtain ⟨hstage,rfl⟩ := hstep
    exact ih.tail (.work hstage job.now)

theorem runs_next (history : σ) (existing : Bucket Record) (files rest : List FoundFile)
    (f : FoundFile) {b : Board} (hb : b.cancelled = false) {workers : List Worker}
    (htold : ∀ w ∈ workers, ∃ o, w.stage = .told o) :
    ∃ b' o, job.Runs access jobs ⟨history,b,.working files existing (f :: rest) workers⟩
        ⟨history,b',.working files existing rest (workers ++ [⟨f,.told o⟩])⟩ ∧
      b'.cancelled = false ∧
      job.scanFile job.cached existing b.explainer f = (⟨f,o⟩,b'.explainer) := by
  have hover : ∀ w ∈ workers, w.stage.isOver = true := by
    intro w hw
    obtain ⟨o,ho⟩ := htold w hw
    rw [ho]
    rfl
  have hfile := (job.scanFile_outcome job.cached existing b.explainer f).1
  exact ⟨_,_,.head (.launch (activeCount_lt hover jobs files))
      ((job.actsAlone_launched existing files.length f b hb).runs history workers []),hb,
    congrArg (fun file => ((⟨file,_⟩ : ScannedFile),_)) hfile⟩

theorem runs_waiting (history : σ) (existing : Bucket Record) (files waiting : List FoundFile)
    {b : Board} (hb : b.cancelled = false) {workers : List Worker}
    (htold : ∀ w ∈ workers, ∃ o, w.stage = .told o) :
    ∃ b' workers', job.Runs access jobs ⟨history,b,.working files existing waiting workers⟩
        ⟨history,b',.working files existing [] workers'⟩ ∧
      b'.cancelled = false ∧ (∀ w ∈ workers', ∃ o, w.stage = .told o) ∧
      workers'.filterMap Worker.slot? = workers.filterMap Worker.slot? ++
        (job.scanFiles job.cached existing b.explainer waiting).1 ∧
      b'.explainer = (job.scanFiles job.cached existing b.explainer waiting).2 := by
  induction waiting generalizing b workers with
  | nil => exact ⟨b,workers,.refl,hb,htold,(List.append_nil _).symm,rfl⟩
  | cons f rest ih =>
    obtain ⟨b₁,o,hnext,hb₁,hfile⟩ := runs_next history existing files rest f hb htold
    have htold₁ : ∀ w ∈ workers ++ [⟨f,.told o⟩], ∃ o, w.stage = .told o := by
      intro w hw
      rcases List.mem_append.mp hw with hw | hw
      · exact htold w hw
      · exact ⟨o,by rw [List.mem_singleton.mp hw]⟩
    obtain ⟨b',workers',hruns,hb',htold',hslots,hexplainer⟩ := ih hb₁ htold₁
    refine ⟨b',workers',hnext.trans hruns,hb',htold',?_,?_⟩
    · rw [hslots,scanFiles_cons,hfile,List.filterMap_append,List.append_assoc]
      rfl
    · rw [hexplainer,scanFiles_cons,hfile]

theorem runs_pruning (history : σ) (b : Board) (slots : List ScannedFile) (paths gone : List Text)
    (left : List (Text × HistoryError)) :
    job.Runs access jobs ⟨history,b,.pruning slots paths gone left⟩
      ⟨(prune access history paths).1,b,.finished ⟨slots,gone ++ (prune access history paths).2.1,
        left ++ (prune access history paths).2.2⟩⟩ := by
  induction paths generalizing history gone left with
  | nil =>
    rw [prune,List.append_nil,List.append_nil]
    exact .single .finished
  | cons path rest ih =>
    cases hdelete : access.delete history path with
    | ok h =>
      have hrest := ih h (gone ++ [path]) left
      rw [List.append_assoc] at hrest
      rw [prune_cons_ok hdelete]
      exact .head (.deleted hdelete) hrest
    | error e =>
      have hrest := ih history gone (left ++ [(path,e)])
      rw [List.append_assoc] at hrest
      rw [prune_cons_error hdelete]
      exact .head (.undeleted hdelete) hrest

theorem runs_working (history : σ) (existing : Bucket Record) (files : List FoundFile) {b : Board}
    (hb : b.cancelled = false) :
    ∃ b', job.Runs access jobs ⟨history,b,.working files existing files []⟩
        ⟨history,b',.storing files existing
          (job.scanFiles job.cached existing b.explainer files).1⟩ ∧
      b'.cancelled = false ∧
      b'.explainer = (job.scanFiles job.cached existing b.explainer files).2 := by
  obtain ⟨b',workers,hruns,hb',htold,hslots,hexplainer⟩ :=
    runs_waiting history existing files files hb (by simp : ∀ w ∈ ([] : List Worker), _)
  rw [List.filterMap_nil,List.nil_append] at hslots
  rw [← hslots]
  refine ⟨b',hruns.tail (.gathered ?_ ?_),hb',hexplainer⟩
  · intro w hw
    obtain ⟨o,ho⟩ := htold w hw
    rw [ho]
    rfl
  · intro w hw
    obtain ⟨o,ho⟩ := htold w hw
    simp [ho]

theorem runs_storing (before : σ) (b : Board) (existing : Bucket Record) (files : List FoundFile)
    (slots : List ScannedFile) :
    ∃ s, job.Runs access jobs ⟨before,b,.storing files existing slots⟩ s ∧ s.board = b ∧
      s.outcome? = some (ended before (job.settle access before existing files slots)) := by
  cases hstore : store access before (freshOf slots) with
  | error e =>
    rw [job.settle_of_unstored existing files hstore]
    exact ⟨_,.single (.unstored hstore),rfl,rfl⟩
  | ok h =>
    rw [job.settle_of_stored existing files hstore]
    exact ⟨_,.head (.stored hstore) (runs_pruning ..),rfl,rfl⟩

/-- The files one after another are one of the orders. -/
theorem runs_in_order (hlive : job.cancelAfter = none) (before : σ) (e : Explainer) :
    ∃ s, job.Runs access jobs (.start before e) s ∧ s.board.cancelled = false ∧
      s.outcome? = some (withHistory (job.run access ⟨before,e⟩)) ∧
      s.board.explainer = (job.run access ⟨before,e⟩).2.explainer := by
  have hrun : job.run access ⟨before,e⟩ = job.runWith job.cached access ⟨before,e⟩ := rfl
  rw [hrun]
  unfold runWith
  cases hwalk : job.tree.walk job.selection job.root with
  | error fault => exact ⟨_,.single (.unwalked hwalk),rfl,rfl,rfl⟩
  | ok files =>
    have hfound : job.Runs access jobs (.start before e)
        ⟨before,{ explainer := e },.listing files⟩ := .single (.found hwalk)
    cases hlist : access.list before with
    | error fault => exact ⟨_,hfound.tail (.unlisted hlist),rfl,rfl,rfl⟩
    | ok records =>
      have hreached : job.reached files = files := by simp [reached,hlive]
      obtain ⟨b,hworking,hb,hexplainer⟩ :=
        runs_working before (byPath records) files (rfl : ({ explainer := e } : Board).cancelled = false)
      obtain ⟨s,hstoring,hs,hout⟩ := runs_storing before b (byPath records) files
        (job.scanFiles job.cached (byPath records) e files).1
      refine ⟨s,((hfound.tail (.listed hlist)).trans hworking).trans hstoring,hs ▸ hb,?_⟩
      simp only [hreached,lt_irrefl,if_false]
      rw [hout,hs,hexplainer]
      cases job.settle access before (byPath records) files
          (job.scanFiles job.cached (byPath records) e files).1 with
      | error fault => exact ⟨rfl,rfl⟩
      | ok settled => exact ⟨rfl,rfl⟩

end InOrder

/-! ### What the board shows in the end -/

theorem Sound.ends {job : ScanJob} {access : HistoryAccess σ} {contents : Set Text} {before : σ}
    {start : Board} {s : Scanning σ} (hs : job.Sound access contents before start s)
    (hlive : s.board.cancelled = false) {x : Except ScanError ScanReport × σ}
    (hx : s.outcome? = some x) :
    job.Ends access before (fun _ => False) (job.Gathered start s.board) x := by
  cases hs with
  | stopped hb => simp [hb] at hlive
  | failed hend => rwa [← Option.some.inj hx]
  | finished hend => rwa [← Option.some.inj hx]
  | _ => cases hx

/-- Every file was told of once, with the number of all files and a number of its own. -/
structure ToldOnce (files : List FoundFile) (told : List Progress) : Prop where
  once : (told.map Progress.file).Perm (files.map FoundFile.rel)
  numbered : (told.map Progress.processed).Perm (List.range' 1 files.length)
  total : ∀ p ∈ told, p.total = files.length

theorem sum_ite_eq_countP {α : Type} (l : List α) (p : α → Bool) :
    (l.map fun a => if p a then (1 : Int) else 0).sum = l.countP p := by
  induction l with
  | nil => rfl
  | cons a l ih =>
    rw [List.map_cons,List.sum_cons,ih,List.countP_cons,Nat.cast_add,add_comm]
    split_ifs <;> rfl

theorem Tally.shares_told {job : ScanJob} {existing : Bucket Record} {total : Nat}
    (t : Tally job existing total) (slots : List ScannedFile) :
    t.shares (slots.map fun s => ⟨s.file,.told s.outcome⟩) =
      (slots.map fun s => t.share s.file (.told s.outcome)).sum := by
  rw [Tally.shares,List.map_map]
  rfl

theorem perm_range'_of_count {l : List Nat} {n : Nat}
    (h : ∀ m, l.count m = if 1 ≤ m ∧ m ≤ n then 1 else 0) : l.Perm (List.range' 1 n) := by
  have hnodup : l.Nodup := by
    rw [List.nodup_iff_count_le_one]
    intro m
    rw [h]
    split_ifs <;> omega
  rw [List.perm_ext_iff_of_nodup hnodup List.nodup_range']
  intro m
  rw [← List.count_pos_iff,h,List.mem_range'_1]
  split_ifs <;> omega

section Gathered

variable {job : ScanJob} {e : Explainer} {b : Board} {existing : Bucket Record}
  {files : List FoundFile} {slots : List ScannedFile}

theorem DatedSlots.map_file (h : job.DatedSlots existing files slots) :
    slots.map ScannedFile.file = files := by
  have hfile : ScannedFile.file ∘ (fun f => (job.plain existing f).undated) = id := by
    funext f
    obtain ⟨o,ho,-⟩ := job.exists_plain existing f
    rw [Function.comp_apply,ho]
    rfl
  calc slots.map ScannedFile.file
      = (slots.map ScannedFile.undated).map ScannedFile.file := by
        rw [List.map_map]
        rfl
    _ = files := by rw [h,List.map_map,hfile,List.map_id]

theorem Gathered.toldOnce (h : job.Gathered { explainer := e } b existing files slots) :
    ToldOnce files b.told := by
  have hfiles : (b.told.map Progress.file).Perm (files.map FoundFile.rel) := by
    rw [List.perm_iff_count]
    intro file
    have hbalance := h.balance (toldTally job existing files.length file)
    rw [Tally.shares_told] at hbalance
    have hsum := sum_ite_eq_countP slots fun s => s.file.rel == file
    simp only [toldTally,Stage.isTold,true_and,beq_iff_eq,List.map_nil,List.count_nil,Nat.cast_zero,
      zero_add] at hbalance hsum
    have hcount : (slots.map (FoundFile.rel ∘ ScannedFile.file)).count file =
        slots.countP fun s => s.file.rel == file := by
      rw [List.count_eq_countP,List.countP_map]
      rfl
    rw [hsum] at hbalance
    rw [← h.dated.map_file,List.map_map,hcount]
    exact_mod_cast hbalance
  have hcount (n : Nat) : (b.told.map Progress.processed).count n =
      if 1 ≤ n ∧ n ≤ b.processed then 1 else 0 := by
    have hbalance := h.balance (countedTally job existing files.length n)
    rw [Tally.shares_told] at hbalance
    simp [countedTally,Stage.number?] at hbalance
    split_ifs at hbalance ⊢ <;> omega
  have hlength : b.processed = files.length := by
    have h₁ := (perm_range'_of_count hcount).length_eq
    have h₂ := hfiles.length_eq
    simp only [List.length_map,List.length_range'] at h₁ h₂
    omega
  have htotal := h.balance (totalTally job existing files.length)
  rw [Tally.shares_told] at htotal
  exact ⟨hfiles,hlength ▸ perm_range'_of_count hcount,by simpa [totalTally] using htotal⟩

def mustExplain (job : ScanJob) (existing : Bucket Record) (f : FoundFile) : Bool :=
  (job.read f.path).isOk && !(job.plain existing f).isSkipped

theorem Gathered.answered (h : job.Gathered { explainer := e } b existing files slots) :
    b.explainer.answered = e.answered + files.countP (job.mustExplain existing) := by
  have hbalance := h.balance (answeredTally job existing files.length)
  rw [Tally.shares_told] at hbalance
  have hslot (o : FileOutcome) : answers o = answers o.undated := by cases o <;> rfl
  have hplain (f : FoundFile) : answers (job.plain existing f).undated.outcome =
      if job.mustExplain existing f then 1 else 0 := by
    obtain ⟨o,ho,houtcome⟩ := job.exists_plain existing f
    rw [mustExplain,ho]
    cases houtcome with
    | unread hread =>
      simp [hread,answers,ScannedFile.undated,FileOutcome.undated,Except.isOk,Except.toBool]
    | skipped hread _ _ =>
      simp [answers,ScannedFile.undated,FileOutcome.undated,ScannedFile.isSkipped]
    | explained hread _ _ =>
      simp [hread,answers,ScannedFile.undated,FileOutcome.undated,ScannedFile.isSkipped,Except.isOk,
        Except.toBool]
  have hsum : (slots.map fun s => answers s.outcome).sum = files.countP (job.mustExplain existing) := by
    calc (slots.map fun s => answers s.outcome).sum
        = ((slots.map ScannedFile.undated).map fun s => answers s.outcome).sum := by
          rw [List.map_map]
          exact congrArg List.sum (List.map_congr_left fun s _ => hslot s.outcome)
      _ = (files.map fun f => if job.mustExplain existing f then (1 : Int) else 0).sum := by
          rw [h.dated,List.map_map]
          exact congrArg List.sum (List.map_congr_left fun f _ => hplain f)
      _ = files.countP (job.mustExplain existing) := sum_ite_eq_countP _ _
  have hvalue : (b.explainer.answered : Int) = e.answered + (slots.map fun s => answers s.outcome).sum :=
    hbalance
  omega

end Gathered

end ScanJob

/-! ### The same but for dates -/

/-- Reports that differ in nothing but the dates of the records made and the order of those to be
deleted. -/
structure ScanReport.SameButDates (report report' : ScanReport) : Prop
    extends report.SameGist report' where
  undated : report.files.map ScannedFile.undated = report'.files.map ScannedFile.undated
  explainedCount : report.explainedCount = report'.explainedCount
  skippedCount : report.skippedCount = report'.skippedCount

/-- Entries of a history that are the same, or of records that differ in their dates only. -/
def HistoryKind.SameButDate (k : HistoryKind) (e e' : Option k.Entry) : Prop :=
  e = e' ∨ ∃ r r', e = some (k.form r) ∧ e' = some (k.form r') ∧ r.undated = r'.undated

theorem gist_undated (s : ScannedFile) : s.undated.gist = s.gist := by
  obtain ⟨f,o⟩ := s
  cases o <;> rfl

theorem isSkipped_undated (s : ScannedFile) : s.undated.isSkipped = s.isSkipped := by
  obtain ⟨f,o⟩ := s
  cases o <;> rfl

theorem explained?_undated (s : ScannedFile) :
    s.undated.explained? = s.explained?.map Record.undated := by
  obtain ⟨f,o⟩ := s
  cases o <;> rfl

namespace ScanJob

theorem freshOf_undated (slots : List ScannedFile) :
    freshOf (slots.map ScannedFile.undated) = (freshOf slots).map Record.undated := by
  rw [freshOf,freshOf,List.filterMap_map,List.map_filterMap]
  exact List.filterMap_congr fun s _ => explained?_undated s

section Undated

variable {slots slots' : List ScannedFile}
  (h : slots.map ScannedFile.undated = slots'.map ScannedFile.undated)
include h

theorem map_freshOf_of_undated :
    (freshOf slots).map Record.undated = (freshOf slots').map Record.undated := by
  rw [← freshOf_undated,← freshOf_undated,h]

theorem skippedCount_of_undated :
    (slots.filter ScannedFile.isSkipped).length = (slots'.filter ScannedFile.isSkipped).length := by
  have hskipped (l : List ScannedFile) :
      (l.map ScannedFile.undated).countP ScannedFile.isSkipped = l.countP ScannedFile.isSkipped := by
    rw [List.countP_map]
    exact List.countP_congr fun s _ => by rw [Function.comp_apply,isSkipped_undated]
  rw [← List.countP_eq_length_filter,← List.countP_eq_length_filter,← hskipped,h,hskipped]

theorem map_gist_of_undated : slots.map ScannedFile.gist = slots'.map ScannedFile.gist := by
  have hgist (l : List ScannedFile) :
      (l.map ScannedFile.undated).map ScannedFile.gist = l.map ScannedFile.gist := by
    rw [List.map_map]
    exact List.map_congr_left fun s _ => gist_undated s
  rw [← hgist,h,hgist]

theorem batchFault?_of_undated (k : HistoryKind) :
    k.batchFault? (freshOf slots) = k.batchFault? (freshOf slots') := by
  have hundated (rs : List Record) : k.batchFault? (rs.map Record.undated) = k.batchFault? rs := by
    rw [HistoryKind.batchFault?,List.findSome?_map]
    rfl
  rw [← hundated,map_freshOf_of_undated h,hundated]

theorem freshOf_eq_nil_iff_of_undated : freshOf slots = [] ↔ freshOf slots' = [] := by
  rw [← List.map_eq_nil_iff (f:=Record.undated),map_freshOf_of_undated h,List.map_eq_nil_iff]

theorem lastAt?_of_undated (path : Text) :
    (lastAt? (freshOf slots) path).map Record.undated =
      (lastAt? (freshOf slots') path).map Record.undated := by
  have hundated (rs : List Record) :
      lastAt? (rs.map Record.undated) path = (lastAt? rs path).map Record.undated := by
    rw [lastAt?,← List.map_reverse,List.find?_map]
    rfl
  rw [← hundated,← hundated,map_freshOf_of_undated h]

end Undated

theorem sameButDates_of_undated {report report' : ScanReport}
    (h : report.files.map ScannedFile.undated = report'.files.map ScannedFile.undated)
    (hdeleted : report.deleted.Perm report'.deleted)
    (hundeleted : report.undeleted.Perm report'.undeleted) : report.SameButDates report' := by
  have hlength := congrArg List.length (map_freshOf_of_undated h)
  rw [List.length_map,List.length_map] at hlength
  exact ⟨ScanReport.sameGist_of_files (map_gist_of_undated h) hdeleted hundeleted,h,hlength,
    skippedCount_of_undated h⟩

/-- Two scans that fail alike, or end well with reports and histories that differ in nothing but the
dates of the records made and the order of those to be deleted. -/
inductive SameButDates (k : HistoryKind) (before : k.State) :
    Except ScanError ScanReport × k.State → Except ScanError ScanReport × k.State → Prop
  | failed {e : ScanError} : SameButDates k before (.error e,before) (.error e,before)
  | ended {report report' : ScanReport} {after after' : k.State}
      (hreport : report.SameButDates report')
      (hhistory : ∀ path, k.SameButDate (k.held? after path) (k.held? after' path)) :
      SameButDates k before (.ok report,after) (.ok report',after')

theorem EndAlike.sameButDates {k : HistoryKind} {job : ScanJob} {order : Arrangement}
    {access : HistoryAccess k.State} {before : k.State}
    {fill fill' : Bucket Record → List FoundFile → List ScannedFile → Prop}
    {x x' : Except ScanError ScanReport × k.State}
    (h : job.EndAlike order access before fill fill' x x') (hw : access.Within k.access)
    (hfill : ∀ {existing files slots slots'}, fill existing files slots →
      fill' existing files slots' →
      slots.map ScannedFile.undated = slots'.map ScannedFile.undated) :
    SameButDates k before x x' := by
  cases h with
  | failed => exact .failed
  | settled hwalk hlist hslots hslots' hsettle hsettle' hdeleted hundeleted =>
    have hundated := hfill hslots hslots'
    refine .ended (sameButDates_of_undated ?_ hdeleted hundeleted) ?_
    · rwa [files_of_settle hsettle,files_of_settle hsettle']
    intro path
    have hlast := lastAt?_of_undated hundated path
    rw [held?_settle hw hsettle path,held?_settle hw hsettle' path,← freshOf,← freshOf]
    simp only [(job.perm_stale order _ _).mem_iff,(hundeleted.map Prod.fst).mem_iff]
    split_ifs
    · exact Or.inl rfl
    · cases hr : lastAt? (freshOf _) path with
      | none =>
        rw [hr,Option.map_none,eq_comm,Option.map_eq_none_iff] at hlast
        rw [hlast]
        exact Or.inl rfl
      | some r =>
        rw [hr,Option.map_some,eq_comm,Option.map_eq_some_iff] at hlast
        obtain ⟨r',hr',hdates⟩ := hlast
        rw [hr']
        exact Or.inr ⟨r,r',rfl,rfl,hdates.symm⟩

theorem run_ends {job : ScanJob} (hlive : job.cancelAfter = none) {contents : Set Text}
    (hinj : Set.InjOn contentHash contents)
    (hreads : ∀ files, job.tree.walk job.selection job.root = .ok files → job.Reads files contents)
    (access : HistoryAccess σ) (before : σ) {e : Explainer}
    (he : e.cache.Recalls job.rule contents) :
    job.Ends access before (fun _ => False) job.PlainSlots
      (withHistory (job.run access ⟨before,e⟩)) := by
  have hoff : (fun files : List FoundFile => (job.reached files).length < files.length) =
      fun _ => False := by
    funext files
    simp [reached,hlive]
  have hends := runWith_ends (job.byRule_cached hinj) hreads access before he
  rwa [hoff] at hends

/-- The workers of a scan may take their steps in any order, as long as it is not called off, and the
records to be deleted may come up in any order. No order goes on for ever or gets stuck; one of them takes
the files one after another, and all come to the same as this one but for the dates of the records made
and the order in which deletions are reported. Every file is told of once, and every readable file that
was not skipped takes one explanation, which is made or found. -/
theorem schedule_invisible (k : HistoryKind) (job : ScanJob) (hlive : job.cancelAfter = none)
    {access : HistoryAccess k.State} (hm : k.MayRefuse access) {contents : Set Text}
    (hinj : Set.InjOn contentHash contents)
    (hreads : ∀ files, job.tree.walk job.selection job.root = .ok files → job.Reads files contents)
    (before : k.State) {e : Explainer} (he : e.cache.Recalls job.rule contents) (jobs : Nat) :
    (WellFounded fun s' s => job.Step access jobs s s') ∧
      (∀ s, ∃ s' x, job.Runs access jobs s s' ∧ s'.board.cancelled = s.board.cancelled ∧
        s'.outcome? = some x) ∧
      (∃ s, job.Runs access jobs (.start before e) s ∧ s.board.cancelled = false ∧
        s.outcome? = some (withHistory (job.run access ⟨before,e⟩)) ∧
        s.board.explainer = (job.run access ⟨before,e⟩).2.explainer) ∧
      ∀ order s, { job with order }.Runs access jobs (.start before e) s → Bounded jobs s ∧
        ∀ x, s.board.cancelled = false → s.outcome? = some x →
          SameButDates k before x (withHistory (job.run access ⟨before,e⟩)) ∧
          ∀ files records, job.tree.walk job.selection job.root = .ok files →
            access.list before = .ok records →
            ToldOnce files s.board.told ∧
              s.board.explainer.calls + s.board.explainer.cache.hits =
                e.calls + e.cache.hits + files.countP (job.mustExplain (byPath records)) := by
  refine ⟨job.wellFounded_step access jobs,job.exists_end access jobs,
    runs_in_order hlive before e,?_⟩
  intro order s hruns
  refine ⟨bounded_of_runs hruns,?_⟩
  intro x hs hx
  have hstart : { job with order }.Sound access contents before { explainer := e }
      (.start before e) := .walking (c:=false)
  have hreads' : ∀ files, { job with order }.tree.walk job.selection job.root = .ok files →
      { job with order }.Reads files contents := hreads
  have hends := (hstart.runs hinj hreads' he hruns).ends hs hx
  refine ⟨?_,?_⟩
  · have hfill {existing : Bucket Record} {files : List FoundFile} {slots slots' : List ScannedFile}
        (hslots : { job with order }.Gathered { explainer := e } s.board existing files slots)
        (hslots' : job.PlainSlots existing files slots') :
        slots.map ScannedFile.undated = slots'.map ScannedFile.undated := by
      rw [hslots.dated,hslots',List.map_map]
      rfl
    have hrun : { { job with order } with order := job.order }.Ends access before _ job.PlainSlots _ :=
      run_ends hlive hinj hreads access before he
    have halike := hends.alike hm (fun _ _ hslots hslots' => ?_) hrun
    · exact halike.sameButDates hm.within hfill
    · exact ⟨batchFault?_of_undated (hfill hslots hslots') k,
        Or.inr (freshOf_eq_nil_iff_of_undated (hfill hslots hslots'))⟩
  · intro files records hwalk hlist
    cases hends with
    | unwalked hwalk' => simp [hwalk] at hwalk'
    | unlisted _ hlist' => simp [hlist] at hlist'
    | cancelled _ _ hoff => exact hoff.elim
    | gathered hwalk' hlist' _ hslots =>
      cases hwalk.symm.trans hwalk'
      cases hlist.symm.trans hlist'
      exact ⟨hslots.toldOnce,hslots.answered⟩

theorem schedule_invisible_sample :
    (∃ s, sampleScan.Runs (Ledger.access.refusing ["delete"]) 2
        (.start sampleLedger ⟨.empty 0,0⟩) s ∧ s.board.cancelled = false ∧ s.outcome?.isSome) ∧
      ∀ order s x, { sampleScan with order }.Runs (Ledger.access.refusing ["delete"]) 2
        (.start sampleLedger ⟨.empty 0,0⟩) s → s.board.cancelled = false → s.outcome? = some x →
        SameButDates .memory sampleLedger x (withHistory
          (sampleScan.run (Ledger.access.refusing ["delete"]) ⟨sampleLedger,⟨.empty 0,0⟩⟩)) ∧
        ToldOnce sampleFiles s.board.told ∧
        s.board.explainer.calls + s.board.explainer.cache.hits = 1 := by
  obtain ⟨-,-,⟨s,hruns,hs,hx,-⟩,hall⟩ := schedule_invisible .memory sampleScan rfl
    (HistoryKind.memory.mayRefuse_refusing ["delete"]) injOn_sampleContents reads_sampleScan
    sampleLedger (e:=⟨.empty 0,0⟩) (Recency.recalls_empty _ _ 0) 2
  refine ⟨⟨s,hruns,hs,by rw [hx]; rfl⟩,?_⟩
  intro order s x hruns hs hx
  obtain ⟨hsame,hboard⟩ := (hall order s hruns).2 x hs hx
  obtain ⟨htold,hanswered⟩ := hboard sampleFiles _ walk_sampleScan rfl
  refine ⟨hsame,htold,?_⟩
  rw [hanswered]
  decide +kernel

end ScanJob
end CircuitNotes
