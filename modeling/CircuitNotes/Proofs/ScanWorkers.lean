import CircuitNotes.Proofs.ScanEnds

/-! A scan whose files are taken by several workers at once. Each of them goes on in small steps, which
may fall between those of the others; what they share is the cache, two counters and the word that the
scan is called off. The invariant says how far each worker can be and what all of them together have
left on the board. -/
namespace CircuitNotes

variable {σ : Type}

structure Progress where
  processed : Nat
  total : Nat
  file : String
  deriving DecidableEq, Repr

/-- What the workers of a scan share. -/
structure Board where
  explainer : Explainer
  /-- How many files have been handled. -/
  processed : Nat := 0
  told : List Progress := []
  cancelled : Bool := false

inductive Stage
  | launched
  /-- It found the scan called off and does nothing. -/
  | calledOff
  | started
  | read (source : Text)
  /-- There is no record of this content. -/
  | changed (source : Text)
  /-- Its explanation is not in the cache. -/
  | missed (source : Text)
  | made (source : Text) (x : Explanation)
  | ready (o : FileOutcome)
  /-- The slot of the file is filled. -/
  | written (o : FileOutcome)
  | counted (o : FileOutcome) (n : Nat)
  | told (o : FileOutcome)

namespace Stage

def isOver : Stage → Bool
  | calledOff | told _ => true
  | _ => false

def slot? : Stage → Option FileOutcome
  | written o | counted o _ | told o => some o
  | _ => none

/-- The number that the file was given and that is not told yet. -/
def number? : Stage → Option Nat
  | counted _ n => some n
  | _ => none

def isTold : Stage → Bool
  | told _ => true
  | _ => false

end Stage

structure Worker where
  file : FoundFile
  stage : Stage

def Worker.slot? (w : Worker) : Option ScannedFile := w.stage.slot?.map (⟨w.file,·⟩)

inductive Phase
  | walking
  | listing (files : List FoundFile)
  | working (files : List FoundFile) (existing : Bucket Record) (waiting : List FoundFile)
      (workers : List Worker)
  | storing (files : List FoundFile) (existing : Bucket Record) (slots : List ScannedFile)
  | pruning (slots : List ScannedFile) (paths deleted : List Text)
      (undeleted : List (Text × HistoryError))
  | failed (e : ScanError)
  | finished (report : ScanReport)

structure Scanning (σ : Type) where
  history : σ
  board : Board
  phase : Phase

namespace ScanJob

/-- The next step of a worker, which may look at the board and change it, at the time `now`. -/
def act (job : ScanJob) (existing : Bucket Record) (total : Nat) (now : Instant) (f : FoundFile)
    (b : Board) : Stage → Stage × Board
  | .launched => (if b.cancelled then .calledOff else .started,b)
  | .calledOff => (.calledOff,b)
  | .started =>
    match job.read f.path with
    | .error e => (.ready (.unread e),b)
    | .ok source => (.read source,b)
  | .read source =>
    match (Bucket.find? existing f.path).filter (job.keeps (contentHash source)) with
    | some r => (.ready (.skipped r),b)
    | none => (.changed source,b)
  | .changed source =>
    match b.explainer.cache.get (contentHash source) with
    | (some x,cache) =>
      (.ready (.explained ({ job with now }.recordOf f (contentHash source) x)),
        { b with explainer := { b.explainer with cache } })
    | (none,cache) => (.missed source,{ b with explainer := { b.explainer with cache } })
  | .missed source =>
    (.made source (job.rule source),
      { b with explainer := { b.explainer with calls := b.explainer.calls+1 } })
  | .made source x =>
    (.ready (.explained ({ job with now }.recordOf f (contentHash source) x)),
      { b with explainer :=
        { b.explainer with cache := b.explainer.cache.put (contentHash source) x } })
  | .ready o => (.written o,b)
  | .written o => (.counted o (b.processed+1),{ b with processed := b.processed+1 })
  | .counted o n => (.told o,{ b with told := b.told ++ [⟨n,total,f.rel⟩] })
  | .told o => (.told o,b)

def workerLimit (jobs : Nat) (files : List FoundFile) : Nat := max 1 (min jobs files.length)

def activeCount (workers : List Worker) : Nat := workers.countP fun w => !w.stage.isOver

/-- One step of a scan with at most `jobs` workers at a time. -/
inductive Step (job : ScanJob) (access : HistoryAccess σ) (jobs : Nat) :
    Scanning σ → Scanning σ → Prop
  | found {h : σ} {b : Board} {files : List FoundFile}
      (hwalk : job.tree.walk job.selection job.root = .ok files) :
      Step job access jobs ⟨h,b,.walking⟩ ⟨h,b,.listing files⟩
  | unwalked {h : σ} {b : Board} {e : FileError}
      (hwalk : job.tree.walk job.selection job.root = .error e) :
      Step job access jobs ⟨h,b,.walking⟩ ⟨h,b,.failed (.unwalked e)⟩
  | listed {h : σ} {b : Board} {files : List FoundFile} {records : List Record}
      (hlist : access.list h = .ok records) :
      Step job access jobs ⟨h,b,.listing files⟩ ⟨h,b,.working files (byPath records) files []⟩
  | unlisted {h : σ} {b : Board} {files : List FoundFile} {e : HistoryError}
      (hlist : access.list h = .error e) :
      Step job access jobs ⟨h,b,.listing files⟩ ⟨h,b,.failed (.unlisted e)⟩
  | launch {h : σ} {b : Board} {files waiting : List FoundFile} {existing : Bucket Record}
      {workers : List Worker} {f : FoundFile}
      (hlimit : activeCount workers < workerLimit jobs files) :
      Step job access jobs ⟨h,b,.working files existing (f :: waiting) workers⟩
        ⟨h,b,.working files existing waiting (workers ++ [⟨f,.launched⟩])⟩
  | work {h : σ} {b : Board} {files waiting : List FoundFile} {existing : Bucket Record}
      {front back : List Worker} {f : FoundFile} {stage : Stage} (hstage : stage.isOver = false)
      (now : Instant) :
      Step job access jobs ⟨h,b,.working files existing waiting (front ++ ⟨f,stage⟩ :: back)⟩
        ⟨h,(job.act existing files.length now f b stage).2,.working files existing waiting
          (front ++ ⟨f,(job.act existing files.length now f b stage).1⟩ :: back)⟩
  | stopped {h : σ} {b : Board} {files : List FoundFile} {existing : Bucket Record}
      {workers : List Worker} (hover : ∀ w ∈ workers, w.stage.isOver = true)
      (hoff : ∃ w ∈ workers, w.stage = .calledOff) :
      Step job access jobs ⟨h,b,.working files existing [] workers⟩ ⟨h,b,.failed .cancelled⟩
  | gathered {h : σ} {b : Board} {files : List FoundFile} {existing : Bucket Record}
      {workers : List Worker} (hover : ∀ w ∈ workers, w.stage.isOver = true)
      (hon : ∀ w ∈ workers, w.stage ≠ .calledOff) :
      Step job access jobs ⟨h,b,.working files existing [] workers⟩
        ⟨h,b,.storing files existing (workers.filterMap Worker.slot?)⟩
  | stored {h h' : σ} {b : Board} {files : List FoundFile} {existing : Bucket Record}
      {slots : List ScannedFile} (hstore : store access h (freshOf slots) = .ok h') :
      Step job access jobs ⟨h,b,.storing files existing slots⟩
        ⟨h',b,.pruning slots (job.stale existing files) [] []⟩
  | unstored {h : σ} {b : Board} {files : List FoundFile} {existing : Bucket Record}
      {slots : List ScannedFile} {e : HistoryError}
      (hstore : store access h (freshOf slots) = .error e) :
      Step job access jobs ⟨h,b,.storing files existing slots⟩ ⟨h,b,.failed (.unstored e)⟩
  | deleted {h h' : σ} {b : Board} {slots : List ScannedFile} {path : Text} {rest gone : List Text}
      {left : List (Text × HistoryError)} (hdelete : access.delete h path = .ok h') :
      Step job access jobs ⟨h,b,.pruning slots (path :: rest) gone left⟩
        ⟨h',b,.pruning slots rest (gone ++ [path]) left⟩
  | undeleted {h : σ} {b : Board} {slots : List ScannedFile} {path : Text} {rest gone : List Text}
      {left : List (Text × HistoryError)} {e : HistoryError}
      (hdelete : access.delete h path = .error e) :
      Step job access jobs ⟨h,b,.pruning slots (path :: rest) gone left⟩
        ⟨h,b,.pruning slots rest gone (left ++ [(path,e)])⟩
  | finished {h : σ} {b : Board} {slots : List ScannedFile} {gone : List Text}
      {left : List (Text × HistoryError)} :
      Step job access jobs ⟨h,b,.pruning slots [] gone left⟩ ⟨h,b,.finished ⟨slots,gone,left⟩⟩
  /-- The scan may be called off at any time. -/
  | cancel {h : σ} {b : Board} {phase : Phase} (hb : b.cancelled = false) :
      Step job access jobs ⟨h,b,phase⟩ ⟨h,{ b with cancelled := true },phase⟩

abbrev Runs (job : ScanJob) (access : HistoryAccess σ) (jobs : Nat) :
    Scanning σ → Scanning σ → Prop := Relation.ReflTransGen (job.Step access jobs)

end ScanJob

/-! ### Dates -/

def Record.undated (r : Record) : Record := { r with explainedAt := .unset }

/-- The outcome but for the date of a record that was made. -/
def FileOutcome.undated : FileOutcome → FileOutcome
  | explained r => explained r.undated
  | o => o

def ScannedFile.undated (s : ScannedFile) : ScannedFile := ⟨s.file,s.outcome.undated⟩

namespace ScanJob

theorem undated_recordOf (job : ScanJob) (now : Instant) (f : FoundFile) (hash : Text)
    (x : Explanation) :
    ({ job with now }.recordOf f hash x).undated = (job.recordOf f hash x).undated := rfl

/-- Slots that are filled by the rule itself, but for the dates. -/
def DatedSlots (job : ScanJob) (existing : Bucket Record) (files : List FoundFile)
    (slots : List ScannedFile) : Prop :=
  slots.map ScannedFile.undated = files.map fun f => (job.plain existing f).undated

/-! ### One worker -/

/-- Whether a worker is on the way to what its file comes to. -/
def Right (job : ScanJob) (existing : Bucket Record) (f : FoundFile) : Stage → Prop
  | .launched | .calledOff | .started => True
  | .read source => job.read f.path = .ok source
  | .changed source | .missed source => job.read f.path = .ok source ∧
      (Bucket.find? existing f.path).filter (job.keeps (contentHash source)) = none
  | .made source x => job.read f.path = .ok source ∧
      (Bucket.find? existing f.path).filter (job.keeps (contentHash source)) = none ∧
      x = job.rule source
  | .ready o | .written o | .counted o _ | .told o =>
      o.undated = (job.plain existing f).outcome.undated

theorem undated_plain {job : ScanJob} {existing : Bucket Record} {f : FoundFile} {o : FileOutcome}
    (h : job.plain existing f = ⟨f,o⟩) : o.undated = (job.plain existing f).outcome.undated := by
  rw [h]

theorem undated_explained {job : ScanJob} {existing : Bucket Record} {f : FoundFile} {source : Text}
    (hread : job.read f.path = .ok source)
    (hnone : (Bucket.find? existing f.path).filter (job.keeps (contentHash source)) = none)
    (now : Instant) :
    (FileOutcome.explained ({ job with now }.recordOf f (contentHash source)
      (job.rule source))).undated = (job.plain existing f).outcome.undated := by
  rw [← undated_plain (plain_of_changed hread hnone),FileOutcome.undated,undated_recordOf]
  rfl

theorem act_of_hit {job : ScanJob} {existing : Bucket Record} {total : Nat} {now : Instant}
    {f : FoundFile} {b : Board} {source : Text} {x : Explanation}
    (h : (b.explainer.cache.get (contentHash source)).1 = some x) :
    job.act existing total now f b (.changed source) =
      (.ready (.explained ({ job with now }.recordOf f (contentHash source) x)),
        { b with explainer :=
          { b.explainer with cache := (b.explainer.cache.get (contentHash source)).2 } }) := by
  simp only [act]
  split <;> simp_all

theorem act_of_miss {job : ScanJob} {existing : Bucket Record} {total : Nat} {now : Instant}
    {f : FoundFile} {b : Board} {source : Text}
    (h : (b.explainer.cache.get (contentHash source)).1 = none) :
    job.act existing total now f b (.changed source) = (.missed source,b) := by
  have hcache := Recency.get_of_none h
  simp only [act]
  split <;> simp_all

theorem act_cancelled (job : ScanJob) (existing : Bucket Record) (total : Nat) (now : Instant)
    (f : FoundFile) (b : Board) (stage : Stage) :
    (job.act existing total now f b stage).2.cancelled = b.cancelled := by
  cases stage with
  | started | read source | changed source =>
    simp only [act]
    split <;> rfl
  | _ => rfl

theorem calledOff_of_act {job : ScanJob} {existing : Bucket Record} {total : Nat} {now : Instant}
    {f : FoundFile} {b : Board} {stage : Stage}
    (h : (job.act existing total now f b stage).1 = .calledOff) :
    b.cancelled = true ∨ stage = .calledOff := by
  cases stage with
  | launched =>
    simp only [act] at h
    split_ifs at h with hb
    exact Or.inl hb
  | calledOff => exact Or.inr rfl
  | started | read source | changed source =>
    simp only [act] at h
    split at h <;> cases h
  | _ => cases h

/-- A step of a worker keeps to the way and the cache to the rule. -/
theorem act_right {job : ScanJob} {contents : Set Text} (hinj : Set.InjOn contentHash contents)
    {existing : Bucket Record} {f : FoundFile}
    (hf : ∀ source, job.read f.path = .ok source → source ∈ contents) {b : Board}
    (hb : b.explainer.cache.Recalls job.rule contents) {stage : Stage}
    (h : job.Right existing f stage) (total : Nat) (now : Instant) :
    job.Right existing f (job.act existing total now f b stage).1 ∧
      (job.act existing total now f b stage).2.explainer.cache.Recalls job.rule contents := by
  cases stage with
  | launched =>
    simp only [act]
    split_ifs <;> exact ⟨trivial,hb⟩
  | calledOff => exact ⟨trivial,hb⟩
  | started =>
    simp only [act]
    cases hread : job.read f.path with
    | error e => exact ⟨undated_plain (plain_of_unread hread existing),hb⟩
    | ok source => exact ⟨hread,hb⟩
  | read source =>
    simp only [act]
    cases hkept : (Bucket.find? existing f.path).filter (job.keeps (contentHash source)) with
    | some r => exact ⟨undated_plain (plain_of_kept h hkept),hb⟩
    | none => exact ⟨⟨h,hkept⟩,hb⟩
  | changed source =>
    cases hfound : (b.explainer.cache.get (contentHash source)).1 with
    | none =>
      rw [act_of_miss hfound]
      exact ⟨h,hb⟩
    | some x =>
      obtain ⟨hread,hnone⟩ := h
      rw [act_of_hit hfound,hb.eq_rule hinj (hf source hread) (Recency.mem_of_get hfound)]
      exact ⟨undated_explained hread hnone now,hb.get _⟩
  | missed source => exact ⟨⟨h.1,h.2,rfl⟩,hb⟩
  | made source x =>
    obtain ⟨hread,hnone,rfl⟩ := h
    exact ⟨undated_explained hread hnone now,hb.put (hf source hread)⟩
  | ready o => exact ⟨h,hb⟩
  | written o => exact ⟨h,hb⟩
  | counted o n => exact ⟨h,hb⟩
  | told o => exact ⟨h,hb⟩

/-! ### What the workers leave on the board -/

/-- A quantity on the board that changes by the share of a worker whenever the worker takes a step. -/
structure Tally (job : ScanJob) (existing : Bucket Record) (total : Nat) where
  value : Board → Int
  share : FoundFile → Stage → Int
  launched : ∀ f, share f .launched = 0
  cancelled : ∀ b c, value { b with cancelled := c } = value b
  act : ∀ now f b stage, value (job.act existing total now f b stage).2 - value b =
    share f (job.act existing total now f b stage).1 - share f stage

namespace Tally

variable {job : ScanJob} {existing : Bucket Record} {total : Nat}

def shares (t : Tally job existing total) (workers : List Worker) : Int :=
  (workers.map fun w => t.share w.file w.stage).sum

theorem shares_launch (t : Tally job existing total) (workers : List Worker) (f : FoundFile) :
    t.shares (workers ++ [⟨f,.launched⟩]) = t.shares workers := by
  simp [shares,t.launched]

theorem shares_work (t : Tally job existing total) (front back : List Worker) (f : FoundFile)
    (stage stage' : Stage) :
    t.shares (front ++ ⟨f,stage'⟩ :: back) - t.shares (front ++ ⟨f,stage⟩ :: back) =
      t.share f stage' - t.share f stage := by
  simp only [shares,List.map_append,List.map_cons,List.sum_append,List.sum_cons]
  omega

end Tally

def answers : FileOutcome → Int
  | .explained _ => 1
  | _ => 0

def answeredShare : Stage → Int
  | .made _ _ => 1
  | .ready o | .written o | .counted o _ | .told o => answers o
  | _ => 0

theorem act_answered (job : ScanJob) (existing : Bucket Record) (total : Nat) (now : Instant)
    (f : FoundFile) (b : Board) (stage : Stage) :
    ((job.act existing total now f b stage).2.explainer.answered : Int) - b.explainer.answered =
      answeredShare (job.act existing total now f b stage).1 - answeredShare stage := by
  cases stage with
  | changed source =>
    cases hfound : (b.explainer.cache.get (contentHash source)).1 with
    | none => simp [act_of_miss hfound,answeredShare]
    | some x =>
      simp only [act_of_hit hfound,Explainer.answered,Recency.hits_get_of_some hfound,answeredShare,
        answers]
      omega
  | made source x => simp [act,answeredShare,answers,Explainer.answered]
  | missed source =>
    simp only [act,answeredShare,Explainer.answered]
    omega
  | launched | started | read source =>
    simp only [act]
    split <;> simp [answeredShare,answers]
  | calledOff | ready o | written o | counted o n | told o => simp [act,answeredShare]

def answeredTally (job : ScanJob) (existing : Bucket Record) (total : Nat) :
    Tally job existing total where
  value := fun b => b.explainer.answered
  share := fun _ => answeredShare
  launched := fun _ => rfl
  cancelled := fun _ _ => rfl
  act := act_answered job existing total

theorem act_progress (job : ScanJob) (existing : Bucket Record) (total : Nat) (now : Instant)
    (f : FoundFile) (b : Board) (stage : Stage) :
    (∃ o, stage = .written o) ∨ (∃ o n, stage = .counted o n) ∨
      (job.act existing total now f b stage).2.processed = b.processed ∧
        (job.act existing total now f b stage).2.told = b.told ∧
        (job.act existing total now f b stage).1.number? = stage.number? ∧
        (job.act existing total now f b stage).1.isTold = stage.isTold := by
  cases stage with
  | written o => exact Or.inl ⟨o,rfl⟩
  | counted o n => exact Or.inr (Or.inl ⟨o,n,rfl⟩)
  | launched =>
    refine Or.inr (Or.inr ⟨rfl,rfl,?_,?_⟩) <;> (simp only [act]; split_ifs <;> rfl)
  | started | read source | changed source =>
    refine Or.inr (Or.inr ?_)
    simp only [act]
    split <;> exact ⟨rfl,rfl,rfl,rfl⟩
  | calledOff | missed source | made source x | ready o | told o =>
    exact Or.inr (Or.inr ⟨rfl,rfl,rfl,rfl⟩)

def toldTally (job : ScanJob) (existing : Bucket Record) (total : Nat) (file : String) :
    Tally job existing total where
  value := fun b => (b.told.map Progress.file).count file
  share := fun f stage => if stage.isTold ∧ f.rel = file then 1 else 0
  launched := fun _ => rfl
  cancelled := fun _ _ => rfl
  act := by
    intro now f b stage
    rcases act_progress job existing total now f b stage with
      ⟨o,rfl⟩ | ⟨o,n,rfl⟩ | ⟨-,htold,-,hstage⟩
    · simp [ScanJob.act,Stage.isTold]
    · simp [ScanJob.act,Stage.isTold,List.count_singleton]
    · rw [htold,hstage,sub_self,sub_self]

/-- A number that was counted, but has not been told. -/
def countedTally (job : ScanJob) (existing : Bucket Record) (total : Nat) (n : Nat) :
    Tally job existing total where
  value := fun b =>
    (if 1 ≤ n ∧ n ≤ b.processed then 1 else 0) - (b.told.map Progress.processed).count n
  share := fun _ stage => if stage.number? = some n then 1 else 0
  launched := fun _ => rfl
  cancelled := fun _ _ => rfl
  act := by
    intro now f b stage
    rcases act_progress job existing total now f b stage with
      ⟨o,rfl⟩ | ⟨o,m,rfl⟩ | ⟨hprocessed,htold,hstage,-⟩
    · simp only [ScanJob.act,Stage.number?,Option.some.injEq,reduceCtorEq,if_false]
      split_ifs <;> omega
    · simp only [ScanJob.act,Stage.number?,Option.some.injEq,reduceCtorEq,if_false,List.map_append,
        List.map_singleton,List.count_append,List.count_singleton,beq_iff_eq]
      by_cases hm : m = n
      · simp only [hm,if_true]
        omega
      · simp only [hm,if_false]
        omega
    · rw [hprocessed,htold,hstage,sub_self,sub_self]

def totalTally (job : ScanJob) (existing : Bucket Record) (total : Nat) :
    Tally job existing total where
  value := fun b => b.told.countP fun p => p.total != total
  share := fun _ _ => 0
  launched := fun _ => rfl
  cancelled := fun _ _ => rfl
  act := by
    intro now f b stage
    rcases act_progress job existing total now f b stage with ⟨o,rfl⟩ | ⟨o,n,rfl⟩ | ⟨-,htold,-⟩
    · simp [ScanJob.act]
    · simp [ScanJob.act]
    · rw [htold,sub_self,sub_self]

/-! ### The workers together -/

/-- The workers are on the way, in the order of their files, and the board shows what they have done
since the scan began. -/
structure Crew (job : ScanJob) (contents : Set Text) (start : Board) (existing : Bucket Record)
    (files : List FoundFile) (b : Board) (waiting : List FoundFile) (workers : List Worker) :
    Prop where
  assigned : workers.map Worker.file ++ waiting = files
  right : ∀ w ∈ workers, job.Right existing w.file w.stage
  recalls : b.explainer.cache.Recalls job.rule contents
  live : ∀ w ∈ workers, w.stage = .calledOff → b.cancelled = true
  balance : ∀ t : Tally job existing files.length, t.value b = t.value start + t.shares workers

/-- The slots are filled, and the board shows what the workers have done. -/
structure Gathered (job : ScanJob) (start : Board) (b : Board) (existing : Bucket Record)
    (files : List FoundFile) (slots : List ScannedFile) : Prop where
  dated : job.DatedSlots existing files slots
  balance : ∀ t : Tally job existing files.length,
    t.value b = t.value start + t.shares (slots.map fun s => ⟨s.file,.told s.outcome⟩)

section Crew

variable {job : ScanJob} {contents : Set Text} {start b : Board} {existing : Bucket Record}
  {files waiting : List FoundFile} {workers : List Worker}

theorem Crew.cancel (h : job.Crew contents start existing files b waiting workers) (c : Bool)
    (hc : b.cancelled = true → c = true) :
    job.Crew contents start existing files { b with cancelled := c } waiting workers := by
  refine ⟨h.assigned,h.right,h.recalls,fun w hw hoff => hc (h.live w hw hoff),?_⟩
  intro t
  rw [t.cancelled]
  exact h.balance t

theorem Crew.launch {f : FoundFile}
    (h : job.Crew contents start existing files b (f :: waiting) workers) :
    job.Crew contents start existing files b waiting (workers ++ [⟨f,.launched⟩]) := by
  refine ⟨?_,?_,h.recalls,?_,?_⟩
  · rw [List.map_append,List.append_assoc]
    exact h.assigned
  · intro w hw
    rcases List.mem_append.mp hw with hw | hw
    · exact h.right w hw
    · rw [List.mem_singleton.mp hw]
      trivial
  · intro w hw hoff
    rcases List.mem_append.mp hw with hw | hw
    · exact h.live w hw hoff
    · rw [List.mem_singleton.mp hw] at hoff
      cases hoff
  · intro t
    rw [t.shares_launch]
    exact h.balance t

theorem Crew.work (hinj : Set.InjOn contentHash contents) (hreads : job.Reads files contents)
    {front back : List Worker} {f : FoundFile} {stage : Stage}
    (h : job.Crew contents start existing files b waiting (front ++ ⟨f,stage⟩ :: back))
    (now : Instant) :
    job.Crew contents start existing files (job.act existing files.length now f b stage).2 waiting
      (front ++ ⟨f,(job.act existing files.length now f b stage).1⟩ :: back) := by
  have hmem : (⟨f,stage⟩ : Worker) ∈ front ++ ⟨f,stage⟩ :: back := by simp
  have hother {w w' : Worker} (hw : w ∈ front ++ w' :: back) :
      w = w' ∨ w ∈ front ++ ⟨f,stage⟩ :: back := by
    simp only [List.mem_append,List.mem_cons] at hw ⊢
    tauto
  have hfile : f ∈ files := by
    rw [← h.assigned]
    exact List.mem_append_left _ (List.mem_map.mpr ⟨_,hmem,rfl⟩)
  obtain ⟨hright,hrecalls⟩ := act_right hinj (hreads f hfile) h.recalls (h.right _ hmem)
    files.length now
  refine ⟨?_,?_,hrecalls,?_,?_⟩
  · rw [← h.assigned,List.map_append,List.map_append]
    rfl
  · intro w hw
    rcases hother hw with rfl | hw
    · exact hright
    · exact h.right w hw
  · intro w hw hoff
    rw [act_cancelled]
    rcases hother hw with rfl | hw
    · rcases calledOff_of_act hoff with hb | hstage
      · exact hb
      · exact h.live _ hmem hstage
    · exact h.live w hw hoff
  · intro t
    have hact := t.act now f b stage
    have hshares := t.shares_work front back f stage
      (job.act existing files.length now f b stage).1
    have hbalance := h.balance t
    omega

theorem eq_told_of_over {stage : Stage} (hover : stage.isOver = true) (hon : stage ≠ .calledOff) :
    ∃ o, stage = .told o := by
  cases stage with
  | told o => exact ⟨o,rfl⟩
  | calledOff => exact absurd rfl hon
  | _ => cases hover

theorem map_told_slots (h : ∀ w ∈ workers, ∃ o, w.stage = .told o) :
    (workers.filterMap Worker.slot?).map (fun s => ⟨s.file,.told s.outcome⟩) = workers := by
  induction workers with
  | nil => rfl
  | cons w rest ih =>
    obtain ⟨f,stage⟩ := w
    obtain ⟨o,rfl⟩ := h _ List.mem_cons_self
    have hrest := ih fun w hw => h w (List.mem_cons_of_mem _ hw)
    simp [Worker.slot?,Stage.slot?,hrest]

theorem Crew.gathered (h : job.Crew contents start existing files b [] workers)
    (hover : ∀ w ∈ workers, w.stage.isOver = true) (hon : ∀ w ∈ workers, w.stage ≠ .calledOff) :
    job.Gathered start b existing files (workers.filterMap Worker.slot?) := by
  have hworkers := map_told_slots fun w hw => eq_told_of_over (hover w hw) (hon w hw)
  have hfiles : (workers.filterMap Worker.slot?).map ScannedFile.file = files := by
    rw [← h.assigned,List.append_nil]
    conv_rhs => rw [← hworkers,List.map_map]
    rfl
  refine ⟨?_,?_⟩
  · rw [DatedSlots,← hfiles,List.map_map]
    refine List.map_congr_left fun s hs => ?_
    have hright : job.Right existing s.file (.told s.outcome) :=
      h.right ⟨s.file,.told s.outcome⟩ (hworkers ▸ List.mem_map.mpr ⟨s,hs,rfl⟩)
    obtain ⟨o,ho,-⟩ := job.exists_plain existing s.file
    change s.outcome.undated = (job.plain existing s.file).outcome.undated at hright
    rw [ho] at hright
    simp only [Function.comp_apply,ScannedFile.undated,ho,hright]
  · intro t
    rw [hworkers]
    exact h.balance t

end Crew

/-! ### The scan as a whole -/

/-- Where a scan can be that began with a history and a board: up to the point where the records are
stored the history is as it was, and from then on it is on the way to being settled. -/
inductive Sound (job : ScanJob) (access : HistoryAccess σ) (contents : Set Text) (before : σ)
    (start : Board) : Scanning σ → Prop
  | walking {c : Bool} :
      Sound job access contents before start ⟨before,{ start with cancelled := c },.walking⟩
  | listing {c : Bool} {files : List FoundFile}
      (hwalk : job.tree.walk job.selection job.root = .ok files) :
      Sound job access contents before start ⟨before,{ start with cancelled := c },.listing files⟩
  | working {b : Board} {files waiting : List FoundFile} {records : List Record}
      {workers : List Worker} (hwalk : job.tree.walk job.selection job.root = .ok files)
      (hlist : access.list before = .ok records)
      (hcrew : job.Crew contents start (byPath records) files b waiting workers) :
      Sound job access contents before start
        ⟨before,b,.working files (byPath records) waiting workers⟩
  | storing {b : Board} {files : List FoundFile} {records : List Record} {slots : List ScannedFile}
      (hwalk : job.tree.walk job.selection job.root = .ok files)
      (hlist : access.list before = .ok records)
      (hslots : job.Gathered start b (byPath records) files slots) :
      Sound job access contents before start ⟨before,b,.storing files (byPath records) slots⟩
  | pruning {h : σ} {b : Board} {files : List FoundFile} {records : List Record}
      {slots : List ScannedFile} {paths gone : List Text} {left : List (Text × HistoryError)}
      (hwalk : job.tree.walk job.selection job.root = .ok files)
      (hlist : access.list before = .ok records)
      (hslots : job.Gathered start b (byPath records) files slots)
      (hsettle : job.settle access before (byPath records) files slots =
        .ok (⟨slots,gone ++ (prune access h paths).2.1,left ++ (prune access h paths).2.2⟩,
          (prune access h paths).1)) :
      Sound job access contents before start ⟨h,b,.pruning slots paths gone left⟩
  | stopped {b : Board} {e : ScanError} (hb : b.cancelled = true) :
      Sound job access contents before start ⟨before,b,.failed e⟩
  | failed {b : Board} {e : ScanError}
      (hend : job.Ends access before (fun _ => False) (job.Gathered start b) (.error e,before)) :
      Sound job access contents before start ⟨before,b,.failed e⟩
  | finished {h : σ} {b : Board} {report : ScanReport}
      (hend : job.Ends access before (fun _ => False) (job.Gathered start b) (.ok report,h)) :
      Sound job access contents before start ⟨h,b,.finished report⟩

theorem Gathered.cancel {job : ScanJob} {start b : Board} {existing : Bucket Record}
    {files : List FoundFile} {slots : List ScannedFile}
    (h : job.Gathered start b existing files slots) (c : Bool) :
    job.Gathered start { b with cancelled := c } existing files slots := by
  refine ⟨h.dated,?_⟩
  intro t
  rw [t.cancelled]
  exact h.balance t

section Sound

variable {job : ScanJob} {access : HistoryAccess σ} {jobs : Nat} {contents : Set Text} {before : σ}
  {start : Board} {s s' : Scanning σ}

theorem Sound.cancel {h : σ} {b : Board} {phase : Phase}
    (hs : job.Sound access contents before start ⟨h,b,phase⟩) :
    job.Sound access contents before start ⟨h,{ b with cancelled := true },phase⟩ := by
  cases hs with
  | walking => exact .walking
  | listing hwalk => exact .listing hwalk
  | working hwalk hlist hcrew => exact .working hwalk hlist (hcrew.cancel true fun _ => rfl)
  | storing hwalk hlist hslots => exact .storing hwalk hlist (hslots.cancel true)
  | pruning hwalk hlist hslots hsettle => exact .pruning hwalk hlist (hslots.cancel true) hsettle
  | stopped => exact .stopped rfl
  | failed => exact .stopped rfl
  | finished hend => exact .finished (hend.mono fun hslots => hslots.cancel true)

theorem crew_listed (hstart : start.explainer.cache.Recalls job.rule contents) (c : Bool)
    (existing : Bucket Record) (files : List FoundFile) :
    job.Crew contents start existing files { start with cancelled := c } files [] := by
  refine ⟨rfl,by simp,hstart,by simp,?_⟩
  intro t
  rw [t.cancelled]
  simp [Tally.shares]

/-- One step of a scan. -/
theorem Sound.step (hinj : Set.InjOn contentHash contents)
    (hreads : ∀ files, job.tree.walk job.selection job.root = .ok files → job.Reads files contents)
    (hstart : start.explainer.cache.Recalls job.rule contents)
    (hs : job.Sound access contents before start s) (hstep : job.Step access jobs s s') :
    job.Sound access contents before start s' := by
  cases hstep with
  | found hwalk =>
    cases hs with
    | walking => exact .listing hwalk
  | unwalked hwalk =>
    cases hs with
    | walking => exact .failed (.unwalked hwalk)
  | listed hlist =>
    cases hs with
    | listing hwalk => exact .working hwalk hlist (crew_listed hstart _ _ _)
  | unlisted hlist =>
    cases hs with
    | listing hwalk => exact .failed (.unlisted hwalk hlist)
  | launch =>
    cases hs with
    | working hwalk hlist hcrew => exact .working hwalk hlist hcrew.launch
  | work hstage now =>
    cases hs with
    | working hwalk hlist hcrew =>
      exact .working hwalk hlist (hcrew.work hinj (hreads _ hwalk) now)
  | stopped hover hoff =>
    cases hs with
    | working hwalk hlist hcrew =>
      obtain ⟨w,hw,hstage⟩ := hoff
      exact .stopped (hcrew.live w hw hstage)
  | gathered hover hon =>
    cases hs with
    | working hwalk hlist hcrew => exact .storing hwalk hlist (hcrew.gathered hover hon)
  | stored hstore =>
    cases hs with
    | storing hwalk hlist hslots =>
      exact .pruning hwalk hlist hslots (job.settle_of_stored _ _ hstore)
  | unstored hstore =>
    cases hs with
    | storing hwalk hlist hslots =>
      exact .failed (.of_settle hwalk hlist id hslots (job.settle_of_unstored _ _ hstore))
  | deleted hdelete =>
    cases hs with
    | pruning hwalk hlist hslots hsettle =>
      rw [prune_cons_ok hdelete] at hsettle
      refine .pruning hwalk hlist hslots ?_
      rw [hsettle,List.append_assoc]
      rfl
  | undeleted hdelete =>
    cases hs with
    | pruning hwalk hlist hslots hsettle =>
      rw [prune_cons_error hdelete] at hsettle
      refine .pruning hwalk hlist hslots ?_
      rw [hsettle,List.append_assoc]
      rfl
  | finished =>
    cases hs with
    | pruning hwalk hlist hslots hsettle =>
      simp only [prune,List.append_nil] at hsettle
      exact .finished (.of_settle hwalk hlist id hslots hsettle)
  | cancel hb => exact hs.cancel

/-- Any number of steps. -/
theorem Sound.runs (hinj : Set.InjOn contentHash contents)
    (hreads : ∀ files, job.tree.walk job.selection job.root = .ok files → job.Reads files contents)
    (hstart : start.explainer.cache.Recalls job.rule contents)
    (hs : job.Sound access contents before start s) (hruns : job.Runs access jobs s s') :
    job.Sound access contents before start s' := by
  induction hruns with
  | refl => exact hs
  | tail _ hstep ih => exact ih.step hinj hreads hstart hstep

end Sound

end ScanJob
end CircuitNotes
