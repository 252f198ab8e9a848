import CircuitNotes.Proofs.WorkerSlots
import Mathlib.Data.Finset.Card

/-! The counters of a scan. Those of files add up over the slots, of which every file found has one, and
those of records over the paths that the history holds before and after. -/
namespace CircuitNotes

def HistoryKind.paths (k : HistoryKind) (s : k.State) : Finset Text :=
  ((k.entries s).map Prod.fst).toFinset

theorem HistoryKind.mem_paths (k : HistoryKind) (s : k.State) (path : Text) :
    path ∈ k.paths s ↔ k.held? s path ≠ none := by
  rw [paths,List.mem_toFinset,Bucket.mem_keys_iff,Option.isSome_iff_ne_none,held?]

namespace ScanJob

variable {σ ε : Type}

/-! ### Counting slots -/

theorem length_outcomes (slots : List ScannedFile) :
    (slots.filterMap ScannedFile.explained?).length + (slots.filter ScannedFile.isSkipped).length +
      (slots.filterMap ScannedFile.failure?).length = slots.length := by
  induction slots with
  | nil => rfl
  | cons s rest ih =>
    obtain ⟨f,o⟩ := s
    cases o <;>
      simp [List.filterMap_cons,List.filter_cons,ScannedFile.explained?,ScannedFile.isSkipped,
        ScannedFile.failure?] <;> omega

end ScanJob

def ScannedFile.gates (s : ScannedFile) : List Gate :=
  match s.outcome with
  | .explained r | .skipped r => r.circuit.gates.getD []
  | .unread _ => []

theorem ScanReport.gatesFound_eq_sum (report : ScanReport) : report.gatesFound =
    ((report.files.filter fun s => s.failure?.isNone).map fun s => s.gates.length).sum := by
  have hfold (slots : List ScannedFile) (total : Nat) :
      (slots.filterMap ScannedFile.record?).foldl (fun total r => total + r.circuit.gateCount) total =
        total + ((slots.filter fun s => s.failure?.isNone).map fun s => s.gates.length).sum := by
    induction slots generalizing total with
    | nil => rfl
    | cons s rest ih =>
      obtain ⟨f,o⟩ := s
      simp only [List.filterMap_cons,List.filter_cons,ScannedFile.record?,ScannedFile.failure?] at ih ⊢
      cases o with
      | explained r =>
        have hgates : (ScannedFile.gates ⟨f,.explained r⟩).length = r.circuit.gateCount := rfl
        simp [ih,hgates,Nat.add_assoc]
      | skipped r =>
        have hgates : (ScannedFile.gates ⟨f,.skipped r⟩).length = r.circuit.gateCount := rfl
        simp [ih,hgates,Nat.add_assoc]
      | unread e => simp [ih]
  rw [gatesFound,hfold,Nat.zero_add]

namespace ScanJob

section Filled

variable {job : ScanJob} {existing : Bucket Record} {answers : Text → Explanation → Prop}
  {files : List FoundFile} {slots : List ScannedFile}

def readFault? (job : ScanJob) (f : FoundFile) : Option Text :=
  match job.read f.path with
  | .ok _ => none
  | .error e => some (Text.ofString (f.rel ++ ": " ++ ("failed to read file: " ++ e.message)))

theorem Filled.faults (h : job.Filled existing answers files slots) :
    (slots.filterMap fun s => s.failure?.map fun f => Text.ofString (s.file.rel ++ ": " ++ f)) =
      files.filterMap job.readFault? := by
  rw [← h.map_file,List.filterMap_map]
  refine List.filterMap_congr fun s hs => ?_
  obtain ⟨f,-,hfile,houtcome⟩ := h.exists_file hs
  obtain ⟨_,o⟩ := s
  cases hfile
  cases houtcome with
  | unread hread => simp [ScannedFile.failure?,readFault?,hread]
  | skipped hread | explained hread => simp [ScannedFile.failure?,readFault?,hread]

theorem Filled.path_eq (h : job.Filled existing answers files slots) {s : ScannedFile} (hs : s ∈ slots)
    {r : Record} (hr : s.explained? = some r) : r.path = s.file.path := by
  obtain ⟨f,-,hfile,houtcome⟩ := h.exists_file hs
  obtain ⟨_,o⟩ := s
  cases hfile
  cases houtcome with
  | unread | skipped => cases hr
  | explained _ _ _ hrecounts =>
    cases hr
    exact hrecounts.path

end Filled

/-! ### Counting paths -/

theorem recordAt?_eq_none_iff (k : HistoryKind) {s : k.State} {records : List Record}
    (h : k.access.list s = .ok records) (path : Text) :
    k.recordAt? s path = none ↔ path ∉ k.paths s := by
  rw [k.mem_paths,not_not]
  refine ⟨held?_eq_none_of_listed k h,?_⟩
  intro hheld
  rw [HistoryKind.recordAt?,hheld,Option.bind_none]

def newFiles (k : HistoryKind) (before : k.State) (slots : List ScannedFile) : List ScannedFile :=
  slots.filter fun s => s.explained?.isSome && (k.recordAt? before s.file.path).isNone

section Paths

variable {k : HistoryKind} {job : ScanJob} {access : HistoryAccess k.State} {before after : k.State}
  {records : List Record} {files : List FoundFile} {slots : List ScannedFile} {report : ScanReport}
  {answers : Text → Explanation → Prop}

theorem toFinset_stale (job : ScanJob) (files : List FoundFile) (hkeyed : k.Keyed before)
    (hlisted : k.access.list before = .ok records) :
    (job.stale (byPath records) files).toFinset = (k.paths before).filter fun path =>
      Text.ofString (job.folder ++ "/") <+: path ∧ ∀ f ∈ files, Text.ofString f.path ≠ path := by
  ext path
  have hrecord := recordAt?_eq_none_iff k hlisted path
  rw [List.mem_toFinset,mem_stale,k.find?_byPath_list hkeyed hlisted,Finset.mem_filter,
    Option.isSome_iff_ne_none,Ne,hrecord,not_not]

theorem nodup_of_settle
    (h : job.settle access before (byPath records) files slots = .ok (report,after)) :
    (report.deleted ++ report.undeleted.map Prod.fst).Nodup :=
  (perm_of_settle h).nodup_iff.mpr (job.nodup_stale records files)

theorem mem_deleted_iff
    (h : job.settle access before (byPath records) files slots = .ok (report,after)) (path : Text) :
    path ∈ report.deleted ↔ path ∈ job.stale (byPath records) files ∧
      path ∉ report.undeleted.map Prod.fst := by
  have hdisjoint := (List.nodup_append'.mp (nodup_of_settle h)).2.2
  rw [← (perm_of_settle h).mem_iff,List.mem_append]
  have hapart : path ∈ report.deleted → path ∉ report.undeleted.map Prod.fst := @hdisjoint path
  tauto

/-- The paths that a settled history holds: those of the files explained are added, and those deleted
are gone. -/
theorem paths_settle (hw : access.Within k.access)
    (h : job.settle access before (byPath records) files slots = .ok (report,after)) :
    k.paths after =
      (((freshOf slots).map Record.path).toFinset ∪ k.paths before) \ report.deleted.toFinset := by
  ext path
  have hfresh : lastAt? (freshOf slots) path = none ↔ path ∉ (freshOf slots).map Record.path := by
    rw [lastAt?_eq_none_iff,List.mem_map]
    push Not
    rfl
  rw [k.mem_paths,held?_settle hw h,Finset.mem_sdiff,Finset.mem_union,List.mem_toFinset,
    List.mem_toFinset,mem_deleted_iff h,k.mem_paths]
  split_ifs with hdeleted
  · simp [hdeleted]
  · rw [Ne,Option.or_eq_none_iff,Option.map_eq_none_iff]
    change ¬(lastAt? (freshOf slots) path = none ∧ _) ↔ _
    rw [hfresh]
    tauto

theorem fresh_sdiff_paths (hlisted : k.access.list before = .ok records)
    (hslots : job.Filled (byPath records) answers files slots) :
    ((freshOf slots).map Record.path).toFinset \ k.paths before =
      ((newFiles k before slots).map fun s => Text.ofString s.file.path).toFinset := by
  ext path
  simp only [Finset.mem_sdiff,List.mem_toFinset,List.mem_map,freshOf,List.mem_filterMap,newFiles,
    List.mem_filter,Bool.and_eq_true,Option.isNone_iff_eq_none,recordAt?_eq_none_iff k hlisted]
  refine ⟨?_,?_⟩
  · rintro ⟨⟨r,⟨s,hs,hr⟩,rfl⟩,hnew⟩
    have hpath := hslots.path_eq hs hr
    rw [hpath] at hnew ⊢
    exact ⟨s,⟨hs,by rw [hr]; rfl,hnew⟩,rfl⟩
  · rintro ⟨s,⟨hs,hexplained,hnew⟩,rfl⟩
    obtain ⟨r,hr⟩ := Option.isSome_iff_exists.mp hexplained
    exact ⟨⟨r,⟨s,hs,hr⟩,hslots.path_eq hs hr⟩,hnew⟩

theorem deleted_subset_paths (hkeyed : k.Keyed before) (hlisted : k.access.list before = .ok records)
    (h : job.settle access before (byPath records) files slots = .ok (report,after)) :
    report.deleted.toFinset ⊆ k.paths before := by
  intro path hpath
  have hstale := ((mem_deleted_iff h path).mp (List.mem_toFinset.mp hpath)).1
  rw [← List.mem_toFinset,toFinset_stale job files hkeyed hlisted] at hstale
  exact (Finset.mem_filter.mp hstale).1

theorem card_paths_settle (hw : access.Within k.access) (hkeyed : k.Keyed before)
    (hlisted : k.access.list before = .ok records)
    (hslots : job.Filled (byPath records) answers files slots)
    (hpaths : (files.map FoundFile.path).Nodup)
    (h : job.settle access before (byPath records) files slots = .ok (report,after)) :
    (k.paths after).card + report.deletedCount =
      (k.paths before).card + (newFiles k before slots).length := by
  have hdeleted : report.deleted.toFinset.card = report.deletedCount :=
    List.toFinset_card_of_nodup (List.nodup_append'.mp (nodup_of_settle h)).1
  have hnew : ((newFiles k before slots).map fun s => Text.ofString s.file.path).Nodup := by
    rw [← hslots.map_file,List.map_map] at hpaths
    have hpaths' := hpaths.map fun _ _ => Text.ofString_injective
    rw [List.map_map] at hpaths'
    exact hpaths'.sublist (List.filter_sublist.map _)
  calc (k.paths after).card + report.deletedCount
      = (((freshOf slots).map Record.path).toFinset ∪ k.paths before).card := by
        rw [paths_settle hw h,← hdeleted,Finset.card_sdiff_add_card_eq_card
          ((deleted_subset_paths hkeyed hlisted h).trans Finset.subset_union_right)]
    _ = (((freshOf slots).map Record.path).toFinset \ k.paths before).card + (k.paths before).card :=
        (Finset.card_sdiff_add_card _ _).symm
    _ = (k.paths before).card + (newFiles k before slots).length := by
        rw [fresh_sdiff_paths hlisted hslots,List.toFinset_card_of_nodup hnew,List.length_map,
          Nat.add_comm]

end Paths

/-! ### The account as a whole -/

/-- What a scan reports of the files that it found and of the records there were. -/
structure Accounts (job : ScanJob) (k : HistoryKind) (access : HistoryAccess k.State)
    (files : List FoundFile) (report : ScanReport) (before after : k.State) : Prop where
  walked : report.files.map ScannedFile.file = files
  /-- What became of a file is decided by its content and by the record there was. -/
  outcomes : ∃ existing, (∀ path, Bucket.find? existing path = k.recordAt? before path) ∧
    ∀ s ∈ report.files, job.Outcome existing (fun _ _ => True) s.file s.outcome
  counted : report.explainedCount + report.skippedCount +
    (report.files.filterMap ScannedFile.failure?).length = files.length
  gates : report.gatesFound =
    ((report.files.filter fun s => s.failure?.isNone).map fun s => s.gates.length).sum
  errors : report.errors = files.filterMap job.readFault? ++
    report.undeleted.map fun (path,e) => "failed to delete " ++ path ++ ": " ++ e.message
  gone : report.deletedCount + report.undeleted.length =
    ((k.paths before).filter fun path => Text.ofString (job.folder ++ "/") <+: path ∧
      ∀ f ∈ files, Text.ofString f.path ≠ path).card
  removed : ∀ path ∈ report.deleted, k.Removed before after path
  refused : ∀ x ∈ report.undeleted, DeletionFails k access before x.1 x.2
  stored : ((k.paths after).card : Int) - (k.paths before).card =
    (newFiles k before report.files).length - report.deletedCount

theorem Finishes.accounts {k : HistoryKind} {job : ScanJob} {answers : Text → Explanation → Prop}
    {access : HistoryAccess k.State} {before after : k.State} {report : ScanReport}
    (h : job.Finishes answers access before report after) (hw : access.Within k.access)
    (hkeyed : k.Keyed before) (htree : job.tree.Listed) :
    ∃ files, job.tree.walk job.selection job.root = .ok files ∧
      job.Accounts k access files report before after := by
  obtain @⟨files,records,_,_,_,hwalk,hlist,hslots,hsettle⟩ := h
  have hperm := perm_of_settle hsettle
  have hfiles := files_of_settle hsettle
  subst hfiles
  have hlisted := hw.list hlist
  have hdeleted := deleted_subset_paths hkeyed hlisted hsettle
  have hcard := card_paths_settle hw hkeyed hlisted hslots (htree.nodup_paths hwalk) hsettle
  have houtcomes : ∀ s ∈ report.files,
      job.Outcome (byPath records) (fun _ _ => True) s.file s.outcome := by
    intro s hs
    obtain ⟨_,-,rfl,houtcome⟩ := hslots.exists_file hs
    exact houtcome.mono fun _ _ _ => trivial
  refine ⟨files,hwalk,hslots.map_file,⟨byPath records,k.find?_byPath_list hkeyed hlisted,houtcomes⟩,?_,
    report.gatesFound_eq_sum,?_,?_,?_,fun _ hx => deletionFails_of_settle hw
      (k.isOpen_of_list hlisted) hslots hsettle hx,?_⟩
  · rw [← hslots.map_file,List.length_map]
    exact length_outcomes report.files
  · rw [ScanReport.errors,ScanReport.fileErrors,hslots.faults]
    rfl
  · rw [← toFinset_stale job files hkeyed hlisted,
      List.toFinset_card_of_nodup (job.nodup_stale records files),← hperm.length_eq,
      List.length_append,List.length_map]
    rfl
  · intro path hpath
    rw [← List.mem_toFinset] at hpath
    have hafter : path ∉ k.paths after := by
      rw [paths_settle hw hsettle]
      exact fun hmem => (Finset.mem_sdiff.mp hmem).2 hpath
    rw [k.mem_paths,not_not] at hafter
    exact ⟨(k.mem_paths before path).mp (hdeleted hpath),hafter⟩
  · omega

/-- The counters of a scan that ends well, by any number of workers or by one that takes the files in
order, account for every file found and for every record there was. -/
theorem counters_account (k : HistoryKind) (job : ScanJob) {access : HistoryAccess k.State}
    (hw : access.Within k.access) {before : k.State} (hkeyed : k.Keyed before)
    (htree : job.tree.Listed) :
    (∀ (ε : Type) (explain : Explaining ε) (e e' : ε) (report : ScanReport) (after : k.State),
      job.runWith explain access ⟨before,e⟩ = (.ok report,⟨after,e'⟩) →
      ∃ files, job.tree.walk job.selection job.root = .ok files ∧
        job.Accounts k access files report before after) ∧
    ∀ (jobs : Nat) (e : Explainer) (s : Scanning k.State) (report : ScanReport) (after : k.State),
      job.Runs access jobs (.start before e) s → s.outcome? = some (.ok report,after) →
      ∃ files, job.tree.walk job.selection job.root = .ok files ∧
        job.Accounts k access files report before after := by
  refine ⟨?_,?_⟩
  · intro ε explain e e' report after hrun
    exact (job.finishes_of_runWith explain access hrun).accounts hw hkeyed htree
  · intro jobs e s report after hruns hout
    obtain ⟨_,-,hfinishes⟩ := finishes_of_runs hruns hout
    exact hfinishes.accounts hw hkeyed htree

/-- One file is explained, one is skipped and one cannot be read, and a record cannot be deleted. -/
theorem counters_account_sample : ∃ report after,
    sampleScan.runWith sampleScan.bare (Ledger.access.refusing ["delete"]) ⟨sampleLedger,()⟩ =
      (.ok report,⟨after,()⟩) ∧
    (report.explainedCount,report.skippedCount,report.undeleted.length) = (1,1,1) ∧
    ∃ files, sampleScan.tree.walk sampleScan.selection sampleScan.root = .ok files ∧
      sampleScan.Accounts .memory (Ledger.access.refusing ["delete"]) files report sampleLedger
        after := by
  have hok : (sampleScan.runWith sampleScan.bare (Ledger.access.refusing ["delete"])
      ⟨sampleLedger,()⟩).1.toOption.map
        (fun r => (r.explainedCount,r.skippedCount,r.undeleted.length)) = some (1,1,1) := by
    unfold runWith
    rw [walk_sampleScan]
    decide +kernel
  rcases hrun : sampleScan.runWith sampleScan.bare (Ledger.access.refusing ["delete"])
    ⟨sampleLedger,()⟩ with ⟨result,after,_⟩
  rw [hrun] at hok
  cases result with
  | error e => cases hok
  | ok report =>
    exact ⟨report,after,rfl,Option.some.inj hok,(counters_account .memory sampleScan
      (HistoryAccess.within_refusing Ledger.access ["delete"]) keyed_sampleLedger
      listed_sampleScan).1 Unit sampleScan.bare () () report after hrun⟩

end ScanJob
end CircuitNotes
