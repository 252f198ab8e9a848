import CircuitNotes.Proofs.OneWorker
import CircuitNotes.Proofs.RecentUse

/-! Identical contents are explained once. As long as there are no more contents than the cache has
room for, it holds the answers to all calls of the explainer that it wraps, in the order of the calls;
so no content is asked for a second time. One worker does with the files what is done with them one
after another, and so the same is true of it. -/
namespace CircuitNotes

variable {σ ε ε' ω : Type}

/-! ### Calls of the wrapped explainer -/

/-- Explaining through a cache: what the cache does not hold, a wrapped explainer is called for. -/
def throughCache (wrapped : Explaining ω) : Explaining (Recency Explanation × ω) := fun e source =>
  match e.1.get (contentHash source) with
  | (some held,cache) => (held,(cache,e.2))
  | (none,cache) =>
    let (fresh,w) := wrapped e.2 source
    (fresh,(cache.put (contentHash source) fresh,w))

/-- The sources for which an explainer is called, with its answers, and what it is after the calls. -/
def callEach (wrapped : Explaining ω) (w : ω) (sources : List Text) :
    List (Text × Explanation) × ω :=
  sources.foldl
    (fun log source => (log.1 ++ [(source,(wrapped log.2 source).1)],(wrapped log.2 source).2)) ([],w)

def counting (rule : Text → Explanation) : Explaining Nat := fun n source => (rule source,n + 1)

section Calls

variable {wrapped : Explaining ω} {w : ω}

theorem throughCache_of_hit {c : Recency Explanation} {source : Text} {x : Explanation}
    (h : (c.get (contentHash source)).1 = some x) :
    throughCache wrapped (c,w) source = (x,((c.get (contentHash source)).2,w)) := by
  unfold throughCache
  split <;> simp_all

theorem throughCache_of_miss {c : Recency Explanation} {source : Text}
    (h : (c.get (contentHash source)).1 = none) :
    throughCache wrapped (c,w) source = ((wrapped w source).1,
      (c.put (contentHash source) (wrapped w source).1,(wrapped w source).2)) := by
  have hcache := Recency.get_of_none h
  unfold throughCache
  split <;> simp_all

theorem callEach_append_singleton (wrapped : Explaining ω) (w : ω) (sources : List Text)
    (source : Text) :
    callEach wrapped w (sources ++ [source]) =
      ((callEach wrapped w sources).1 ++
          [(source,(wrapped (callEach wrapped w sources).2 source).1)],
        (wrapped (callEach wrapped w sources).2 source).2) := by
  rw [callEach,List.foldl_append]
  rfl

theorem map_fst_callEach (wrapped : Explaining ω) (w : ω) (sources : List Text) :
    (callEach wrapped w sources).1.map Prod.fst = sources := by
  induction sources using List.reverseRecOn with
  | nil => rfl
  | append_singleton sources source ih =>
    rw [callEach_append_singleton,List.map_append,ih]
    rfl

/-- Later calls change no answer. -/
theorem callEach_grows (wrapped : Explaining ω) (w : ω) (sources more : List Text) :
    (callEach wrapped w sources).1 <+: (callEach wrapped w (sources ++ more)).1 := by
  induction more using List.reverseRecOn with
  | nil => rw [List.append_nil]
  | append_singleton more source ih =>
    rw [← List.append_assoc,callEach_append_singleton]
    exact ih.trans (List.prefix_append _ _)

theorem callEach_counting (rule : Text → Explanation) (sources : List Text) :
    callEach (counting rule) 0 sources = (sources.map fun s => (s,rule s),sources.length) := by
  induction sources using List.reverseRecOn with
  | nil => rfl
  | append_singleton sources source ih =>
    rw [callEach_append_singleton,ih,List.map_append,List.length_append]
    rfl

end Calls

/-! ### A cache that never fills up -/

theorem Recency.entries_put_of_room {α : Type} {c : Recency α} {key : Text}
    (hfind : c.find? key = none) (hroom : c.entries.length < c.limit) (value : α) :
    (c.put key value).entries = c.entries ++ [(key,value)] := by
  have hsame : c.makeRoom = c := if_neg (Nat.not_le.mpr hroom)
  rw [put,hfind,hsame]
  rfl

theorem length_eq_card {l l' : List Text} (hnodup : l.Nodup) (hsame : ∀ s, s ∈ l ↔ s ∈ l') :
    l.length = l'.toFinset.card := by
  rw [← List.toFinset_card_of_nodup hnodup]
  congr 1
  ext s
  rw [List.mem_toFinset,List.mem_toFinset,hsame]

/-- A cache, asked for some sources, that holds the answers to all calls of the explainer that it
wraps; there was one call for each of the sources that differ. -/
structure HoldsAnswers (wrapped : Explaining ω) (start : ω) (c : Recency Explanation) (w : ω)
    (asked called : List Text) : Prop where
  entries : c.entries = (callEach wrapped start called).1.map fun a => (contentHash a.1,a.2)
  state : w = (callEach wrapped start called).2
  nodup : called.Nodup
  same : ∀ source, source ∈ called ↔ source ∈ asked
  hits : c.hits + called.length = asked.length

/-- Each of some contents was explained once, and found in the cache whenever it was needed again. -/
structure OncePerContent (contents : List Text) (calls : Nat) (cache : Recency Explanation) : Prop where
  calls : calls = contents.toFinset.card
  hits : cache.hits + contents.toFinset.card = contents.length
  size : cache.size = contents.toFinset.card

theorem holdsAnswers_empty (wrapped : Explaining ω) (start : ω) (limit : Int) :
    HoldsAnswers wrapped start (.empty limit) start [] [] :=
  ⟨rfl,rfl,.nil,fun _ => Iff.rfl,rfl⟩

namespace HoldsAnswers

variable {wrapped : Explaining ω} {start w : ω} {c : Recency Explanation} {asked called : List Text}
  {source : Text}

theorem keys_eq (h : HoldsAnswers wrapped start c w asked called) :
    c.keys = called.map contentHash := by
  conv_rhs => rw [← map_fst_callEach wrapped start called]
  simp only [Recency.keys,h.entries,List.map_map,Function.comp_def]

theorem size_eq (h : HoldsAnswers wrapped start c w asked called) : c.size = called.length := by
  have hlength := congrArg List.length h.keys_eq
  rwa [Recency.keys,List.length_map,List.length_map] at hlength

theorem length_called (h : HoldsAnswers wrapped start c w asked called) :
    called.length = asked.toFinset.card := length_eq_card h.nodup h.same

theorem oncePerContent (h : HoldsAnswers wrapped start c w asked called) :
    OncePerContent asked called.length c :=
  ⟨h.length_called,h.length_called ▸ h.hits,h.size_eq.trans h.length_called⟩

theorem mem_called {x : Explanation} (h : (source,x) ∈ (callEach wrapped start called).1) :
    source ∈ called := by
  rw [← map_fst_callEach wrapped start called]
  exact List.mem_map.mpr ⟨_,h,rfl⟩

theorem mem_of_hit (h : HoldsAnswers wrapped start c w asked called)
    (hinj : Set.InjOn contentHash {s | s ∈ asked ++ [source]}) {x : Explanation}
    (hfound : (c.get (contentHash source)).1 = some x) :
    (source,x) ∈ (callEach wrapped start called).1 := by
  have hmem := Recency.mem_of_get hfound
  rw [h.entries] at hmem
  obtain ⟨⟨source',x'⟩,hanswer,heq⟩ := List.mem_map.mp hmem
  obtain ⟨hhash,rfl⟩ := Prod.mk.inj heq
  have hasked := (h.same source').mp (mem_called hanswer)
  have hsource : source' = source := hinj (List.mem_append_left _ hasked) (by simp) hhash
  rw [← hsource]
  exact hanswer

theorem get_ne_none (h : HoldsAnswers wrapped start c w asked called) (hsource : source ∈ called) :
    (c.get (contentHash source)).1 ≠ none := by
  rw [Recency.fst_get,← Option.isSome_iff_ne_none,Recency.isSome_find?_iff,h.keys_eq]
  exact List.mem_map_of_mem hsource

theorem hit (h : HoldsAnswers wrapped start c w asked called) (hsource : source ∈ called)
    {x : Explanation} (hfound : (c.get (contentHash source)).1 = some x) :
    HoldsAnswers wrapped start (c.get (contentHash source)).2 w (asked ++ [source]) called := by
  refine ⟨Recency.entries_get.trans h.entries,h.state,h.nodup,?_,?_⟩
  · intro s
    rw [List.mem_append,List.mem_singleton,h.same]
    refine ⟨Or.inl,?_⟩
    rintro (hs | rfl)
    · exact hs
    · exact (h.same s).mp hsource
  · have hhits := h.hits
    rw [Recency.hits_get_of_some hfound,List.length_append,List.length_singleton]
    omega

theorem miss (h : HoldsAnswers wrapped start c w asked called)
    (hmiss : (c.get (contentHash source)).1 = none)
    (hroom : (asked ++ [source]).toFinset.card ≤ c.limit) :
    HoldsAnswers wrapped start (c.put (contentHash source) (wrapped w source).1) (wrapped w source).2
      (asked ++ [source]) (called ++ [source]) := by
  have hnodup : (called ++ [source]).Nodup := by
    rw [List.nodup_append']
    refine ⟨h.nodup,List.nodup_singleton _,?_⟩
    rw [List.disjoint_singleton]
    exact fun hcalled => h.get_ne_none hcalled hmiss
  have hsame (s : Text) : s ∈ called ++ [source] ↔ s ∈ asked ++ [source] := by
    rw [List.mem_append,List.mem_append,h.same]
  have hsize : c.entries.length < c.limit := by
    rw [← length_eq_card hnodup hsame,List.length_append,← h.size_eq] at hroom
    exact hroom
  refine ⟨?_,?_,hnodup,hsame,?_⟩
  · rw [Recency.fst_get] at hmiss
    rw [Recency.entries_put_of_room hmiss hsize,h.entries,callEach_append_singleton,List.map_append,
      h.state]
    rfl
  · rw [callEach_append_singleton,h.state]
  · have hhits := h.hits
    rw [c.hits_put,List.length_append,List.length_append,List.length_singleton]
    omega

theorem ask (h : HoldsAnswers wrapped start c w asked called)
    (hinj : Set.InjOn contentHash {s | s ∈ asked ++ [source]})
    (hroom : (asked ++ [source]).toFinset.card ≤ c.limit) :
    ∃ more, HoldsAnswers wrapped start (throughCache wrapped (c,w) source).2.1
        (throughCache wrapped (c,w) source).2.2 (asked ++ [source]) (called ++ more) ∧
      (throughCache wrapped (c,w) source).2.1.limit = c.limit ∧
      (source,(throughCache wrapped (c,w) source).1) ∈ (callEach wrapped start (called ++ more)).1 := by
  cases hfound : (c.get (contentHash source)).1 with
  | some x =>
    have hanswer := h.mem_of_hit hinj hfound
    rw [throughCache_of_hit hfound]
    refine ⟨[],?_,c.limit_get _,?_⟩
    · rw [List.append_nil]
      exact h.hit (mem_called hanswer) hfound
    · rwa [List.append_nil]
  | none =>
    rw [throughCache_of_miss hfound]
    refine ⟨[source],h.miss hfound hroom,c.limit_put _ _,?_⟩
    rw [callEach_append_singleton,h.state]
    exact List.mem_append_right _ List.mem_cons_self

end HoldsAnswers

namespace ScanJob

/-! ### The files one after another -/

/-- The content of a file that can be read and has no record of this content. -/
def changed? (job : ScanJob) (existing : Bucket Record) (f : FoundFile) : Option Text :=
  match job.read f.path with
  | .error _ => none
  | .ok source =>
    match (Bucket.find? existing f.path).filter (job.keeps (contentHash source)) with
    | some _ => none
    | none => some source

def changedContents (job : ScanJob) (existing : Bucket Record) (files : List FoundFile) : List Text :=
  files.filterMap (job.changed? existing)

section Changed

variable {job : ScanJob} {existing : Bucket Record} {f : FoundFile} {source : Text}

theorem changed?_eq_some_iff : job.changed? existing f = some source ↔ job.read f.path = .ok source ∧
    (Bucket.find? existing f.path).filter (job.keeps (contentHash source)) = none := by
  unfold changed?
  cases hread : job.read f.path with
  | error fault => simp
  | ok content =>
    rw [Except.ok.injEq]
    cases hkept : (Bucket.find? existing f.path).filter (job.keeps (contentHash content)) with
    | some r =>
      refine iff_of_false (by simp [hkept]) ?_
      rintro ⟨rfl,hnone⟩
      simp [hkept] at hnone
    | none =>
      simp only [hkept,Option.some.injEq]
      refine ⟨?_,And.left⟩
      rintro rfl
      exact ⟨rfl,hkept⟩

theorem scanFile_of_changed?_none (h : job.changed? existing f = none) (explain : Explaining ε) (e : ε)
    (answers : Text → Explanation → Prop) :
    ∃ o, job.scanFile explain existing e f = (⟨f,o⟩,e) ∧ job.Outcome existing answers f o := by
  cases hread : job.read f.path with
  | error fault => exact ⟨_,scanFile_of_unread hread explain existing e,.unread hread⟩
  | ok source =>
    cases hkept : (Bucket.find? existing f.path).filter (job.keeps (contentHash source)) with
    | none => simp [changed?_eq_some_iff.mpr ⟨hread,hkept⟩] at h
    | some r =>
      obtain ⟨hfound,hkeeps⟩ := Option.filter_eq_some_iff.mp hkept
      exact ⟨_,scanFile_of_kept hread hkept explain e,.skipped hread hfound hkeeps⟩

theorem scanFile_of_changed?_some (h : job.changed? existing f = some source)
    (explain : Explaining ε) (e : ε) (answers : Text → Explanation → Prop)
    (hanswer : answers source (explain e source).1) :
    ∃ o, job.scanFile explain existing e f = (⟨f,o⟩,(explain e source).2) ∧
      job.Outcome existing answers f o := by
  obtain ⟨hread,hnone⟩ := changed?_eq_some_iff.mp h
  exact ⟨_,scanFile_of_changed hread hnone explain e,
    .explained hread (fun _ => keeps_of_changed hnone) hanswer (job.recounts_recordOf ..)⟩

end Changed

theorem holdsAnswers_scanFiles (job : ScanJob) (existing : Bucket Record) {wrapped : Explaining ω}
    {start w : ω} {c : Recency Explanation} {asked called : List Text}
    (h : HoldsAnswers wrapped start c w asked called) (files : List FoundFile)
    (hinj : Set.InjOn contentHash {s | s ∈ asked ++ job.changedContents existing files})
    (hroom : (asked ++ job.changedContents existing files).toFinset.card ≤ c.limit) :
    ∃ more, HoldsAnswers wrapped start
        (job.scanFiles (throughCache wrapped) existing (c,w) files).2.1
        (job.scanFiles (throughCache wrapped) existing (c,w) files).2.2
        (asked ++ job.changedContents existing files) (called ++ more) ∧
      job.Filled existing
        (fun source x => (source,x) ∈ (callEach wrapped start (called ++ more)).1) files
        (job.scanFiles (throughCache wrapped) existing (c,w) files).1 := by
  induction files generalizing c w asked called with
  | nil => exact ⟨[],by simpa [changedContents,scanFiles] using h,.nil⟩
  | cons f rest ih =>
    rw [scanFiles_cons]
    cases hf : job.changed? existing f with
    | none =>
      have hcontents : job.changedContents existing (f :: rest) =
          job.changedContents existing rest := List.filterMap_cons_none hf
      rw [hcontents] at hinj hroom ⊢
      obtain ⟨more,hnext,hfilled⟩ := ih h hinj hroom
      obtain ⟨o,hscan,houtcome⟩ := scanFile_of_changed?_none hf (throughCache wrapped) (c,w)
        fun source x => (source,x) ∈ (callEach wrapped start (called ++ more)).1
      rw [hscan]
      exact ⟨more,hnext,.cons ⟨rfl,houtcome⟩ hfilled⟩
    | some source =>
      have hcontents : asked ++ job.changedContents existing (f :: rest) =
          (asked ++ [source]) ++ job.changedContents existing rest := by
        rw [changedContents,List.filterMap_cons_some hf,List.append_assoc]
        rfl
      have hfew : (asked ++ [source]).toFinset ⊆
          ((asked ++ [source]) ++ job.changedContents existing rest).toFinset := by
        intro s hs
        rw [List.mem_toFinset] at hs ⊢
        exact List.mem_append_left _ hs
      rw [hcontents] at hinj hroom ⊢
      obtain ⟨first,hasked,hlimit,hanswer⟩ := h.ask
        (hinj.mono fun s hs => List.mem_append_left _ hs)
        ((Finset.card_le_card hfew).trans hroom)
      obtain ⟨more,hnext,hfilled⟩ := ih hasked hinj (hlimit ▸ hroom)
      have hlog := (callEach_grows wrapped start (called ++ first) more).subset hanswer
      rw [List.append_assoc called] at hnext hfilled hlog
      obtain ⟨o,hscan,houtcome⟩ := scanFile_of_changed?_some hf (throughCache wrapped) (c,w)
        (fun source x => (source,x) ∈ (callEach wrapped start (called ++ (first ++ more))).1) hlog
      rw [hscan]
      exact ⟨first ++ more,hnext,.cons ⟨rfl,houtcome⟩ hfilled⟩

/-! ### The rule, with a counter -/

section States

variable {explain : Explaining ε} {explain' : Explaining ε'} {g : ε → ε'}

/-- Two ways of explaining that answer alike, in states that correspond, fill the slots alike. -/
theorem scanFiles_of_states (job : ScanJob) (existing : Bucket Record)
    (h : ∀ e source, explain' (g e) source = ((explain e source).1,g (explain e source).2)) (e : ε)
    (files : List FoundFile) :
    job.scanFiles explain' existing (g e) files =
      ((job.scanFiles explain existing e files).1,g (job.scanFiles explain existing e files).2) := by
  induction files generalizing e with
  | nil => rfl
  | cons f rest ih =>
    have hfile : job.scanFile explain' existing (g e) f =
        ((job.scanFile explain existing e f).1,g (job.scanFile explain existing e f).2) := by
      unfold scanFile
      cases job.read f.path with
      | error fault => rfl
      | ok source =>
        cases hkept : (Bucket.find? existing f.path).filter (job.keeps (contentHash source)) with
        | some r => simp only [hkept]
        | none => simp only [hkept,h]
    rw [scanFiles_cons,hfile,ih,scanFiles_cons]

end States

theorem cached_eq (job : ScanJob) (e : Recency Explanation × Nat) (source : Text) :
    job.cached ⟨e.1,e.2⟩ source = ((throughCache (counting job.rule) e source).1,
      ⟨(throughCache (counting job.rule) e source).2.1,
        (throughCache (counting job.rule) e source).2.2⟩) := by
  obtain ⟨c,n⟩ := e
  cases hfound : (c.get (contentHash source)).1 with
  | some x => rw [cached,Explainer.explain_of_hit hfound,throughCache_of_hit hfound]
  | none =>
    rw [cached,Explainer.explain_of_miss hfound,throughCache_of_miss hfound]
    rfl

/-! ### What a scan comes to -/

/-- Each file whose content is to be explained has a record with an answer to that content. -/
def Answered (job : ScanJob) (existing : Bucket Record) (answers : Text → Explanation → Prop) :
    List FoundFile → List ScannedFile → Prop :=
  List.Forall₂ fun f s => s.file = f ∧ ∀ source, job.changed? existing f = some source →
    ∃ r, s.outcome = .explained r ∧ r.path = f.path ∧ r.hash = contentHash source ∧
      answers source r.explanation

theorem Filled.answered {job : ScanJob} {existing : Bucket Record}
    {answers : Text → Explanation → Prop} {files : List FoundFile} {slots : List ScannedFile}
    (h : job.Filled existing answers files slots) : job.Answered existing answers files slots := by
  refine List.Forall₂.imp ?_ h
  rintro f ⟨g,o⟩ ⟨hfile,houtcome⟩
  refine ⟨hfile,?_⟩
  intro source hsource
  obtain ⟨hread,hnone⟩ := changed?_eq_some_iff.mp hsource
  cases houtcome with
  | unread hread' => cases hread.symm.trans hread'
  | skipped hread' hfound hkeeps =>
    cases hread.symm.trans hread'
    simp [Option.filter_eq_some_iff.mpr ⟨hfound,hkeeps⟩] at hnone
  | explained hread' _ hx hr =>
    cases hread.symm.trans hread'
    exact ⟨_,rfl,hr.path,hr.hash,hr.explanation.symm ▸ hx⟩

theorem Answered.mono {job : ScanJob} {existing : Bucket Record}
    {answers answers' : Text → Explanation → Prop} {files : List FoundFile}
    {slots : List ScannedFile} (h : job.Answered existing answers files slots)
    (ha : ∀ source x, answers source x → answers' source x) :
    job.Answered existing answers' files slots := by
  refine List.Forall₂.imp ?_ h
  rintro f s ⟨hfile,hown⟩
  refine ⟨hfile,?_⟩
  intro source hsource
  obtain ⟨r,hr,hpath,hhash,hanswer⟩ := hown source hsource
  exact ⟨r,hr,hpath,hhash,ha _ _ hanswer⟩

theorem Answered.of_undated {job : ScanJob} {existing : Bucket Record}
    {answers : Text → Explanation → Prop} {files : List FoundFile} {slots slots' : List ScannedFile}
    (h : job.Answered existing answers files slots')
    (hundated : slots.map ScannedFile.undated = slots'.map ScannedFile.undated) :
    job.Answered existing answers files slots := by
  have hslots (slots : List ScannedFile) : job.Answered existing answers files slots ↔
      job.Answered existing answers files (slots.map ScannedFile.undated) := by
    rw [Answered,List.forall₂_map_right_iff]
    refine iff_of_eq (congrArg (List.Forall₂ · files slots) (funext₂ fun f s => propext ?_))
    obtain ⟨g,o⟩ := s
    cases o <;> simp [ScannedFile.undated,FileOutcome.undated,Record.undated,Record.explanation]
  rw [hslots,hundated,← hslots]
  exact h

theorem runWith_scanFiles {job : ScanJob} {access : HistoryAccess σ} {before : σ}
    {files : List FoundFile} {records : List Record}
    (hwalk : job.tree.walk job.selection job.root = .ok files)
    (hlist : access.list before = .ok records) (hreached : job.reached files = files)
    (explain : Explaining ε) (e : ε) :
    (job.runWith explain access ⟨before,e⟩).2.explainer =
        (job.scanFiles explain (byPath records) e files).2 ∧
      ∀ report, (job.runWith explain access ⟨before,e⟩).1 = .ok report →
        report.files = (job.scanFiles explain (byPath records) e files).1 := by
  unfold runWith
  simp only [hwalk,hlist,hreached,lt_irrefl,if_false]
  cases hsettle : job.settle access before (byPath records) files
      (job.scanFiles explain (byPath records) e files).1 with
  | error fault => exact ⟨rfl,by simp⟩
  | ok settled =>
    refine ⟨rfl,?_⟩
    rintro report ⟨⟩
    exact files_of_settle hsettle

section Room

variable {job : ScanJob} {existing : Bucket Record} {files : List FoundFile} {limit : Int}
  (hinj : Set.InjOn contentHash {s | s ∈ job.changedContents existing files})
  (hroom : (job.changedContents existing files).toFinset.card ≤
    (.empty limit : Recency Explanation).limit)
include hinj hroom

theorem holdsAnswers_of_room (wrapped : Explaining ω) (w : ω) :
    ∃ called, HoldsAnswers wrapped w
        (job.scanFiles (throughCache wrapped) existing (.empty limit,w) files).2.1
        (job.scanFiles (throughCache wrapped) existing (.empty limit,w) files).2.2
        (job.changedContents existing files) called ∧
      job.Answered existing (fun source x => (source,x) ∈ (callEach wrapped w called).1) files
        (job.scanFiles (throughCache wrapped) existing (.empty limit,w) files).1 := by
  obtain ⟨called,hholds,hfilled⟩ := job.holdsAnswers_scanFiles existing
    (holdsAnswers_empty wrapped w limit) files hinj hroom
  exact ⟨called,hholds,hfilled.answered⟩

theorem cached_of_room :
    OncePerContent (job.changedContents existing files)
        (job.scanFiles job.cached existing ⟨.empty limit,0⟩ files).2.calls
        (job.scanFiles job.cached existing ⟨.empty limit,0⟩ files).2.cache ∧
      job.Answered existing (fun source x => x = job.rule source) files
        (job.scanFiles job.cached existing ⟨.empty limit,0⟩ files).1 := by
  obtain ⟨called,hholds,hanswered⟩ := holdsAnswers_of_room hinj hroom (counting job.rule) 0
  have hcalls : (job.scanFiles (throughCache (counting job.rule)) existing (.empty limit,0)
      files).2.2 = called.length := by
    rw [hholds.state,callEach_counting]
  have hscan : job.scanFiles job.cached existing ⟨.empty limit,0⟩ files = _ :=
    job.scanFiles_of_states existing job.cached_eq (.empty limit,0) files
  rw [hscan]
  refine ⟨?_,hanswered.mono ?_⟩
  · dsimp only
    rw [hcalls]
    exact hholds.oncePerContent
  · intro source x hanswer
    rw [callEach_counting] at hanswer
    obtain ⟨source',-,heq⟩ := List.mem_map.mp hanswer
    obtain ⟨rfl,hrule⟩ := Prod.mk.inj heq
    exact hrule.symm

end Room

/-- Identical content is explained once by a scan with one worker, through a cache that starts empty
and has room for the contents to be explained. This holds of any explainer that the cache wraps: it is
called once for each of the contents, and every file gets the answer to its own content. It holds of
the files one after another, also where the history cannot be settled, and however a worker that is
alone takes its steps. -/
theorem identical_content_explained_once (job : ScanJob) (access : HistoryAccess σ) (before : σ)
    (limit : Int) {files : List FoundFile} {records : List Record}
    (hwalk : job.tree.walk job.selection job.root = .ok files)
    (hlist : access.list before = .ok records) (hreached : job.reached files = files)
    (hinj : Set.InjOn contentHash {s | s ∈ job.changedContents (byPath records) files})
    (hroom : (job.changedContents (byPath records) files).toFinset.card ≤
      (.empty limit : Recency Explanation).limit) :
    (∀ (ω : Type) (wrapped : Explaining ω) (w : ω), ∃ called : List Text,
      called.Nodup ∧ (∀ s, s ∈ called ↔ s ∈ job.changedContents (byPath records) files) ∧
      (job.runWith (throughCache wrapped) access ⟨before,(.empty limit,w)⟩).2.explainer.2 =
        (callEach wrapped w called).2 ∧
      OncePerContent (job.changedContents (byPath records) files) called.length
        (job.runWith (throughCache wrapped) access ⟨before,(.empty limit,w)⟩).2.explainer.1 ∧
      ∀ report, (job.runWith (throughCache wrapped) access ⟨before,(.empty limit,w)⟩).1 = .ok report →
        job.Answered (byPath records) (fun source x => (source,x) ∈ (callEach wrapped w called).1) files
          report.files) ∧
    (OncePerContent (job.changedContents (byPath records) files)
        (job.run access ⟨before,⟨.empty limit,0⟩⟩).2.explainer.calls
        (job.run access ⟨before,⟨.empty limit,0⟩⟩).2.explainer.cache ∧
      ∀ report, (job.run access ⟨before,⟨.empty limit,0⟩⟩).1 = .ok report →
        job.Answered (byPath records) (fun source x => x = job.rule source) files report.files) ∧
    ∀ (jobs : Nat) (s : Scanning σ) (report : ScanReport) (after : σ), jobs ≤ 1 →
      job.Runs access jobs (.start before ⟨.empty limit,0⟩) s →
      s.outcome? = some (.ok report,after) →
      OncePerContent (job.changedContents (byPath records) files) s.board.explainer.calls
        s.board.explainer.cache ∧
      job.Answered (byPath records) (fun source x => x = job.rule source) files report.files := by
  have hcached := cached_of_room hinj hroom
  refine ⟨?_,?_,?_⟩
  · intro ω wrapped w
    obtain ⟨called,hholds,hanswered⟩ := holdsAnswers_of_room hinj hroom wrapped w
    obtain ⟨hexplainer,hreport⟩ := runWith_scanFiles hwalk hlist hreached (throughCache wrapped)
      (.empty limit,w)
    rw [hexplainer]
    refine ⟨called,hholds.nodup,hholds.same,hholds.state,hholds.oncePerContent,?_⟩
    intro report hrun
    rw [hreport report hrun]
    exact hanswered
  · obtain ⟨hexplainer,hreport⟩ := runWith_scanFiles hwalk hlist hreached job.cached
      ⟨.empty limit,0⟩
    have hrun : job.run access ⟨before,⟨.empty limit,0⟩⟩ =
        job.runWith job.cached access ⟨before,⟨.empty limit,0⟩⟩ := rfl
    rw [hrun,hexplainer]
    refine ⟨hcached.1,?_⟩
    intro report hrun
    rw [hreport report hrun]
    exact hcached.2
  · intro jobs s report after hjobs hruns hout
    obtain ⟨files',records',hwalk',hlist',horder⟩ := holdsOrder_of_runs hjobs hruns hout
    cases hwalk.symm.trans hwalk'
    cases hlist.symm.trans hlist'
    rw [horder.explainer]
    exact ⟨hcached.1,hcached.2.of_undated horder.slots⟩

def sampleTwins : ScanJob where
  __ := sampleScan
  tree := { nodes := [(["p"],.folder),(["p","kept.py"],.file "x" 5),(["p","new.py"],.file "y" 6),
    (["p","other.py"],.file "w" 7),(["p","secret.py"],.file "z" 8),(["p","twin.py"],.file "y" 9)] }

def sampleTwinFiles : List FoundFile :=
  [⟨"/p/kept.py","kept.py",5,1⟩,⟨"/p/new.py","new.py",6,1⟩,⟨"/p/other.py","other.py",7,1⟩,
    ⟨"/p/secret.py","secret.py",8,1⟩,⟨"/p/twin.py","twin.py",9,1⟩]

theorem walk_sampleTwins :
    sampleTwins.tree.walk sampleTwins.selection sampleTwins.root = .ok sampleTwinFiles :=
  FileTree.walk_of_visit ["p"] (by decide +kernel) (by decide +kernel) (by decide +kernel)

def sampleTwinContents : List Text := ["y","w","y"]

theorem changedContents_sampleTwins :
    sampleTwins.changedContents (byPath sampleLedger.list) sampleTwinFiles = sampleTwinContents := by
  decide +kernel

/-- Two contents among three files, and a cache with room for two. -/
theorem identical_content_explained_once_sample :
    sampleTwinContents.toFinset.card = 2 ∧ OncePerContent sampleTwinContents
      (sampleTwins.run Ledger.access ⟨sampleLedger,⟨.empty 2,0⟩⟩).2.explainer.calls
      (sampleTwins.run Ledger.access ⟨sampleLedger,⟨.empty 2,0⟩⟩).2.explainer.cache := by
  have hcard : sampleTwinContents.toFinset.card = 2 := by decide
  have hinj : Set.InjOn contentHash
      {s | s ∈ sampleTwins.changedContents (byPath sampleLedger.list) sampleTwinFiles} := by
    have hsample : ∀ s ∈ sampleTwinContents, s ∈ sampleContents := by decide
    rw [changedContents_sampleTwins]
    exact injOn_sampleContents.mono hsample
  have hroom : (sampleTwins.changedContents (byPath sampleLedger.list)
      sampleTwinFiles).toFinset.card ≤ (.empty 2 : Recency Explanation).limit := by
    rw [changedContents_sampleTwins,hcard]
    decide
  have honce := (identical_content_explained_once sampleTwins Ledger.access sampleLedger 2
    walk_sampleTwins rfl rfl hinj hroom).2.1.1
  rw [changedContents_sampleTwins] at honce
  exact ⟨hcard,honce⟩

end ScanJob
end CircuitNotes
