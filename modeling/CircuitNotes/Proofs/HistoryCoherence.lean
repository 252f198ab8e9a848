import CircuitNotes.Command.Run
import CircuitNotes.Proofs.CachedExplaining
import CircuitNotes.Proofs.HistoryUse
import CircuitNotes.Proofs.Paths
import CircuitNotes.Proofs.ScanReconciliation
import CircuitNotes.Proofs.StoredDatabases

/-! The history stays coherent: whatever commands are run and whatever happens to the sources between
them, every stored record is the explanation of a source with the digest that it goes by, under a
constructor with the fingerprint that is stored. -/
namespace CircuitNotes

theorem fingerprint_ne_nil (constructor : String) : fingerprint constructor ≠ [] := by
  intro h
  have hhex : Text.toHex ((Sha256.digest (fingerprintText constructor)).take 8) = "" :=
    Text.ofString_injective (h.trans (by rfl))
  have hlength : (Sha256.digest (fingerprintText constructor)).length = 32 := by
    simp [Sha256.digest,Sha256.State.toBytes]
  have hchars := congrArg String.toList hhex
  simp only [Text.toHex,String.toList_ofList,String.toList_empty] at hchars
  rw [List.flatMap_eq_nil_iff] at hchars
  have htake : (Sha256.digest (fingerprintText constructor)).take 8 = [] := by
    apply List.eq_nil_iff_forall_not_mem.mpr
    intro b hb
    simpa using hchars b hb
  have := congrArg List.length htake
  simp [hlength] at this

/-- A record that explains a source with its digest, under a constructor with a fingerprint. -/
def Record.Explains (r : Record) (stamp : Text) : Prop :=
  ∃ source constructor, contentHash source = r.hash ∧ fingerprint constructor = stamp ∧
    r.explanation = explainSource constructor source

namespace Database

def stamp? (db : Database) : Option Text := Bucket.find? db.settings Schema.fingerprintKey

/-- Every record that is stored explains a source under the fingerprint that is stored. What is
stored is the form of the record, which gives it back if it fits. -/
def Coherent (db : Database) : Prop :=
  ∀ e ∈ db.records, ∃ r stamp, e.2 = Packed.record r ∧
    (r.Storable → Packed.read? e.2 = some (r,[])) ∧ db.stamp? = some stamp ∧ r.Explains stamp

/-- A database as it is between transactions: coherent, and with the fingerprint of a constructor as
soon as it has a version. -/
structure Sound (db : Database) : Prop where
  coherent : db.Coherent
  stamped : Bucket.find? db.settings Schema.versionKey ≠ none →
    ∃ constructor, db.stamp? = some (fingerprint constructor)

theorem sound_empty : Sound {} := by
  refine ⟨?_,?_⟩
  · intro e he
    simp at he
  · intro h
    exact absurd rfl h

theorem Sound.clear {db : Database} (h : db.Sound) : db.clear.Sound := by
  refine ⟨?_,h.stamped⟩
  intro e he
  simp [Database.clear] at he

theorem stamp?_migrate (db : Database) (constructor : String) :
    (db.migrate constructor).stamp? = some (fingerprint constructor) := by
  simp [stamp?,migrate,setSchema,Schema.ofConstructor]

theorem Sound.migrate {db : Database} (h : db.Sound) {constructor : String}
    (hrecords : db.records = [] ∨ db.stamp? = some (fingerprint constructor)) :
    (db.migrate constructor).Sound := by
  refine ⟨?_,fun _ => ⟨constructor,stamp?_migrate db constructor⟩⟩
  intro e he
  rw [stamp?_migrate]
  have he' : e ∈ db.records := he
  rcases hrecords with hempty | hsame
  · simp [hempty] at he'
  · obtain ⟨r,stamp,hbytes,hread,hstamp,hr⟩ := h.coherent e he'
    rw [hsame] at hstamp
    exact ⟨r,stamp,hbytes,hread,hstamp,hr⟩

theorem Coherent.records_eq_nil {db : Database} (h : db.Coherent)
    (hstamp : db.stamp?.getD [] = []) : db.records = [] := by
  apply List.eq_nil_iff_forall_not_mem.mpr
  intro e he
  obtain ⟨r,stamp,_,_,hs,_,constructor,_,hc,_⟩ := h e he
  rw [hs,Option.getD_some,← hc] at hstamp
  exact fingerprint_ne_nil constructor hstamp

theorem Sound.put {db db' : Database} (h : db.Sound) {r : Record} {stamp : Text}
    (hstamp : db.stamp? = some stamp) (hr : r.Explains stamp) (hput : db.put r = .ok db') :
    db'.Sound ∧ db'.stamp? = some stamp := by
  cases eq_of_put hput
  refine ⟨⟨?_,h.stamped⟩,hstamp⟩
  intro e he
  rcases Bucket.mem_insert he with rfl | he
  · refine ⟨r,stamp,rfl,?_,hstamp,hr⟩
    intro hfits
    exact Packed.read?_record hfits
  · exact h.coherent e he

theorem Sound.putAll {db db' : Database} (h : db.Sound) {rs : List Record} {stamp : Text}
    (hstamp : db.stamp? = some stamp) (hrs : ∀ r ∈ rs, r.Explains stamp)
    (hput : db.putAll rs = .ok db') : db'.Sound ∧ db'.stamp? = some stamp := by
  induction rs generalizing db with
  | nil =>
    rw [← Except.ok.inj hput]
    exact ⟨h,hstamp⟩
  | cons r rs ih =>
    obtain ⟨middle,hone,hrest⟩ := exceptBind_eq_ok hput
    obtain ⟨hmiddle,hstamp'⟩ := h.put hstamp (hrs r List.mem_cons_self) hone
    exact ih hmiddle hstamp' (fun r' hr' => hrs r' (List.mem_cons_of_mem _ hr')) hrest

theorem Sound.delete {db : Database} (h : db.Sound) (path : Text) : (db.delete path).Sound := by
  refine ⟨?_,h.stamped⟩
  intro e he
  exact h.coherent e (Bucket.mem_of_mem_erase he)

end Database

/-! ### Opening -/

theorem Schema.eq_of_ofSettings {settings : Bucket Text} {s : Schema}
    (h : Schema.ofSettings settings = .ok s) :
    s.fingerprint = (Bucket.find? settings fingerprintKey).getD [] ∧
      (Bucket.find? settings versionKey = none → s.version = 0) := by
  unfold Schema.ofSettings at h
  cases hversion : Bucket.find? settings versionKey with
  | none =>
    simp only [hversion] at h
    rw [← Except.ok.inj h]
    exact ⟨rfl,fun _ => rfl⟩
  | some text =>
    simp only [hversion] at h
    cases hn : Integer.readDecimal text with
    | error fault =>
      rw [hn] at h
      cases h
    | ok n =>
      rw [hn] at h
      rw [← Except.ok.inj h]
      exact ⟨rfl,by simp⟩

namespace MigrationPlan

theorem ofVersion_needs (version : Int) :
    ((ofVersion version).needsRebuild = true ↔ Schema.current < version) ∧
      ((ofVersion version).needsMigration = true ↔ version < Schema.current) := by
  unfold ofVersion
  by_cases h₀ : version = 0
  · subst h₀
    decide
  by_cases h₁ : version < Schema.current
  · simp only [if_neg h₀,if_pos h₁,Bool.false_eq_true,false_iff,true_iff]
    omega
  by_cases h₂ : Schema.current < version
  · simp only [if_neg h₀,if_neg h₁,if_pos h₂,Bool.false_eq_true,false_iff,true_iff]
    omega
  · simp only [if_neg h₀,if_neg h₁,if_neg h₂,Bool.false_eq_true,false_iff]
    omega

theorem of_keeps {s : Schema} {constructor : String}
    (h : (ofSchema s constructor).needsRebuild = false) :
    s.version ≤ Schema.current ∧
      (s.fingerprint = [] ∨ s.fingerprint = CircuitNotes.fingerprint constructor) := by
  unfold ofSchema at h
  split at h
  · cases h
  · rename_i hsame
    have hle : s.version ≤ Schema.current := by
      by_contra hlater
      rw [((ofVersion_needs s.version).1.mpr (by omega))] at h
      cases h
    refine ⟨hle,?_⟩
    by_cases hempty : s.fingerprint = []
    · exact Or.inl hempty
    · right
      by_contra hother
      exact hsame ⟨hle,hempty,hother⟩

theorem current_of_settled {s : Schema} {constructor : String}
    (h : (ofSchema s constructor).needsRebuild = false)
    (h' : (ofSchema s constructor).needsMigration = false) : s.version = Schema.current := by
  have hle := (of_keeps h).1
  have hmigration : (ofVersion s.version).needsMigration = false := by
    unfold ofSchema at h'
    split at h' <;> exact h'
  have hnot : ¬s.version < Schema.current := by
    intro hlt
    rw [(ofVersion_needs s.version).2.mpr hlt] at hmigration
    cases hmigration
  omega

end MigrationPlan

namespace Connection

/-- A database in use whose state is sound, and so were those that its transactions led to. -/
structure Sound (c : Connection) : Prop where
  database : c.database.Sound
  journal : ∀ db ∈ c.journal, db.Sound

theorem Sound.commit {c : Connection} (h : c.Sound) {db : Database} (hdb : db.Sound) :
    (c.commit db).Sound := by
  refine ⟨hdb,?_⟩
  intro db' hdb'
  rcases List.mem_cons.mp hdb' with rfl | hdb'
  · exact hdb
  · exact h.journal db' hdb'

theorem Sound.reopen {c : Connection} (h : c.Sound) : c.reopen.Sound := by
  have hc := h.commit h.database
  exact ⟨hc.database,hc.journal⟩

/-- A sound database in use that has the fingerprint of a constructor. -/
structure Ready (c : Connection) (constructor : String) : Prop where
  sound : c.Sound
  stamp : c.database.stamp? = some (fingerprint constructor)

theorem of_plan {c : Connection} {constructor : String} {plan : MigrationPlan}
    (h : c.plan constructor = .ok plan) :
    c.isOpen = true ∧ ∃ s, c.database.schema = .ok s ∧ plan = .ofSchema s constructor := by
  unfold Connection.plan at h
  cases hask : c.ask Database.schema with
  | error e => simp [hask] at h
  | ok s =>
    simp only [hask,Except.ok.injEq] at h
    simp only [ask] at hask
    split_ifs at hask with hopen
    exact ⟨hopen,s,hask,h.symm⟩

theorem schema_of_plan {c : Connection} {constructor : String} {plan : MigrationPlan}
    (h : c.plan constructor = .ok plan) : ∃ s, plan = MigrationPlan.ofSchema s constructor ∧
      s.fingerprint = c.database.stamp?.getD [] ∧
      (Bucket.find? c.database.settings Schema.versionKey = none → s.version = 0) := by
  obtain ⟨_,s,hs,hplan⟩ := of_plan h
  exact ⟨s,hplan,Schema.eq_of_ofSettings hs⟩

/-- Bringing a sound database to the current schema leaves it sound, with the fingerprint of the
constructor; also in between, when the records are cleared and the new fingerprint is not yet
there. -/
theorem Sound.prepare {c c' : Connection} (h : c.Sound) {constructor reason : String}
    (hp : c.prepare constructor = .ok (reason,c')) : c'.Ready constructor := by
  obtain ⟨plan,hplan,hrest⟩ := exceptBind_eq_ok hp
  obtain ⟨s,hs,hstamp,hversion⟩ := schema_of_plan hplan
  have hc' : (plan.transactions constructor).foldl (fun c change => c.commit (change c.database)) c
      = c' := (Prod.mk.inj (Except.ok.inj hrest)).2
  cases hrebuild : plan.needsRebuild with
  | true =>
    simp only [MigrationPlan.transactions,hrebuild,if_true,Bool.true_or,List.cons_append,
      List.nil_append,List.foldl_cons,List.foldl_nil] at hc'
    subst hc'
    have hcleared := h.commit h.database.clear
    refine ⟨hcleared.commit (hcleared.database.migrate (Or.inl rfl)),?_⟩
    exact Database.stamp?_migrate _ constructor
  | false =>
    obtain ⟨_,hfingerprint⟩ := MigrationPlan.of_keeps (hs ▸ hrebuild)
    rw [hstamp] at hfingerprint
    -- What is stored goes with the constructor, or nothing is stored.
    have hrecords : c.database.records = [] ∨ c.database.stamp? = some (fingerprint constructor) := by
      rcases hfingerprint with hempty | hsame
      · exact Or.inl (h.database.coherent.records_eq_nil hempty)
      · right
        cases hstamp? : c.database.stamp? with
        | none =>
          rw [hstamp?] at hsame
          exact absurd hsame.symm (fingerprint_ne_nil constructor)
        | some stamp =>
          rw [hstamp?] at hsame
          exact congrArg some hsame
    cases hmigration : plan.needsMigration with
    | true =>
      simp only [MigrationPlan.transactions,hrebuild,hmigration,Bool.false_or,if_true,
        Bool.false_eq_true,if_false,List.nil_append,List.foldl_cons,List.foldl_nil] at hc'
      subst hc'
      exact ⟨h.commit (h.database.migrate hrecords),Database.stamp?_migrate _ constructor⟩
    | false =>
      simp only [MigrationPlan.transactions,hrebuild,hmigration,Bool.or_self,Bool.false_eq_true,
        if_false,List.append_nil,List.foldl_nil] at hc'
      subst hc'
      have hcurrent := MigrationPlan.current_of_settled (hs ▸ hrebuild) (hs ▸ hmigration)
      have hsome : Bucket.find? c.database.settings Schema.versionKey ≠ none := by
        intro hnone
        rw [hversion hnone] at hcurrent
        exact absurd hcurrent (by decide)
      obtain ⟨old,hold⟩ := h.database.stamped hsome
      refine ⟨h,?_⟩
      rw [hold,Option.getD_some] at hfingerprint
      rcases hfingerprint with hempty | hsame
      · exact absurd hempty (fingerprint_ne_nil old)
      · rw [hold,hsame]

end Connection

/-! ### Files -/

namespace FileTree

/-- A tree whose histories are sound: what stands under their name is no link, and if it is the file
of a database then this is sound. -/
structure Sound (t : FileTree) : Prop where
  noLinks : t.NoLinkNamed historyName
  histories : ∀ e ∈ t.nodes, e.1.getLast? = some historyName → ∀ content m c,
    e.2 = .file content m → Storage.decode? content = some c → c.database.Sound

theorem Sound.set {t : FileTree} (h : t.Sound) {place : List String} {content : Text} {now : Int}
    (hcontent : ∀ c, Storage.decode? content = some c → c.database.Sound) :
    (t.set place (.file content now)).Sound := by
  refine ⟨?_,?_⟩
  · intro e he hname target m
    rcases mem_set he with rfl | he
    · simp
    · exact h.noLinks e he hname target m
  · intro e he hname content' m c hfile hdecode
    rcases mem_set he with rfl | he
    · cases hfile
      exact hcontent c hdecode
    · exact h.histories e he hname content' m c hfile hdecode

theorem Sound.addsFolders {t t' : FileTree} (h : t.Sound) (ht : AddsFolders t t') : t'.Sound := by
  refine ⟨?_,?_⟩
  · intro e he hname target m
    rcases ht.mem e he with he | hfolder
    · exact h.noLinks e he hname target m
    · simp [hfolder]
  · intro e he hname content m c hfile hdecode
    rcases ht.mem e he with he | hfolder
    · exact h.histories e he hname content m c hfile hdecode
    · rw [hfolder] at hfile
      cases hfile

theorem Sound.writeDocument {t t' : FileTree} (h : t.Sound) {now : Int} {path : String}
    {d : Document} (hw : t.write now path d.markdown = .ok t') : t'.Sound := by
  obtain ⟨place,_,ht,_⟩ := write_eq_ok hw
  rw [ht]
  apply h.set
  simp [Storage.decode?_markdown]

theorem Sound.store {t t' : FileTree} (h : t.Sound) {now : Int} {path : String} {c : Connection}
    (hc : c.database.Sound) (hw : t.store now path c = .ok t') : t'.Sound := by
  obtain ⟨place,_,ht,_⟩ := write_eq_ok hw
  rw [ht]
  apply h.set
  intro c' hc'
  rw [Storage.decode?_encode] at hc'
  rw [← Option.some.inj hc']
  exact hc

theorem Sound.read {t : FileTree} (h : t.Sound) {root : String} {content : Text} {c : Connection}
    (hread : t.read (historyPath root) = .ok content) (hc : Storage.decode? content = some c) :
    c.Sound := by
  obtain ⟨place,m,hlookup⟩ := (t.read_eq_ok_iff _ _).mp hread
  obtain hfolder | ⟨_,_,_,hfind,hplace⟩ := lookup_present hlookup
  · cases hfolder
  have hlast := last_of_lookup ⟨piece_historyName.nonempty,piece_historyName.notHere,
    piece_historyName.notUp⟩ h.noLinks (pieces_historyPath root) hlookup
  refine ⟨h.histories _ (mem_of_find? hfind hplace) hlast content m c rfl hc,?_⟩
  simp [(Storage.of_decode? hc).2]

theorem Sound.databaseAt {t : FileTree} (h : t.Sound) {root : String} {c : Connection}
    (hc : t.databaseAt (historyPath root) = .ok c) : c.Sound := by
  have hempty : Connection.Sound {} := ⟨Database.sound_empty,by simp⟩
  unfold FileTree.databaseAt at hc
  cases hread : t.read (historyPath root) with
  | error e =>
    simp only [hread] at hc
    split_ifs at hc
    exact Except.ok.inj hc ▸ hempty
  | ok content =>
    simp only [hread] at hc
    split_ifs at hc
    · exact Except.ok.inj hc ▸ hempty
    · cases hdecode : Storage.decode? content with
      | none => simp [hdecode] at hc
      | some c' =>
        have hcc : c' = c := by simpa [hdecode] using hc
        exact h.read hread (hcc ▸ hdecode)

/-- A database that is opened is the one that was held, and it has been stored again. -/
theorem of_connect {t t' : FileTree} {now : Int} {path : String} {c : Connection}
    (h : t.connect now path = .ok (c,t')) :
    ∃ held, t.databaseAt path = .ok held ∧ c = held.reopen ∧ t.store now path c = .ok t' := by
  obtain ⟨held,hheld,hrest⟩ := exceptBind_eq_ok h
  cases hstore : t.store now path held.reopen with
  | error e =>
    rw [hstore] at hrest
    cases hrest
  | ok t'' =>
    rw [hstore] at hrest
    cases hrest
    exact ⟨held,hheld,rfl,hstore⟩

theorem Sound.connect {t t' : FileTree} (h : t.Sound) {now : Int} {root : String} {c : Connection}
    (hc : t.connect now (historyPath root) = .ok (c,t')) : c.Sound ∧ t'.Sound := by
  obtain ⟨held,hheld,rfl,hstore⟩ := of_connect hc
  have hsound := (h.databaseAt hheld).reopen
  exact ⟨hsound,h.store hsound.database hstore⟩

end FileTree

/-! ### Commands -/

structure World.Sound (w : World) : Prop where
  tree : w.tree.Sound
  journal : ∀ db ∈ w.journal, db.Sound

theorem World.quiet_sound : Work.Quiet World.Sound := fun _ _ _ hw => ⟨hw.tree,hw.journal⟩

namespace Project

open Work

variable {ε : Type}

theorem keeps_writeDocument (p : Project) (path : String) (d : Document) (because : FileError → ε) :
    Keeps World.Sound (p.writeDocument path d because) (fun _ => True) := by
  unfold Project.writeDocument
  refine Keeps.bind (keeps_change ?_) fun _ _ => keeps_change ?_
  · intro w t hw ht
    exact ⟨hw.tree.addsFolders (FileTree.addsFolders_of_makeFoldersAt ht),hw.journal⟩
  · intro w t hw ht
    exact ⟨hw.tree.writeDocument ht,hw.journal⟩

end Project

/-! ### Scans -/

namespace ScanJob

/-- What storing and deleting keep of a history is kept by a scan, if it holds of the records that
the scan makes. -/
theorem Finishes.keeps {σ : Type} {job : ScanJob} {answers : Text → Explanation → Prop}
    {access : HistoryAccess σ} {before after : σ} {report : ScanReport} {I : σ → Prop}
    {R : Record → Prop} (h : job.Finishes answers access before report after)
    (hput : ∀ s rs s', I s → (∀ r ∈ rs, R r) → access.putAll s rs = .ok s' → I s')
    (hdelete : ∀ s path s', I s → access.delete s path = .ok s' → I s')
    (hfresh : ∀ f source x r, answers source x → r.Recounts f source x → R r)
    (hbefore : I before) : I after := by
  obtain ⟨_,_,hfilled,hsettle⟩ := h
  have hprune (s : σ) (paths : List Text) (hs : I s) : I (prune access s paths).1 := by
    induction paths generalizing s with
    | nil => exact hs
    | cons path rest ih =>
      cases hd : access.delete s path with
      | ok s' =>
        rw [prune_cons_ok hd]
        exact ih s' (hdelete s path s' hs hd)
      | error e =>
        rw [prune_cons_error hd]
        exact ih s hs
  simp only [settle] at hsettle
  split at hsettle
  · simp at hsettle
  · rename_i middle hmiddle
    have hm : I middle := by
      split_ifs at hmiddle
      · exact Except.ok.inj hmiddle ▸ hbefore
      · refine hput _ _ _ hbefore ?_ hmiddle
        intro r hr
        obtain ⟨f,_,source,x,_,_,hx,hrecounts⟩ := hfilled.fresh hr
        exact hfresh f source x r hx hrecounts
    rw [← (Prod.mk.inj (Except.ok.inj hsettle)).2]
    exact hprune middle _ hm

end ScanJob

theorem Explainer.Follows.answers {job : ScanJob} {e : Explainer} (h : e.Follows job.rule)
    {source : Text} {x : Explanation}
    (hx : job.Answers (fun e source => e.explain job.rule source) e source x) :
    ∃ source', contentHash source' = contentHash source ∧ x = job.rule source' := by
  obtain ⟨earlier,_,hx⟩ := hx
  obtain ⟨source',hhash,hanswer⟩ := ((h.foldl earlier).explain source).1
  exact ⟨source',hhash,hx.trans hanswer⟩

namespace Connection

theorem Ready.commit {c : Connection} {constructor : String} (h : c.Ready constructor)
    {db : Database} (hdb : db.Sound) (hstamp : db.stamp? = some (fingerprint constructor)) :
    (c.commit db).Ready constructor := ⟨h.sound.commit hdb,hstamp⟩

theorem Ready.update {c c' : Connection} {constructor : String} (h : c.Ready constructor)
    {change : Database → Except HistoryError Database}
    (hchange : ∀ db, change c.database = .ok db →
      db.Sound ∧ db.stamp? = some (fingerprint constructor))
    (hupdate : c.update change = .ok c') : c'.Ready constructor := by
  obtain ⟨db,hdb,hc⟩ := exceptBind_eq_ok hupdate
  simp only [ask] at hdb
  split_ifs at hdb
  obtain ⟨hsound,hstamp⟩ := hchange db hdb
  exact Except.ok.inj hc ▸ h.commit hsound hstamp

theorem Ready.scan {job : ScanJob} {constructor : String} (hrule : job.rule = explainSource constructor)
    {c : Connection} (h : c.Ready constructor) {limit : Int} {calls : Nat} {report : ScanReport}
    {state : ScanState Connection}
    (hrun : job.run Connection.access ⟨c,⟨.empty limit,calls⟩⟩ = (.ok report,state)) :
    state.history.Ready constructor := by
  refine (job.finishes_of_runWith _ _ hrun).keeps (I:=fun c => c.Ready constructor)
    (R:=fun r => r.Explains (fingerprint constructor)) ?_ ?_ ?_ h
  · intro s rs s' hs hrs hput
    exact hs.update (fun db hdb => hs.sound.database.putAll hs.stamp hrs hdb) hput
  · intro s path s' hs hdelete
    refine hs.update (fun db hdb => ?_) hdelete
    rw [← Except.ok.inj hdb]
    exact ⟨hs.sound.database.delete path,hs.stamp⟩
  · intro f source x r hx hr
    obtain ⟨source',hhash,rfl⟩ := (Explainer.follows_empty job.rule limit calls).answers hx
    refine ⟨source',constructor,?_,rfl,?_⟩
    · rw [hr.hash,hhash]
    · rw [hr.explanation,hrule]

end Connection

/-! ### Parts of commands that change no file -/

section Quiet

open Work

variable {I : World → Prop}

namespace Project

theorem quiet_readSource (path argument : String) :
    Keeps I (readSource path argument) (fun _ => True) := by
  unfold Project.readSource
  refine Keeps.bind (keeps_ask _ _) fun node _ => ?_
  by_cases hfolder : node.isFolder = true
  · simp only [if_pos hfolder]
    exact Keeps.bind (keeps_throw (Q:=fun _ => False) _) fun _ hfalse => hfalse.elim
  · simp only [if_neg hfolder]
    exact Keeps.bind (keeps_ask _ _) fun _ _ => keeps_pure trivial

theorem quiet_heldDocument (path : String) : Keeps I (heldDocument path) (fun _ => True) := by
  unfold Project.heldDocument
  refine Keeps.bind (keeps_files (T:=fun _ => True) fun _ _ => trivial) fun t _ => ?_
  cases t.read path with
  | ok content => exact keeps_pure trivial
  | error e =>
    simp only
    split_ifs
    · exact keeps_pure trivial
    · exact keeps_throw _

theorem quiet_checkDocument (hI : Quiet I) (p : Project) (path : String) (d : Document) :
    Keeps I (p.checkDocument path d) (fun _ => True) := by
  unfold Project.checkDocument
  refine Keeps.bind (quiet_heldDocument path) fun held _ => ?_
  split_ifs
  · exact keeps_print hI _
  · exact Keeps.bind (keeps_print hI _) fun _ _ => keeps_throw _

theorem quiet_noteExplanation {ε : Type} (hI : Quiet I) (p : Project) (argument : String)
    (e : Explanation) : Keeps I (p.noteExplanation argument e : Work ε Unit) (fun _ => True) := by
  unfold Project.noteExplanation
  by_cases hname : e.circuit.name.isEmpty = true
  · simp only [if_pos hname]
    exact Keeps.bind (keeps_log hI p _ _) fun _ _ => keeps_log hI p _ _
  · simp only [if_neg hname]
    exact keeps_log hI p _ _

theorem quiet_printResult (hI : Quiet I) (p : Project) (format : String) (c : Circuit) :
    Keeps I (p.printResult format c) (fun _ => True) := by
  unfold Project.printResult
  split
  · exact keeps_print hI _
  · exact keeps_print hI _
  · exact keeps_throw _

theorem quiet_printExplanation (hI : Quiet I) (p : Project) (o : ExplainOptions) (e : Explanation) :
    Keeps I (p.printExplanation o e) (fun _ => True) := by
  unfold Project.printExplanation
  refine Keeps.bind (p.quiet_printResult hI _ _) fun _ _ => ?_
  split_ifs
  · exact keeps_print hI _
  · exact keeps_pure trivial

end Project

theorem CommandLine.quiet_openProject (hI : Quiet I) (l : CommandLine) (s : Surroundings) :
    Keeps I (l.openProject s) (fun _ => True) := by
  unfold CommandLine.openProject
  refine Keeps.bind (keeps_files (T:=fun _ => True) fun _ _ => trivial) fun t _ => ?_
  simp only
  generalize (if l.configPath.isEmpty then Config.loadFrom t (l.projectRoot t)
    else Config.load t l.configPath) = loaded
  cases loaded with
  | error e => exact keeps_throw _
  | ok c => exact Keeps.bind (keeps_log hI _ _ _) fun _ _ => keeps_pure trivial

end Quiet

/-! ### Whole commands -/

namespace Project

open Work

theorem upholds_sound (p : Project) :
    p.Upholds World.Sound (fun c => c.Ready p.config.scan.constructor) where
  quiet := World.quiet_sound
  folders := fun _ _ hw ht =>
    ⟨hw.tree.addsFolders (FileTree.addsFolders_of_makeFoldersAt ht),hw.journal⟩
  connects := fun _ _ _ _ hw₀ _ hconnect =>
    ⟨(hw₀.tree.connect hconnect).2,(hw₀.tree.connect hconnect).1.journal⟩
  prepares := fun _ _ _ _ _ hw hconnect hprepare => (hw.tree.connect hconnect).1.prepare hprepare
  stores := fun _ _ _ hw hc hstore =>
    ⟨hw.tree.store hc.sound.database hstore,hc.sound.journal⟩
  journals := fun _ _ hw hc => ⟨hw.tree,hc.sound.journal⟩
  scans := fun _ _ _ _ hrule hc hrun => hc.scan hrule hrun

theorem keeps_scanHistory (p : Project) : Keeps World.Sound p.scanHistory
    (fun c => ∀ c', c = some c' → c'.Ready p.config.scan.constructor) :=
  p.upholds_sound.keeps_scanHistory

theorem keeps_writeDocuments_of {I : World → Prop} {p : Project}
    (h : ∀ path d, Keeps I (p.writeDocument path d id) (fun _ => True)) (folder : String)
    (files : List ScannedFile) : Keeps I (p.writeDocuments folder files) (fun _ => True) := by
  induction files with
  | nil => exact keeps_pure trivial
  | cons s rest ih =>
    rw [Project.writeDocuments]
    cases s.record? with
    | none => exact ih
    | some r =>
      refine Keeps.bind (keeps_files (T:=fun _ => True) fun _ _ => trivial) fun t _ => ?_
      by_cases hskip : (s.isSkipped && (t.stat (documentPath folder s.file.rel)).isOk) = true
      · simp only [if_pos hskip]
        exact ih
      · simp only [if_neg hskip]
        refine Keeps.bind (h _ _).attempt fun outcome _ => ?_
        cases outcome with
        | ok _ => exact Keeps.bind ih fun _ _ => keeps_pure trivial
        | error e => exact Keeps.bind ih fun _ _ => keeps_pure trivial

theorem keeps_writeDocuments (p : Project) (folder : String) (files : List ScannedFile) :
    Keeps World.Sound (p.writeDocuments folder files) (fun _ => True) :=
  keeps_writeDocuments_of (fun _ _ => p.keeps_writeDocument _ _ _) folder files

theorem keeps_tellScan {I : World → Prop} (hI : Quiet I) (p : Project) (folder : String)
    (r : ScanReport) (written : Nat) (unwritten : List Text) (e : Explainer) :
    Keeps I (p.tellScan folder r written unwritten e) (fun _ => True) := by
  unfold Project.tellScan
  refine Keeps.bind (keeps_print hI _) fun _ _ => ?_
  refine Keeps.bind (keeps_log hI p _ _) fun _ _ => ?_
  by_cases hnone : (!(r.errors ++ unwritten).isEmpty) = true
  · simp only [if_pos hnone]
    refine Keeps.bind (keeps_print hI _) fun _ _ => ?_
    exact Keeps.bind (keeps_forM fun _ _ => keeps_log hI p _ _) fun _ _ => keeps_print hI _
  · simp only [if_neg hnone]
    exact keeps_print hI _

theorem keeps_scan (p : Project) (argument : Option String) (o : ScanOptions) :
    Keeps World.Sound (p.scan argument o) (fun _ => True) := by
  unfold Project.scan
  refine Keeps.bind (p.upholds_sound.keeps_scanFolder _ _ _) fun _ _ => ?_
  exact Keeps.bind (p.keeps_writeDocuments _ _) fun _ _ =>
    keeps_tellScan World.quiet_sound p _ _ _ _ _

theorem keeps_rememberSource {ε : Type} (p : Project) {r : Record}
    (hr : r.Explains (fingerprint p.config.scan.constructor)) :
    Keeps World.Sound (p.rememberSource r : Work ε Unit) (fun _ => True) :=
  p.upholds_sound.keeps_rememberSource fun _ _ hc hput =>
    hc.update (fun _ hdb => hc.sound.database.put hc.stamp hr hdb) hput

theorem hash_recordOf (p : Project) (path : String) (source : Text) (modified : Int)
    (e : Explanation) : (p.recordOf path source modified e).hash = contentHash source := by
  simp only [Project.recordOf]

theorem explanation_recordOf (p : Project) (path : String) (source : Text) (modified : Int)
    (e : Explanation) : (p.recordOf path source modified e).explanation = e := rfl

theorem keeps_explain (p : Project) (argument : String) (o : ExplainOptions) :
    Keeps World.Sound (p.explain argument o) (fun _ => True) := by
  unfold Project.explain
  refine Keeps.bind (quiet_readSource _ _) fun found _ => ?_
  refine Keeps.bind (p.quiet_noteExplanation World.quiet_sound _ _) fun _ _ => ?_
  split_ifs
  · exact p.quiet_checkDocument World.quiet_sound _ _
  · refine Keeps.bind (p.keeps_writeDocument _ _ _) fun _ _ => ?_
    refine Keeps.bind (keeps_log World.quiet_sound p _ _) fun _ _ => ?_
    refine Keeps.bind (p.keeps_rememberSource ?_) fun _ _ => p.quiet_printExplanation World.quiet_sound _ _
    refine ⟨found.1,p.config.scan.constructor,?_,rfl,?_⟩
    · rw [hash_recordOf]
    · rw [explanation_recordOf]
      rfl
  · refine Keeps.bind (p.keeps_writeDocument _ _ _) fun _ _ => ?_
    exact Keeps.bind (keeps_log World.quiet_sound p _ _) fun _ _ =>
      p.quiet_printExplanation World.quiet_sound _ _

theorem keeps_existingHistory (p : Project) : Keeps World.Sound p.existingHistory (fun _ => True) := by
  unfold Project.existingHistory
  refine Keeps.bind (keeps_files fun w hw => hw.tree) fun t _ => ?_
  by_cases hlacks : p.lacksHistory t = true
  · simp only [if_pos hlacks]
    exact Keeps.bind (keeps_throw (Q:=fun _ => False) _) fun _ hfalse => hfalse.elim
  · simp only [if_neg hlacks]
    exact (p.upholds_sound.keeps_openHistory.because _).mono fun _ _ => trivial

theorem keeps_listHistory (p : Project) (json : Bool) :
    Keeps World.Sound (p.listHistory json) (fun _ => True) := by
  unfold Project.listHistory
  refine Keeps.bind p.keeps_existingHistory fun c _ => ?_
  cases c.ask Database.list with
  | error e => exact keeps_throw _
  | ok records =>
    simp only
    split_ifs <;> exact keeps_print World.quiet_sound _

theorem keeps_showRecord (p : Project) (argument : String) :
    Keeps World.Sound (p.showRecord argument) (fun _ => True) := by
  unfold Project.showRecord
  refine Keeps.bind p.keeps_existingHistory fun c _ => ?_
  split
  · exact keeps_throw _
  · exact keeps_throw _
  · exact Keeps.bind (p.quiet_printResult World.quiet_sound _ _) fun _ _ => keeps_print World.quiet_sound _

end Project

namespace CommandLine

open Work Project

theorem keeps_openProject (l : CommandLine) (s : Surroundings) :
    Keeps World.Sound (l.openProject s) (fun _ => True) := l.quiet_openProject World.quiet_sound s

theorem keeps_execute (l : CommandLine) (s : Surroundings) :
    Keeps World.Sound (l.execute s) (fun _ => True) := by
  unfold CommandLine.execute
  cases l.command with
  | help => exact keeps_print World.quiet_sound _
  | explain file o => exact Keeps.bind (l.keeps_openProject s) fun p _ => p.keeps_explain _ _
  | scan path o => exact Keeps.bind (l.keeps_openProject s) fun p _ => p.keeps_scan _ _
  | history json => exact Keeps.bind (l.keeps_openProject s) fun p _ => p.keeps_listHistory _
  | «show» file => exact Keeps.bind (l.keeps_openProject s) fun p _ => p.keeps_showRecord _
  | gates verbose => exact Keeps.bind (l.keeps_openProject s) fun _ _ => keeps_print World.quiet_sound _

end CommandLine

/-- Running the program on sound files leaves sound files, and every transaction that it made on a
history led to a sound database. -/
theorem sound_run (s : Surroundings) {t : FileTree} (ht : t.Sound) (args : List String) :
    (run s t args).world.Sound := by
  have hw : World.Sound { tree := t } := ⟨ht,by simp⟩
  unfold run
  cases CommandLine.ofArguments args with
  | error e => exact hw
  | ok l =>
    have hkeeps := (l.keeps_execute s _ hw).1
    simp only
    change (Outcome.ofResult (Work.result (l.execute s) { tree := t })).world.Sound
    rcases hr : Work.result (l.execute s) { tree := t } with ⟨r,w⟩
    rw [hr] at hkeeps
    cases r <;> exact hkeeps

/-! ### Whole runs -/

def FileTree.NoHistory (t : FileTree) : Prop := ∀ e ∈ t.nodes, e.1.getLast? ≠ some historyName

/-- Files after a change that makes no history: what has the name of one was there before under that
name. -/
def FileTree.Edited (t t' : FileTree) : Prop :=
  ∀ e ∈ t'.nodes, e.1.getLast? = some historyName →
    ∃ e' ∈ t.nodes, e'.1.getLast? = some historyName ∧ e'.2 = e.2

/-- What may become of files by commands, each with surroundings and arguments of its own, and by
changes between them; with the databases that the transactions of the commands have led to. -/
inductive Life (t : FileTree) : List Database → FileTree → Prop
  | start : Life t [] t
  | command {journal : List Database} {u : FileTree} {s : Surroundings} {args : List String}
      {o : Outcome} (h : Life t journal u) (hrun : run s u args = o) :
      Life t (o.world.journal ++ journal) o.world.tree
  | edit {journal : List Database} {u u' : FileTree} (h : Life t journal u) (hedit : u.Edited u') :
      Life t journal u'

theorem FileTree.NoHistory.sound {t : FileTree} (h : t.NoHistory) : t.Sound :=
  ⟨fun e he hname => absurd hname (h e he),fun e he hname => absurd hname (h e he)⟩

theorem FileTree.Sound.edited {t t' : FileTree} (h : t.Sound) (hedit : t.Edited t') : t'.Sound := by
  refine ⟨?_,?_⟩
  · intro e he hname target m
    obtain ⟨e',he',hname',hnode⟩ := hedit e he hname
    exact hnode ▸ h.noLinks e' he' hname' target m
  · intro e he hname content m c hfile hdecode
    obtain ⟨e',he',hname',hnode⟩ := hedit e he hname
    exact h.histories e' he' hname' content m c (hnode.trans hfile) hdecode

theorem FileTree.edited_set (t : FileTree) (place : List String)
    (hplace : place.getLast? ≠ some historyName) (node : FileNode) : t.Edited (t.set place node) := by
  intro e he hname
  rcases mem_set he with rfl | he
  · exact absurd hname hplace
  · exact ⟨e,he,hname,rfl⟩

theorem Life.sound {t u : FileTree} {journal : List Database} (ht : t.NoHistory)
    (h : Life t journal u) : u.Sound ∧ ∀ db ∈ journal, db.Sound := by
  induction h with
  | start => exact ⟨ht.sound,by simp⟩
  | @command _ _ s args o _ hrun ih =>
    have hsound : o.world.Sound := hrun ▸ sound_run s ih.1 args
    refine ⟨hsound.tree,?_⟩
    intro db hdb
    rcases List.mem_append.mp hdb with hdb | hdb
    · exact hsound.journal db hdb
    · exact ih.2 db hdb
  | edit _ hedit ih => exact ⟨ih.1.edited hedit,ih.2⟩

/-- After every transaction of a life that starts without a history, every record that is stored
explains a source with its digest, under a constructor with the fingerprint that is stored. -/
theorem history_coherent_after_every_transaction {t u : FileTree} {journal : List Database}
    (ht : t.NoHistory) (h : Life t journal u) : ∀ db ∈ journal, db.Coherent := by
  intro db hdb
  exact ((h.sound ht).2 db hdb).coherent

def sampleProject : FileTree :=
  { nodes := [(["p"],.folder),(["p","a.py"],.file "q = QuantumCircuit(1)\nq.h(0)\n" 5)]
    workingFolder := ["p"] }

theorem noHistory_sampleProject : sampleProject.NoHistory := by
  unfold FileTree.NoHistory
  decide

def sampleExplained : Outcome := run { now := .unset } sampleProject ["explain","a.py"]

/-- The project after its source was then changed, and explained with another constructor. -/
def sampleRestamped : Outcome :=
  run { environment := ⟨[("CIRCUITDOC_CONSTRUCTOR","Circuit")]⟩,now := .unset }
    (sampleExplained.world.tree.set ["p","a.py"] (.file "q = Circuit(2)\nq.x(1)\n" 6))
    ["explain","a.py"]

theorem history_coherent_sample :
    sampleProject.NoHistory ∧
      sampleRestamped.world.journal.map (fun db => db.records.length) = [1,0,0,1] ∧
      ∀ db ∈ sampleRestamped.world.journal ++ (sampleExplained.world.journal ++ []),
        db.Coherent := by
  have hedit := sampleExplained.world.tree.edited_set ["p","a.py"] (by decide)
    (.file "q = Circuit(2)\nq.x(1)\n" 6)
  refine ⟨noHistory_sampleProject,by decide +kernel,?_⟩
  exact history_coherent_after_every_transaction noHistory_sampleProject
    (.command (.edit (.command .start rfl) hedit) rfl)

end CircuitNotes
