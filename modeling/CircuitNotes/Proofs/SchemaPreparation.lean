import CircuitNotes.Proofs.DatabaseSessions
import CircuitNotes.Proofs.HistoryCoherence

/-! Bringing a database to the current schema. The schema is looked at first, so that a failure comes
before any change; then the records are dropped, if they are of no use, and the schema is written, if it
is not there yet. -/
namespace CircuitNotes

/-! ### Databases at the current schema -/

/-- A database at the current schema, whose records may stay under a constructor. -/
def Database.Settled (db : Database) (constructor : String) : Prop :=
  ∃ s, db.schema = .ok s ∧ s.version = Schema.current ∧
    (s.fingerprint = [] ∨ s.fingerprint = fingerprint constructor)

theorem Database.schema_migrate (db : Database) (constructor : String) :
    (db.migrate constructor).schema = .ok (Schema.ofConstructor constructor) := by
  have hversion : Bucket.find? (db.migrate constructor).settings Schema.versionKey =
      some (Text.ofInt Schema.current) := by
    simp only [migrate,setSchema]
    rw [Bucket.find?_insert,if_neg (by decide)]
    exact Bucket.find?_insert_self _ _ _
  have hfingerprint : Bucket.find? (db.migrate constructor).settings Schema.fingerprintKey =
      some (fingerprint constructor) := db.stamp?_migrate constructor
  have hread : Integer.readDecimal (Text.ofInt Schema.current) = .ok Schema.current := by decide
  simp only [schema,Schema.ofSettings,hversion,hread,hfingerprint,Option.getD_some,pure_bind]
  rfl

/-- The schema of a database can be told unless its version is no number. -/
theorem Database.schema_fails_iff (db : Database) :
    (∃ e, db.schema = .error e) ↔ ∃ text fault,
      Bucket.find? db.settings Schema.versionKey = some text ∧
        Integer.readDecimal text = .error fault := by
  unfold schema Schema.ofSettings
  cases hfind : Bucket.find? db.settings Schema.versionKey with
  | none => simp [bind,Except.bind,pure,Except.pure]
  | some text =>
    cases hread : Integer.readDecimal text with
    | ok n => simp [bind,Except.bind,pure,Except.pure,hread]
    | error fault => simp [bind,Except.bind,hread,throw,throwThe,MonadExceptOf.throw]

namespace MigrationPlan

theorem reason_ne_empty {s : Schema} {constructor : String}
    (h : (ofSchema s constructor).needsRebuild = true) : (ofSchema s constructor).reason ≠ "" := by
  unfold ofSchema at h ⊢
  split_ifs at h ⊢ with hother
  · simp
  · have hlater := (ofVersion_needs s.version).1.mp h
    have hzero : s.version ≠ 0 := by unfold Schema.current at hlater; omega
    simp only [ofVersion,if_neg hzero,if_neg (Int.not_lt.mpr hlater.le),if_pos hlater]
    simp

end MigrationPlan

namespace Connection

variable {c c' : Connection} {constructor reason : String}

theorem of_prepare (h : c.prepare constructor = .ok (reason,c')) :
    c.isOpen = true ∧ ∃ s, c.database.schema = .ok s ∧
      reason = (if (MigrationPlan.ofSchema s constructor).needsRebuild
        then (MigrationPlan.ofSchema s constructor).reason else "") ∧
      c' = ((MigrationPlan.ofSchema s constructor).transactions constructor).foldl
        (fun c change => c.commit (change c.database)) c := by
  obtain ⟨plan,hplan,hrest⟩ := exceptBind_eq_ok h
  obtain ⟨hopen,s,hs,rfl⟩ := of_plan hplan
  have hprepared := Prod.mk.inj (Except.ok.inj hrest)
  exact ⟨hopen,s,hs,hprepared.1.symm,hprepared.2.symm⟩

theorem isOpen_of_prepare (h : c.prepare constructor = .ok (reason,c')) : c'.isOpen = true := by
  obtain ⟨hopen,s,_,_,rfl⟩ := of_prepare h
  exact List.foldlRecOn (motive := fun c : Connection => c.isOpen = true) _ _ hopen fun _ h _ _ => h

/-- The schema of a prepared database is the current one. Only where the version was current and no
fingerprint was there, there is still none. -/
theorem schema_of_prepare (h : c.prepare constructor = .ok (reason,c')) :
    c'.database.schema = .ok (Schema.ofConstructor constructor) ∨
      c' = c ∧ c.database.schema = .ok ⟨Schema.current,[]⟩ := by
  obtain ⟨_,s,hs,_,rfl⟩ := of_prepare h
  by_cases hchanges : ((MigrationPlan.ofSchema s constructor).needsRebuild ||
      (MigrationPlan.ofSchema s constructor).needsMigration) = true
  · -- The last transaction writes the schema, whether records were dropped before or not.
    left
    rw [MigrationPlan.transactions,if_pos hchanges,List.foldl_append]
    exact Database.schema_migrate _ constructor
  · have hnone : (MigrationPlan.ofSchema s constructor).needsRebuild = false ∧
        (MigrationPlan.ofSchema s constructor).needsMigration = false := by simpa using hchanges
    have hversion := MigrationPlan.current_of_settled hnone.1 hnone.2
    rw [MigrationPlan.transactions,if_neg hchanges,hnone.1]
    rcases (MigrationPlan.of_keeps hnone.1).2 with hempty | hsame
    · have hunmarked : s = ⟨Schema.current,[]⟩ := by rw [← hversion,← hempty]
      exact Or.inr ⟨rfl,hunmarked ▸ hs⟩
    · have hmarked : s = Schema.ofConstructor constructor := by
        rw [Schema.ofConstructor,← hversion,← hsame]
      exact Or.inl (hmarked ▸ hs)

theorem settled_of_prepare (h : c.prepare constructor = .ok (reason,c')) :
    c'.database.Settled constructor := by
  rcases schema_of_prepare h with hschema | ⟨rfl,hschema⟩ <;>
    simp [Database.Settled,hschema,Schema.ofConstructor]

theorem prepare_of_settled {c : Connection} {constructor : String} (hopen : c.isOpen = true)
    (h : c.database.Settled constructor) : c.prepare constructor = .ok ("",c) := by
  obtain ⟨s,hs,hversion,hfingerprint⟩ := h
  have hkeeps : ¬(s.version ≤ Schema.current ∧ s.fingerprint ≠ [] ∧
      s.fingerprint ≠ fingerprint constructor) := by
    rintro ⟨_,hsome,hother⟩
    exact hfingerprint.elim hsome hother
  have hplan : c.plan constructor = .ok { oldVersion := Schema.current } := by
    simp only [plan,ask,hopen,if_true,hs,MigrationPlan.ofSchema,if_neg hkeeps]
    rw [hversion]
    rfl
  rw [prepare,hplan]
  rfl

/-- The records of a prepared database are gone, for a reason that is told, or they are all there. -/
theorem records_of_prepare (h : c.prepare constructor = .ok (reason,c')) :
    reason ≠ "" ∧ c'.database.records = [] ∨
      reason = "" ∧ c'.database.records = c.database.records := by
  obtain ⟨_,s,_,rfl,rfl⟩ := of_prepare h
  cases hrebuild : (MigrationPlan.ofSchema s constructor).needsRebuild with
  | true =>
    left
    simp only [MigrationPlan.transactions,hrebuild,if_true,Bool.true_or,List.cons_append,
      List.nil_append,List.foldl_cons,List.foldl_nil]
    exact ⟨MigrationPlan.reason_ne_empty hrebuild,rfl⟩
  | false =>
    right
    simp only [MigrationPlan.transactions,hrebuild,Bool.false_or,Bool.false_eq_true,if_false,
      List.nil_append,true_and]
    split_ifs <;> rfl

theorem prepare_eq_error_iff {e : HistoryError} :
    c.prepare constructor = .error e ↔ c.plan constructor = .error e := by
  unfold Connection.prepare
  cases c.plan constructor with
  | ok plan => exact ⟨nofun,nofun⟩
  | error e' => simp [bind,Except.bind]

theorem prepare_fails_iff :
    (∃ e, c.prepare constructor = .error e) ↔
      c.isOpen = false ∨ ∃ e, c.database.schema = .error e := by
  simp only [prepare_eq_error_iff,plan,ask]
  cases hopen : c.isOpen with
  | false => simp
  | true =>
    cases c.database.schema <;> simp

end Connection

namespace Session

variable {c c' : Connection} {constructor reason : String}

def prepare (constructor : String) : Session String := do
  let plan ← ask (·.plan constructor)
  (plan.transactions constructor).forM fun change => transact fun db => .ok (change db)
  return if plan.needsRebuild then plan.reason else ""

theorem result_transactions (hopen : c.isOpen = true) (changes : List (Database → Database)) :
    result (changes.forM fun change => transact fun db => .ok (change db)) c =
      (.ok (),changes.foldl (fun c change => c.commit (change c.database)) c) := by
  induction changes generalizing c with
  | nil => rfl
  | cons change changes ih =>
    have hfirst : result (transact fun db => .ok (change db)) c =
        (.ok (),c.commit (change c.database)) := result_transact_of_ok hopen rfl
    exact (result_bind_of_ok hfirst).trans (ih hopen)

theorem result_prepare (constructor : String) (c : Connection) :
    result (prepare constructor) c = match c.prepare constructor with
      | .ok (reason,c') => (.ok reason,c')
      | .error e => (.error e,c) := by
  cases hplan : c.plan constructor with
  | error e =>
    rw [Connection.prepare_eq_error_iff.mpr hplan]
    exact result_bind_of_error (result_ask_of_error hplan)
  | ok plan =>
    rw [prepare,result_bind_of_ok (result_ask_of_ok hplan),
      result_bind_of_ok (result_transactions (Connection.of_plan hplan).1 _),Connection.prepare,hplan]
    rfl

theorem result_prepare_eq_ok_iff :
    result (prepare constructor) c = (.ok reason,c') ↔ c.prepare constructor = .ok (reason,c') := by
  rw [result_prepare]
  cases c.prepare constructor with
  | error e => simp
  | ok prepared => simp [Prod.ext_iff]

theorem result_prepare_eq_error_iff {e : HistoryError} :
    result (prepare constructor) c = (.error e,c') ↔ c.prepare constructor = .error e ∧ c' = c := by
  rw [result_prepare]
  cases c.prepare constructor with
  | error e' => simp [eq_comm]
  | ok prepared => simp

end Session

/-- Preparing a database for a configuration establishes the current schema. It fails if the database is
closed or has a version that is no number of 64 bits, and then changes nothing. Else it writes the version
and the fingerprint of the constructor, except that a database of the current version that has no
fingerprint gets none; the records are gone if a reason is told and all there if none is; and preparing it
again tells no reason and changes nothing. -/
theorem prepare_establishes_schema (config : Config) (c : Connection) :
    ((∃ e c', (Session.prepare config.scan.constructor).result c = (.error e,c')) ↔
      c.isOpen = false ∨ ∃ text fault,
        Bucket.find? c.database.settings Schema.versionKey = some text ∧
          Integer.readDecimal text = .error fault) ∧
    (∀ e c', (Session.prepare config.scan.constructor).result c = (.error e,c') →
      c.prepare config.scan.constructor = .error e ∧ c' = c) ∧
    ∀ reason c', (Session.prepare config.scan.constructor).result c = (.ok reason,c') →
      c.prepare config.scan.constructor = .ok (reason,c') ∧
      (c.database.schema ≠ .ok ⟨Schema.current,[]⟩ →
        c'.ask Database.schema = .ok (Schema.ofConstructor config.scan.constructor)) ∧
      (c.database.schema = .ok ⟨Schema.current,[]⟩ → c' = c) ∧
      (reason ≠ "" → c'.database.records = []) ∧
      (reason = "" → c'.database.records = c.database.records) ∧
      (Session.prepare config.scan.constructor).result c' = (.ok "",c') := by
  simp only [Session.result_prepare_eq_ok_iff,Session.result_prepare_eq_error_iff]
  refine ⟨?_,fun _ _ h => h,?_⟩
  · rw [← Database.schema_fails_iff,← Connection.prepare_fails_iff]
    exact ⟨fun ⟨e,_,h,_⟩ => ⟨e,h⟩,fun ⟨e,h⟩ => ⟨e,c,h,rfl⟩⟩
  · intro reason c' h
    have hopen' := Connection.isOpen_of_prepare h
    refine ⟨h,?_,?_,?_,?_,?_⟩
    · intro hmarked
      rcases Connection.schema_of_prepare h with hschema | ⟨_,hunmarked⟩
      · rw [Connection.ask,if_pos hopen',hschema]
      · exact absurd hunmarked hmarked
    · intro hunmarked
      have hsettled : c.database.Settled config.scan.constructor := ⟨_,hunmarked,rfl,Or.inl rfl⟩
      have hsame := Connection.prepare_of_settled (Connection.of_prepare h).1 hsettled
      rw [h] at hsame
      exact (Prod.mk.inj (Except.ok.inj hsame)).2
    · intro hreason
      rcases Connection.records_of_prepare h with ⟨_,hgone⟩ | ⟨hnone,_⟩
      · exact hgone
      · exact absurd hnone hreason
    · intro hnone
      rcases Connection.records_of_prepare h with ⟨hreason,_⟩ | ⟨_,hkept⟩
      · exact absurd hnone hreason
      · exact hkept
    · exact Connection.prepare_of_settled hopen' (Connection.settled_of_prepare h)

/-- A database with a record that a later version has written. -/
def laterDatabase : Connection :=
  { database := { records := [("/a",[])],settings := [(Schema.versionKey,"2")] } }

theorem prepare_establishes_schema_sample :
    ∃ reason c', (Session.prepare defaultConstructor).result laterDatabase = (.ok reason,c') ∧
      c'.ask Database.schema = .ok (Schema.ofConstructor defaultConstructor) ∧
      (Session.prepare defaultConstructor).result c' = (.ok "",c') := by
  obtain ⟨hfails,_,hsucceeds⟩ := prepare_establishes_schema {} laterDatabase
  rcases hresult : (Session.prepare defaultConstructor).result laterDatabase with ⟨answer,c'⟩
  cases answer with
  | error e =>
    rcases hfails.mp ⟨e,c',hresult⟩ with hclosed | ⟨text,fault,hfind,hread⟩
    · exact absurd hclosed (by decide)
    · have htwo : Integer.readDecimal "2" = .ok 2 := by decide
      rw [← Option.some.inj hfind,htwo] at hread
      cases hread
  | ok reason =>
    obtain ⟨_,hschema,_,_,_,hagain⟩ := hsucceeds reason c' hresult
    exact ⟨reason,c',rfl,hschema (by decide),hagain⟩

def unmarkedDatabase : Connection := { database := { settings := [(Schema.versionKey,"1")] } }

/-- Preparing does not always leave the schema of the constructor. -/
theorem prepare_leaves_unmarked :
    ∃ c', (Session.prepare defaultConstructor).result unmarkedDatabase = (.ok "",c') ∧
      c'.ask Database.schema ≠ .ok (Schema.ofConstructor defaultConstructor) := by
  have hschema : unmarkedDatabase.database.schema = .ok ⟨Schema.current,[]⟩ := by decide
  refine ⟨unmarkedDatabase,?_,?_⟩
  · rw [Session.result_prepare_eq_ok_iff]
    exact Connection.prepare_of_settled rfl ⟨_,hschema,rfl,Or.inl rfl⟩
  · have hopen : unmarkedDatabase.isOpen = true := rfl
    rw [Connection.ask,if_pos hopen,hschema]
    simp only [Schema.ofConstructor,ne_eq,Except.ok.injEq,Schema.mk.injEq,true_and]
    exact (fingerprint_ne_nil defaultConstructor).symm

end CircuitNotes
