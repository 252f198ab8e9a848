import CircuitNotes.Proofs.HistoryViews
import CircuitNotes.Proofs.StoredDatabases

/-! A history in memory and one in a database cannot be told apart by what they answer. The database
holds the stored form of each record that the memory has, under the same key and in the same order;
every call keeps it so, and a stored form that is read gives the record back. -/
namespace CircuitNotes

inductive HistoryCall
  | put (r : Record)
  | putAll (rs : List Record)
  | get (path : Text)
  | delete (path : Text)
  | list
  /-- To be closed and opened again. -/
  | reopen

inductive HistoryAnswer
  | done
  | record (r : Record)
  | records (rs : List Record)
  | failed (e : HistoryError)
  deriving DecidableEq

def HistoryAnswer.ofResult {α : Type} (answer : α → HistoryAnswer) :
    Except HistoryError α → HistoryAnswer
  | .ok a => answer a
  | .error e => .failed e

def Ledger.answer (l : Ledger) : HistoryCall → HistoryAnswer × Ledger
  | .put r => (.done,l.put r)
  | .putAll rs => (.done,l.putAll rs)
  | .get path => (.ofResult .record (l.get path),l)
  | .delete path => (.done,l.delete path)
  | .list => (.records l.list,l)
  | .reopen => (.done,l)

namespace Connection

/-- The database that is opened from the file of this one, once this one is closed. -/
def restart (c : Connection) : Except HistoryError Connection :=
  match Storage.decode? (Storage.encode c.close) with
  | some held => .ok held.reopen
  | none => .error .notDatabase

/-- The answer to a change, which leaves the database alone when it fails. -/
def answerChange (c : Connection) : Except HistoryError Connection → HistoryAnswer × Connection
  | .ok c' => (.done,c')
  | .error e => (.failed e,c)

def answer (c : Connection) : HistoryCall → HistoryAnswer × Connection
  | .put r => c.answerChange (c.update (·.put r))
  | .putAll rs => c.answerChange (c.update (·.putAll rs))
  | .get path => (.ofResult .record (c.ask (·.get path)),c)
  | .delete path => c.answerChange (c.update fun db => .ok (db.delete path))
  | .list => (.ofResult .records (c.ask Database.list),c)
  | .reopen => c.answerChange c.restart

end Connection

namespace HistoryKind

def answer : (k : HistoryKind) → k.State → HistoryCall → HistoryAnswer × k.State
  | memory => Ledger.answer
  | database => Connection.answer

def answers (k : HistoryKind) : k.State → List HistoryCall → List HistoryAnswer
  | _, [] => []
  | s, call :: rest => (k.answer s call).1 :: k.answers (k.answer s call).2 rest

end HistoryKind

namespace HistoryCall

def records : HistoryCall → List Record
  | .put r => [r]
  | .putAll rs => rs
  | _ => []

/-- What is held at each path after a call, if this was held before it. -/
def effect (held : Text → Option Record) : HistoryCall → Text → Option Record
  | .put r => Function.update held r.path (some r)
  | .putAll rs => rs.foldl (fun held r => Function.update held r.path (some r)) held
  | .delete path => Function.update held path none
  | _ => held

/-- The right answer of a history that holds one record at each path, or none. -/
inductive Right (held : Text → Option Record) : HistoryCall → HistoryAnswer → Prop
  | put {r : Record} : Right held (.put r) .done
  | putAll {rs : List Record} : Right held (.putAll rs) .done
  | found {path : Text} {r : Record} (h : held path = some r) : Right held (.get path) (.record r)
  | missing {path : Text} (h : held path = none) : Right held (.get path) (.failed (.notFound path))
  | delete {path : Text} : Right held (.delete path) .done
  | list {rs : List Record} (hascending : (rs.map Record.path).Pairwise (· < ·))
      (hmem : ∀ r, r ∈ rs ↔ held r.path = some r) : Right held .list (.records rs)
  | reopen : Right held .reopen .done

/-- Right answers to calls one after another. -/
inductive AllRight : (Text → Option Record) → List HistoryCall → List HistoryAnswer → Prop
  | nil {held : Text → Option Record} : AllRight held [] []
  | cons {held : Text → Option Record} {call : HistoryCall} {a : HistoryAnswer}
      {calls : List HistoryCall} {as : List HistoryAnswer} (h : call.Right held a)
      (hrest : AllRight (call.effect held) calls as) : AllRight held (call :: calls) (a :: as)

/-- A call whose records have paths that a database takes as keys, and are storable. -/
def Fits (call : HistoryCall) : Prop :=
  ∀ r ∈ call.records, 1 ≤ r.path.length ∧ r.path.length ≤ 32768 ∧ r.Storable

instance (call : HistoryCall) : Decidable call.Fits :=
  inferInstanceAs (Decidable (∀ r ∈ call.records, _))

end HistoryCall

/-! ### Records in memory -/

/-- A bucket of storable records, each under its own path, that has at each path what is held there. -/
structure Bucket.Shows (b : Bucket Record) (held : Text → Option Record) : Prop where
  ascending : b.Ascending
  own : ∀ e ∈ b, e.2.path = e.1
  storable : ∀ e ∈ b, e.2.Storable
  view : ∀ path, Bucket.find? b path = held path

namespace Bucket.Shows

variable {b : Bucket Record} {held : Text → Option Record}

theorem insert (h : b.Shows held) {r : Record} (hr : r.Storable) :
    (Bucket.insert r.path r b).Shows (Function.update held r.path (some r)) := by
  refine ⟨ascending_insert h.ascending r.path r,?_,?_,?_⟩
  · intro e he
    rcases mem_insert he with rfl | he
    · rfl
    · exact h.own e he
  · intro e he
    rcases mem_insert he with rfl | he
    · exact hr
    · exact h.storable e he
  · intro path
    rw [find?_insert,Function.update_apply,h.view]

theorem insertAll (h : b.Shows held) {rs : List Record} (hrs : ∀ r ∈ rs, r.Storable) :
    (rs.foldl (fun b r => Bucket.insert r.path r b) b).Shows
      (rs.foldl (fun held r => Function.update held r.path (some r)) held) := by
  induction rs generalizing b held with
  | nil => exact h
  | cons r rs ih =>
    exact ih (h.insert (hrs r List.mem_cons_self)) fun r' hr' => hrs r' (List.mem_cons_of_mem _ hr')

theorem erase (h : b.Shows held) (path : Text) :
    (Bucket.erase path b).Shows (Function.update held path none) := by
  refine ⟨ascending_erase h.ascending path,?_,?_,?_⟩
  · exact fun e he => h.own e (mem_of_mem_erase he)
  · exact fun e he => h.storable e (mem_of_mem_erase he)
  · intro path'
    rw [find?_erase,Function.update_apply,h.view]

theorem map_path (h : b.Shows held) : (b.map Prod.snd).map Record.path = b.map Prod.fst := by
  rw [List.map_map]
  exact List.map_congr_left h.own

theorem right_list (h : b.Shows held) :
    HistoryCall.Right held .list (.records (b.map Prod.snd)) := by
  refine .list ?_ ?_
  · rw [h.map_path]
    exact h.ascending
  · intro r
    rw [← h.view]
    refine ⟨?_,?_⟩
    · intro hr
      obtain ⟨e,he,rfl⟩ := List.mem_map.mp hr
      rw [h.own e he]
      exact find?_of_mem h.ascending.distinct he
    · intro hr
      exact List.mem_map.mpr ⟨_,mem_of_find? hr,rfl⟩

end Bucket.Shows

/-! ### Records in a database -/

theorem Bucket.mapValues_insertAll {β : Type} (form : Record → β) (rs : List Record) (b : Bucket Record) :
    (rs.foldl (fun b r => Bucket.insert r.path r b) b).mapValues form =
      rs.foldl (fun b r => Bucket.insert r.path (form r) b) (b.mapValues form) := by
  induction rs generalizing b with
  | nil => rfl
  | cons r rs ih => rw [List.foldl_cons,List.foldl_cons,ih,Bucket.mapValues_insert]

theorem Database.decode_record (path : Text) {r : Record} (h : r.Storable) :
    Database.decode path (Packed.record r) = .ok r := by
  simp [Database.decode,Packed.read?_record h]

theorem Bucket.Shows.list_stored {b : Bucket Record} {held : Text → Option Record}
    (h : b.Shows held) {db : Database} (hdb : db.records = b.mapValues Packed.record) :
    db.list = .ok (b.map Prod.snd) := by
  have hdecoded : db.records.mapM (fun e => Database.decode e.1 e.2) = .ok (b.map Prod.snd) := by
    rw [hdb]
    have hstorable := h.storable
    clear h hdb
    induction b with
    | nil => rfl
    | cons e rest ih =>
      obtain ⟨path,r⟩ := e
      have hrest := ih fun e he => hstorable e (List.mem_cons_of_mem _ he)
      simp only [Bucket.mapValues,List.map_cons,List.mapM_cons] at hrest ⊢
      rw [Database.decode_record path (hstorable _ List.mem_cons_self),hrest]
      rfl
  have hsorted : (b.map Prod.snd).Pairwise fun r r' => decide (r.path ≤ r'.path) = true := by
    have hpaths := h.ascending
    rw [Bucket.Ascending,← h.map_path,List.pairwise_map] at hpaths
    exact hpaths.imp fun hlt => decide_eq_true (List.le_of_lt hlt)
  change (db.records.mapM fun e => Database.decode e.1 e.2) >>= _ = _
  rw [hdecoded]
  exact congrArg Except.ok (List.mergeSort_of_pairwise hsorted)

/-- A history in memory and an open database that hold the same. -/
structure Twins (held : Text → Option Record) (l : Ledger) (c : Connection) : Prop where
  isOpen : c.isOpen = true
  shows : l.records.Shows held
  stored : c.database.records = l.records.mapValues Packed.record

namespace Twins

variable {held : Text → Option Record} {l : Ledger} {c : Connection}

theorem ask {α : Type} (h : Twins held l c) (question : Database → Except HistoryError α) :
    c.ask question = question c.database := if_pos h.isOpen

theorem commit (h : Twins held l c) {held' : Text → Option Record} {b : Bucket Record}
    (hb : b.Shows held') {db : Database} (hdb : db.records = b.mapValues Packed.record) :
    Twins held' ⟨b⟩ (c.commit db) := ⟨h.isOpen,hb,hdb⟩

theorem putAll (h : Twins held l c) {rs : List Record} (hrs : (HistoryCall.putAll rs).Fits) :
    ∃ db, c.database.putAll rs = .ok db ∧
      Twins (HistoryCall.effect held (.putAll rs)) (l.putAll rs) (c.commit db) := by
  have hnone : (rs.findSome? fun r => Database.keyFault? r.path) = none := by
    rw [List.findSome?_eq_none_iff]
    intro r hr
    obtain ⟨hlow,hhigh,_⟩ := hrs r hr
    exact (Database.keyFault?_eq_none_iff _).mpr ⟨hlow,hhigh⟩
  have hl : l.putAll rs = ⟨rs.foldl (fun b r => Bucket.insert r.path r b) l.records⟩ :=
    congrArg Ledger.mk (l.records_putAll rs)
  refine ⟨_,by rw [Database.putAll_eq,hnone],?_⟩
  rw [hl]
  refine h.commit (h.shows.insertAll fun r hr => (hrs r hr).2.2) ?_
  rw [Bucket.mapValues_insertAll,← h.stored]
  rfl

theorem restart (h : Twins held l c) : ∃ c', c.restart = .ok c' ∧ Twins held l c' := by
  refine ⟨({ database := c.database,revision := c.revision } : Connection).reopen,?_,rfl,h.shows,
    h.stored⟩
  rw [Connection.restart,Storage.decode?_encode]
  rfl

theorem answerChange_update (h : Twins held l c)
    (change : Database → Except HistoryError Database) {db : Database}
    (hdb : change c.database = .ok db) :
    c.answerChange (c.update change) = (.done,c.commit db) := by
  have hupdate : c.update change = .ok (c.commit db) := by
    rw [Connection.update,h.ask,hdb]
    rfl
  rw [hupdate,Connection.answerChange]

/-- One call: both give the same answer, which is right, and hold the same after it. -/
theorem answer (h : Twins held l c) {call : HistoryCall} (hcall : call.Fits) :
    (c.answer call).1 = (l.answer call).1 ∧ call.Right held (l.answer call).1 ∧
      Twins (call.effect held) (l.answer call).2 (c.answer call).2 := by
  cases call with
  | put r =>
    obtain ⟨db,hdb,htwins⟩ := h.putAll (show (HistoryCall.putAll [r]).Fits from hcall)
    rw [Database.putAll_singleton] at hdb
    rw [Connection.answer,h.answerChange_update _ hdb]
    exact ⟨rfl,.put,htwins⟩
  | putAll rs =>
    obtain ⟨db,hdb,htwins⟩ := h.putAll hcall
    rw [Connection.answer,h.answerChange_update _ hdb]
    exact ⟨rfl,.putAll,htwins⟩
  | get path =>
    have hfind : Bucket.find? c.database.records path =
        (Bucket.find? l.records path).map Packed.record := by
      rw [h.stored,Bucket.find?_mapValues]
    simp only [Connection.answer,Ledger.answer,h.ask,Database.get,Ledger.get,hfind]
    cases hheld : Bucket.find? l.records path with
    | none => exact ⟨rfl,.missing (h.shows.view path ▸ hheld),h⟩
    | some r =>
      have hr := h.shows.storable _ (Bucket.mem_of_find? hheld)
      simp only [Option.map_some,Database.decode_record path hr]
      exact ⟨trivial,.found (h.shows.view path ▸ hheld),h⟩
  | delete path =>
    rw [Connection.answer,h.answerChange_update (fun db => .ok (db.delete path)) rfl]
    refine ⟨rfl,.delete,h.commit (h.shows.erase path) ?_⟩
    rw [Bucket.mapValues_erase,← h.stored]
    rfl
  | list =>
    rw [Connection.answer,h.ask,h.shows.list_stored h.stored]
    exact ⟨rfl,h.shows.right_list,h⟩
  | reopen =>
    obtain ⟨c',hc',htwins⟩ := h.restart
    rw [Connection.answer,hc']
    exact ⟨rfl,.reopen,htwins⟩

end Twins

theorem Twins.answers {held : Text → Option Record} {l : Ledger} {c : Connection}
    (h : Twins held l c) {calls : List HistoryCall} (hcalls : ∀ call ∈ calls, call.Fits) :
    HistoryKind.database.answers c calls = HistoryKind.memory.answers l calls ∧
      HistoryCall.AllRight held calls (HistoryKind.memory.answers l calls) := by
  induction calls generalizing held l c with
  | nil => exact ⟨rfl,.nil⟩
  | cons call rest ih =>
    obtain ⟨hsame,hright,hnext⟩ := h.answer (hcalls call List.mem_cons_self)
    obtain ⟨hmore,hrights⟩ := ih hnext fun call' hcall' => hcalls call' (List.mem_cons_of_mem _ hcall')
    refine ⟨?_,.cons hright hrights⟩
    rw [HistoryKind.answers,HistoryKind.answers]
    exact congrArg₂ List.cons hsame hmore

/-- A history in memory and a database that both start empty give the same answers, whatever is asked
of them and however often the database is closed and opened again; and these are the answers of a
history that holds at each path the record that was put there last, if it was not deleted since. -/
theorem histories_interchangeable {c : Connection} (hopen : c.isOpen = true)
    (hempty : c.database.records = []) {calls : List HistoryCall}
    (hcalls : ∀ call ∈ calls, call.Fits) :
    HistoryKind.database.answers c calls = HistoryKind.memory.answers {} calls ∧
      HistoryCall.AllRight (fun _ => none) calls (HistoryKind.memory.answers {} calls) := by
  have hshows : Bucket.Shows [] (fun _ => none) :=
    ⟨List.Pairwise.nil,by simp,by simp,fun _ => rfl⟩
  have htwins : Twins (fun _ => none) {} c := ⟨hopen,hshows,hempty⟩
  exact htwins.answers hcalls

/-- Records of two files, of which one is put a second time without a list of gates. -/
def sampleCalls : List HistoryCall :=
  [.put { path := "/b",circuit := { gates := some [] } },
    .putAll [{ path := "/a",document := ⟨some []⟩ },{ path := "/b",modified := -1 }],
    .get "/b",.reopen,.list,.delete "/a",.get "/a",.list]

theorem histories_interchangeable_sample :
    HistoryKind.database.answers {} sampleCalls =
        [.done,.done,.record { path := "/b",modified := -1 },.done,
          .records [{ path := "/a",document := ⟨some []⟩ },{ path := "/b",modified := -1 }],.done,
          .failed (.notFound "/a"),.records [{ path := "/b",modified := -1 }]] ∧
      HistoryCall.AllRight (fun _ => none) sampleCalls (HistoryKind.memory.answers {} sampleCalls) := by
  obtain ⟨hsame,hright⟩ := histories_interchangeable (c:={}) rfl rfl
    (show ∀ call ∈ sampleCalls, call.Fits by decide)
  refine ⟨?_,hright⟩
  rw [hsame]
  decide +kernel

end CircuitNotes
