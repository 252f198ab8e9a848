import CircuitNotes.Proofs.HistoryViews

/-! Sessions with a database. Every call is a transaction of its own, and what the calls before a failed
one have done stays done. A batch is a single call: it stores all of its records, as if they were put
one by one, or none of them. -/
namespace CircuitNotes

/-- Calls on a database one after another, up to the first that fails. -/
abbrev Session (α : Type) := ExceptT HistoryError (StateM Connection) α

namespace Session

variable {α β : Type} {c c' : Connection}

def result (x : Session α) (c : Connection) : Except HistoryError α × Connection := x.run.run c

def ask (question : Connection → Except HistoryError α) : Session α := do
  match question (← get) with
  | .ok a => return a
  | .error e => throw e

/-- A transaction, which changes nothing when it fails. -/
def transact (change : Database → Except HistoryError Database) : Session Unit := do
  set (← ask (·.update change))

def put (r : Record) : Session Unit := transact (·.put r)

def putAll (rs : List Record) : Session Unit := transact (·.putAll rs)

/-- The records one by one, each in a transaction of its own. -/
def putEach (rs : List Record) : Session Unit := rs.forM put

theorem result_bind_of_ok {x : Session α} {f : α → Session β} {a : α}
    (h : result x c = (.ok a,c')) : result (x >>= f) c = result (f a) c' := by
  unfold result at h ⊢
  simp only [ExceptT.run_bind,StateT.run_bind,h]
  rfl

theorem result_bind_of_error {x : Session α} {f : α → Session β} {e : HistoryError}
    (h : result x c = (.error e,c')) : result (x >>= f) c = (.error e,c') := by
  unfold result at h ⊢
  simp only [ExceptT.run_bind,StateT.run_bind,h]
  rfl

theorem result_ask_of_ok {question : Connection → Except HistoryError α} {a : α}
    (h : question c = .ok a) : result (ask question) c = (.ok a,c) := by
  have hget : result (get : Session Connection) c = (.ok c,c) := rfl
  rw [ask,result_bind_of_ok hget,h]
  rfl

theorem result_ask_of_error {question : Connection → Except HistoryError α} {e : HistoryError}
    (h : question c = .error e) : result (ask question) c = (.error e,c) := by
  have hget : result (get : Session Connection) c = (.ok c,c) := rfl
  rw [ask,result_bind_of_ok hget,h]
  rfl

/-! ### Transactions of an open database -/

theorem result_transact_of_ok {change : Database → Except HistoryError Database} {db : Database}
    (hopen : c.isOpen = true) (h : change c.database = .ok db) :
    result (transact change) c = (.ok (),c.commit db) := by
  have hupdate : c.update change = .ok (c.commit db) := by
    rw [Connection.update,Connection.ask,if_pos hopen,h]
    rfl
  rw [transact,result_bind_of_ok (result_ask_of_ok hupdate)]
  rfl

theorem result_transact_of_error {change : Database → Except HistoryError Database} {e : HistoryError}
    (hopen : c.isOpen = true) (h : change c.database = .error e) :
    result (transact change) c = (.error e,c) := by
  have hupdate : c.update change = .error e := by
    rw [Connection.update,Connection.ask,if_pos hopen,h]
    rfl
  exact result_bind_of_error (result_ask_of_error hupdate)

theorem result_putEach {rs : List Record} {db : Database} (hopen : c.isOpen = true)
    (h : c.database.putAll rs = .ok db) :
    ∃ c', result (putEach rs) c = (.ok (),c') ∧ c'.database = db := by
  induction rs generalizing c with
  | nil => exact ⟨c,rfl,Except.ok.inj h⟩
  | cons r rs ih =>
    obtain ⟨middle,hput,hrest⟩ := exceptBind_eq_ok h
    have hfirst : result (put r) c = (.ok (),c.commit middle) := result_transact_of_ok hopen hput
    obtain ⟨c',hmore,hc'⟩ := ih (c:=c.commit middle) hopen hrest
    have hcons : putEach (r :: rs) = put r >>= fun _ => putEach rs := rfl
    exact ⟨c',by rw [hcons,result_bind_of_ok hfirst,hmore],hc'⟩

end Session

namespace Database

/-- A path that is refused as a key: an empty one, or one of more than 32768 bytes. -/
def Refused (path : Text) : Prop := path = [] ∨ 32768 < path.length

instance (path : Text) : Decidable (Refused path) := inferInstanceAs (Decidable (_ ∨ _))

theorem exists_first_refused {rs : List Record} (h : ∃ r ∈ rs, Refused r.path) :
    ∃ before r after, rs = before ++ r :: after ∧ (∀ r' ∈ before, ¬Refused r'.path) ∧
      Refused r.path := by
  have hfind : (rs.find? fun r => decide (Refused r.path)).isSome = true := by simpa using h
  obtain ⟨r,hr⟩ := Option.isSome_iff_exists.mp hfind
  obtain ⟨hrefused,before,after,hrs,hbefore⟩ := List.find?_eq_some_iff_append.mp hr
  exact ⟨before,r,after,hrs,by simpa using hbefore,by simpa using hrefused⟩

theorem keyFault?_of_refused {path : Text} (h : Refused path) :
    keyFault? path = some (if path = [] then .keyRequired else .keyTooLarge) := by
  unfold keyFault? checkKey
  by_cases hempty : path = []
  · simp [hempty]
  · have hlong : keyLimit < path.length := h.resolve_left hempty
    simp [hempty,hlong]

theorem keyFault?_of_taken {path : Text} (h : ¬Refused path) : keyFault? path = none := by
  obtain ⟨hne,hlength⟩ := not_or.mp h
  exact (keyFault?_eq_none_iff path).mpr ⟨List.length_pos_iff.mpr hne,Nat.le_of_not_lt hlength⟩

theorem putAll_of_refused {before after : List Record} {r : Record}
    (hbefore : ∀ r' ∈ before, ¬Refused r'.path) (hr : Refused r.path) (db : Database) :
    db.putAll (before ++ r :: after) =
      .error (if r.path = [] then .keyRequired else .keyTooLarge) := by
  have hnone : (before.findSome? fun r => keyFault? r.path) = none :=
    List.findSome?_eq_none_iff.mpr fun r' hr' => keyFault?_of_taken (hbefore r' hr')
  rw [putAll_eq,List.findSome?_append,hnone,Option.none_or,List.findSome?_cons,keyFault?_of_refused hr]

theorem put_of_refused {r : Record} (hr : Refused r.path) (db : Database) :
    db.put r = .error (if r.path = [] then .keyRequired else .keyTooLarge) := by
  rw [put_eq,keyFault?_of_refused hr]

theorem putAll_of_taken {rs : List Record} (h : ∀ r ∈ rs, ¬Refused r.path) (db : Database) :
    db.putAll rs =
      .ok ⟨rs.foldl (fun b r => Bucket.insert r.path (Packed.record r) b) db.records,db.settings⟩ := by
  have hnone : (rs.findSome? fun r => keyFault? r.path) = none :=
    List.findSome?_eq_none_iff.mpr fun r hr => keyFault?_of_taken (h r hr)
  rw [putAll_eq,hnone]

theorem get_of_find? {db : Database} {path : Text} {r : Record} (hr : r.Storable)
    (h : Bucket.find? db.records path = some (Packed.record r)) : db.get path = .ok r := by
  have hdecode : decode path (Packed.record r) = .ok r := by
    rw [decode_eq_ok_iff,Packed.read?_record hr,Option.map_some]
  simp only [get,h,hdecode]

end Database

/-- A batch of records is stored as a whole or not at all. One with a path that is refused fails for the
first such record, as that record does on its own, and nothing is changed. Any other does what putting its
records one by one does, so that of several records with one path the last one stays. -/
theorem batch_all_or_nothing {c : Connection} (hopen : c.isOpen = true) (rs : List Record) :
    ((∃ r ∈ rs, Database.Refused r.path) →
      ∃ before r after e, rs = before ++ r :: after ∧ (∀ r' ∈ before, ¬Database.Refused r'.path) ∧
        Database.Refused r.path ∧ e = (if r.path = [] then .keyRequired else .keyTooLarge) ∧
        (Session.put r).result c = (.error e,c) ∧ (Session.putAll rs).result c = (.error e,c)) ∧
    ((∀ r ∈ rs, ¬Database.Refused r.path) →
      ∃ c₁ c₂, (Session.putAll rs).result c = (.ok (),c₁) ∧
        (Session.putEach rs).result c = (.ok (),c₂) ∧ c₁.database = c₂.database ∧
        c₁.database.settings = c.database.settings ∧
        ∀ path, Bucket.find? c₁.database.records path =
            ((lastAt? rs path).map Packed.record).or (Bucket.find? c.database.records path) ∧
          ∀ r, lastAt? rs path = some r → r.Storable → c₁.database.get path = .ok r) := by
  refine ⟨?_,?_⟩
  · intro hrefused
    obtain ⟨before,r,after,rfl,hbefore,hr⟩ := Database.exists_first_refused hrefused
    refine ⟨before,r,after,_,rfl,hbefore,hr,rfl,?_,?_⟩
    · exact Session.result_transact_of_error hopen (Database.put_of_refused hr _)
    · exact Session.result_transact_of_error hopen (Database.putAll_of_refused hbefore hr _)
  · intro htaken
    have hall := Database.putAll_of_taken htaken c.database
    obtain ⟨c₂,heach,hc₂⟩ := Session.result_putEach hopen hall
    refine ⟨_,c₂,Session.result_transact_of_ok hopen hall,heach,hc₂.symm,rfl,?_⟩
    intro path
    have hfind := find?_foldl_insert Packed.record rs c.database.records path
    refine ⟨hfind,?_⟩
    intro r hlast hr
    apply Database.get_of_find? hr
    rw [hlast] at hfind
    exact hfind

def sampleBatch : List Record := [{ path := "/a",modified := 1 },{ path := "/b" },{ path := "/a" }]

/-- The batch is stored, and its later record of the first file stays; with a record without a path behind
it, all of it is refused. -/
theorem batch_all_or_nothing_sample :
    (∃ c, (Session.putAll sampleBatch).result {} = (.ok (),c) ∧
      c.database.get "/a" = .ok { path := "/a" }) ∧
    ∃ e, (Session.putAll (sampleBatch ++ [{ path := [] }])).result {} = (.error e,{}) := by
  obtain ⟨c,_,hall,_,_,_,hstored⟩ :=
    (batch_all_or_nothing (c:={}) rfl sampleBatch).2 (by decide)
  obtain ⟨_,_,_,e,_,_,_,_,_,hrefused⟩ :=
    (batch_all_or_nothing (c:={}) rfl (sampleBatch ++ [{ path := [] }])).1
      ⟨{ path := [] },by simp,Or.inl rfl⟩
  exact ⟨⟨c,hall,(hstored "/a").2 { path := "/a" } (by decide) (by decide)⟩,e,hrefused⟩

end CircuitNotes
