import CircuitNotes.Proofs.Buckets
import CircuitNotes.Proofs.StoredRecords
import CircuitNotes.Scan.Basic

/-! The two ways of keeping a history, looked at path by path. What an operation of either does is
said by the entries before and after it, and the operations of both obey the same three laws. -/
namespace CircuitNotes

theorem exceptBind_eq_ok {ε α β : Type} {x : Except ε α} {f : α → Except ε β} {b : β}
    (h : (x >>= f) = .ok b) : ∃ a, x = .ok a ∧ f a = .ok b := by
  cases x with
  | error e => cases h
  | ok a => exact ⟨a,rfl,h⟩

theorem mem_of_mapM_eq_ok {ε α β : Type} {f : α → Except ε β} {l : List α} {l' : List β}
    (h : l.mapM f = .ok l') :
    (∀ a ∈ l, ∃ b, f a = .ok b) ∧ ∀ b, b ∈ l' ↔ ∃ a ∈ l, f a = .ok b := by
  induction l generalizing l' with
  | nil =>
    rw [← Except.ok.inj h]
    simp
  | cons a l ih =>
    rw [List.mapM_cons] at h
    obtain ⟨b,hb,hmore⟩ := exceptBind_eq_ok h
    obtain ⟨bs,hbs,hcons⟩ := exceptBind_eq_ok hmore
    obtain ⟨hall,hmem⟩ := ih hbs
    rw [← Except.ok.inj hcons]
    refine ⟨?_,?_⟩
    · intro x hx
      rcases List.mem_cons.mp hx with rfl | hx
      · exact ⟨b,hb⟩
      · exact hall x hx
    · intro y
      simp only [List.mem_cons,hmem,exists_eq_or_imp,hb,Except.ok.injEq]
      exact or_congr_left eq_comm

def lastAt? (rs : List Record) (path : Text) : Option Record := rs.reverse.find? (·.path == path)

@[simp] theorem lastAt?_nil (path : Text) : lastAt? [] path = none := rfl

theorem lastAt?_cons (r : Record) (rs : List Record) (path : Text) :
    lastAt? (r :: rs) path = (lastAt? rs path).or (if r.path = path then some r else none) := by
  by_cases h : r.path = path <;> simp [lastAt?,List.find?_append,h]

theorem lastAt?_eq_some {rs : List Record} {path : Text} {r : Record}
    (h : lastAt? rs path = some r) : r ∈ rs ∧ r.path = path := by
  refine ⟨?_,?_⟩
  · simpa using List.mem_of_find?_eq_some h
  · simpa using List.find?_some h

theorem lastAt?_eq_none_iff (rs : List Record) (path : Text) :
    lastAt? rs path = none ↔ ∀ r ∈ rs, r.path ≠ path := by
  simp [lastAt?,List.find?_eq_none]

/-- Storing records one after another leaves at each path the last of them, or what was there. -/
theorem find?_foldl_insert {α : Type} (form : Record → α) (rs : List Record) (b : Bucket α)
    (path : Text) :
    Bucket.find? (rs.foldl (fun b r => Bucket.insert r.path (form r) b) b) path =
      ((lastAt? rs path).map form).or (Bucket.find? b path) := by
  induction rs generalizing b with
  | nil => simp
  | cons r rs ih =>
    rw [List.foldl_cons,ih,Bucket.find?_insert,lastAt?_cons]
    cases lastAt? rs path with
    | some last => simp
    | none =>
      by_cases h : r.path = path
      · simp [h]
      · simp [h,Ne.symm h]

theorem find?_byPath (rs : List Record) (path : Text) :
    Bucket.find? (ScanJob.byPath rs) path = lastAt? rs path := by
  simpa [ScanJob.byPath] using find?_foldl_insert id rs [] path

theorem Ledger.records_putAll (l : Ledger) (rs : List Record) :
    (l.putAll rs).records =
      rs.foldl (fun b r => Bucket.insert r.path (id r) b) l.records := by
  induction rs generalizing l with
  | nil => rfl
  | cons r rs ih => exact ih (l.put r)

namespace Database

theorem eq_of_put {db db' : Database} {r : Record} (h : db.put r = .ok db') :
    db' = { db with records := Bucket.insert r.path (Packed.record r) db.records } := by
  obtain ⟨_,_,hdb⟩ := exceptBind_eq_ok h
  exact (Except.ok.inj hdb).symm

theorem records_putAll {db db' : Database} {rs : List Record} (h : db.putAll rs = .ok db') :
    db'.records =
      rs.foldl (fun b r => Bucket.insert r.path (Packed.record r) b) db.records := by
  induction rs generalizing db with
  | nil => rw [← Except.ok.inj h]; rfl
  | cons r rs ih =>
    obtain ⟨middle,hput,hrest⟩ := exceptBind_eq_ok h
    rw [ih hrest,eq_of_put hput]
    rfl

def keyFault? (path : Text) : Option HistoryError :=
  match checkKey path with
  | .ok _ => none
  | .error e => some e

theorem put_eq (db : Database) (r : Record) : db.put r = match keyFault? r.path with
    | some e => .error e
    | none => .ok { db with records := Bucket.insert r.path (Packed.record r) db.records } := by
  unfold put putBytes keyFault?
  cases checkKey r.path <;> rfl

/-- A batch is refused for its first refused key; else all of its records are stored. -/
theorem putAll_eq (db : Database) (rs : List Record) :
    db.putAll rs = match rs.findSome? fun r => keyFault? r.path with
    | some e => .error e
    | none => .ok ⟨rs.foldl (fun b r => Bucket.insert r.path (Packed.record r) b) db.records,
        db.settings⟩ := by
  induction rs generalizing db with
  | nil => rfl
  | cons r rs ih =>
    have hcons : db.putAll (r :: rs) = db.put r >>= fun db => db.putAll rs := rfl
    rw [hcons,put_eq,List.findSome?_cons]
    cases keyFault? r.path with
    | some e => rfl
    | none => exact ih _

theorem putAll_singleton (db : Database) (r : Record) : db.putAll [r] = db.put r := by
  change (db.put r >>= fun db => .ok db) = db.put r
  cases db.put r <;> rfl

theorem keyFault?_eq_none_iff (path : Text) :
    keyFault? path = none ↔ 1 ≤ path.length ∧ path.length ≤ keyLimit := by
  unfold keyFault? checkKey
  cases path with
  | nil => simp
  | cons b rest =>
    simp only [List.isEmpty_cons,Bool.false_eq_true,if_false]
    split_ifs with h <;> simp at h ⊢ <;> omega

theorem decode_eq_ok_iff (path bytes : Text) (r : Record) :
    decode path bytes = .ok r ↔ (Packed.read? bytes).map Prod.fst = some r := by
  unfold decode
  cases Packed.read? bytes with
  | none => simp
  | some x => simp

/-- A database that can be listed at all has nothing but readable records, and lists them all. -/
theorem mem_list {db : Database} {rs : List Record} (h : db.list = .ok rs) :
    (∀ e ∈ db.records, ∃ r, decode e.1 e.2 = .ok r) ∧
      ∀ r, r ∈ rs ↔ ∃ e ∈ db.records, decode e.1 e.2 = .ok r := by
  obtain ⟨decoded,hdecoded,hsort⟩ := exceptBind_eq_ok h
  obtain ⟨hall,hmem⟩ := mem_of_mapM_eq_ok hdecoded
  refine ⟨hall,?_⟩
  intro r
  rw [← Except.ok.inj hsort,List.mem_mergeSort]
  exact hmem r

end Database

inductive HistoryKind
  | memory
  | database

namespace HistoryKind

abbrev State : HistoryKind → Type
  | memory => Ledger
  | database => Connection

/-- What is kept at a path: a record, or the stored form of one. -/
abbrev Entry : HistoryKind → Type
  | memory => Record
  | database => Text

def access : (k : HistoryKind) → HistoryAccess k.State
  | memory => Ledger.access
  | database => Connection.access

def entries : (k : HistoryKind) → k.State → Bucket k.Entry
  | memory, l => l.records
  | database, c => c.database.records

def held? (k : HistoryKind) (s : k.State) (path : Text) : Option k.Entry :=
  Bucket.find? (k.entries s) path

def form : (k : HistoryKind) → Record → k.Entry
  | memory, r => r
  | database, r => Packed.record r

def record? : (k : HistoryKind) → k.Entry → Option Record
  | memory, r => some r
  | database, bytes => (Packed.read? bytes).map Prod.fst

def recordAt? (k : HistoryKind) (s : k.State) (path : Text) : Option Record :=
  (k.held? s path).bind k.record?

/-- Whether a record comes back from the form in which it is kept. -/
def Fits : HistoryKind → Record → Prop
  | memory, _ => True
  | database, r => r.Storable

theorem record?_form (k : HistoryKind) {r : Record} (h : k.Fits r) :
    k.record? (k.form r) = some r := by
  cases k with
  | memory => rfl
  | database =>
    have hr : r.Storable := h
    simp [record?,form,Packed.read?_record hr]

/-- Every path has one entry, and every record stands under its own path. -/
structure Keyed (k : HistoryKind) (s : k.State) : Prop where
  distinct : (k.entries s).Distinct
  own : ∀ path e r, (path,e) ∈ k.entries s → k.record? e = some r → r.path = path

theorem mem_listed (k : HistoryKind) {s : k.State} {rs : List Record}
    (h : k.access.list s = .ok rs) :
    (∀ path e, (path,e) ∈ k.entries s → ∃ r, k.record? e = some r) ∧
      ∀ r, r ∈ rs ↔ ∃ path e, (path,e) ∈ k.entries s ∧ k.record? e = some r := by
  cases k with
  | memory =>
    have hrs : rs = Ledger.list s := (Except.ok.inj h).symm
    subst hrs
    simp [Ledger.list,entries,record?]
  | database =>
    simp only [access,Connection.access,Connection.ask] at h
    split_ifs at h
    obtain ⟨hall,hmem⟩ := Database.mem_list h
    refine ⟨?_,?_⟩
    · intro path e he
      obtain ⟨r,hr⟩ := hall (path,e) he
      exact ⟨r,(Database.decode_eq_ok_iff path e r).mp hr⟩
    · intro r
      simp only [hmem,Prod.exists,Database.decode_eq_ok_iff,entries,record?]

theorem find?_byPath_list (k : HistoryKind) {s : k.State} {rs : List Record} (hs : k.Keyed s)
    (h : k.access.list s = .ok rs) (path : Text) :
    Bucket.find? (ScanJob.byPath rs) path = k.recordAt? s path := by
  have hlisted := mem_listed k h
  rw [find?_byPath]
  cases hat : k.recordAt? s path with
  | some r =>
    obtain ⟨e,he,hr⟩ := Option.bind_eq_some_iff.mp hat
    have hmem : r ∈ rs := (hlisted.2 r).mpr ⟨path,e,Bucket.mem_of_find? he,hr⟩
    have hpath := hs.own path e r (Bucket.mem_of_find? he) hr
    cases hlast : lastAt? rs path with
    | none => exact absurd hpath ((lastAt?_eq_none_iff rs path).mp hlast r hmem)
    | some r' =>
      obtain ⟨hmem',hpath'⟩ := lastAt?_eq_some hlast
      obtain ⟨path',e',he',hr'⟩ := (hlisted.2 r').mp hmem'
      have hp : path' = path := (hs.own path' e' r' he' hr').symm.trans hpath'
      subst hp
      have hee : some e' = some e := (Bucket.find?_of_mem hs.distinct he').symm.trans he
      rw [Option.some.inj hee,hr] at hr'
      exact hr'.symm
  | none =>
    rw [lastAt?_eq_none_iff]
    intro r hr hpath
    obtain ⟨path',e,he,hre⟩ := (hlisted.2 r).mp hr
    have hp : path' = path := (hs.own path' e r he hre).symm.trans hpath
    subst hp
    rw [recordAt?,held?,Bucket.find?_of_mem hs.distinct he] at hat
    simp [hre] at hat

theorem held?_delete (k : HistoryKind) {s s' : k.State} {gone : Text}
    (h : k.access.delete s gone = .ok s') (path : Text) :
    k.held? s' path = if path = gone then none else k.held? s path := by
  cases k with
  | memory =>
    have hs : s' = Ledger.delete s gone := (Except.ok.inj h).symm
    subst hs
    exact Bucket.find?_erase gone path _
  | database =>
    obtain ⟨db,hdb,hc⟩ := exceptBind_eq_ok h
    have hs : s' = Connection.commit s db := (Except.ok.inj hc).symm
    have hd : db = Database.delete s.database gone := by
      simp only [Connection.ask] at hdb
      split_ifs at hdb
      exact (Except.ok.inj hdb).symm
    subst hs hd
    exact Bucket.find?_erase gone path _

theorem held?_putAll (k : HistoryKind) {s s' : k.State} {rs : List Record}
    (h : k.access.putAll s rs = .ok s') (path : Text) :
    k.held? s' path = ((lastAt? rs path).map k.form).or (k.held? s path) := by
  cases k with
  | memory =>
    have hs : s' = Ledger.putAll s rs := (Except.ok.inj h).symm
    subst hs
    simp only [held?,entries,Ledger.records_putAll]
    exact find?_foldl_insert id rs s.records path
  | database =>
    obtain ⟨db,hdb,hc⟩ := exceptBind_eq_ok h
    have hs : s' = Connection.commit s db := (Except.ok.inj hc).symm
    subst hs
    simp only [Connection.ask] at hdb
    split_ifs at hdb
    simp only [held?,entries,Connection.commit,Database.records_putAll hdb]
    exact find?_foldl_insert Packed.record rs s.database.records path

/-! ### Histories in use -/

def IsOpen : (k : HistoryKind) → k.State → Prop
  | memory, _ => True
  | database, c => c.isOpen = true

def keyFault? : HistoryKind → Text → Option HistoryError
  | memory, _ => none
  | database, path => Database.keyFault? path

def batchFault? (k : HistoryKind) (rs : List Record) : Option HistoryError :=
  rs.findSome? fun r => k.keyFault? r.path

theorem isOpen_of_list (k : HistoryKind) {s : k.State} {rs : List Record}
    (h : k.access.list s = .ok rs) : k.IsOpen s := by
  cases k with
  | memory => trivial
  | database =>
    by_contra hclosed
    simp [access,Connection.access,Connection.ask,show ¬s.isOpen = true from hclosed] at h

theorem delete_of_isOpen (k : HistoryKind) {s : k.State} (h : k.IsOpen s) (path : Text) :
    ∃ s', k.access.delete s path = .ok s' ∧ k.IsOpen s' := by
  cases k with
  | memory => exact ⟨_,rfl,trivial⟩
  | database =>
    have hopen : s.isOpen = true := h
    refine ⟨s.commit (s.database.delete path),?_,hopen⟩
    simp only [access,Connection.access,Connection.update,Connection.ask,hopen,if_true]
    rfl

/-- An open history stores a batch unless one of its paths is refused. -/
theorem putAll_of_isOpen (k : HistoryKind) {s : k.State} (h : k.IsOpen s) (rs : List Record) :
    (∃ e, k.batchFault? rs = some e ∧ k.access.putAll s rs = .error e) ∨
      k.batchFault? rs = none ∧ ∃ s', k.access.putAll s rs = .ok s' ∧ k.IsOpen s' := by
  cases k with
  | memory => exact Or.inr ⟨List.findSome?_eq_none_iff.mpr fun _ _ => rfl,_,rfl,trivial⟩
  | database =>
    have hopen : s.isOpen = true := h
    have hask (change : Database → Except HistoryError Database) :
        s.ask change = change s.database := if_pos hopen
    simp only [access,Connection.access,Connection.update,hask,Database.putAll_eq]
    change (∃ e, (rs.findSome? fun r => Database.keyFault? r.path) = some e ∧ _) ∨
      (rs.findSome? fun r => Database.keyFault? r.path) = none ∧ _
    cases rs.findSome? fun r => Database.keyFault? r.path with
    | some e => exact Or.inl ⟨e,rfl,rfl⟩
    | none => exact Or.inr ⟨rfl,_,rfl,hopen⟩

theorem isOpen_of_delete (k : HistoryKind) {s s' : k.State} (h : k.IsOpen s) {path : Text}
    (hdelete : k.access.delete s path = .ok s') : k.IsOpen s' := by
  obtain ⟨s'',hdelete',hopen⟩ := k.delete_of_isOpen h path
  rwa [← Except.ok.inj (hdelete'.symm.trans hdelete)]

theorem isOpen_of_putAll (k : HistoryKind) {s s' : k.State} (h : k.IsOpen s) {rs : List Record}
    (hput : k.access.putAll s rs = .ok s') : k.IsOpen s' := by
  rcases k.putAll_of_isOpen h rs with ⟨e,-,herror⟩ | ⟨-,s'',hput',hopen⟩
  · cases hput.symm.trans herror
  · rwa [← Except.ok.inj (hput'.symm.trans hput)]

end HistoryKind
end CircuitNotes
