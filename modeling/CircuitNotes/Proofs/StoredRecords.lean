import CircuitNotes.History.Packed
import CircuitNotes.Proofs.PackedValues
import CircuitNotes.Proofs.Texts

/-! A record that fits the stored form is read back from it. Fields are followed one by one, each
setting what it names in the record that is being read. -/
namespace CircuitNotes

def Short {α : Type} (l : List α) : Prop := l.length < 2^32

instance {α : Type} (l : List α) : Decidable (Short l) := inferInstanceAs (Decidable (_ < _))

def Long (i : Int) : Prop := -2^63 ≤ i ∧ i < 2^63

instance (i : Int) : Decidable (Long i) := inferInstanceAs (Decidable (_ ∧ _))

def ShortTexts (ts : List Text) : Prop := Short ts ∧ ∀ t ∈ ts, Short t

instance (ts : List Text) : Decidable (ShortTexts ts) := inferInstanceAs (Decidable (_ ∧ _))

structure Gate.Storable (g : Gate) : Prop where
  name : Short g.name
  qubits : ∀ qs, g.qubits = some qs → Short qs ∧ ∀ q ∈ qs, Long q
  params : ShortTexts g.params
  unresolved : ShortTexts g.unresolved

instance (g : Gate) : Decidable g.Storable :=
  decidable_of_iff (Short g.name ∧ (∀ qs ∈ g.qubits, Short qs ∧ ∀ q ∈ qs, Long q) ∧
      ShortTexts g.params ∧ ShortTexts g.unresolved)
    ⟨fun ⟨h₁,h₂,h₃,h₄⟩ => ⟨h₁,h₂,h₃,h₄⟩,fun ⟨h₁,h₂,h₃,h₄⟩ => ⟨h₁,h₂,h₃,h₄⟩⟩

structure Circuit.Storable (c : Circuit) : Prop where
  name : Short c.name
  qubits : Long c.qubits
  gates : ∀ gs, c.gates = some gs → Short gs ∧ ∀ g ∈ gs, g.Storable

instance (c : Circuit) : Decidable c.Storable :=
  decidable_of_iff
    (Short c.name ∧ Long c.qubits ∧ ∀ gs ∈ c.gates, Short gs ∧ ∀ g ∈ gs, g.Storable)
    ⟨fun ⟨h₁,h₂,h₃⟩ => ⟨h₁,h₂,h₃⟩,fun ⟨h₁,h₂,h₃⟩ => ⟨h₁,h₂,h₃⟩⟩

def Document.Storable (d : Document) : Prop :=
  ∀ bs, d.blocks = some bs → Short bs ∧ ∀ b ∈ bs, Short b.heading ∧ Short b.explanation

instance (d : Document) : Decidable d.Storable :=
  inferInstanceAs (Decidable
    (∀ bs ∈ d.blocks, Short bs ∧ ∀ b ∈ bs, Short b.heading ∧ Short b.explanation))

/-- An instant as a clock shows it whose 64 bits for the seconds start over at `first`. -/
def Instant.onClock (first : Int) (t : Instant) : Instant :=
  ⟨first + (t.seconds - first) % 2^64,t.nanos⟩

/-- A second that such a clock can show. -/
def Instant.Shown (first : Int) (t : Instant) : Prop :=
  first ≤ t.seconds ∧ t.seconds < first + 2^64

instance (first : Int) (t : Instant) : Decidable (t.Shown first) := inferInstanceAs (Decidable (_ ∧ _))

theorem Instant.Shown.onClock {first : Int} {t : Instant} (h : t.Shown first) :
    t.onClock first = t := by
  obtain ⟨hlow,hhigh⟩ := h
  have hrange : (t.seconds - first) % 2^64 = t.seconds - first :=
    Int.emod_eq_of_lt (Int.sub_nonneg_of_le hlow) (Int.sub_left_lt_of_lt_add hhigh)
  rw [Instant.onClock,hrange,Int.add_comm,Int.sub_add_cancel]

/-- A record of which everything but the second of its instant fits the stored form. -/
structure Record.Packable (r : Record) : Prop where
  path : Short r.path
  hash : Short r.hash
  modified : Long r.modified
  circuit : r.circuit.Storable
  document : r.document.Storable
  nanos : r.explainedAt.nanos < 10^9

structure Record.Storable (r : Record) : Prop extends r.Packable where
  shown : r.explainedAt.Shown Packed.firstSecond

instance (r : Record) : Decidable r.Packable :=
  decidable_of_iff (Short r.path ∧ Short r.hash ∧ Long r.modified ∧ r.circuit.Storable ∧
      r.document.Storable ∧ r.explainedAt.nanos < 10^9)
    ⟨fun ⟨h₁,h₂,h₃,h₄,h₅,h₆⟩ => ⟨h₁,h₂,h₃,h₄,h₅,h₆⟩,
      fun ⟨h₁,h₂,h₃,h₄,h₅,h₆⟩ => ⟨h₁,h₂,h₃,h₄,h₅,h₆⟩⟩

instance (r : Record) : Decidable r.Storable :=
  decidable_of_iff (r.Packable ∧ r.explainedAt.Shown Packed.firstSecond)
    ⟨fun ⟨hpackable,hshown⟩ => ⟨hpackable,hshown⟩,fun h => ⟨h.toPackable,h.shown⟩⟩

def Record.onClock (first : Int) (r : Record) : Record :=
  { r with explainedAt := r.explainedAt.onClock first }

theorem Record.onClock_of_shown {first : Int} {r : Record} (h : r.explainedAt.Shown first) :
    r.onClock first = r := by
  rw [Record.onClock,h.onClock]

namespace Packed

open MessagePack

def Holds {α : Type} (depth : Nat) (t : Text) (understand : MessagePack → Option α) (a : α) : Prop :=
  ∃ v, Written depth t v ∧ understand v = some a

theorem Holds.mono {α : Type} {depth depth' : Nat} {t : Text} {understand : MessagePack → Option α}
    {a : α} (h : Holds depth t understand a) (hle : depth ≤ depth') : Holds depth' t understand a := by
  obtain ⟨v,hv,ha⟩ := h
  exact ⟨v,hv.mono hle,ha⟩

theorem Holds.set {α β : Type} {depth : Nat} {t : Text} {understand : MessagePack → Option α} {a : α}
    (h : Holds depth t understand a) (f : α → β) :
    Holds depth t (fun v => do return f (← understand v)) (f a) := by
  obtain ⟨v,hv,ha⟩ := h
  exact ⟨v,hv,by simp [ha]⟩

theorem holds_text {t : Text} (h : Short t) : Holds 1 (writeText t) text? t :=
  ⟨_,written_writeText h,rfl⟩

theorem int?_of_long {i : Int} (h : Long i) : int? (.int i) = some i := by
  obtain ⟨hlow,hhigh⟩ := h
  have hb : Int.bmod i (1 <<< 64) = i := Int.bmod_eq_of_le (by omega) (by omega)
  rw [int?,hb]

theorem holds_int {i : Int} (h : Long i) : Holds 1 (writeInt i) int? i :=
  ⟨_,written_writeInt h.1 (h.2.trans (by decide)),int?_of_long h⟩

theorem holds_long {i : Int} (h : Long i) : Holds 1 (writeLong i) int? i :=
  ⟨_,written_writeLong h.1 h.2,int?_of_long h⟩

theorem exists_written_list {α : Type} {depth : Nat} {write : α → Text}
    {understand : MessagePack → Option α} {items : List α} (hshort : Short items)
    (h : ∀ a ∈ items, Holds depth (write a) understand a) :
    ∃ vs, Written (depth+1) (writeList (items.map write)) (.list vs) ∧
      vs.mapM understand = some items := by
  obtain ⟨vs,hwritten,hread⟩ : ∃ vs, List.Forall₂ (Written depth) (items.map write) vs ∧
      vs.mapM understand = some items := by
    clear hshort
    induction items with
    | nil => exact ⟨[],.nil,rfl⟩
    | cons a items ih =>
      obtain ⟨v,hv,hva⟩ := h a List.mem_cons_self
      obtain ⟨vs,hvs,hall⟩ := ih fun b hb => h b (List.mem_cons_of_mem _ hb)
      exact ⟨v :: vs,.cons hv hvs,by simp [List.mapM_cons,hva,hall]⟩
  exact ⟨vs,written_writeList hwritten (by simpa [Short] using hshort),hread⟩

theorem holds_texts {ts : List Text} (h : ShortTexts ts) (old : List Text) :
    Holds 2 (texts ts) (textsOver? · old) ts := by
  obtain ⟨vs,hw,hread⟩ := exists_written_list h.1 fun t ht => holds_text (h.2 t ht)
  exact ⟨_,hw,hread⟩

theorem holds_ints {qs : Option (List Int)}
    (h : ∀ l, qs = some l → Short l ∧ ∀ q ∈ l, Long q) :
    Holds 2 (list? writeInt qs) ints? qs := by
  cases qs with
  | none => exact ⟨_,written_nil.mono (by decide),rfl⟩
  | some l =>
    obtain ⟨hshort,hlong⟩ := h l rfl
    obtain ⟨vs,hw,hread⟩ := exists_written_list hshort fun q hq => holds_int (hlong q hq)
    exact ⟨_,hw,by simp [ints?,hread]⟩

/-- Items that are read into no places are read one by one from the empty one. -/
theorem itemsOver?_nil {α : Type} (fill : MessagePack → α → Option α) (empty : α)
    (vs : List MessagePack) : itemsOver? fill empty vs [] = vs.mapM (fill · empty) := by
  induction vs with
  | nil => rfl
  | cons v vs ih => simp [itemsOver?,List.mapM_cons,ih]

theorem holds_draft {α : Type} {depth : Nat} {write : α → Text}
    {fill : MessagePack → α → Option α} {empty : α} {items : Option (List α)}
    (h : ∀ l, items = some l → Short l ∧
      ∀ a ∈ l, Holds (depth+1) (write a) (fill · empty) a) :
    Holds (depth+2) (list? write items) (Draft.over? fill empty · {}) ⟨items,[]⟩ := by
  cases items with
  | none => exact ⟨_,written_nil.mono (by omega),rfl⟩
  | some l =>
    obtain ⟨hshort,hall⟩ := h l rfl
    obtain ⟨vs,hw,hread⟩ := exists_written_list hshort hall
    exact ⟨_,hw,by simp [Draft.over?,itemsOver?_nil,hread]⟩

/-! ### Fields -/

/-- Fields that take a value from one state to another, each by the rule of its name. -/
inductive Fills {σ : Type} (depth : Nat) (rules : List (FieldRule σ)) :
    List (String × Text) → σ → σ → Prop
  | nil {s : σ} : Fills depth rules [] s s
  | cons {name : String} {t : Text} {rule : FieldRule σ} {rest : List (String × Text)}
      {s s' s'' : σ} (hname : Short (Text.ofString name))
      (hrule : (rules.find? fun r => r.name == name) = some rule)
      (hset : Holds depth t (rule.set · s) s') (hrest : Fills depth rules rest s' s'') :
      Fills depth rules ((name,t) :: rest) s s''

theorem Fills.append {σ : Type} {depth : Nat} {rules : List (FieldRule σ)}
    {a b : List (String × Text)} {s s' s'' : σ} (ha : Fills depth rules a s s')
    (hb : Fills depth rules b s' s'') : Fills depth rules (a ++ b) s s'' := by
  induction ha with
  | nil => exact hb
  | cons hname hrule hset _ ih => exact .cons hname hrule hset (ih hb)

theorem find?_rule {σ : Type} (rules : List (FieldRule σ)) (name : String) :
    (rules.find? fun r => Text.ofString r.name == Text.ofString name) =
      rules.find? fun r => r.name == name := by
  congr 1
  funext r
  by_cases h : r.name = name
  · simp [h]
  · have hne : Text.ofString r.name ≠ Text.ofString name := fun he => h (Text.ofString_injective he)
    simp [h,hne]

theorem Fills.exists_pairs {σ : Type} {depth : Nat} {rules : List (FieldRule σ)}
    {fields : List (String × Text)} {s s' : σ} (h : Fills depth rules fields s s') :
    ∃ pairs, List.Forall₂ (WrittenField depth) fields pairs ∧ setPairs rules pairs s = some s' := by
  induction h with
  | nil => exact ⟨[],.nil,rfl⟩
  | @cons name t rule rest s s' s'' hname hrule hset _ ih =>
    obtain ⟨v,hv,hs⟩ := hset
    obtain ⟨pairs,hpairs,hrest⟩ := ih
    refine ⟨(.text (Text.ofString name),v) :: pairs,.cons ⟨hname,rfl,hv⟩ hpairs,?_⟩
    simp only [setPairs,text?,Option.bind_eq_bind,Option.bind_some,find?_rule,hrule,hs,hrest]

theorem holds_fields {σ : Type} {depth : Nat} (hdepth : 1 ≤ depth) {rules : List (FieldRule σ)}
    {fields : List (String × Text)} {s s' : σ} (empty : σ) (h : Fills depth rules fields s s')
    (hfew : fields.length < 16) :
    Holds (depth+1) (writeFields fields) (over? rules empty · s) s' := by
  obtain ⟨pairs,hpairs,hset⟩ := h.exists_pairs
  exact ⟨_,written_writeFields hdepth hpairs hfew,hset⟩

theorem fills_unlessEmpty {σ : Type} {depth : Nat} {rules : List (FieldRule σ)} {name : String}
    {rule : FieldRule σ} {ts : List Text} {s s' : σ} (hname : Short (Text.ofString name))
    (hrule : (rules.find? fun r => r.name == name) = some rule)
    (hempty : ts = [] → s' = s) (hset : Holds depth (texts ts) (rule.set · s) s') :
    Fills depth rules (if ts.isEmpty then [] else [(name,texts ts)]) s s' := by
  cases ts with
  | nil =>
    rw [hempty rfl]
    exact .nil
  | cons t ts => exact .cons hname hrule hset .nil

theorem holds_gate {g : Gate} (h : g.Storable) :
    Holds 3 (gate g) (over? gateRules emptyGate · emptyGate) g := by
  have hnamed : Fills 2 gateRules [("name",writeText g.name),("qubits",list? writeInt g.qubits)]
      emptyGate ⟨g.name,g.qubits,[],[]⟩ :=
    .cons (by decide) rfl (((holds_text h.name).mono (by decide)).set _)
      (.cons (by decide) rfl ((holds_ints h.qubits).set _) .nil)
  have hparams : Fills 2 gateRules (if g.params.isEmpty then [] else [("params",texts g.params)])
      ⟨g.name,g.qubits,[],[]⟩ ⟨g.name,g.qubits,g.params,[]⟩ :=
    fills_unlessEmpty (by decide) rfl (by simp_all) ((holds_texts h.params []).set _)
  have hunresolved : Fills 2 gateRules
      (if g.unresolved.isEmpty then [] else [("unresolved",texts g.unresolved)])
      ⟨g.name,g.qubits,g.params,[]⟩ g :=
    fills_unlessEmpty (by decide) rfl (by cases g; simp_all)
      ((holds_texts h.unresolved []).set fun ts => { g with unresolved := ts })
  refine holds_fields (by decide) emptyGate ((hnamed.append hparams).append hunresolved) ?_
  by_cases hp : g.params.isEmpty <;> by_cases hu : g.unresolved.isEmpty <;> simp [hp,hu]

theorem holds_circuit {c : Circuit} (h : c.Storable) :
    Holds 5 (circuit c) (over? circuitRules {} · {}) ⟨c.name,c.qubits,⟨c.gates,[]⟩⟩ := by
  have hgates : Holds 4 (list? gate c.gates)
      (Draft.over? (over? gateRules emptyGate) emptyGate · {}) ⟨c.gates,[]⟩ :=
    holds_draft fun gs hgs => (h.gates gs hgs).imp_right fun hall g hg => holds_gate (hall g hg)
  refine holds_fields (by decide) _ ?_ (by simp)
  exact .cons (by decide) rfl (((holds_text h.name).mono (by decide)).set _)
    (.cons (by decide) rfl (((holds_int h.qubits).mono (by decide)).set _)
      (.cons (by decide) rfl (hgates.set _) .nil))

theorem holds_block {b : Block} (h : Short b.heading ∧ Short b.explanation) :
    Holds 2 (block b) (over? blockRules emptyBlock · emptyBlock) b := by
  refine holds_fields (by decide) _ ?_ (by simp)
  exact .cons (by decide) rfl ((holds_text h.1).set _)
    (.cons (by decide) rfl ((holds_text h.2).set fun t => { b with explanation := t }) .nil)

theorem holds_document {d : Document} (h : d.Storable) :
    Holds 4 (document d) (over? documentRules {} · {}) ⟨d.blocks,[]⟩ := by
  have hblocks : Holds 3 (list? block d.blocks)
      (Draft.over? (over? blockRules emptyBlock) emptyBlock · {}) ⟨d.blocks,[]⟩ :=
    holds_draft fun bs hbs => (h bs hbs).imp_right fun hall b hb => holds_block (hall b hb)
  exact holds_fields (by decide) _ (.cons (by decide) rfl hblocks .nil) (by simp)

/-! ### Instants and records -/

theorem written_extension {b : UInt8} {n : Nat} (kind : UInt8) {data : Text} (h : data.length = n)
    (hb : ∀ (inner : Reader) (rest : Text), readAfter inner b rest = readExtension n rest) :
    Written 1 (b :: kind :: data) (.extension kind data) := by
  refine written_cons fun d _ rest => ?_
  rw [hb,← h]
  exact readExtension_append kind data rest

/-- Twelve bytes have no first byte of their own, and their number comes before the kind. -/
theorem written_twelve (kind : UInt8) {data : Text} (h : data.length = 12) :
    Written 1 (0xC7 :: 12 :: kind :: data) (.extension kind data) :=
  written_counted (n:=12) (fun _ => readExtension) (show 12 < 256^1 by decide) (fun _ _ => rfl)
    fun _ _ rest => h ▸ readExtension_append kind data rest

theorem instantOver?_extension (kind : UInt8) (data : Text) (old : Instant) :
    instantOver? (.extension kind data) old = instant? (.extension kind data) := rfl

theorem instantOf_congr {seconds seconds' : Int} (h : seconds % 2^64 = seconds' % 2^64)
    (nanos : Nat) : instantOf seconds nanos = instantOf seconds' nanos := by
  have hspan : ((1 <<< 64 : Nat) : Int) = 2^64 := rfl
  simp only [instantOf,hspan,firstSecond]
  congr 2
  omega

theorem instantOf_of_lt (seconds : Int) {nanos : Nat} (h : nanos < 10^9) :
    instantOf seconds nanos = Instant.onClock firstSecond ⟨seconds,nanos⟩ := by
  have hspan : ((1 <<< 64 : Nat) : Int) = 2^64 := rfl
  have hcarry : nanos / 1000000000 = 0 := Nat.div_eq_of_lt h
  have hrest : nanos % 1000000000 = nanos := Nat.mod_eq_of_lt h
  rw [instantOf,hspan,hcarry,Int.natCast_zero,Int.add_zero,hrest,Instant.onClock]

theorem instant?_ofFour {data : Text} (hlength : data.length = 4) :
    instant? (.extension instantKind data) = some (instantOf (ofBigEndian data) 0) := by
  simp [instant?,hlength]

theorem instant?_ofEight {data : Text} {n nanos : Nat} (hlength : data.length = 8)
    (hdata : ofBigEndian data = (nanos <<< 34) + n) (hn : n < 1 <<< 34) :
    instant? (.extension instantKind data) = some (instantOf n nanos) := by
  have hnanos : ((nanos <<< 34) + n) >>> 34 = nanos := by
    rw [Nat.shiftRight_eq_div_pow,Nat.shiftLeft_eq]
    omega
  have hseconds : ((nanos <<< 34) + n) % 1 <<< 34 = n := by
    rw [Nat.one_shiftLeft,Nat.shiftLeft_eq]
    omega
  simp only [instant?,hlength,hdata,hnanos,hseconds]
  rfl

/-- Twelve bytes hold the seconds up to multiples of 2^64, which `instantOf` takes away. -/
theorem instant?_ofTwelve (seconds : Int) {nanos : Nat} (hnanos : nanos < 10^9) :
    instant? (.extension instantKind (bigEndian 4 nanos ++ bigEndianInt 8 seconds)) =
      some (instantOf seconds nanos) := by
  have hfirst : (bigEndian 4 nanos ++ bigEndianInt 8 seconds).take 4 = bigEndian 4 nanos :=
    List.take_left' (length_bigEndian 4 nanos)
  have hlast : (bigEndian 4 nanos ++ bigEndianInt 8 seconds).drop 4 = bigEndianInt 8 seconds :=
    List.drop_left' (length_bigEndian 4 nanos)
  have hn : ofBigEndian (bigEndian 4 nanos) = nanos := ofBigEndian_of_lt (by omega)
  have hseconds : ofBigEndianInt (bigEndianInt 8 seconds) % 2^64 = seconds % 2^64 := by
    rw [ofBigEndianInt_bigEndianInt]
    split <;> omega
  simp only [instant?,hfirst,hlast,hn,instantOf_congr hseconds,List.length_append,length_bigEndian,
    length_bigEndianInt]
  rfl

theorem holds_instant {t : Instant} (h : t.nanos < 10^9) (old : Instant) :
    Holds 1 (instant t) (instantOver? · old) (t.onClock firstSecond) := by
  obtain ⟨seconds,nanos⟩ := t
  have hnanos : nanos < 10^9 := h
  have hof := congrArg some (instantOf_of_lt seconds hnanos)
  simp only [instant]
  split_ifs with hsmall hdata
  · obtain ⟨n,rfl⟩ := Int.eq_ofNat_of_zero_le hsmall.1
    rw [Int.toNat_natCast] at hsmall hdata ⊢
    have hzero : nanos = 0 := by
      rw [Nat.shiftLeft_eq] at hdata
      omega
    subst hzero
    refine ⟨_,written_extension _ (length_bigEndian 4 _) fun _ _ => rfl,?_⟩
    have hn : ofBigEndian (bigEndian 4 ((0 <<< 34) + n)) = n := by
      rw [ofBigEndian_of_lt hdata,Nat.zero_shiftLeft,Nat.zero_add]
    refine (instantOver?_extension _ _ old).trans ?_
    rw [instant?_ofFour (length_bigEndian _ _),hn,hof]
  · obtain ⟨n,rfl⟩ := Int.eq_ofNat_of_zero_le hsmall.1
    rw [Int.toNat_natCast] at hsmall hdata ⊢
    have hfit : (nanos <<< 34) + n < 256^8 := by
      rw [Nat.shiftLeft_eq]
      omega
    refine ⟨_,written_extension _ (length_bigEndian 8 _) fun _ _ => rfl,?_⟩
    refine (instantOver?_extension _ _ old).trans ?_
    rw [instant?_ofEight (length_bigEndian _ _) (ofBigEndian_of_lt hfit) hsmall.2,hof]
  · refine ⟨_,written_twelve instantKind (by simp),?_⟩
    refine (instantOver?_extension _ _ old).trans ?_
    rw [instant?_ofTwelve seconds hnanos,hof]

/-- A record whose time of change and instant are read as something, whatever it is. -/
theorem holds_record_as {r : Record} {modified : Int} {explainedAt : Instant} (hpath : Short r.path)
    (hhash : Short r.hash) (hmodified : Holds 1 (writeLong r.modified) int? modified)
    (hcircuit : r.circuit.Storable) (hdocument : r.document.Storable)
    (hinstant : ∀ old, Holds 1 (instant r.explainedAt) (instantOver? · old) explainedAt) :
    Holds 6 (record r) (over? recordRules {} · {})
      ⟨r.path,r.hash,modified,⟨r.circuit.name,r.circuit.qubits,⟨r.circuit.gates,[]⟩⟩,
        ⟨r.document.blocks,[]⟩,explainedAt⟩ := by
  refine holds_fields (by decide) _ ?_ (by simp)
  exact .cons (by decide) rfl (((holds_text hpath).mono (by decide)).set _)
    (.cons (by decide) rfl (((holds_text hhash).mono (by decide)).set _)
      (.cons (by decide) rfl ((hmodified.mono (by decide)).set _)
        (.cons (by decide) rfl ((holds_circuit hcircuit).set _)
          (.cons (by decide) rfl (((holds_document hdocument).mono (by decide)).set _)
            (.cons (by decide) rfl (((hinstant _).mono (by decide)).set _)
              .nil)))))

theorem holds_record {r : Record} (h : r.Packable) :
    Holds 6 (record r) (over? recordRules {} · {})
      ⟨r.path,r.hash,r.modified,⟨r.circuit.name,r.circuit.qubits,⟨r.circuit.gates,[]⟩⟩,
        ⟨r.document.blocks,[]⟩,r.explainedAt.onClock firstSecond⟩ :=
  holds_record_as h.path h.hash (holds_long h.modified) h.circuit h.document (holds_instant h.nanos)

theorem six_le_length_record (r : Record) : 6 ≤ (record r).length := by
  have hlong : (writeLong r.modified).length = 9 := by simp [writeLong]
  simp only [record,writeFields,List.flatMap_cons,List.length_cons,List.length_append,hlong]
  omega

/-- A record is read back from its stored form with nothing left over, its instant as a clock shows it
that starts at the first second. -/
theorem read?_packable {r : Record} (h : r.Packable) :
    read? (record r) = some (r.onClock firstSecond,[]) := by
  obtain ⟨v,hv,hr⟩ := holds_record h
  have hread : MessagePack.read? (record r) = some (v,[]) := by
    simpa [MessagePack.read?] using hv _ (six_le_length_record r) []
  simp [read?,hread,hr,RecordDraft.record,CircuitDraft.circuit,Record.onClock]

theorem read?_record {r : Record} (h : r.Storable) : read? (record r) = some (r,[]) := by
  rw [read?_packable h.toPackable,Record.onClock_of_shown h.shown]

end Packed
end CircuitNotes
