import CircuitNotes.Proofs.HistoryViews

/-! The stored form of a record stands for that record and for no other. A clock with 64 bits for the
seconds cannot tell instants apart that lie 2^64 seconds from each other, so records are compared as
one clock shows them, whichever second it starts from. -/
namespace CircuitNotes

/-- What two clocks show of an instant: the second only looks at what the first has kept. -/
theorem Instant.onClock_onClock (first first' : Int) (t : Instant) :
    (t.onClock first).onClock first' = t.onClock first' := by
  have hsame : (first + (t.seconds - first) % 2^64 - first') % 2^64 = (t.seconds - first') % 2^64 := by
    omega
  simp only [Instant.onClock,hsame]

theorem Record.onClock_onClock (first first' : Int) (r : Record) :
    (r.onClock first).onClock first' = r.onClock first' := by
  simp only [Record.onClock,Instant.onClock_onClock]

theorem Packed.onClock_eq_of_record_eq {r r' : Record} (h : r.Packable) (h' : r'.Packable)
    (hform : record r' = record r) (first : Int) : r'.onClock first = r.onClock first := by
  have hread : some (r'.onClock firstSecond,([] : Text)) = some (r.onClock firstSecond,[]) := by
    rw [← read?_packable h',← read?_packable h,hform]
  have hclock : r'.onClock firstSecond = r.onClock firstSecond :=
    (Prod.mk.inj (Option.some.inj hread)).1
  rw [← Record.onClock_onClock firstSecond first r',hclock,Record.onClock_onClock]

theorem Database.find?_of_put {db db' : Database} {r : Record} (h : db.put r = .ok db') :
    Bucket.find? db'.records r.path = some (Packed.record r) := by
  rw [eq_of_put h]
  exact Bucket.find?_insert_self _ _ _

/-- The bytes that are stored for a record are read to their end, and what is read is the record
itself; so no other record has these bytes. -/
theorem stored_form_decodes (first : Int) {r : Record} (h : r.Packable)
    (hshown : r.explainedAt.Shown first) :
    (∃ r₀, Packed.read? (Packed.record r) = some (r₀,[]) ∧ r₀.onClock first = r ∧
      (first = Packed.firstSecond → r₀ = r) ∧
      ∀ db db' : Database, db.put r = .ok db' →
        Bucket.find? db'.records r.path = some (Packed.record r) ∧ db'.get r.path = .ok r₀) ∧
    ∀ r' : Record, r'.Packable → r'.explainedAt.Shown first →
      Packed.record r' = Packed.record r → r' = r := by
  have hread := Packed.read?_packable h
  refine ⟨⟨_,hread,?_,?_,?_⟩,?_⟩
  · rw [Record.onClock_onClock,Record.onClock_of_shown hshown]
  · rintro rfl
    exact Record.onClock_of_shown hshown
  · intro db db' hput
    have hfind := Database.find?_of_put hput
    refine ⟨hfind,?_⟩
    simp only [Database.get,hfind,Database.decode,hread]
  · intro r' h' hshown' hform
    have hclock := Packed.onClock_eq_of_record_eq h h' hform first
    rwa [Record.onClock_of_shown hshown,Record.onClock_of_shown hshown'] at hclock

/-- A record that needs the widest forms, with the first second of the clock of 64 bits that counts
from 1970 in both directions. -/
def sampleForm : Record :=
  { path := List.replicate 300 97,modified := -1
    circuit :=
      { qubits := -2^63
        gates := some [{ name := "U",qubits := some [-33,2^40,2^63-1],params := ["θ",""] },
          { name := [],unresolved := ["q[0]"] }] }
    document := ⟨some []⟩
    explainedAt := ⟨-2^63,999999999⟩ }

theorem stored_form_decodes_sample :
    (Packed.read? (Packed.record sampleForm)).map (fun p => (p.1.onClock (-2^63),p.2)) =
        some (sampleForm,[]) ∧
      ∀ r' : Record, r'.Packable → r'.explainedAt.Shown (-2^63) →
        Packed.record r' = Packed.record sampleForm → r' = sampleForm := by
  have hlength : sampleForm.path.length = 300 := List.length_replicate
  have hpath : Short sampleForm.path := by
    rw [Short,hlength]
    decide
  have hpackable : sampleForm.Packable := ⟨hpath,by decide,by decide,by decide,by decide,by decide⟩
  obtain ⟨⟨r₀,hread,hclock,_⟩,hunique⟩ :=
    stored_form_decodes (-2^63) hpackable ⟨by decide,by decide⟩
  refine ⟨?_,hunique⟩
  rw [hread,Option.map_some,hclock]

end CircuitNotes
