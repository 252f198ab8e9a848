import CircuitNotes.Command.Project
import Mathlib.Data.List.Basic

/-! What work keeps. A condition on the world that every step keeps is kept by the whole, whether it
ends well or fails half way. -/
namespace CircuitNotes
namespace Work

variable {ε ε' α β : Type}

def result (x : Work ε α) (w : World) : Except ε α × World := x.run.run w

theorem result_pure (a : α) (w : World) : result (pure a : Work ε α) w = (.ok a,w) := rfl

theorem result_throw (e : ε) (w : World) : result (throw e : Work ε α) w = (.error e,w) := rfl

theorem result_bind (x : Work ε α) (f : α → Work ε β) (w : World) :
    result (x >>= f) w = match result x w with
      | (.ok a,w') => result (f a) w'
      | (.error e,w') => (.error e,w') := by
  change (match result x w with
    | (r,w') => (ExceptT.bindCont f r).run w') = _
  rcases result x w with ⟨r,w'⟩
  cases r <;> rfl

theorem result_files (w : World) : result (files : Work ε FileTree) w = (.ok w.tree,w) := rfl

theorem result_attempt (x : Work ε α) (w : World) :
    result (x.attempt : Work ε' (Except ε α)) w = (.ok (result x w).1,(result x w).2) := rfl

theorem result_ask (question : FileTree → Except FileError α) (because : FileError → ε) (w : World) :
    result (ask question because) w = match question w.tree with
      | .ok a => (.ok a,w)
      | .error e => (.error (because e),w) := by
  change result (match question w.tree with
    | .ok a => pure a
    | .error e => throw (because e)) w = _
  cases question w.tree <;> rfl

theorem result_ask_eq_ok {question : FileTree → Except FileError α} {because : FileError → ε}
    {w w' : World} {a : α} (h : result (ask question because) w = (.ok a,w')) :
    w = w' ∧ question w.tree = .ok a := by
  rw [result_ask] at h
  cases hq : question w.tree with
  | error e =>
    rw [hq] at h
    cases h
  | ok a' =>
    rw [hq] at h
    cases h
    exact ⟨rfl,rfl⟩

theorem result_change (f : FileTree → Except FileError FileTree) (because : FileError → ε) (w : World) :
    result (change f because) w = match f w.tree with
      | .ok t => (.ok (),{ w with tree := t })
      | .error e => (.error (because e),w) := by
  change result (match f w.tree with
    | .ok t => modify fun w => { w with tree := t }
    | .error e => throw (because e)) w = _
  cases f w.tree <;> rfl

theorem result_change_eq_ok {f : FileTree → Except FileError FileTree} {because : FileError → ε}
    {a : Unit} {w w' : World} (h : result (change f because) w = (.ok a,w')) :
    ∃ t, f w.tree = .ok t ∧ w' = { w with tree := t } := by
  rw [result_change] at h
  cases hchange : f w.tree with
  | error e =>
    rw [hchange] at h
    cases h
  | ok t =>
    rw [hchange] at h
    cases h
    exact ⟨t,rfl,rfl⟩

theorem result_bind_eq_ok {x : Work ε α} {f : α → Work ε β} {w w' : World} {b : β}
    (h : result (x >>= f) w = (.ok b,w')) :
    ∃ a w₁, result x w = (.ok a,w₁) ∧ result (f a) w₁ = (.ok b,w') := by
  rw [result_bind] at h
  rcases hx : result x w with ⟨r,w₁⟩
  rw [hx] at h
  cases r with
  | error e => cases h
  | ok a => exact ⟨a,w₁,rfl,h⟩

theorem result_because (x : Work ε α) (f : ε → ε') (w : World) :
    result (x.because f) w = ((result x w).1.mapError f,(result x w).2) := rfl

/-- Work that keeps a condition on the world, and whose answers satisfy another. -/
def Keeps (I : World → Prop) (x : Work ε α) (Q : α → Prop) : Prop :=
  ∀ w, I w → I (result x w).2 ∧ ∀ a, (result x w).1 = .ok a → Q a

variable {I : World → Prop} {x : Work ε α} {P Q : α → Prop}

theorem keeps_pure {a : α} (h : Q a) : Keeps I (pure a : Work ε α) Q := by
  intro w hw
  refine ⟨hw,?_⟩
  intro a' ha
  exact Except.ok.inj ha ▸ h

theorem keeps_throw (e : ε) : Keeps I (throw e : Work ε α) Q := by
  intro w hw
  exact ⟨hw,fun a ha => nomatch ha⟩

theorem Keeps.bind {f : α → Work ε β} {R : β → Prop} (hx : Keeps I x Q)
    (hf : ∀ a, Q a → Keeps I (f a) R) : Keeps I (x >>= f) R := by
  intro w hw
  obtain ⟨hw',hq⟩ := hx w hw
  rw [result_bind]
  rcases hr : result x w with ⟨r,w'⟩
  rw [hr] at hw' hq
  cases r with
  | error e => exact ⟨hw',fun a ha => nomatch ha⟩
  | ok a => exact hf a (hq a rfl) w' hw'

theorem Keeps.mono (hx : Keeps I x P) (h : ∀ a, P a → Q a) : Keeps I x Q := by
  intro w hw
  obtain ⟨hw',hp⟩ := hx w hw
  exact ⟨hw',fun a ha => h a (hp a ha)⟩

theorem keeps_files {T : FileTree → Prop} (h : ∀ w, I w → T w.tree) :
    Keeps I (files : Work ε FileTree) T := by
  intro w hw
  refine ⟨hw,?_⟩
  intro t ht
  exact Except.ok.inj ht ▸ h w hw

theorem keeps_modify {f : World → World} (h : ∀ w, I w → I (f w)) :
    Keeps I (modify f : Work ε Unit) (fun _ => True) := by
  intro w hw
  exact ⟨h w hw,fun _ _ => trivial⟩

theorem Keeps.attempt (hx : Keeps I x Q) :
    Keeps I (x.attempt : Work ε' (Except ε α)) (fun r => ∀ a, r = .ok a → Q a) := by
  intro w hw
  obtain ⟨hw',hq⟩ := hx w hw
  refine ⟨hw',?_⟩
  intro r hr a ha
  exact hq a ((Except.ok.inj hr).trans ha)

theorem Keeps.because (hx : Keeps I x Q) (f : ε → ε') : Keeps I (x.because f) Q := by
  intro w hw
  obtain ⟨hw',hq⟩ := hx w hw
  rw [result_because]
  refine ⟨hw',?_⟩
  intro a ha
  cases hr : (result x w).1 with
  | error e =>
    rw [hr] at ha
    cases ha
  | ok a' =>
    rw [hr] at ha
    exact Except.ok.inj ha ▸ hq a' hr

theorem keeps_forM {l : List β} {f : β → Work ε PUnit} (h : ∀ b ∈ l, Keeps I (f b) (fun _ => True)) :
    Keeps I (l.forM f) (fun _ => True) := by
  induction l with
  | nil => exact keeps_pure trivial
  | cons b l ih =>
    exact (h b List.mem_cons_self).bind fun _ _ => ih fun b' hb' => h b' (List.mem_cons_of_mem _ hb')

theorem keeps_ask (question : FileTree → Except FileError α) (because : FileError → ε) :
    Keeps I (ask question because) (fun _ => True) := by
  intro w hw
  rw [result_ask]
  cases question w.tree <;> exact ⟨hw,fun _ _ => trivial⟩

/-- A condition on the world that does not speak of what is printed and logged. -/
def Quiet (I : World → Prop) : Prop :=
  ∀ w stdout log, I w → I { w with stdout := stdout,log := log }

theorem keeps_print (hI : Quiet I) (t : Text) :
    Keeps I (Work.print t : Work ε Unit) (fun _ => True) :=
  keeps_modify fun w hw => hI w _ _ hw

theorem keeps_log (hI : Quiet I) (p : Project) (level : LogLevel) (message : Text) :
    Keeps I (p.log level message : Work ε Unit) (fun _ => True) := by
  unfold Project.log
  split_ifs
  · exact keeps_modify fun w hw => hI w _ _ hw
  · exact keeps_pure trivial

theorem keeps_change {f : FileTree → Except FileError FileTree} {because : FileError → ε}
    (h : ∀ w t, I w → f w.tree = .ok t → I { w with tree := t }) :
    Keeps I (change f because) (fun _ => True) := by
  intro w hw
  rw [result_change]
  cases ht : f w.tree with
  | error e => exact ⟨hw,fun _ _ => trivial⟩
  | ok t => exact ⟨h w t hw ht,fun _ _ => trivial⟩

/-! ### How work may fail -/

theorem result_bind_eq_error {x : Work ε α} {f : α → Work ε β} {w w' : World} {e : ε}
    (h : result (x >>= f) w = (.error e,w')) :
    result x w = (.error e,w') ∨
      ∃ a w₁, result x w = (.ok a,w₁) ∧ result (f a) w₁ = (.error e,w') := by
  rw [result_bind] at h
  rcases hx : result x w with ⟨r,w₁⟩
  rw [hx] at h
  cases r with
  | error e' =>
    cases h
    exact Or.inl rfl
  | ok a => exact Or.inr ⟨a,w₁,rfl,h⟩

/-- Work all of whose failures satisfy a condition. -/
def FailsOnly (E : ε → Prop) (x : Work ε α) : Prop :=
  ∀ w e w', result x w = (.error e,w') → E e

section FailsOnly

variable {E : ε → Prop}

theorem failsOnly_throw {e : ε} (h : E e) : FailsOnly E (throw e : Work ε α) := by
  rintro w e' w' ⟨⟩
  exact h

theorem failsOnly_pure (a : α) : FailsOnly E (pure a : Work ε α) := by
  rintro w e w' ⟨⟩

theorem FailsOnly.bind {f : α → Work ε β} (hx : FailsOnly E x) (hf : ∀ a, FailsOnly E (f a)) :
    FailsOnly E (x >>= f) := by
  intro w e w' h
  rcases result_bind_eq_error h with h | ⟨a,w₁,_,h⟩
  · exact hx w e w' h
  · exact hf a w₁ e w' h

theorem failsOnly_files : FailsOnly E (files : Work ε FileTree) := by
  rintro w e w' ⟨⟩

theorem failsOnly_modify (f : World → World) : FailsOnly E (modify f : Work ε Unit) := by
  rintro w e w' ⟨⟩

theorem failsOnly_attempt (x : Work ε' α) : FailsOnly E (x.attempt : Work ε (Except ε' α)) := by
  rintro w e w' ⟨⟩

theorem failsOnly_because (x : Work ε' α) {f : ε' → ε} (h : ∀ e, E (f e)) :
    FailsOnly E (x.because f) := by
  intro w e w' hr
  rw [result_because] at hr
  cases hx : (result x w).1 with
  | ok a => simp [hx,Except.mapError] at hr
  | error e' =>
    rw [hx] at hr
    cases hr
    exact h e'

theorem failsOnly_ask {question : FileTree → Except FileError α} {because : FileError → ε}
    (h : ∀ e, E (because e)) : FailsOnly E (ask question because) := by
  intro w e w' hr
  rw [result_ask] at hr
  split at hr
  · cases hr
  · cases hr
    exact h _

theorem failsOnly_change {f : FileTree → Except FileError FileTree} {because : FileError → ε}
    (h : ∀ e, E (because e)) : FailsOnly E (change f because) := by
  intro w e w' hr
  rw [result_change] at hr
  split at hr
  · cases hr
  · cases hr
    exact h _

theorem failsOnly_forM {l : List β} {f : β → Work ε PUnit} (h : ∀ b, FailsOnly E (f b)) :
    FailsOnly E (l.forM f) := by
  induction l with
  | nil => exact failsOnly_pure _
  | cons b l ih => exact (h b).bind fun _ => ih

theorem failsOnly_print (t : Text) : FailsOnly E (Work.print t : Work ε Unit) := failsOnly_modify _

theorem failsOnly_log (p : Project) (level : LogLevel) (message : Text) :
    FailsOnly E (p.log level message : Work ε Unit) := by
  unfold Project.log
  split_ifs
  · exact failsOnly_modify _
  · exact failsOnly_pure _

end FailsOnly

end Work
theorem Project.result_log {ε : Type} {w : World} (p : Project) (level : LogLevel) (message : Text) :
    ∃ log, Work.result (p.log level message : Work ε Unit) w = (.ok (),{ w with log := log }) := by
  unfold Project.log
  split_ifs
  · exact ⟨_,rfl⟩
  · exact ⟨w.log,rfl⟩

end CircuitNotes
