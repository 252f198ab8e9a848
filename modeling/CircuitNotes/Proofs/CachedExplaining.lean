import CircuitNotes.Cache.Explainer
import Mathlib.Data.List.Basic
import Mathlib.Data.Set.Function

/-! Explaining through a cache. What a cache holds was put there, so an explainer that has only been
used with one rule answers by that rule, for the source itself or for one with the same digest. Where
no two contents share a digest, it is as if there were no cache. -/
namespace CircuitNotes

namespace Recency

variable {α : Type} {c : Recency α} {key : Text} {value : α} {e : Text × α}

theorem mem_of_get (h : (c.get key).1 = some value) : (key,value) ∈ c.entries := by
  unfold get at h
  cases hfind : c.find? key with
  | none => simp [hfind] at h
  | some held =>
    have hv : held = value := by simpa [hfind] using h
    obtain ⟨l₁,l₂,hentries,_⟩ := List.lookup_eq_some_iff.mp hfind
    simp [hentries,hv]

theorem entries_get : (c.get key).2.entries = c.entries := by
  unfold get
  cases c.find? key <;> rfl

theorem mem_of_mem_get (h : e ∈ (c.get key).2.entries) : e ∈ c.entries := entries_get ▸ h

theorem mem_of_mem_makeRoom (h : e ∈ c.makeRoom.entries) : e ∈ c.entries := by
  unfold makeRoom evict at h
  split at h
  · split at h
    · exact h
    · exact (List.mem_filter.mp h).1
  · exact h

theorem mem_of_mem_put (h : e ∈ (c.put key value).entries) : e = (key,value) ∨ e ∈ c.entries := by
  unfold put at h
  split_ifs at h
  · rcases List.mem_append.mp h with h | h
    · exact Or.inr (List.mem_filter.mp h).1
    · exact Or.inl (List.mem_singleton.mp h)
  · rcases List.mem_append.mp h with h | h
    · exact Or.inr (mem_of_mem_makeRoom h)
    · exact Or.inl (List.mem_singleton.mp h)

end Recency

namespace Explainer

/-- An explainer whose cache holds what the rule says of sources with the digests it goes by. -/
def Follows (e : Explainer) (rule : Text → Explanation) : Prop :=
  ∀ held ∈ e.cache.entries, ∃ source, held.1 = contentHash source ∧ held.2 = rule source

theorem follows_empty (rule : Text → Explanation) (limit : Int) (calls : Nat) :
    Follows ⟨.empty limit,calls⟩ rule := by
  intro held hheld
  simp [Recency.empty] at hheld

theorem Follows.explain {e : Explainer} {rule : Text → Explanation} (h : e.Follows rule)
    (source : Text) :
    (∃ source', contentHash source' = contentHash source ∧
      (e.explain rule source).1 = rule source') ∧ (e.explain rule source).2.Follows rule := by
  unfold Explainer.explain
  cases hget : e.cache.get (contentHash source) with
  | mk found cache =>
    have hcache : ∀ x ∈ cache.entries, x ∈ e.cache.entries := by
      intro x hx
      have hx' : x ∈ (e.cache.get (contentHash source)).2.entries := by rwa [hget]
      exact Recency.mem_of_mem_get hx'
    cases found with
    | some held =>
      obtain ⟨source',hkey,hheld⟩ := h _ (Recency.mem_of_get (by rw [hget]))
      refine ⟨⟨source',?_,?_⟩,?_⟩
      · rw [← hkey]
      · exact hheld
      · exact fun x hx => h x (hcache x hx)
    | none =>
      refine ⟨⟨source,?_,?_⟩,?_⟩
      · rfl
      · rfl
      · intro x hx
        rcases Recency.mem_of_mem_put hx with hnew | hx
        · refine ⟨source,?_,?_⟩
          · rw [hnew]
          · rw [hnew]
        · exact h x (hcache x hx)

theorem Follows.foldl {e : Explainer} {rule : Text → Explanation} (h : e.Follows rule)
    (earlier : List Text) :
    (earlier.foldl (fun e source => (e.explain rule source).2) e).Follows rule := by
  induction earlier generalizing e with
  | nil => exact h
  | cons source earlier ih => exact ih (h.explain source).2

end Explainer

/-! ### Contents told apart by their digests -/

/-- A cache that holds what the rule says of some contents, by their digests. -/
def Recency.Recalls (c : Recency Explanation) (rule : Text → Explanation) (contents : Set Text) :
    Prop :=
  ∀ held ∈ c.entries, ∃ source ∈ contents, held.1 = contentHash source ∧ held.2 = rule source

namespace Recency

theorem recalls_empty (rule : Text → Explanation) (contents : Set Text) (limit : Int) :
    Recalls (.empty limit) rule contents := by
  intro held hheld
  simp [Recency.empty] at hheld

theorem hits_get_of_some {α : Type} {c : Recency α} {key : Text} {value : α}
    (h : (c.get key).1 = some value) : (c.get key).2.hits = c.hits+1 := by
  unfold get at h ⊢
  cases hfind : c.find? key with
  | none => simp [hfind] at h
  | some held => rfl

theorem get_of_none {α : Type} {c : Recency α} {key : Text} (h : (c.get key).1 = none) :
    (c.get key).2 = c := by
  unfold get at h ⊢
  cases hfind : c.find? key with
  | none => rfl
  | some held => simp [hfind] at h

namespace Recalls

variable {c : Recency Explanation} {rule : Text → Explanation} {contents : Set Text} {source : Text}

theorem get (h : c.Recalls rule contents) (key : Text) : (c.get key).2.Recalls rule contents :=
  fun held hheld => h held (mem_of_mem_get hheld)

theorem put (h : c.Recalls rule contents) (hsource : source ∈ contents) :
    (c.put (contentHash source) (rule source)).Recalls rule contents := by
  intro held hheld
  rcases mem_of_mem_put hheld with hnew | hold
  · exact ⟨source,hsource,by rw [hnew],by rw [hnew]⟩
  · exact h held hold

theorem eq_rule (h : c.Recalls rule contents) (hinj : Set.InjOn contentHash contents)
    (hsource : source ∈ contents) {x : Explanation} (hheld : (contentHash source,x) ∈ c.entries) :
    x = rule source := by
  obtain ⟨source',hsource',hkey,hx⟩ := h (contentHash source,x) hheld
  dsimp only at hkey hx
  rw [hinj hsource hsource' hkey]
  exact hx

end Recalls
end Recency

namespace Explainer

def answered (e : Explainer) : Nat := e.calls+e.cache.hits

theorem explain_of_hit {e : Explainer} {rule : Text → Explanation} {source : Text} {x : Explanation}
    (h : (e.cache.get (contentHash source)).1 = some x) :
    e.explain rule source = (x,{ e with cache := (e.cache.get (contentHash source)).2 }) := by
  unfold Explainer.explain
  split <;> simp_all

theorem explain_of_miss {e : Explainer} {rule : Text → Explanation} {source : Text}
    (h : (e.cache.get (contentHash source)).1 = none) :
    e.explain rule source =
      (rule source,⟨e.cache.put (contentHash source) (rule source),e.calls+1⟩) := by
  have hcache := Recency.get_of_none h
  unfold Explainer.explain
  split <;> simp_all

theorem explain_eq_rule {e : Explainer} {rule : Text → Explanation} {contents : Set Text}
    (h : e.cache.Recalls rule contents) (hinj : Set.InjOn contentHash contents) {source : Text}
    (hsource : source ∈ contents) :
    (e.explain rule source).1 = rule source ∧
      (e.explain rule source).2.cache.Recalls rule contents := by
  cases hfound : (e.cache.get (contentHash source)).1 with
  | some x =>
    rw [explain_of_hit hfound]
    exact ⟨h.eq_rule hinj hsource (Recency.mem_of_get hfound),h.get _⟩
  | none =>
    rw [explain_of_miss hfound]
    exact ⟨rfl,h.put hsource⟩

theorem recalls_foldl {e : Explainer} {rule : Text → Explanation} {contents : Set Text}
    (h : e.cache.Recalls rule contents) (hinj : Set.InjOn contentHash contents)
    {earlier : List Text} (hearlier : ∀ source ∈ earlier, source ∈ contents) :
    (earlier.foldl (fun e source => (e.explain rule source).2) e).cache.Recalls rule contents := by
  induction earlier generalizing e with
  | nil => exact h
  | cons source earlier ih =>
    have hnext := (explain_eq_rule h hinj (hearlier source List.mem_cons_self)).2
    exact ih hnext fun s hs => hearlier s (List.mem_cons_of_mem _ hs)

end Explainer
end CircuitNotes
