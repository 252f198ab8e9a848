import CircuitNotes.Proofs.CachedExplaining
import Mathlib.Data.Finset.Card
import Mathlib.Data.Finset.Dedup
import Mathlib.Data.List.Dedup

/-! What a bounded cache holds. A key is touched when it is put, or when it is asked for and found. The
keys of the cache are always the last ones of the list of all touches without its repetitions, and from
this follows which lookups find their key. -/
namespace CircuitNotes.Recency

variable {α : Type}

inductive Use (α : Type) where
  | get (key : Text)
  | put (key : Text) (value : α)

def use (c : Recency α) : Use α → Recency α
  | .get key => (c.get key).2
  | .put key value => c.put key value

def after (c : Recency α) (uses : List (Use α)) : Recency α := uses.foldl use c

/-- The key that a call touches: one that is put, or one that is asked for and found. -/
def touched? (c : Recency α) : Use α → Option Text
  | .get key => if (c.get key).1.isSome then some key else none
  | .put key _ => some key

def touches (c : Recency α) : List (Use α) → List Text
  | [] => []
  | u :: uses => (c.touched? u).toList ++ (c.use u).touches uses

def answers (c : Recency α) : List (Use α) → List (Option α)
  | [] => []
  | .get key :: uses => (c.get key).1 :: (c.use (.get key)).answers uses
  | .put key value :: uses => (c.use (.put key value)).answers uses

def Use.putKey? : Use α → Option Text
  | .get _ => none
  | .put key _ => some key

def putKeys (uses : List (Use α)) : List Text := uses.filterMap Use.putKey?

def Use.putValue? (key : Text) : Use α → Option α
  | .get _ => none
  | .put key' value => if key' = key then some value else none

def lastPut? (uses : List (Use α)) (key : Text) : Option α := uses.reverse.findSome? (Use.putValue? key)

/-- The number of the last touch of a key, counted from one; zero if there was none. -/
def lastTouch (ts : List Text) (key : Text) : Nat := ts.length - ts.reverse.idxOf key

/-! ### Touches without repetitions -/

section Touches

variable {ts : List Text} {key : Text}

theorem dedup_append_singleton (ts : List Text) (key : Text) :
    (ts ++ [key]).dedup = ts.dedup.erase key ++ [key] := by
  induction ts with
  | nil => rfl
  | cons t ts ih =>
    rw [List.cons_append]
    by_cases hmem : t ∈ ts
    · rw [List.dedup_cons_of_mem (List.mem_append_left _ hmem),List.dedup_cons_of_mem hmem,ih]
    · rw [List.dedup_cons_of_notMem hmem]
      by_cases hkey : t = key
      · subst hkey
        rw [List.dedup_cons_of_mem (by simp),ih,List.erase_cons_head,
          List.erase_of_not_mem (by rwa [List.mem_dedup])]
      · rw [List.dedup_cons_of_notMem (by simp [hmem,hkey]),ih,
          List.erase_cons_tail (by simpa using hkey),List.cons_append]

theorem lastTouch_append_singleton (ts : List Text) (key key' : Text) :
    lastTouch (ts ++ [key]) key' = if key = key' then ts.length + 1 else lastTouch ts key' := by
  rw [lastTouch,List.reverse_append,List.reverse_singleton,List.singleton_append,List.idxOf_cons,
    List.length_append,List.length_singleton]
  by_cases hkey : key = key'
  · simp [hkey]
  · rw [if_neg hkey,beq_false_of_ne hkey,cond_false,Nat.add_sub_add_right,lastTouch]

theorem lastTouch_le (ts : List Text) (key : Text) : lastTouch ts key ≤ ts.length := Nat.sub_le _ _

theorem pairwise_lastTouch (ts : List Text) :
    ts.dedup.Pairwise fun k l => lastTouch ts k < lastTouch ts l := by
  induction ts using List.reverseRecOn with
  | nil => exact .nil
  | append_singleton ts key ih =>
    have hne : ∀ k ∈ ts.dedup.erase key, key ≠ k := by
      rintro k hk rfl
      exact (List.nodup_dedup ts).not_mem_erase hk
    rw [dedup_append_singleton,List.pairwise_append]
    refine ⟨?_,List.pairwise_singleton _ _,?_⟩
    · refine (ih.sublist List.erase_sublist).imp_of_mem fun {k l} hk hl hlt => ?_
      rwa [lastTouch_append_singleton,lastTouch_append_singleton,if_neg (hne k hk),if_neg (hne l hl)]
    · intro k hk l hl
      rw [List.mem_singleton.mp hl,lastTouch_append_singleton,lastTouch_append_singleton,
        if_neg (hne k hk),if_pos rfl]
      exact Nat.lt_succ_of_le (lastTouch_le ts k)

def since (ts : List Text) (key : Text) : List Text := ts.drop (lastTouch ts key)

/-- A key that was touched stands, among the touches without repetitions, right before those that came
after it. -/
theorem exists_dedup_eq (h : key ∈ ts) :
    ∃ earlier, ts.dedup = earlier ++ key :: (since ts key).dedup := by
  obtain ⟨post,pre,hsplit,hpost⟩ := List.eq_append_cons_of_mem (List.mem_reverse.mpr h)
  have hts : ts = pre.reverse ++ key :: post.reverse := by
    rw [← List.reverse_reverse ts,hsplit]
    simp
  have hlast : lastTouch ts key = pre.length + 1 := by
    have hcount := congrArg List.length hsplit
    rw [List.length_reverse,List.length_append,List.length_cons] at hcount
    rw [lastTouch,hsplit,List.idxOf_append_of_notMem hpost,List.idxOf_cons_self]
    omega
  have hsince : since ts key = post.reverse := by
    rw [since,hlast,hts,List.append_cons]
    exact List.drop_left' (by simp)
  obtain ⟨earlier,-,hearlier⟩ := List.sublist_suffix_of_union pre.reverse (key :: post.reverse).dedup
  refine ⟨earlier,?_⟩
  rw [hsince,hts,List.dedup_append,← hearlier,List.dedup_cons_of_notMem (by simpa using hpost)]

theorem notMem_since (h : key ∈ ts) : key ∉ since ts key := by
  obtain ⟨earlier,hearlier⟩ := exists_dedup_eq h
  have hnodup := List.nodup_dedup ts
  rw [hearlier] at hnodup
  rw [← List.mem_dedup]
  exact (List.nodup_cons.mp (List.nodup_append'.mp hnodup).2.1).1

end Touches

/-! ### The most recently touched keys -/

/-- The keys that were touched last, at most so many as a limit allows, each as it was touched last. -/
structure MostRecent (limit : Nat) (order ts : List Text) : Prop where
  recent : order <:+ ts.dedup
  count : order.length = min limit ts.dedup.length

namespace MostRecent

variable {limit : Nat} {order ts : List Text} {key : Text}

theorem nodup (h : MostRecent limit order ts) : order.Nodup :=
  (List.nodup_dedup ts).sublist h.recent.sublist

theorem length_le (h : MostRecent limit order ts) : order.length ≤ limit :=
  h.count.trans_le (min_le_left _ _)

theorem moveToEnd (h : MostRecent limit order ts) (hmem : key ∈ order) :
    MostRecent limit (moveToEnd key order) (ts ++ [key]) := by
  obtain ⟨earlier,hearlier⟩ := h.recent
  have hnodup := List.nodup_dedup ts
  rw [← hearlier,List.nodup_append'] at hnodup
  have hrest : ts.dedup.erase key = earlier ++ order.erase key := by
    rw [← hearlier,List.erase_append_right _ fun hkey => hnodup.2.2 hkey hmem]
  have hcount := h.count
  rw [← hearlier,List.length_append] at hcount
  refine ⟨?_,?_⟩
  · rw [dedup_append_singleton,hrest,List.append_assoc]
    exact List.suffix_append _ _
  · have hlength : (Recency.moveToEnd key order).length = order.length := by
      rw [Recency.moveToEnd,List.length_append,List.length_singleton,List.length_erase_add_one hmem]
    rw [dedup_append_singleton,hrest,List.append_assoc,List.length_append]
    exact (hlength.trans hcount).trans (by rw [← hlength,Recency.moveToEnd])

theorem push (h : MostRecent limit order ts) (hnew : key ∉ order) (hroom : order.length < limit) :
    MostRecent limit (order ++ [key]) (ts ++ [key]) := by
  have hcount := h.count
  have hall : order = ts.dedup := h.recent.eq_of_length (by omega)
  have hsame : (ts ++ [key]).dedup = order ++ [key] := by
    rw [dedup_append_singleton,← hall,List.erase_of_not_mem hnew]
  refine ⟨by rw [hsame],?_⟩
  rw [hsame,List.length_append,List.length_singleton]
  omega

theorem replace {oldest : Text} {later : List Text} (h : MostRecent limit (oldest :: later) ts)
    (hnew : key ∉ oldest :: later) (hfull : limit ≤ (oldest :: later).length) :
    MostRecent limit (later ++ [key]) (ts ++ [key]) := by
  obtain ⟨earlier,hearlier⟩ := h.recent
  have hlimit := h.length_le
  have hrest : ts.dedup.erase key = earlier.erase key ++ [oldest] ++ later := by
    rw [← hearlier,List.append_assoc,List.singleton_append]
    by_cases hkey : key ∈ earlier
    · rw [List.erase_append_left _ hkey]
    · rw [List.erase_append_right _ hkey,List.erase_of_not_mem hnew,List.erase_of_not_mem hkey]
  refine ⟨?_,?_⟩
  · rw [dedup_append_singleton,hrest,List.append_assoc]
    exact List.suffix_append _ _
  · rw [dedup_append_singleton,hrest]
    simp only [List.length_append,List.length_cons,List.length_nil] at hlimit hfull ⊢
    omega

/-- A key is among the most recently touched ones if fewer others than the limit came after it. -/
theorem mem_iff (h : MostRecent limit order ts) :
    key ∈ order ↔ key ∈ ts ∧ (since ts key).dedup.length < limit := by
  by_cases hts : key ∈ ts
  · obtain ⟨earlier,hearlier⟩ := exists_dedup_eq hts
    have hend : key :: (since ts key).dedup <:+ ts.dedup := ⟨earlier,hearlier.symm⟩
    refine ⟨fun hmem => ⟨hts,?_⟩,?_⟩
    · -- Otherwise all of them came after the key.
      by_contra hmany
      have hshort : order.length ≤ (since ts key).dedup.length := h.length_le.trans (not_lt.mp hmany)
      have hall := List.suffix_of_suffix_length_le h.recent ((List.suffix_cons _ _).trans hend) hshort
      exact notMem_since hts (List.mem_dedup.mp (hall.subset hmem))
    · rintro ⟨-,hfew⟩
      have hshort : (key :: (since ts key).dedup).length ≤ order.length := by
        rw [h.count]
        exact le_min hfew hend.length_le
      exact (List.suffix_of_suffix_length_le hend h.recent hshort).subset List.mem_cons_self
  · refine iff_of_false (fun hmem => hts ?_) fun hmem => hts hmem.1
    exact List.mem_dedup.mp (h.recent.subset hmem)

theorem pairwise (h : MostRecent limit order ts) :
    order.Pairwise fun k l => lastTouch ts k < lastTouch ts l :=
  (pairwise_lastTouch ts).sublist h.recent.sublist

theorem lastTouch_lt (h : MostRecent limit order ts) {other : Text} (hmem : key ∈ order)
    (hother : other ∈ ts) (hout : other ∉ order) : lastTouch ts other < lastTouch ts key := by
  obtain ⟨earlier,hearlier⟩ := h.recent
  have hsorted := pairwise_lastTouch ts
  rw [← hearlier,List.pairwise_append] at hsorted
  rw [← List.mem_dedup,← hearlier,List.mem_append] at hother
  exact hsorted.2.2 other (hother.resolve_right hout) key hmem

end MostRecent

/-! ### Call by call -/

section Calls

variable {c : Recency α} {uses : List (Use α)} {u : Use α} {ts : List Text} {key : Text} {value : α}

@[simp] theorem after_append (c : Recency α) (uses : List (Use α)) (u : Use α) :
    c.after (uses ++ [u]) = (c.after uses).use u := by
  simp [after]

theorem touches_append (c : Recency α) (uses : List (Use α)) (u : Use α) :
    c.touches (uses ++ [u]) = c.touches uses ++ ((c.after uses).touched? u).toList := by
  induction uses generalizing c with
  | nil => simp [touches,after]
  | cons u' uses ih =>
    rw [List.cons_append,touches,ih,touches,List.append_assoc]
    rfl

@[simp] theorem putKeys_append (uses : List (Use α)) (u : Use α) :
    putKeys (uses ++ [u]) = putKeys uses ++ u.putKey?.toList := by
  cases u <;> simp [putKeys,Use.putKey?]

theorem lastPut?_append (uses : List (Use α)) (u : Use α) (key : Text) :
    lastPut? (uses ++ [u]) key = (u.putValue? key).or (lastPut? uses key) := by
  rw [lastPut?,List.reverse_append,List.reverse_singleton,List.singleton_append,List.findSome?_cons,
    lastPut?]
  cases u.putValue? key <;> rfl

theorem fst_get (c : Recency α) (key : Text) : (c.get key).1 = c.find? key := by
  unfold get
  cases c.find? key <;> rfl

theorem isSome_find?_iff (c : Recency α) (key : Text) : (c.find? key).isSome ↔ key ∈ c.keys := by
  rw [← not_iff_not,Bool.not_eq_true,Option.isSome_eq_false_iff,Option.isNone_iff_eq_none,find?,
    List.lookup_eq_none_iff]
  simp only [keys,List.mem_map,not_exists,not_and,bne_iff_ne]
  exact forall₂_congr fun _ _ => ne_comm

theorem perm_moveToEnd {order : List Text} (h : key ∈ order) : (moveToEnd key order).Perm order :=
  (List.perm_append_singleton key _).trans (List.perm_cons_erase h).symm

theorem perm_keys_without {order : List Text} (h : order.Perm c.keys) (hnodup : order.Nodup)
    (key : Text) : (order.erase key).Perm ((without key c.entries).map Prod.fst) := by
  have hkeys : (without key c.entries).map Prod.fst = c.keys.filter (· != key) := by
    rw [keys,List.filter_map]
    rfl
  rw [hkeys,← (h.nodup_iff.mp hnodup).erase_eq_filter]
  exact h.erase key

theorem ne_of_mem_without {e : Text × α} (h : e ∈ without key c.entries) :
    e ∈ c.entries ∧ e.1 ≠ key := by
  obtain ⟨hmem,hne⟩ := List.mem_filter.mp h
  exact ⟨hmem,by simpa using hne⟩

/-- A cache that has kept up with calls that touched keys. -/
structure KeepsUp (c : Recency α) (uses : List (Use α)) (ts : List Text) : Prop where
  positive : 0 < c.limit
  recent : MostRecent c.limit c.order ts
  listed : c.order.Perm c.keys
  latest : ∀ e ∈ c.entries, lastPut? uses e.1 = some e.2
  known : ∀ key, key ∈ ts ↔ key ∈ putKeys uses

theorem keepsUp_empty (limit : Int) : KeepsUp (empty limit : Recency α) [] [] := by
  refine ⟨?_,⟨List.suffix_rfl,by simp [empty]⟩,.refl _,by simp [empty],by simp [putKeys]⟩
  simp only [empty,defaultLimit]
  split_ifs <;> omega

namespace KeepsUp

theorem get (h : KeepsUp c uses ts) (key : Text) :
    KeepsUp (c.get key).2 (uses ++ [.get key]) (ts ++ (c.touched? (.get key)).toList) := by
  have hlatest : ∀ e ∈ c.entries, lastPut? (uses ++ [.get key]) e.1 = some e.2 := by
    intro e he
    rw [lastPut?_append]
    exact h.latest e he
  have hknown : ∀ k, k ∈ ts ↔ k ∈ putKeys (uses ++ [.get key]) := by
    intro k
    rw [h.known,putKeys_append]
    simp [Use.putKey?]
  unfold touched?
  cases hfind : c.find? key with
  | none =>
    simp only [get_of_find?_eq_none hfind,Option.isSome_none,Bool.false_eq_true,if_false,
      Option.toList_none,List.append_nil]
    exact ⟨h.positive,h.recent,h.listed,hlatest,hknown⟩
  | some value =>
    have hkey : key ∈ c.order := by
      rw [h.listed.mem_iff,← isSome_find?_iff,hfind]
      rfl
    have hget : c.get key = (some value,
        { c with order := moveToEnd key c.order,hits := c.hits + 1 }) := by
      rw [Recency.get,hfind]
    simp only [hget,Option.isSome_some,if_true,Option.toList_some]
    refine ⟨h.positive,h.recent.moveToEnd hkey,?_,hlatest,?_⟩
    · exact (perm_moveToEnd hkey).trans h.listed
    · intro k
      rw [← hknown,List.mem_append,List.mem_singleton,or_iff_left_of_imp]
      rintro rfl
      exact List.mem_dedup.mp (h.recent.recent.subset hkey)

theorem length_order (h : KeepsUp c uses ts) : c.order.length = c.entries.length := by
  rw [h.listed.length_eq,keys,List.length_map]

theorem adding (h : KeepsUp c uses ts) {c' : Recency α} {kept : List (Text × α)}
    (hlimit : c'.limit = c.limit) (hentries : c'.entries = kept ++ [(key,value)])
    (hkept : ∀ e ∈ kept, e ∈ c.entries ∧ e.1 ≠ key) (hrecent : MostRecent c.limit c'.order (ts ++ [key]))
    (hlisted : c'.order.Perm (kept.map Prod.fst ++ [key])) :
    KeepsUp c' (uses ++ [.put key value]) (ts ++ [key]) := by
  refine ⟨hlimit ▸ h.positive,hlimit ▸ hrecent,?_,?_,?_⟩
  · rw [keys,hentries,List.map_append]
    exact hlisted
  · intro e he
    rw [lastPut?_append,Use.putValue?]
    rw [hentries,List.mem_append,List.mem_singleton] at he
    rcases he with he | rfl
    · obtain ⟨hmem,hne⟩ := hkept e he
      rw [if_neg hne.symm]
      exact h.latest e hmem
    · rw [if_pos rfl]
      rfl
  · intro k
    rw [putKeys_append,List.mem_append,List.mem_append,h.known]
    simp [Use.putKey?]

theorem put (h : KeepsUp c uses ts) (key : Text) (value : α) :
    KeepsUp (c.put key value) (uses ++ [.put key value]) (ts ++ [key]) := by
  by_cases hfind : (c.find? key).isSome
  · have hkey : key ∈ c.order := by rwa [h.listed.mem_iff,← isSome_find?_iff]
    rw [Recency.put,if_pos hfind]
    exact h.adding rfl rfl (fun _ => ne_of_mem_without) (h.recent.moveToEnd hkey)
      ((perm_keys_without h.listed h.recent.nodup key).append_right _)
  · have hkey : key ∉ c.order := by rwa [h.listed.mem_iff,← isSome_find?_iff]
    have hother : ∀ e ∈ c.entries, e.1 ≠ key := by
      rintro e he rfl
      exact hkey (h.listed.mem_iff.mpr (List.mem_map_of_mem he))
    rw [Recency.put,if_neg hfind]
    by_cases hfull : c.limit ≤ c.entries.length
    · rw [← h.length_order] at hfull
      cases horder : c.order with
      | nil =>
        rw [horder,List.length_nil] at hfull
        exact absurd h.positive (not_lt.mpr hfull)
      | cons oldest later =>
        have hroom : c.makeRoom = { c with entries := without oldest c.entries,order := later } := by
          rw [makeRoom,if_pos (h.length_order ▸ hfull),evict,horder]
        rw [hroom]
        have hperm := perm_keys_without h.listed h.recent.nodup oldest
        rw [horder,List.erase_cons_head] at hperm
        refine h.adding rfl rfl ?_ ?_ (hperm.append_right _)
        · exact fun e he => ⟨(ne_of_mem_without he).1,hother e (ne_of_mem_without he).1⟩
        · exact (horder ▸ h.recent).replace (horder ▸ hkey) (horder ▸ hfull)
    · rw [makeRoom,if_neg hfull]
      refine h.adding rfl rfl (fun e he => ⟨he,hother e he⟩) ?_ (h.listed.append_right _)
      exact h.recent.push hkey (h.length_order ▸ not_le.mp hfull)

theorem use (h : KeepsUp c uses ts) (u : Use α) :
    KeepsUp (c.use u) (uses ++ [u]) (ts ++ (c.touched? u).toList) := by
  cases u with
  | get key => exact h.get key
  | put key value => exact h.put key value

/-- A lookup finds a key that was put, unless too many other keys were touched since. -/
theorem found_iff (h : KeepsUp c uses ts) (key : Text) : (c.get key).1.isSome ↔
    key ∈ putKeys uses ∧ ((since ts key).toFinset.erase key).card < c.limit := by
  rw [fst_get,isSome_find?_iff,← h.listed.mem_iff,h.recent.mem_iff,← h.known]
  refine and_congr_right fun hkey => ?_
  rw [Finset.erase_eq_of_notMem (by simpa using notMem_since hkey),List.card_toFinset]

end KeepsUp

theorem keepsUp_after (limit : Int) (uses : List (Use α)) :
    KeepsUp ((empty limit).after uses) uses ((empty limit : Recency α).touches uses) := by
  induction uses using List.reverseRecOn with
  | nil => exact keepsUp_empty limit
  | append_singleton uses u ih =>
    rw [after_append,touches_append]
    exact ih.use u

theorem limit_after (c : Recency α) (uses : List (Use α)) : (c.after uses).limit = c.limit := by
  induction uses using List.reverseRecOn with
  | nil => rfl
  | append_singleton uses u ih =>
    rw [after_append,← ih]
    cases u <;> simp [use]

theorem hits_after (c : Recency α) (uses : List (Use α)) :
    (c.after uses).hits = c.hits + (c.answers uses).countP Option.isSome := by
  induction uses generalizing c with
  | nil => rfl
  | cons u uses ih =>
    rw [show c.after (u :: uses) = (c.use u).after uses from rfl,ih]
    cases u with
    | put key value => rw [answers,use,hits_put]
    | get key =>
      rw [answers,List.countP_cons,use,Recency.get]
      cases c.find? key <;> simp [Nat.add_assoc,Nat.add_comm]

end Calls

/-! ### What is found -/

/-- What a cache of at most `m` entries comes to by calls: it holds the keys that were touched last, and
a lookup finds those. -/
structure HoldsRecent (m : Nat) (c : Recency α) (uses : List (Use α)) : Prop where
  distinct : (c.after uses).order.Nodup
  listed : (c.after uses).order.Perm (c.after uses).keys
  sorted : (c.after uses).order.Pairwise fun k l =>
    lastTouch (c.touches uses) k < lastTouch (c.touches uses) l
  count : (c.after uses).order.length = min m (putKeys uses).toFinset.card
  recent : ∀ k ∈ (c.after uses).order, ∀ l ∈ putKeys uses, l ∉ (c.after uses).order →
    lastTouch (c.touches uses) l < lastTouch (c.touches uses) k
  found : ∀ key, ((c.after uses).get key).1.isSome ↔ key ∈ putKeys uses ∧
    ((since (c.touches uses) key).toFinset.erase key).card < m
  value : ∀ key value, ((c.after uses).get key).1 = some value → lastPut? uses key = some value
  hits : (c.after uses).hits = (c.answers uses).countP Option.isSome

/-- Whatever calls are made on a new cache, it holds the keys that were touched last, so many as its
limit allows, and 256 of them if the limit is not positive. -/
theorem holdsRecent_empty (limit : Int) (uses : List (Use α)) :
    HoldsRecent (if limit ≤ 0 then 256 else limit.toNat) (empty limit : Recency α) uses := by
  have h := keepsUp_after limit uses
  have hlimit : ((empty limit : Recency α).after uses).limit = if limit ≤ 0 then 256 else limit.toNat :=
    limit_after _ _
  have hknown : (putKeys uses).toFinset = ((empty limit : Recency α).touches uses).toFinset := by
    ext key
    rw [List.mem_toFinset,List.mem_toFinset,h.known]
  rw [← hlimit]
  refine ⟨h.recent.nodup,h.listed,h.recent.pairwise,?_,?_,h.found_iff,?_,?_⟩
  · rw [hknown,List.card_toFinset]
    exact h.recent.count
  · intro k hk l hl hout
    exact h.recent.lastTouch_lt hk ((h.known l).mpr hl) hout
  · intro key value hget
    exact h.latest _ (mem_of_get hget)
  · rw [hits_after]
    exact Nat.zero_add _

/-- A key that is put again is touched again: the other one goes. -/
example : ((empty 2 : Recency Nat).after
    [.put [1] 10,.put [2] 20,.put [1] 11,.get [3],.put [3] 30]).order = [[1],[3]] := by decide

end CircuitNotes.Recency
