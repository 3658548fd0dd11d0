import Mathlib.Data.List.Perm.Subperm
import Mathlib.Data.List.Nodup
import Mathlib.Algebra.GroupWithZero.Nat
import Mathlib.Algebra.Order.BigOperators.Group.List
import Mathlib.Algebra.Order.Group.Nat

/-! # Tokens in places

A system that hands tokens around is seen as a family of queues: `held p` lists
the tokens at place `p`, in order.  That no token is lost or doubled is one
statement about the whole family (`Placed`), which every hand-over from one
place to another keeps (`Placed.move`).

Some of the places may be the ones where tokens come to rest.  Whether all
tokens have come to rest can be decided by counting alone
(`Placed.rest_empty_iff`).  A count over messages of several senders is the sum of
the counts of each (`Tally.perm_flatMap`).
-/

/-- Each of the tokens `all` is at one of the `live` places, and there once. -/
structure Placed {P T : Type} (live : P → Prop) (all : List T) (held : P → List T) : Prop where
  nodup : ∀ p, live p → (held p).Nodup
  apart : ∀ p q t, live p → live q → t ∈ held p → t ∈ held q → p = q
  mem : ∀ t, (∃ p, live p ∧ t ∈ held p) ↔ t ∈ all

namespace Placed
variable {P T : Type} {live : P → Prop} {all : List T} {held held' : P → List T}

theorem mem_all (h : Placed live all held) {p : P} (hp : live p) {t : T} (ht : t ∈ held p) :
    t ∈ all := (h.mem t).mp ⟨p, hp, ht⟩

/-- What is held does not change. -/
theorem congr (h : Placed live all held) (heq : ∀ p, live p → held' p = held p) :
    Placed live all held' where
  nodup p hp := by rw [heq p hp]; exact h.nodup p hp
  apart p q t hp hq htp htq := by
    rw [heq p hp] at htp
    rw [heq q hq] at htq
    exact h.apart p q t hp hq htp htq
  mem t := by
    rw [← h.mem t]
    constructor
    · rintro ⟨p, hp, ht⟩
      exact ⟨p, hp, heq p hp ▸ ht⟩
    · rintro ⟨p, hp, ht⟩
      exact ⟨p, hp, (heq p hp).symm ▸ ht⟩

/-- **A hand-over**: the first token of `p` goes to the end of `q`. -/
theorem move (h : Placed live all held) {p q : P} {t : T} (hpq : p ≠ q) (hp : live p)
    (hq : live q) (hfrom : held p = t :: held' p) (hto : held' q = held q ++ [t])
    (hother : ∀ r, live r → r ≠ p → r ≠ q → held' r = held r) : Placed live all held' := by
  have hnodup := h.nodup p hp
  rw [hfrom, List.nodup_cons] at hnodup
  have htp : t ∈ held p := hfrom ▸ List.mem_cons_self ..
  have htq : t ∉ held q := fun ht => hpq (h.apart p q t hp hq htp ht)
  -- Where a token is now, it was before, unless it is the one handed over.
  have back : ∀ r u, live r → u ∈ held' r → u ∈ held r ∨ u = t ∧ r = q := by
    intro r u hr hu
    by_cases hrq : r = q
    · subst hrq
      rw [hto, List.mem_append, List.mem_singleton] at hu
      exact hu.imp id fun hu => ⟨hu, rfl⟩
    · by_cases hrp : r = p
      · subst hrp
        exact .inl (hfrom ▸ List.mem_cons_of_mem _ hu)
      · exact .inl (hother r hr hrp hrq ▸ hu)
  have gone : ∀ r, live r → r ≠ q → t ∉ held' r := by
    intro r hr hrq ht
    by_cases hrp : r = p
    · exact hnodup.1 (hrp ▸ ht)
    · rw [hother r hr hrp hrq] at ht
      exact hrp (h.apart r p t hr hp ht htp)
  refine ⟨fun r hr => ?_, fun r r' u hr hr' hu hu' => ?_, fun u => ?_⟩
  · by_cases hrq : r = q
    · subst hrq
      rw [hto, List.nodup_append]
      refine ⟨h.nodup r hr, List.nodup_singleton t, fun a ha b hb hab => htq ?_⟩
      rwa [← List.mem_singleton.mp hb, ← hab]
    · by_cases hrp : r = p
      · subst hrp; exact hnodup.2
      · rw [hother r hr hrp hrq]; exact h.nodup r hr
  · rcases back r u hr hu with hru | ⟨rfl, rfl⟩
    · rcases back r' u hr' hu' with hru' | ⟨rfl, rfl⟩
      · exact h.apart r r' u hr hr' hru hru'
      · by_contra hne
        exact gone r hr hne hu
    · by_contra hne
      exact gone r' hr' (Ne.symm hne) hu'
  · rw [← h.mem u]
    constructor
    · rintro ⟨r, hr, hu⟩
      rcases back r u hr hu with hu | ⟨rfl, -⟩
      · exact ⟨r, hr, hu⟩
      · exact ⟨p, hp, htp⟩
    · rintro ⟨r, hr, hu⟩
      by_cases hut : u = t
      · exact ⟨q, hq, by rw [hto, hut]; simp⟩
      · by_cases hrq : r = q
        · subst hrq
          exact ⟨r, hr, by rw [hto]; exact List.mem_append_left _ hu⟩
        · by_cases hrp : r = p
          · subst hrp
            rw [hfrom] at hu
            exact ⟨r, hr, (List.mem_cons.mp hu).resolve_left hut⟩
          · exact ⟨r, hr, by rw [hother r hr hrp hrq]; exact hu⟩

/-! ### Where tokens come to rest -/

section
variable {ends : List P} (h : Placed live all held) (hall : all.Nodup) (hnodup : ends.Nodup)
  (hends : ∀ p ∈ ends, live p)
include h hends

theorem nodup_flatMap (hnodup : ends.Nodup) : (ends.flatMap held).Nodup := by
  rw [List.nodup_flatMap]
  refine ⟨fun p hp => h.nodup p (hends p hp), ?_⟩
  refine hnodup.imp_of_mem fun {p q} hp hq hpq t htp htq => hpq ?_
  exact h.apart p q t (hends p hp) (hends q hq) htp htq

theorem flatMap_subset : ends.flatMap held ⊆ all := by
  intro t ht
  obtain ⟨p, hp, ht⟩ := List.mem_flatMap.mp ht
  exact h.mem_all (hends p hp) ht

include hnodup in
theorem length_flatMap_le : (ends.flatMap held).length ≤ all.length :=
  ((h.nodup_flatMap hends hnodup).subperm (h.flatMap_subset hends)).length_le

include hall hnodup

/-- **All tokens have come to rest exactly if there are as many at the ends as
there are tokens.** -/
theorem rest_empty_iff :
    (∀ p, live p → p ∉ ends → held p = []) ↔ (ends.flatMap held).length = all.length := by
  have hsub := (h.nodup_flatMap hends hnodup).subperm (h.flatMap_subset hends)
  constructor
  · intro hrest
    refine List.Perm.length_eq ?_
    rw [List.perm_ext_iff_of_nodup (h.nodup_flatMap hends hnodup) hall]
    refine fun t => ⟨fun ht => h.flatMap_subset hends ht, fun ht => ?_⟩
    obtain ⟨p, hp, htp⟩ := (h.mem t).mpr ht
    by_cases hpe : p ∈ ends
    · exact List.mem_flatMap.mpr ⟨p, hpe, htp⟩
    · rw [hrest p hp hpe] at htp
      cases htp
  · intro hlen p hp hpe
    have hperm : List.Perm (ends.flatMap held) all := hsub.perm_of_length_le (Nat.le_of_eq hlen.symm)
    refine List.eq_nil_iff_forall_not_mem.mpr fun t ht => ?_
    obtain ⟨q, hq, htq⟩ := List.mem_flatMap.mp (hperm.mem_iff.mpr (h.mem_all hp ht))
    exact hpe (h.apart p q t hp (hends q hq) ht htq ▸ hq)

end
end Placed

/-! ### Parts of a list -/

/-- In a list without duplicates, a part is known by its members. -/
theorem List.Sublist.filter_eq_of_mem_iff {α : Type} {l l' : List α} (h : l.Sublist l')
    (hnodup : l'.Nodup) {p : α → Bool} (hp : ∀ a ∈ l', p a = true ↔ a ∈ l) : l'.filter p = l := by
  induction h with
  | slnil => rfl
  | @cons l l' a h ih =>
    obtain ⟨ha, hnodup⟩ := List.nodup_cons.mp hnodup
    have hna : ¬ p a = true := fun hpa => ha (h.subset ((hp a (List.mem_cons_self ..)).mp hpa))
    rw [List.filter_cons_of_neg hna]
    exact ih hnodup fun b hb => hp b (List.mem_cons_of_mem _ hb)
  | @cons_cons l l' a h ih =>
    obtain ⟨ha, hnodup⟩ := List.nodup_cons.mp hnodup
    rw [List.filter_cons_of_pos ((hp a (List.mem_cons_self ..)).mpr (List.mem_cons_self ..))]
    refine congrArg (a :: ·) (ih hnodup fun b hb => (hp b (List.mem_cons_of_mem _ hb)).trans ?_)
    have hba : b ≠ a := by rintro rfl; exact ha hb
    simp [hba]

/-! ### Counting by key -/

namespace Tally
variable {κ β γ : Type} [DecidableEq κ]

/-- What comes under the key `k`. -/
def of (k : κ) (l : List (κ × β)) : List β :=
  l.filterMap fun c => if c.1 = k then some c.2 else none

omit [DecidableEq κ] in
/-- A list is what comes under each of its keys. -/
theorem perm_filter {A T : Type} [DecidableEq T] (key : A → T) {label : κ → T}
    (hlabel : Function.Injective label) {keys : List κ} (hkeys : keys.Nodup) {l : List A}
    (hl : ∀ a ∈ l, ∃ k ∈ keys, key a = label k) :
    List.Perm l (keys.flatMap fun k => l.filter fun a => decide (key a = label k)) := by
  induction l with
  | nil => simp
  | cons a l ih =>
    have ih := ih fun a ha => hl a (List.mem_cons_of_mem _ ha)
    obtain ⟨k, hk, hak⟩ := hl a (List.mem_cons_self ..)
    obtain ⟨before, after, rfl⟩ := List.append_of_mem hk
    have hnot : k ∉ before ++ after := (List.nodup_middle.mp hkeys).notMem
    -- Only the part of `k` changes.
    have others : ∀ part : List κ, k ∉ part →
        (part.flatMap fun k' => (a :: l).filter fun b => decide (key b = label k')) =
          part.flatMap fun k' => l.filter fun b => decide (key b = label k') := by
      intro part hpart
      refine List.flatMap_congr fun k' hk' => List.filter_cons_of_neg ?_
      have hne : k ≠ k' := by rintro rfl; exact hpart hk'
      simpa [hak] using hlabel.ne hne
    have hself : (a :: l).filter (fun b => decide (key b = label k)) =
        a :: l.filter fun b => decide (key b = label k) :=
      List.filter_cons_of_pos (decide_eq_true hak)
    rw [List.flatMap_append, List.flatMap_cons, others before fun h => hnot (by simp [h]),
      others after fun h => hnot (by simp [h]), hself]
    rw [List.flatMap_append, List.flatMap_cons] at ih
    exact (ih.cons a).trans List.perm_middle.symm

theorem of_filterMap (k : κ) (l : List (κ × β)) (f : β → Option γ) :
    (l.filter fun c => decide (c.1 = k)).filterMap (fun c => f c.2) = (of k l).filterMap f := by
  induction l with
  | nil => rfl
  | cons c l ih =>
    rw [of] at ih ⊢
    by_cases hk : c.1 = k
    · simp [hk, List.filterMap_cons, ih]
    · simp [hk, ih]

theorem perm_flatMap {keys : List κ} (hkeys : keys.Nodup) {l : List (κ × β)}
    (hl : ∀ c ∈ l, c.1 ∈ keys) (f : β → Option γ) :
    List.Perm (l.filterMap fun c => f c.2) (keys.flatMap fun k => (of k l).filterMap f) := by
  have hperm := (perm_filter Prod.fst Function.injective_id hkeys
    fun c hc => ⟨c.1, hl c hc, rfl⟩).filterMap fun c : κ × β => f c.2
  rw [List.filterMap_flatMap] at hperm
  simpa only [id, of_filterMap] using hperm

/-- A total over a list is the total over its keys of the parts' totals. -/
theorem sum_eq {keys : List κ} (hkeys : keys.Nodup) {l : List (κ × β)}
    (hl : ∀ c ∈ l, c.1 ∈ keys) (f : β → Option γ) (g : γ → Nat) :
    ((l.filterMap fun c => f c.2).map g).sum =
      (keys.map fun k => (((of k l).filterMap f).map g).sum).sum := by
  rw [((perm_flatMap hkeys hl f).map g).sum_eq]
  clear hkeys hl
  induction keys with
  | nil => rfl
  | cons k keys ih => simp [List.flatMap_cons, ih]

theorem sum_indicator {keys : List κ} (hkeys : keys.Nodup) {k : κ} (hk : k ∈ keys) :
    (keys.map fun k' => if k' = k then 1 else 0).sum = 1 := by
  induction keys with
  | nil => cases hk
  | cons k' keys ih =>
    obtain ⟨hnot, hkeys⟩ := List.nodup_cons.mp hkeys
    rw [List.map_cons, List.sum_cons]
    rcases List.mem_cons.mp hk with rfl | hk
    · have hzero : (keys.map fun k' => if k' = k then 1 else 0) = keys.map fun _ => 0 :=
        List.map_congr_left fun k' hk' => if_neg (by rintro rfl; exact hnot hk')
      simp [hzero]
    · have hne : k' ≠ k := by rintro rfl; exact hnot hk
      simp [hne, ih hkeys hk]

omit [DecidableEq κ] in
/-- Bounds that are met in total are met throughout. -/
theorem eq_of_sum_le (keys : List κ) {a b : κ → Nat} (hle : ∀ k ∈ keys, a k ≤ b k)
    (hsum : (keys.map b).sum ≤ (keys.map a).sum) : ∀ k ∈ keys, a k = b k := by
  induction keys with
  | nil => nofun
  | cons k keys ih =>
    have hk := hle k (List.mem_cons_self ..)
    have hrest : ∀ k' ∈ keys, a k' ≤ b k' := fun k' hk' => hle k' (List.mem_cons_of_mem _ hk')
    have htotal : (keys.map a).sum ≤ (keys.map b).sum := List.sum_le_sum hrest
    simp only [List.map_cons, List.sum_cons] at hsum
    intro k' hk'
    rcases List.mem_cons.mp hk' with rfl | hk'
    · omega
    · exact ih hrest (by omega) k' hk'

end Tally
