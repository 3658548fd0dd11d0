import Mathlib.Algebra.BigOperators.Group.Finset.Piecewise
import Mathlib.Algebra.BigOperators.Ring.Multiset
import Mathlib.Algebra.Group.Action.Defs
import Mathlib.Algebra.Order.BigOperators.Group.Finset
import Mathlib.Algebra.Order.BigOperators.Group.Multiset
import Mathlib.Order.Lattice.Nat
import Mathlib.Tactic.Ring

/-! # Giving jobs to machines, the longest first

Jobs of given lengths go to identical machines, the longest job that is left to a
machine that has least to do (`LongestFirst`, for any choice among equals).  The
greatest load is then at most `4/3 - 1/(3m)` times the least that is possible for
`m` machines (`LongestFirst.le_optimum`).

The bound holds job by job.  A job of at most a third of the optimum is covered by
the average load.  Where a job is longer, no machine of a best assignment has three
jobs as long; if the job did not fit under the optimum on top of the least load, the
jobs so far would need all places of the best assignment, and it could not have
placed this job (`LongestFirst.bound_of_long`).
-/

namespace LoadBalance
open Finset
variable {ι : Type} [Fintype ι]

/-- The jobs, by their lengths, given to the machines. -/
structure Assignment (ι : Type) [Fintype ι] (jobs : Multiset Nat) where
  given : ι → Multiset Nat
  all : ∑ i, given i = jobs

/-- The greatest load. -/
def makespan (given : ι → Multiset Nat) : Nat := univ.sup fun i => (given i).sum

/-- The least greatest load of all assignments. -/
noncomputable def optimum (ι : Type) [Fintype ι] (jobs : Multiset Nat) : Nat :=
  ⨅ a : Assignment ι jobs, makespan a.given

theorem sum_le_makespan (given : ι → Multiset Nat) (i : ι) : (given i).sum ≤ makespan given :=
  le_sup (f := fun i => (given i).sum) (mem_univ i)

theorem exists_optimum [Nonempty ι] [DecidableEq ι] (jobs : Multiset Nat) :
    ∃ a : Assignment ι jobs, makespan a.given = optimum ι jobs := by
  obtain ⟨i⟩ := ‹Nonempty ι›
  have : Nonempty (Assignment ι jobs) :=
    ⟨⟨Pi.single i jobs, Fintype.sum_pi_single' i jobs⟩⟩
  exact Nat.sInf_mem (Set.range_nonempty fun a : Assignment ι jobs => makespan a.given)

/-! ## Weights of jobs -/

theorem weights_sum (weight : Nat → Nat) (given : ι → Multiset Nat) :
    ((∑ i, given i).map weight).sum = ∑ i, ((given i).map weight).sum := by
  have hmap := map_sum (Multiset.mapAddMonoidHom weight) given univ
  have hsum := map_sum (Multiset.sumAddMonoidHom (M := Nat)) (fun i => (given i).map weight) univ
  simp only [Multiset.coe_mapAddMonoidHom, Multiset.coe_sumAddMonoidHom] at hmap hsum
  rw [hmap, hsum]

theorem weights_mono (weight : Nat → Nat) {s t : Multiset Nat} (h : s ≤ t) :
    (s.map weight).sum ≤ (t.map weight).sum := by
  obtain ⟨u, rfl⟩ := Multiset.le_iff_exists_add.mp h
  rw [Multiset.map_add, Multiset.sum_add]
  omega

theorem loads_sum (given : ι → Multiset Nat) : (∑ i, given i).sum = ∑ i, (given i).sum := by
  have := weights_sum id given
  simpa only [Multiset.map_id] using this

/-! ## One job -/

section
variable {given best : ι → Multiset Nat} {p T : Nat} {k : ι}

/-- The average load of the best assignment covers the least load and a share of the
job. -/
theorem average_le (hleast : ∀ i, (given k).sum ≤ (given i).sum)
    (hjobs : p ::ₘ ∑ i, given i ≤ ∑ i, best i) (hbest : ∀ i, (best i).sum ≤ T) :
    Fintype.card ι * (given k).sum + p ≤ Fintype.card ι * T := by
  have hgiven : Fintype.card ι * (given k).sum ≤ ∑ i, (given i).sum := by
    have := card_nsmul_le_sum univ (fun i => (given i).sum) (given k).sum fun i _ => hleast i
    simpa only [card_univ, smul_eq_mul] using this
  have hT : ∑ i, (best i).sum ≤ Fintype.card ι * T := by
    have := sum_le_card_nsmul univ (fun i => (best i).sum) T fun i _ => hbest i
    simpa only [card_univ, smul_eq_mul] using this
  have hle := weights_mono id hjobs
  rw [Multiset.map_id, Multiset.map_id, Multiset.sum_cons, loads_sum, loads_sum] at hle
  omega

/-- How many places the job takes on a machine that has room for two of length `p`. -/
def places (p T x : Nat) : Nat := if x < p then 0 else if T < x + p then 2 else 1

theorem one_le_places {x : Nat} (h : p ≤ x) : 1 ≤ places p T x := by
  rw [places, if_neg (by omega)]
  split <;> omega

theorem places_le_two {s : Multiset Nat} (hs : s.sum ≤ T) (hlong : T < 3 * p) :
    (s.map (places p T)).sum ≤ 2 := by
  by_cases hfull : ∃ x ∈ s, p ≤ x ∧ T < x + p
  · -- A job that leaves no room for another.
    obtain ⟨x, hx, hpx, hTx⟩ := hfull
    obtain ⟨s, rfl⟩ := Multiset.exists_cons_of_mem hx
    rw [Multiset.sum_cons] at hs
    have hrest : (s.map (places p T)).sum = 0 := by
      refine Multiset.sum_eq_zero fun w hw => ?_
      obtain ⟨y, hy, rfl⟩ := Multiset.mem_map.mp hw
      have hle := Multiset.le_sum_of_mem hy
      rw [places, if_pos (by omega)]
    rw [Multiset.map_cons, Multiset.sum_cons, hrest, places, if_neg (by omega), if_pos hTx]
  · -- Each place is of length `p` at least, and three would be too long.
    have hplaces : (s.map fun x => places p T x * p).sum ≤ (s.map id).sum := by
      refine Multiset.sum_map_le_sum_map _ _ fun x hx => ?_
      rw [places, id]
      split_ifs with hlt hT
      · omega
      · exact absurd ⟨x, hx, by omega, hT⟩ hfull
      · omega
    rw [Multiset.sum_map_mul_right, Multiset.map_id] at hplaces
    by_contra hthree
    have := Nat.mul_le_mul_right p (show 3 ≤ (s.map (places p T)).sum by omega)
    omega

theorem two_le_places {s : Multiset Nat} (hlarge : ∀ x ∈ s, p ≤ x) (hs : T < s.sum + p)
    (hp : p ≤ T) : 2 ≤ (s.map (places p T)).sum := by
  induction s using Multiset.induction with
  | empty =>
    rw [Multiset.sum_zero] at hs
    omega
  | cons x s _ =>
    have hx := hlarge x (Multiset.mem_cons_self x s)
    rw [Multiset.map_cons, Multiset.sum_cons]
    induction s using Multiset.induction with
    | empty =>
      rw [Multiset.sum_cons, Multiset.sum_zero] at hs
      rw [places, if_neg (by omega), if_pos (by omega)]
      omega
    | cons y s _ =>
      have hy := hlarge y (Multiset.mem_cons_of_mem (Multiset.mem_cons_self y s))
      have hxPlaces := one_le_places (T := T) hx
      have hyPlaces := one_le_places (T := T) hy
      rw [Multiset.map_cons, Multiset.sum_cons]
      omega

/-- **A job of more than a third of the optimum fits** on top of the least load. -/
theorem fits_of_long (hlarge : ∀ i, ∀ x ∈ given i, p ≤ x)
    (hleast : ∀ i, (given k).sum ≤ (given i).sum)
    (hjobs : p ::ₘ ∑ i, given i ≤ ∑ i, best i) (hbest : ∀ i, (best i).sum ≤ T)
    (hlong : T < 3 * p) : (given k).sum + p ≤ T := by
  by_contra hover
  have hp : p ≤ T := by
    obtain ⟨i, -, hi⟩ := Multiset.mem_sum.mp (Multiset.mem_of_le hjobs (Multiset.mem_cons_self _ _))
    exact (Multiset.le_sum_of_mem hi).trans (hbest i)
  have hneeded : Fintype.card ι * 2 ≤ ∑ i, ((given i).map (places p T)).sum := by
    have := card_nsmul_le_sum univ (fun i => ((given i).map (places p T)).sum) 2 fun i _ =>
      two_le_places (hlarge i) (by have := hleast i; omega) hp
    simpa only [card_univ, smul_eq_mul] using this
  have hthere : ∑ i, ((best i).map (places p T)).sum ≤ Fintype.card ι * 2 := by
    have := sum_le_card_nsmul univ (fun i => ((best i).map (places p T)).sum) 2 fun i _ =>
      places_le_two (hbest i) hlong
    simpa only [card_univ, smul_eq_mul] using this
  have hle := weights_mono (places p T) hjobs
  have hone := one_le_places (T := T) (Nat.le_refl p)
  rw [Multiset.map_cons, Multiset.sum_cons, weights_sum, weights_sum] at hle
  omega

/-- **One job keeps the bound**, on the machine that has least to do. -/
theorem bound_cons (hlarge : ∀ i, ∀ x ∈ given i, p ≤ x)
    (hleast : ∀ i, (given k).sum ≤ (given i).sum)
    (hjobs : p ::ₘ ∑ i, given i ≤ ∑ i, best i) (hbest : ∀ i, (best i).sum ≤ T) :
    3 * Fintype.card ι * ((given k).sum + p) ≤ (4 * Fintype.card ι - 1) * T := by
  have hcard : 1 ≤ Fintype.card ι := Fintype.card_pos_iff.mpr ⟨k⟩
  obtain ⟨m, hm⟩ := Nat.exists_eq_add_of_le hcard
  have hfour : 4 * Fintype.card ι - 1 = 3 * Fintype.card ι + m := by omega
  rw [hfour, Nat.add_mul]
  by_cases hlong : T < 3 * p
  · have hfits := Nat.mul_le_mul_left (3 * Fintype.card ι)
      (fits_of_long hlarge hleast hjobs hbest hlong)
    omega
  · have haverage := average_le hleast hjobs hbest
    have hshare : m * (3 * p) ≤ m * T := Nat.mul_le_mul_left m (by omega)
    calc 3 * Fintype.card ι * ((given k).sum + p)
        = 3 * (Fintype.card ι * (given k).sum + p) + m * (3 * p) := by rw [hm]; ring
      _ ≤ 3 * (Fintype.card ι * T) + m * T := Nat.add_le_add (Nat.mul_le_mul_left 3 haverage) hshare
      _ = 3 * Fintype.card ι * T + m * T := by rw [Nat.mul_assoc]

end

/-! ## All jobs -/

section
variable [DecidableEq ι]

/-- The machines come to `final` when the jobs that are left are given to them, the
longest first, each to a machine that has least to do. -/
inductive LongestFirst : (ι → Multiset Nat) → Multiset Nat → (ι → Multiset Nat) → Prop where
  | done (given : ι → Multiset Nat) : LongestFirst given 0 given
  | step {given final : ι → Multiset Nat} {p : Nat} {rest : Multiset Nat} {k : ι}
    (longest : ∀ q ∈ rest, q ≤ p) (least : ∀ i, (given k).sum ≤ (given i).sum)
    (then_ : LongestFirst (Function.update given k (p ::ₘ given k)) rest final) :
    LongestFirst given (p ::ₘ rest) final

variable {given final : ι → Multiset Nat} {jobs : Multiset Nat} {T : Nat}

theorem sum_update (given : ι → Multiset Nat) (k : ι) (p : Nat) :
    ∑ i, Function.update given k (p ::ₘ given k) i = p ::ₘ ∑ i, given i := by
  rw [sum_update_of_mem (mem_univ k), Multiset.cons_add,
    ← sum_eq_add_sum_sdiff_singleton_of_mem (mem_univ k)]

theorem LongestFirst.bound (h : LongestFirst given jobs final) (best : ι → Multiset Nat)
    (hlarge : ∀ i, ∀ x ∈ given i, ∀ q ∈ jobs, q ≤ x)
    (hjobs : jobs + ∑ i, given i ≤ ∑ i, best i) (hbest : ∀ i, (best i).sum ≤ T)
    (hbound : ∀ i, 3 * Fintype.card ι * (given i).sum ≤ (4 * Fintype.card ι - 1) * T) (i : ι) :
    3 * Fintype.card ι * (final i).sum ≤ (4 * Fintype.card ι - 1) * T := by
  induction h with
  | done given => exact hbound i
  | @step given final p rest k longest least _ ih =>
    have hp : ∀ i, ∀ x ∈ given i, p ≤ x := fun i x hx =>
      hlarge i x hx p (Multiset.mem_cons_self p rest)
    have hplaced : p ::ₘ ∑ i, given i ≤ ∑ i, best i := by
      refine le_trans ?_ hjobs
      rw [Multiset.cons_add]
      exact Multiset.cons_le_cons p (Multiset.le_add_left _ _)
    refine ih (fun j x hx q hq => ?_) ?_ fun j => ?_
    · by_cases hj : j = k
      · subst hj
        rw [Function.update_self] at hx
        rcases Multiset.mem_cons.mp hx with rfl | hx
        · exact longest q hq
        · exact hlarge j x hx q (Multiset.mem_cons_of_mem hq)
      · rw [Function.update_of_ne hj] at hx
        exact hlarge j x hx q (Multiset.mem_cons_of_mem hq)
    · rw [sum_update, Multiset.add_cons, ← Multiset.cons_add]
      exact hjobs
    · by_cases hj : j = k
      · subst hj
        rw [Function.update_self, Multiset.sum_cons, Nat.add_comm]
        exact bound_cons hp least hplaced hbest
      · rw [Function.update_of_ne hj]
        exact hbound j

/-- **Longest first is near the optimum.** -/
theorem LongestFirst.le_optimum [Nonempty ι] (h : LongestFirst (fun _ => 0) jobs final) :
    3 * Fintype.card ι * makespan final ≤ (4 * Fintype.card ι - 1) * optimum ι jobs := by
  obtain ⟨best, hbest⟩ := exists_optimum (ι := ι) jobs
  obtain ⟨i, -, hi⟩ := exists_mem_eq_sup univ univ_nonempty fun i => (final i).sum
  rw [makespan, hi, ← hbest]
  refine h.bound best.given (fun i x hx => absurd hx (Multiset.notMem_zero x)) ?_
    (fun i => sum_le_makespan best.given i) (fun i => ?_) i
  · rw [best.all, Finset.sum_const_zero, add_zero]
  · rw [Multiset.sum_zero, Nat.mul_zero]
    exact Nat.zero_le _

end
end LoadBalance
