import SonicChain.Assignment
import SonicChain.LoadBalance

/-! # How evenly the components are assigned

The assignment gives jobs to machines, the longest first: a component is a job as
long as it has transactions, and a worker is a machine
(`assignComponents_longestFirst`).  So the greatest load is near the optimum.
-/

namespace SonicChain
open LoadBalance

/-- How many transactions the worker with most of them has. -/
def ComponentWorkers.maxLoad (workers : ComponentWorkers) : Nat :=
  (workers.map fun w => w.2.length).foldr max 0

theorem ComponentWorkers.maxLoad_le {workers : ComponentWorkers} {n : Nat}
    (h : ∀ w ∈ workers, w.2.length ≤ n) : workers.maxLoad ≤ n := by
  induction workers with
  | nil => exact Nat.zero_le n
  | cons w workers ih =>
    exact Nat.max_le.mpr ⟨h w (List.mem_cons_self ..), ih fun v hv => h v (List.mem_cons_of_mem _ hv)⟩

/-- Each worker has the components that the machine at its place has been given. -/
structure Loads {m : Nat} (given : Fin m → Multiset Nat) (workers : ComponentWorkers) : Prop where
  length : workers.length = m
  load : ∀ (i : Fin m) w, workers[(i : Nat)]? = some w → w.2.length = (given i).sum

section
variable {m : Nat} {given : Fin m → Multiset Nat} {front back workers : ComponentWorkers}
  {w : ThreadId × List NodeRef}

/-- The worker's place. -/
theorem Loads.exists_place (h : Loads given (front ++ w :: back)) :
    ∃ k : Fin m, (k : Nat) = front.length ∧ w.2.length = (given k).sum := by
  have hlt : front.length < m := by
    rw [← h.length, List.length_append, List.length_cons]
    omega
  refine ⟨⟨front.length, hlt⟩, rfl, h.load _ w ?_⟩
  rw [List.getElem?_append_right (Nat.le_refl _), Nat.sub_self]
  rfl

theorem Loads.least (h : Loads given workers) {n : Nat} (hn : ∀ v ∈ workers, n ≤ v.2.length)
    (i : Fin m) : n ≤ (given i).sum := by
  have hi : (i : Nat) < workers.length := h.length ▸ i.isLt
  rw [← h.load i _ (List.getElem?_eq_getElem hi)]
  exact hn _ (List.getElem_mem hi)

/-- The component is given to the machine at the worker's place. -/
theorem Loads.step (h : Loads given (front ++ w :: back)) {k : Fin m}
    (hk : (k : Nat) = front.length) (c : List NodeRef) :
    Loads (Function.update given k (c.length ::ₘ given k))
      (front ++ (w.1, w.2 ++ c) :: back) := by
  refine ⟨by rw [← h.length]; simp, fun i v hv => ?_⟩
  by_cases hik : i = k
  · subst hik
    rw [hk, List.getElem?_append_right (Nat.le_refl _), Nat.sub_self] at hv
    obtain rfl := Option.some.inj hv
    have hload := h.load i w (by
      rw [hk, List.getElem?_append_right (Nat.le_refl _), Nat.sub_self]
      rfl)
    rw [Function.update_self, Multiset.sum_cons, ← hload, List.length_append, Nat.add_comm]
  · have hne : (i : Nat) ≠ front.length := fun hi => hik (Fin.ext (hi.trans hk.symm))
    rw [Function.update_of_ne hik]
    refine h.load i v ?_
    rcases Nat.lt_or_gt_of_ne hne with hlt | hgt
    · rw [List.getElem?_append_left hlt] at hv ⊢
      exact hv
    · rw [List.getElem?_append_right hgt.le] at hv ⊢
      obtain ⟨j, hj⟩ := Nat.exists_eq_add_of_lt hgt
      rw [show (i : Nat) - front.length = j + 1 by omega] at hv ⊢
      exact hv

/-- **The assignment is longest first.** -/
theorem assignComponents_longestFirst {fuel : Nat} {components rest : List (List NodeRef)}
    {workers' : ComponentWorkers} {heap heap' : Heap} (hloads : Loads given workers)
    (hcomponents : components ≠ []) (hworkers : workers ≠ [])
    (h : (assignComponents fuel components workers).Runs heap (rest, workers') heap') :
    ∃ final : Fin m → Multiset Nat,
      LongestFirst given (components.map List.length) final ∧ Loads final workers' := by
  induction fuel generalizing components workers given with
  | zero => cases h
  | succ fuel ih =>
    obtain ⟨before, c, after, front, w, back, rfl, rfl, hlargest, hsmallest, hstep⟩ :=
      assignComponents_succ hcomponents hworkers
    obtain ⟨k, hk, hload⟩ := hloads.exists_place
    have hleast : ∀ i, (given k).sum ≤ (given i).sum := by
      rw [← hload]
      exact hloads.least hsmallest
    have hjobs : (((before ++ c :: after).map List.length : List Nat) : Multiset Nat) =
        c.length ::ₘ ((before ++ after).map List.length : List Nat) := by
      rw [Multiset.cons_coe, Multiset.coe_eq_coe, ← List.map_cons]
      exact List.perm_middle.map List.length
    have hlongest : ∀ q ∈ (((before ++ after).map List.length : List Nat) : Multiset Nat),
        q ≤ c.length := by
      intro q hq
      obtain ⟨d, hd, rfl⟩ := List.mem_map.mp (Multiset.mem_coe.mp hq)
      refine hlargest d ?_
      rcases List.mem_append.mp hd with hd | hd
      · exact List.mem_append_left _ hd
      · exact List.mem_append_right _ (List.mem_cons_of_mem _ hd)
    rw [hstep] at h
    by_cases hrest : before ++ after = []
    · rw [if_pos hrest] at h
      obtain ⟨hpair, -⟩ := runs_pure_iff.mp h
      obtain ⟨-, rfl⟩ := Prod.mk.inj hpair
      refine ⟨_, ?_, hloads.step hk c⟩
      rw [hrest] at hjobs hlongest
      rw [hjobs]
      exact .step hlongest hleast (.done _)
    · rw [if_neg hrest] at h
      obtain ⟨final, hfirst, hfinal⟩ := ih (hloads.step hk c) hrest (by simp) h
      refine ⟨final, ?_, hfinal⟩
      rw [hjobs]
      exact .step hlongest hleast hfirst

end

/-! ## The workers at the start -/

theorem insert_perm {worker : ThreadId} {workers : ComponentWorkers}
    (h : worker ∉ workers.map Prod.fst) (nodes : List NodeRef) :
    List.Perm (ComponentWorkers.insert worker nodes workers) ((worker, nodes) :: workers) := by
  induction workers with
  | nil => exact .refl _
  | cons v workers ih =>
    obtain ⟨id, held⟩ := v
    rw [List.map_cons, List.mem_cons, not_or] at h
    rw [ComponentWorkers.insert]
    split
    · exact .refl _
    · rw [if_neg h.1]
      exact ((ih h.2).cons (id, held)).trans (List.Perm.swap ..)

theorem foldl_insert_perm {ids : List ThreadId} (workers : ComponentWorkers) (hids : ids.Nodup)
    (hnew : ∀ i ∈ ids, i ∉ workers.map Prod.fst) :
    List.Perm (ids.foldl (fun m i => ComponentWorkers.insert i [] m) workers)
      (ids.map (·, []) ++ workers) := by
  induction ids generalizing workers with
  | nil => exact .refl _
  | cons i ids ih =>
    obtain ⟨hi, hids⟩ := List.nodup_cons.mp hids
    have hperm := insert_perm (hnew i (List.mem_cons_self ..)) []
    have hnew' : ∀ j ∈ ids, j ∉ (ComponentWorkers.insert i [] workers).map Prod.fst := by
      intro j hj hmem
      rcases List.mem_cons.mp ((hperm.map Prod.fst).mem_iff.mp hmem) with rfl | hmem
      · exact hi hj
      · exact hnew j (List.mem_cons_of_mem _ hj) hmem
    rw [List.foldl_cons, List.map_cons, List.cons_append]
    exact (ih _ hids hnew').trans ((hperm.append_left _).trans List.perm_middle)

/-- **The load is balanced near the optimum**: the loop ends, each component has gone whole
to one of the workers, and the greatest load is at most `4/3 - 1/(3m)` times the least that
an assignment of whole components to the `m` workers has. -/
theorem assignment_near_optimal (workerIds : List ThreadId) (components : List (List NodeRef))
    (hworkers : workerIds ≠ []) (hdistinct : workerIds.Nodup) (hcomponents : components ≠ [])
    (heap : Heap) :
    ∃ workers' : ComponentWorkers,
      (∀ fuel ≥ components.length,
        (assignComponents fuel components
          (workerIds.foldl (fun m i => ComponentWorkers.insert i [] m) [])).Runs heap
            ([], workers') heap) ∧
      List.Perm (workers'.map Prod.fst) workerIds ∧
      (∀ c ∈ components, ∃ w ∈ workers', c ⊆ w.2) ∧
      List.Perm (workers'.flatMap Prod.snd) components.flatten ∧
      3 * workerIds.length * workers'.maxLoad ≤
        (4 * workerIds.length - 1) *
          optimum (Fin workerIds.length) (components.map List.length) := by
  have hstart := foldl_insert_ne_nil [] (.inl hworkers)
  have hperm := foldl_insert_perm [] hdistinct fun i _ => List.not_mem_nil
  rw [List.append_nil] at hperm
  set workers := workerIds.foldl (fun m i => ComponentWorkers.insert i [] m) []
  have hnil : ∀ w ∈ workers, w.2 = [] := by
    intro w hw
    obtain ⟨i, -, rfl⟩ := List.mem_map.mp (hperm.subset hw)
    rfl
  obtain ⟨workers', hdealt, hruns⟩ :=
    assignComponents_runs (Nat.le_refl components.length) hcomponents hstart heap
  have hlength : workers.length = workerIds.length := by rw [hperm.length_eq, List.length_map]
  have hloads : Loads (fun _ : Fin workerIds.length => (0 : Multiset Nat)) workers :=
    ⟨hlength, fun i w hw => by rw [hnil w (List.mem_of_getElem? hw)]; rfl⟩
  obtain ⟨final, hfirst, hfinal⟩ :=
    assignComponents_longestFirst hloads hcomponents hstart (hruns _ (Nat.le_refl _))
  have hpos : 0 < workerIds.length := List.length_pos_iff.mpr hworkers
  have : Nonempty (Fin workerIds.length) := ⟨⟨0, hpos⟩⟩
  have hoptimum := hfirst.le_optimum
  rw [Fintype.card_fin] at hoptimum
  refine ⟨workers', hruns, ?_, hdealt.whole, ?_, le_trans (Nat.mul_le_mul_left _ ?_) hoptimum⟩
  · rw [hdealt.ids]
    have hids := hperm.map Prod.fst
    rwa [List.map_map, show (Prod.fst ∘ fun i : ThreadId => (i, ([] : List NodeRef))) = id from rfl,
      List.map_id] at hids
  · have hempty : workers.flatMap Prod.snd = [] := List.flatMap_eq_nil_iff.mpr hnil
    have hdealt := hdealt.perm
    rwa [hempty, List.nil_append] at hdealt
  · refine ComponentWorkers.maxLoad_le fun w hw => ?_
    obtain ⟨i, hi⟩ := List.mem_iff_getElem?.mp hw
    have hlt : i < workerIds.length := hfinal.length ▸ (List.getElem?_eq_some_iff.mp hi).1
    rw [hfinal.load ⟨i, hlt⟩ w hi]
    exact sum_le_makespan final _

/-- Three components for two workers. -/
theorem assignment_near_optimal_three :
    ∃ workers' : ComponentWorkers,
      (∀ fuel ≥ [[NodeRef.tx 0, .tx 2], [.tx 1], [.tx 3]].length,
        (assignComponents fuel [[NodeRef.tx 0, .tx 2], [.tx 1], [.tx 3]]
          ([3, 1].foldl (fun m i => ComponentWorkers.insert i [] m) [])).Runs .empty
            ([], workers') .empty) ∧
      List.Perm (workers'.map Prod.fst) [3, 1] ∧
      (∀ c ∈ [[NodeRef.tx 0, .tx 2], [.tx 1], [.tx 3]], ∃ w ∈ workers', c ⊆ w.2) ∧
      List.Perm (workers'.flatMap Prod.snd) [[NodeRef.tx 0, .tx 2], [.tx 1], [.tx 3]].flatten ∧
      3 * [3, 1].length * workers'.maxLoad ≤
        (4 * [3, 1].length - 1) * optimum (Fin [3, 1].length)
          ([[NodeRef.tx 0, .tx 2], [.tx 1], [.tx 3]].map List.length : List Nat) :=
  assignment_near_optimal [3, 1] [[NodeRef.tx 0, .tx 2], [.tx 1], [.tx 3]] (List.cons_ne_nil _ _)
    (by decide) (List.cons_ne_nil _ _) .empty

end SonicChain
