import SonicChain.ConnectedComponents

/-! # How long the queue of a traversal grows

A node that is in the queue several times is expanded several times, and what is
next to it is pushed each time, for it is only marked when it leaves the queue.  So
the queue holds the ends of the shortest walks through the pool's accesses
(`queueAfter_runs`), and is short only where these are few (`queues_linear_iff`).
-/

namespace SonicChain

section
variable [Ed25519]

/-- The queue of the `i`-th traversal that `distribute` makes, after so many
iterations. -/
def queueAfter (fuel : Nat) (txs : Pool) (i n : Nat) : HeapM (List NodeRef) := do
  let txNodes ← transactionNodes 0 txs
  let _ ← traverseAll fuel 0 (txNodes.take i)
  match txNodes[i]? with
  | some txNode => return (← traverseSteps (UInt32.ofNat i) n [txNode] []).1
  | none => return []

/-- How many keys the transactions' access lists have together. -/
def Pool.references (txs : Pool) : Nat := (txs.map fun tx => tx.accessList.length).sum

/-- The keys that the transaction accesses, or the transactions that access the key,
each as often as it is in an access list. -/
def Pool.accesses (txs : Pool) : NodeRef → List NodeRef
  | .tx i => (txs[i]?.map fun tx => tx.accessList.map NodeRef.key).getD []
  | .key k => (txs.accessing 0 k).map .tx

/-- In each traversal that `distribute` makes, the queue is never longer than the
accesses of the pool make it if each is followed once in each direction. -/
def Pool.QueuesLinear (txs : Pool) : Prop :=
  ∀ i < txs.length, ∀ n, ∃ enough, ∀ fuel ≥ enough, ∃ queue heap,
    (queueAfter fuel txs i n).Runs .empty queue heap ∧ queue.length ≤ 1 + 2 * txs.references

theorem Graph.next_ofPool (txs : Pool) : (ofPool txs (txs.accessing 0)).next = txs.accesses := by
  funext r
  cases r with
  | tx i =>
    change (((txs.map fun tx => (tx.id, tx.accessList))[i]?).map _).getD [] = _
    rw [List.getElem?_map, Option.map_map]
    rfl
  | key k => rfl

end

section
variable {g : Graph}

theorem runs_unique {A : Type} {m : HeapM A} {heap heap' heap'' : Heap} {a a' : A}
    (h : m.Runs heap a heap') (h' : m.Runs heap a' heap'') : a = a' ∧ heap' = heap'' :=
  Prod.mk.inj (Except.ok.inj (Option.some.inj (h.symm.trans h')))

/-- Accesses lead from transactions to keys, and back. -/
theorem Graph.isTx_of_next (a b : NodeRef) (h : b ∈ g.next a) : b.isTx = !a.isTx := by
  cases a with
  | tx i =>
    rw [next] at h
    cases ht : g.txs[i]? with
    | none => simp [ht] at h
    | some t =>
      obtain ⟨k, -, rfl⟩ : ∃ k ∈ t.2, .key k = b := by simpa [ht] using h
      rfl
  | key k =>
    obtain ⟨i, -, rfl⟩ := List.mem_map.mp h
    rfl

/-- The first traversals mark what can be reached from their starts. -/
theorem traverseAll_runs_of_le (n position : Nat) (hn : position + n ≤ g.txs.length)
    (hlinked : g.Linked) (hclosed : g.VisitedClosed) :
    ∃ (found : List (List Nat)) (component : NodeRef → Option UInt32) (enough : Nat),
      (∀ fuel ≥ enough,
        (traverseAll fuel position ((List.range' position n).map .tx)).Runs g.heap
          (found.map (List.map .tx)) { g with component := component }.heap) ∧
      { g with component := component }.VisitedClosed ∧
      ∀ r, { g with component := component }.marked r = true ↔ g.marked r = true ∨
        ∃ j, position ≤ j ∧ j < position + n ∧ GraphSearch.Reach g.next (.tx j) r := by
  induction n generalizing g position with
  | zero =>
    refine ⟨[], g.component, 0, fun fuel _ => runs_pure _ _, hclosed, fun r => ?_⟩
    refine (or_iff_left ?_).symm
    rintro ⟨j, hle, hlt, -⟩
    omega
  | succ n ih =>
    obtain ⟨found, component, n₁, hruns, hclosed', hvisited, -⟩ :=
      traverse_runs hlinked hclosed (UInt32.ofNat position) (i := position) (by omega)
    obtain ⟨rest, component', n₂, hrest, hclosed'', hvisited'⟩ :=
      ih (g := { g with component := component }) (position + 1)
        (by change _ ≤ g.txs.length; omega) hlinked hclosed'
    refine ⟨found :: rest, component', max n₁ n₂, fun fuel hfuel => ?_, hclosed'', fun r => ?_⟩
    · rw [List.range'_succ, List.map_cons]
      exact (hruns fuel (by omega)).bind ((hrest fuel (by omega)).bind (runs_pure _ _))
    · refine (hvisited' r).trans ⟨?_, ?_⟩
      · rintro (hr | ⟨j, hle, hlt, hreach⟩)
        · exact ((hvisited r).mp hr).imp_right fun hreach => ⟨position, by omega, by omega, hreach⟩
        · exact .inr ⟨j, by omega, by omega, hreach⟩
      · rintro (hr | ⟨j, hle, hlt, hreach⟩)
        · exact .inl ((hvisited r).mpr (.inl hr))
        · rcases Nat.eq_or_lt_of_le hle with rfl | hlt'
          · exact .inl ((hvisited r).mpr (.inr hreach))
          · exact .inr ⟨j, hlt', by omega, hreach⟩

end

section
variable [Ed25519] {txs : Pool} {i : Nat}

/-- **The queue of a traversal** is that of the search from its transaction, where all
that can be reached from the earlier transactions is marked. -/
theorem queueAfter_runs (hi : i < txs.length) :
    ∃ (marked : NodeRef → Bool) (enough : Nat),
      (∀ r, marked r = true ↔ ∃ j < i, GraphSearch.Reach txs.accesses (.tx j) r) ∧
      ∀ fuel ≥ enough, ∀ n, ∃ heap, (queueAfter fuel txs i n).Runs .empty
        ((GraphSearch.step txs.accesses)^[n] (GraphSearch.begin marked (.tx i))).queue heap := by
  obtain ⟨hbuild, hlinked⟩ := txs.transactionNodes_runs
  have hnext := Graph.next_ofPool txs
  set g := Graph.ofPool txs (txs.accessing 0) with hg
  have hlength : g.txs.length = txs.length := List.length_map ..
  obtain ⟨found, component, enough, hruns, -, hvisited⟩ :=
    traverseAll_runs_of_le i 0 (by omega) hlinked fun a ha => by cases ha
  set g' : Graph := { g with component := component }
  have hlinked' : g'.Linked := hlinked
  refine ⟨g'.marked, enough, fun r => ?_, fun fuel hfuel n => ?_⟩
  · rw [hvisited, hnext]
    constructor
    · rintro (hr | ⟨j, -, hlt, hreach⟩)
      · cases hr
      · exact ⟨j, by omega, hreach⟩
    · rintro ⟨j, hlt, hreach⟩
      exact .inr ⟨j, by omega, by omega, hreach⟩
  · have halive : ∀ x ∈ [NodeRef.tx i], (g'.heap x).isSome := by
      intro x hx
      rw [List.mem_singleton.mp hx, Graph.isSome_heap, Graph.Alive, Graph.shape]
      change (Option.map _ g.txs[i]?).isSome = true
      rw [List.getElem?_eq_getElem (hlength ▸ hi)]
      rfl
    obtain ⟨component', hsteps, -⟩ := hlinked'.wellFormed.traverseSteps_runs
      (fun _ _ => Graph.isTxNode_of_heap) g'.component (UInt32.ofNat i) n [] halive
    rw [Graph.heap_mark, Graph.heap_next, show g'.next = txs.accesses from hnext] at hsteps
    have htake : ((List.range' 0 txs.length).map NodeRef.tx).take i =
        (List.range' 0 i).map NodeRef.tx := by
      rw [← List.map_take, List.take_range'_of_length_ge hi.le]
    have hstart : ((List.range' 0 txs.length).map NodeRef.tx)[i]? = some (.tx i) := by
      rw [List.getElem?_map, List.getElem?_range' hi]
      simp
    refine ⟨g'.heap.mark component', .bind hbuild (.bind (htake ▸ hruns fuel hfuel) ?_)⟩
    simp only [hstart]
    exact .bind hsteps (runs_pure _ _)

theorem Pool.reach_accesses_iff (txs : Pool) (i j : Nat) :
    GraphSearch.Reach txs.accesses (.tx i) (.tx j) ↔ txs.Linked i j := by
  rw [← Graph.next_ofPool]
  exact reach_iff txs.transactionNodes_runs.2 i j

/-- What can be reached from a transaction that is not linked to an earlier one has
not been visited before its traversal. -/
theorem Pool.unvisited_of_reach {marked : NodeRef → Bool}
    (hmarked : ∀ r, marked r = true ↔ ∃ j < i, GraphSearch.Reach txs.accesses (.tx j) r)
    (hfirst : ∀ j < i, ¬ txs.Linked j i) {r : NodeRef}
    (hr : GraphSearch.Reach txs.accesses (.tx i) r) : marked r = false := by
  by_contra hvisited
  obtain ⟨j, hj, hreach⟩ := (hmarked r).mp (by simpa using hvisited)
  have hsymm : ∀ a b, b ∈ txs.accesses a → a ∈ txs.accesses b := by
    rw [← Graph.next_ofPool]
    exact txs.transactionNodes_runs.2.next_symm
  exact hfirst j hj ((txs.reach_accesses_iff j i).mp (hreach.trans (hr.symm hsymm)))

/-- **The queues stay linear exactly where the shortest walks are few.**  From each
transaction that is not linked to an earlier one, at each point of each layer of
shortest walks, those of the layer that are to be continued and those that continue
the others are together at most one, and two for each reference. -/
theorem queues_linear_iff (txs : Pool) :
    txs.QueuesLinear ↔
      ∀ i < txs.length, (∀ j < i, ¬ txs.Linked j i) →
        ∀ d before after, GraphSearch.layer txs.accesses (.tx i) d = before ++ after →
          (GraphSearch.waiting txs.accesses (.tx i) d before after).length ≤
            1 + 2 * txs.references := by
  have hcolor : ∀ a b, b ∈ txs.accesses a → b.isTx = !a.isTx := by
    rw [← Graph.next_ofPool]
    exact Graph.isTx_of_next
  constructor
  · intro hlinear i hi hfirst
    obtain ⟨marked, enough, hmarked, hruns⟩ := queueAfter_runs hi
    have hfresh : ∀ r, GraphSearch.Reach txs.accesses (.tx i) r → marked r = false :=
      fun r hr => Pool.unvisited_of_reach hmarked hfirst hr
    refine (GraphSearch.forall_queue_iff hcolor hfresh
      (fun queue => queue.length ≤ 1 + 2 * txs.references)).mp fun n => ?_
    obtain ⟨enough', hbound⟩ := hlinear i hi n
    obtain ⟨queue, heap, hqueue, hle⟩ := hbound (max enough enough') (by omega)
    obtain ⟨heap', hqueue'⟩ := hruns (max enough enough') (by omega) n
    exact (runs_unique hqueue hqueue').1 ▸ hle
  · intro hwalks i hi n
    obtain ⟨marked, enough, hmarked, hruns⟩ := queueAfter_runs hi
    refine ⟨enough, fun fuel hfuel => ?_⟩
    obtain ⟨heap, hqueue⟩ := hruns fuel hfuel n
    refine ⟨_, heap, hqueue, ?_⟩
    by_cases hfirst : ∀ j < i, ¬ txs.Linked j i
    · exact (GraphSearch.forall_queue_iff hcolor
        (fun r hr => Pool.unvisited_of_reach hmarked hfirst hr)
        (fun queue => queue.length ≤ 1 + 2 * txs.references)).mpr (hwalks i hi hfirst) n
    · -- The transaction is linked to an earlier one, so nothing is pushed.
      obtain ⟨j, hj, hlinked⟩ : ∃ j < i, txs.Linked j i := by
        by_contra hnone
        exact hfirst fun j hj hlinked => hnone ⟨j, hj, hlinked⟩
      have hstart : marked (.tx i) = true :=
        (hmarked _).mpr ⟨j, hj, (txs.reach_accesses_iff j i).mpr hlinked⟩
      have hclosed : ∀ a, marked a = true → ∀ b ∈ txs.accesses a, marked b = true := by
        intro a ha b hb
        obtain ⟨j, hj, hreach⟩ := (hmarked a).mp ha
        exact (hmarked b).mpr ⟨j, hj, hreach.tail hb⟩
      cases n with
      | zero =>
        change [NodeRef.tx i].length ≤ _
        rw [List.length_singleton]
        omega
      | succ n =>
        rw [Function.iterate_succ_apply, GraphSearch.step_begin_of_marked hstart hclosed,
          GraphSearch.iterate_of_done _ rfl]
        exact Nat.zero_le _

end

section
open Testing

/-- Alice pays herself, then bob three times, and bob pays himself three times. -/
def fanOut : Pool :=
  [.new 0 (.balances (.transfer alice 1)) alice ([], []),
    .new 1 (.balances (.transfer bob 1)) alice ([], []),
    .new 2 (.balances (.transfer bob 1)) alice ([], []),
    .new 3 (.balances (.transfer bob 1)) alice ([], []),
    .new 4 (.balances (.transfer bob 1)) bob ([], []),
    .new 5 (.balances (.transfer bob 1)) bob ([], []),
    .new 6 (.balances (.transfer bob 1)) bob ([], [])]

/-- How long the queue is that a run ends with. -/
def lengthOf (run : Option (Except Panic (List NodeRef × Heap))) : Option Nat :=
  run.bind fun result => result.toOption.map fun queue => queue.1.length

/-- Fourteen references, and after fifteen iterations of the first traversal there are
thirty-six nodes in the queue. -/
theorem fanOut_not_linear : ¬ fanOut.QueuesLinear := by
  intro h
  obtain ⟨enough, hbound⟩ := h 0 (by decide) 15
  obtain ⟨queue, heap, hqueue, hle⟩ := hbound enough (Nat.le_refl _)
  have hfuel : queueAfter enough fanOut 0 15 = queueAfter 0 fanOut 0 15 := rfl
  have hlength : lengthOf (queueAfter 0 fanOut 0 15 .empty) = some 36 := by decide +kernel
  have hreferences : fanOut.references = 14 := by decide +kernel
  rw [hfuel] at hqueue
  rw [show queueAfter 0 fanOut 0 15 .empty = _ from hqueue] at hlength
  have hthirtySix : queue.length = 36 := Option.some.inj hlength
  omega

end
end SonicChain
