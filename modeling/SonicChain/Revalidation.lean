import SonicChain.ValidatedBlock

/-! # Validation of an authored block

The block that `author_block` returns is validated by whoever has the state that it was
authored on, in any schedule: each worker executes what it has run in authoring, in the
same order, and the data come out the same.  This rests on the taints that authoring has
left: what a worker has run touches only keys that it has tainted, so that the shares of
the block are `Apart`, although nobody looks at taints in validation.
-/

namespace SonicChain
open Worker StoreProgram

section
variable [Ed25519]

section
variable {exec exec' : Executor} {pool : Pool} {data₀ : Key → Value} {fresh : ThreadId → Prop}
  {s₁ s : System} {tail : List Event} {state : StateMap} {block : List Transaction}

namespace Returned
variable (h : Returned exec pool data₀ fresh s₁ s tail state block) (hpool : Assigned exec pool)
include h hpool

theorem tagged : Tagged exec block := by
  intro tx htx
  rw [h.block, List.mem_append] at htx
  rcases htx with htx | htx
  · exact .inr (h.exited.tags hpool htx)
  · exact .inl (h.exited.orphans tx htx)

/-- A validator executes the block in order. -/
theorem executed_block :
    Pool.executed block = s₁.master.txPool ∧ Pool.orphans block = s₁.master.orphanPool := by
  have hfront : ∀ tx ∈ s₁.master.txPool, tx.tag ≠ .orphan := by
    intro tx htx horphan
    obtain ⟨w, -, htag⟩ := h.exited.tags hpool htx
    cases htag.symm.trans horphan
  exact h.block ▸ Pool.executed_append hfront h.exited.orphans

theorem replayed : Pool.replayed [] block = block := by
  obtain ⟨hexecuted, horphans⟩ := h.executed_block hpool
  rw [Pool.replayed, hexecuted, horphans, List.nil_append, ← h.block]

variable (hfresh : ∀ w ∈ exec.workers, fresh w)
include hfresh

/-- What each worker has run touches what it has tainted. -/
theorem apart : Apart exec s₁.state.taint block data₀ := by
  intro w hw k hk
  obtain ⟨view, -, htouched, -⟩ := h.exited.run_share hpool hfresh hw
  rw [h.share_block] at hk
  exact htouched k hk

/-- The keys that authoring has stored under are those that the block writes. -/
theorem stored_iff_written (k : Key) :
    (∃ t, k ∈ storedBy t s.log) ↔ k ∈ writtenAll (block.map Transaction.code) data₀ := by
  obtain ⟨hrun, hwritten⟩ := h.exited.run_txPool hpool hfresh
  rw [h.block, List.map_append, writtenAll_append hrun, List.mem_append, hwritten, ← h.stored, h.log]
  refine stored_iff (fun t key he => ?_) h.ofOrphans k
  obtain ⟨w, hw, hby | ⟨payload, hcollected⟩⟩ := h.exited.authoring.record _ he
  · exact ⟨w, hw, hby⟩
  · cases hcollected

end Returned

theorem Tagged.of_workers (hworkers : exec'.workers = exec.workers) (h : Tagged exec block) :
    Tagged exec' block := by
  rw [Tagged, hworkers]
  exact h

theorem Apart.of_workers {own : Key → Option ThreadId} (hworkers : exec'.workers = exec.workers)
    (h : Apart exec own block data₀) : Apart exec' own block data₀ := by
  rw [Apart, hworkers]
  exact h

/-- What an executor with the same workers and the data that the block was authored on has
to do to validate it. -/
theorem Returned.validateCall {v₀ v : System} (h : Returned exec pool data₀ fresh s₁ s tail state block)
    (hpool : Assigned exec pool) (hfresh : ∀ w ∈ exec.workers, fresh w)
    (hworkers : exec'.workers = exec.workers) (hready : v₀.Ready exec')
    (horphans : v₀.master.orphanPool = []) (hdata : v₀.state.data = data₀)
    (hcalled : v₀.Called exec' (.validateBlock block) v) :
    ValidateCall exec' v₀ block v ∧ Tagged exec' block ∧
      Apart exec' s₁.state.taint block v₀.state.data ∧
      runAll ((Pool.replayed v₀.master.orphanPool block).map Transaction.code) v₀.state.data =
        .ok state.data := by
  refine ⟨⟨hready, System.onlyOrphans horphans, hcalled⟩, (h.tagged hpool).of_workers hworkers,
    ?_, ?_⟩
  · rw [hdata]
    exact (h.apart hpool hfresh).of_workers hworkers
  · rw [horphans, h.replayed hpool, hdata]
    exact h.run_block hpool hfresh

end

/-- **Validation replays authoring.**  An executor with the same workers, on the data that
the block was authored on, validates it in any schedule: no thread panics, each worker
executes what it ran in authoring, in the same order, and the data are those that the
author returned, and the sequential executor. -/
theorem validation_replays_authoring {exec exec' : Executor} {s₀ s v₀ v : System}
    {txs : List Transaction} {pool : Pool} {state : StateMap} {block : List Transaction}
    (h : AuthorRun exec s₀ txs pool s) (hfresh : ∀ w ∈ exec.workers, s₀.Fresh w)
    (hpc : s.master.pc = .authored state block) (hworkers : exec'.workers = exec.workers)
    (hready : v₀.Ready exec') (horphans : v₀.master.orphanPool = [])
    (hdata : v₀.state.data = s₀.state.data) (hcalled : v₀.Called exec' (.validateBlock block) v) :
    v.Orderly exec' ∧ ¬ v.DispatchPanicked exec' ∧
    ∀ state', v.master.pc = .validated state' →
      state'.data = state.data ∧
      (∃ self, SequentialExecutor.validateBlock ⟨v₀.state⟩ block = .ok self ∧
        state'.stateEq self.state = true) ∧
      (∀ w ∈ exec.workers, (validatedBy w v.log).map Transaction.content =
        (ran w s.log).map Transaction.content) ∧
      orphansExecuted v.log = orphansExecuted s.log := by
  have hpool := h.distributes.assigned h.submitted
  obtain ⟨s₁, tail, hreturned⟩ := h.returned hpc
  obtain ⟨hcall, htagged, hapart, hrun⟩ :=
    hreturned.validateCall hpool hfresh hworkers hready horphans hdata hcalled
  have hreplayed := hreturned.replayed hpool
  obtain ⟨seqState, hseq, hseqData, -⟩ := SequentialExecutor.applyTransaction_of_ok hrun
  have hself : SequentialExecutor.validateBlock ⟨v₀.state⟩
      (Pool.replayed v₀.master.orphanPool block) = .ok ⟨seqState⟩ := by
    rw [SequentialExecutor.validateBlock, hseq]
    rfl
  obtain ⟨horderly, hsound, hreturns⟩ := validate_block_any_schedule hcall htagged hapart hself
  refine ⟨horderly, hsound, fun state' hpc' => ?_⟩
  obtain ⟨heq, hvalidated, horphansExecuted⟩ := hreturns state' hpc'
  refine ⟨?_, ⟨⟨seqState⟩, ?_, heq⟩, fun w hw => ?_, ?_⟩
  · rw [(StateType.stateEq_iff_data.mp heq).2, hseqData]
  · rw [horphans, hreplayed] at hself
    exact hself
  · rw [hvalidated w (hworkers ▸ hw), hreturned.share_block, hreturned.ran_eq]
    exact hreturned.exited.share_eq hpool hw (hfresh w hw)
  · rw [horphansExecuted, horphans, List.nil_append, hreturned.orphansExecuted_eq]
    exact (hreturned.executed_block hpool).2

end

section
open Testing

namespace Testing

def settledReturned : StateMap × List Transaction := (returned settled).get (by decide +kernel)

/-- The workers have just been spawned, and validate what was authored. -/
def resettled : System :=
  (Transition.exec (System.step twoWorkers)
    (List.replicate 8 Action.master ++ List.replicate 17 (Action.worker 1) ++
      List.replicate 5 (Action.worker 2) ++
      [Action.collect 1, .master, .collect 2, .master, .master])
    (spawned.begin twoWorkers (.validateBlock settledReturned.2))).get (by decide +kernel)

end Testing

theorem validation_replays_authoring_backAndForth : (validatedState resettled).isSome = true ∧
    resettled.Orderly twoWorkers ∧ ¬ resettled.DispatchPanicked twoWorkers ∧
    ∀ state', resettled.master.pc = .validated state' →
      state'.data = settledReturned.1.data ∧
      (∃ self, SequentialExecutor.validateBlock ⟨spawned.state⟩ settledReturned.2 = .ok self ∧
        state'.stateEq self.state = true) ∧
      (∀ w ∈ twoWorkers.workers, (validatedBy w resettled.log).map Transaction.content =
        (ran w settled.log).map Transaction.content) ∧
      orphansExecuted resettled.log = orphansExecuted settled.log :=
  ⟨by decide +kernel,
    validation_replays_authoring settled_run (fun w _ => spawned_fresh w)
      (pc_of_returned (Option.some_get _).symm) rfl spawned_ready rfl rfl
      ⟨_, by decide, (Option.some_get _).symm⟩⟩

end

section
variable [Ed25519]

/-- **Validation does not depend on the schedule**, if no worker that was still in its last
task when the block was authored owned a key: on the state that the block was authored on,
whatever the order in which the workers take their steps, it leaves the data that the
transactions of the block leave when they are executed one by one. -/
theorem authored_block_revalidates {exec : Executor} {s₀ s : System} {txs : List Transaction}
    {pool : Pool} {state : StateMap} {block : List Transaction} (h : AuthorRun exec s₀ txs pool s)
    (hfresh : ∀ w ∈ exec.workers, s₀.Fresh w) (hpc : s.master.pc = .authored state block) :
    ∃ seqState, SequentialExecutor.applyTransaction block s₀.state = .ok seqState ∧
      ∀ (exec' : Executor) (v₀ v : System) (state' : StateMap), exec'.workers = exec.workers →
        v₀.Ready exec' → v₀.master.orphanPool = [] → v₀.state = s₀.state →
        v₀.Called exec' (.validateBlock block) v → v.master.pc = .validated state' →
        state'.data = seqState.data := by
  have hpool := h.distributes.assigned h.submitted
  obtain ⟨s₁, tail, hreturned⟩ := h.returned hpc
  obtain ⟨seqState, hseq, hseqData, -⟩ :=
    SequentialExecutor.applyTransaction_of_ok (hreturned.run_block hpool hfresh)
  refine ⟨seqState, hseq, fun exec' v₀ v state' hworkers hready horphans hstate hcalled hpc' => ?_⟩
  obtain ⟨hcall, htagged, hapart, hrun⟩ := hreturned.validateCall hpool hfresh hworkers hready horphans
    (by rw [hstate]) hcalled
  have hrevalidated := hcall.returned htagged hapart hpc'
  rw [hseqData]
  exact Except.ok.inj (hrevalidated.run.symm.trans hrun)

end

section
open Testing

theorem authored_block_revalidates_backAndForth :
    ∃ seqState, SequentialExecutor.applyTransaction settledReturned.2 spawned.state = .ok seqState ∧
      ∃ state', resettled.master.pc = .validated state' ∧ state'.data = seqState.data := by
  obtain ⟨seqState, hseq, hdata⟩ := authored_block_revalidates settled_run
    (fun w _ => spawned_fresh w) (pc_of_returned (Option.some_get _).symm)
  obtain ⟨state', hstate'⟩ := Option.isSome_iff_exists.mp
    (show (validatedState resettled).isSome = true by decide +kernel)
  have hpc := pc_of_validatedState hstate'
  exact ⟨seqState, hseq, state', hpc, hdata twoWorkers spawned resettled state' rfl spawned_ready rfl
    rfl ⟨_, by decide, (Option.some_get _).symm⟩ hpc⟩

/-! ### A block that is not replayed

Worker 1 is behind, as before, and pays dave before it comes to its own transactions; so
it cannot pay bob, whose balance it never sees, and which worker 2 is given.  The block
lists bob's payment first, and in validation both workers write to his balance. -/

namespace Testing

/-- Alice can pay bob or dave, but not both; she and bob also pay themselves nothing. -/
def contested : List Transaction :=
  [signed 7 (.balances (.transfer bob 8)) alice, signed 8 (.balances (.transfer dave 5)) alice,
    signed 10 (.balances (.transfer alice 0)) alice, signed 9 (.balances (.transfer bob 0)) bob]

def contestedPool : Pool :=
  contested.mapIdx fun i tx => { tx with tag := .done (twoWorkers.workers.getD (i % 2) 0) }

def contestedAuthored : System :=
  (Transition.exec (System.step twoWorkers)
    (List.replicate 13 Action.master ++ List.replicate 8 (Action.worker 2) ++
      [Action.receive 1 2] ++ List.replicate 6 (Action.worker 1) ++
      [Action.commit 1 (balanceOf.keyFor alice), .commit 1 (balanceOf.keyFor dave)] ++
      List.replicate 13 (Action.worker 1) ++ [Action.commit 1 (balanceOf.keyFor alice)] ++
      List.replicate 3 (Action.worker 1) ++ List.replicate 5 (Action.worker 2) ++
      [Action.commit 2 (balanceOf.keyFor bob)] ++ List.replicate 3 (Action.worker 2) ++
      [Action.collect 1, .master, .collect 1, .master, .collect 2] ++
      List.replicate 4 Action.master)
    (lingering.begin twoWorkers (.authorBlock contested))).get (by decide +kernel)

def contestedReturned : StateMap × List Transaction :=
  (returned contestedAuthored).get (by decide +kernel)

/-- Workers with the same ids have just been spawned, on the same state. -/
def validator : System := { spawned with state := lingering.state }

/-- Worker 2 reads bob's balance before worker 1 pays him, and writes it after. -/
def raced : System :=
  (Transition.exec (System.step twoWorkers)
    (List.replicate 10 Action.master ++ List.replicate 6 (Action.worker 1) ++
      List.replicate 7 (Action.worker 2) ++ List.replicate 2 (Action.worker 1) ++
      List.replicate 4 (Action.worker 2) ++ List.replicate 12 (Action.worker 1) ++
      [Action.collect 1, .master, .collect 2, .master, .master])
    (validator.begin twoWorkers (.validateBlock contestedReturned.2))).get (by decide +kernel)

def racedState : StateMap := (validatedState raced).get (by decide +kernel)

theorem validator_ready : validator.Ready twoWorkers :=
  ⟨spawned_ready.workers, spawned_ready.fromOthers, spawned_ready.toMaster, rfl, rfl,
    lingering_ready.taints⟩

theorem contested_run : AuthorRun twoWorkers lingering contested contestedPool contestedAuthored where
  ready := lingering_ready
  txPool := rfl
  orphanPool := rfl
  submitted := ⟨by decide +kernel, by decide, by decide⟩
  distributes := ⟨rfl, .cons ⟨1, by decide, rfl⟩ (.cons ⟨2, by decide, rfl⟩
    (.cons ⟨1, by decide, rfl⟩ (.cons ⟨2, by decide, rfl⟩ .nil)))⟩
  run := ⟨_, by decide, (Option.some_get _).symm⟩
  noPanic := not_panicked_of_sound (by decide +kernel)

/-- What bob has got, one by one and in the race. -/
theorem raced_returns :
    (SequentialExecutor.applyTransaction contestedReturned.2 lingering.state).map
      (fun seqState => seqState.data (balanceOf.keyFor bob)) = .ok (leBytes 16 8 ++ leBytes 16 0) ∧
    racedState.data (balanceOf.keyFor bob) = leBytes 16 0 ++ leBytes 16 0 := by
  decide +kernel

end Testing

/-- One by one bob is paid; in the race worker 2 takes the payment back. -/
theorem authored_block_not_revalidated :
    (∃ as, Transition.exec (System.step twoWorkers) as spawned = some lingering) ∧
    AuthorRun twoWorkers lingering contested contestedPool contestedAuthored ∧
    contestedAuthored.master.pc = .authored contestedReturned.1 contestedReturned.2 ∧
    validator.Ready twoWorkers ∧ validator.master.orphanPool = [] ∧
    validator.state = lingering.state ∧
    validator.Called twoWorkers (.validateBlock contestedReturned.2) raced ∧
    ∃ seqState state',
      SequentialExecutor.applyTransaction contestedReturned.2 lingering.state = .ok seqState ∧
      raced.master.pc = .validated state' ∧ state'.data ≠ seqState.data := by
  refine ⟨lingering_reached, contested_run, pc_of_returned (Option.some_get _).symm, validator_ready,
    rfl, rfl, ⟨_, by decide, (Option.some_get _).symm⟩, ?_⟩
  obtain ⟨hseq, hpaid⟩ := raced_returns
  cases hrun : SequentialExecutor.applyTransaction contestedReturned.2 lingering.state with
  | error why => rw [hrun] at hseq; cases hseq
  | ok seqState =>
    rw [hrun] at hseq
    refine ⟨seqState, racedState, rfl, pc_of_validatedState (Option.some_get _).symm, fun hdata => ?_⟩
    rw [hdata] at hpaid
    exact absurd (hpaid.symm.trans (Except.ok.inj hseq)) (by decide)

end

end SonicChain
