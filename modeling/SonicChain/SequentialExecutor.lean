import SonicChain.Types
import SonicChain.RuntimeAgreement

/-! # The sequential executor

The reference that concurrent runs are compared with: it dispatches the
transactions one by one, straight on the state.  What it leaves is the run of
their codes, one after the other (`applyTransaction_of_ok`), and it fails only
where the body of a call panics (`runAll_of_applyTransaction`).
-/

namespace SonicChain
open StoreProgram

variable [Ed25519]

/-- A code that is refused nothing ends in `Ok`. -/
theorem toRuntimeDispatchResult_of_run {tx : Transaction} {d d' : Key → Value}
    {result : Except DispatchError Unit} (h : tx.code.run d = .ok (result, d')) :
    ∃ success, toRuntimeDispatchResult result = .ok success := by
  cases result with
  | ok u => exact ⟨_, rfl⟩
  | error e =>
    obtain ⟨why, rfl⟩ := OuterCall.isLogic_of_run h
    exact ⟨_, rfl⟩

/-- The executor, by the state of its runtime. -/
structure SequentialExecutor where
  state : StateMap

namespace SequentialExecutor

/-- Apply the transactions one by one. -/
def applyTransaction : List Transaction → StateMap → Except Panic StateMap
  | [], state => .ok state
  | tx :: txs, state =>
    match SequentialRuntime.dispatch state tx.function tx.signature.1 with
    | .ok (.ok _, state') => applyTransaction txs state'
    | .ok (.error _, _) => .error (.expect
        "Sequential execution cannot fail on execute. This will at most be Ok(LogicError(..))")
    | .error why => .error why

/-- The executor after authoring, and the block. -/
def authorBlock (self : SequentialExecutor) (initialTransactions : List Transaction) :
    Except Panic (SequentialExecutor × List Transaction) := do
  return (⟨← applyTransaction initialTransactions self.state⟩, initialTransactions)

def validateBlock (self : SequentialExecutor) (block : List Transaction) :
    Except Panic SequentialExecutor := do
  return ⟨← applyTransaction block self.state⟩

def clean (_ : SequentialExecutor) : SequentialExecutor := ⟨∅⟩

def applyState (self : SequentialExecutor) (state : StateMap) : SequentialExecutor :=
  ⟨state ∪ self.state⟩

theorem dispatch_of_run {tx : Transaction} {state : StateMap} {result : Except DispatchError Unit}
    {d : Key → Value} (h : tx.code.run state.data = .ok (result, d)) :
    ∃ success state', SequentialRuntime.dispatch state tx.function tx.signature.1 =
        .ok (.ok success, state') ∧ state'.data = d ∧
      ∀ k, k ∈ state' ↔ k ∈ state ∨ k ∈ tx.code.written state.data := by
  obtain ⟨success, hsuccess⟩ := toRuntimeDispatchResult_of_run h
  obtain ⟨state', hrun, hdata, hmem⟩ := SequentialRuntime.run_of_ok h
  refine ⟨success, state', ?_, hdata, hmem⟩
  rw [SequentialRuntime.dispatch, show (tx.function.dispatch tx.signature.1).run = tx.code from rfl,
    hrun]
  exact congrArg (fun r => Except.ok (r, state')) hsuccess

theorem applyTransaction_cons {tx : Transaction} {txs : List Transaction} {state state' : StateMap}
    {success : RuntimeDispatchSuccess}
    (h : SequentialRuntime.dispatch state tx.function tx.signature.1 = .ok (.ok success, state')) :
    applyTransaction (tx :: txs) state = applyTransaction txs state' := by
  rw [applyTransaction, h]

/-- **The sequential executor runs the codes one after the other.**  The keys it
adds to the map are those they write. -/
theorem applyTransaction_of_ok {txs : List Transaction} {state : StateMap} {d : Key → Value}
    (h : runAll (txs.map Transaction.code) state.data = .ok d) :
    ∃ state', applyTransaction txs state = .ok state' ∧ state'.data = d ∧
      ∀ k, k ∈ state' ↔ k ∈ state ∨ k ∈ writtenAll (txs.map Transaction.code) state.data := by
  induction txs generalizing state with
  | nil =>
    refine ⟨state, rfl, Except.ok.inj h, fun k => ?_⟩
    simp [writtenAll]
  | cons tx txs ih =>
    rw [List.map_cons, runAll] at h
    cases hrun : tx.code.run state.data with
    | error why => rw [hrun] at h; cases h
    | ok r =>
      obtain ⟨result, d₁⟩ := r
      rw [hrun] at h
      obtain ⟨success, state₁, hdispatch, hdata₁, hmem₁⟩ := dispatch_of_run hrun
      have hrest : runAll (txs.map Transaction.code) state₁.data = .ok d := by rw [hdata₁]; exact h
      obtain ⟨state', happly, hdata, hmem⟩ := ih hrest
      refine ⟨state', (applyTransaction_cons hdispatch).trans happly, hdata, fun k => ?_⟩
      rw [hmem, hmem₁, hdata₁, List.map_cons, writtenAll, hrun, List.mem_append, or_assoc]

/-- It fails only where the body of a call panics. -/
theorem runAll_of_applyTransaction {txs : List Transaction} {state state' : StateMap}
    (h : applyTransaction txs state = .ok state') :
    runAll (txs.map Transaction.code) state.data = .ok state'.data := by
  induction txs generalizing state with
  | nil =>
    obtain rfl := Except.ok.inj h
    rfl
  | cons tx txs ih =>
    cases hrun : tx.code.run state.data with
    | error why =>
      have hdispatch : SequentialRuntime.dispatch state tx.function tx.signature.1 = .error why := by
        rw [SequentialRuntime.dispatch,
          show (tx.function.dispatch tx.signature.1).run = tx.code from rfl,
          SequentialRuntime.run_of_error hrun]
      rw [applyTransaction, hdispatch] at h
      cases h
    | ok r =>
      obtain ⟨result, d₁⟩ := r
      obtain ⟨success, state₁, hdispatch, hdata₁, -⟩ := dispatch_of_run hrun
      rw [applyTransaction_cons hdispatch] at h
      rw [List.map_cons, runAll, hrun]
      exact hdata₁ ▸ ih h

/-- Blocks that it validates one after the other it runs as one. -/
theorem validateBlocks_of_ok (self : SequentialExecutor) {blocks : List (List Transaction)}
    {d : Key → Value} (h : runAll (blocks.flatten.map Transaction.code) self.state.data = .ok d) :
    ∃ self', blocks.foldlM validateBlock self = .ok self' ∧ self'.state.data = d := by
  induction blocks generalizing self with
  | nil => exact ⟨self, rfl, Except.ok.inj h⟩
  | cons block blocks ih =>
    rw [List.flatten_cons, List.map_append] at h
    obtain ⟨d₁, hblock⟩ := runAll_of_append h
    obtain ⟨state, happly, hdata, -⟩ := applyTransaction_of_ok hblock
    rw [runAll_append hblock, ← hdata] at h
    obtain ⟨self', hrest, hdata'⟩ := ih ⟨state⟩ h
    refine ⟨self', ?_, hdata'⟩
    rw [List.foldlM_cons, validateBlock, happly]
    exact hrest

end SequentialExecutor
end SonicChain
