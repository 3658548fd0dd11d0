import SonicChain.Revalidation

/-! # Authoring and validation

`author_and_validate` authors a block, validates it on the state that it began with, and
compares the two states.  The data are always the same, but it compares more than the
data.  A read in authoring makes an entry for a key that is not there, a read in
validation does not: the states are equal when every such key has been stored as well.
-/

namespace SonicChain
open Worker StoreProgram

section
variable [Ed25519]

/-! ## Between the calls -/

section
variable {exec : Executor} {s s' : System} {w : ThreadId} {workers : List ThreadId}

/-- A worker that is ready has not been told with whom it works, or waits as it does when
a task is done. -/
theorem Worker.Ready.cases {pc : Pc} {toOthers : List ThreadId} {inbox : List MessagePayload}
    (h : Ready workers pc toOthers inbox) :
    pc = .waitFinalizeSetup ∧ inbox = [.finalizeSetup workers] ∨ Retired workers pc toOthers inbox := by
  cases h with
  | setup => exact .inl ⟨rfl, rfl⟩
  | park => exact .inr .park
  | recvTask => exact .inr .recvTask
  | draining hpc =>
    rcases hpc with rfl | rfl
    · exact .inr .pollMaster
    · exact .inr .pollOthers

/-- **A worker that is ready stays so**, until it is given something to do. -/
theorem Worker.Ready.step {wk : Worker} {state : StateMap} {m : Move}
    (h : Ready workers wk.pc wk.toOthers wk.fromMaster) (hothers : ∀ v, wk.fromOthers v = [])
    (hmaster : wk.toMaster = []) (hworkers : exec.workers = workers) (hstep : Step w wk state m) :
    m = quiet m.worker state ∧ Ready workers m.worker.pc m.worker.toOthers m.worker.fromMaster ∧
      (∀ v, m.worker.fromOthers v = []) ∧ m.worker.toMaster = [] := by
  rcases h.cases with ⟨hpc, hq⟩ | hretired
  · cases hstep with
    | setup hpc' hq' =>
      rw [hq] at hq'
      obtain ⟨hdata, hrest⟩ := List.cons.inj hq'
      cases hdata
      refine ⟨rfl, ?_, hothers, hmaster⟩
      dsimp only [quiet]
      rw [← hrest]
      exact .park
    | unexpected hreceives hq' hpayload =>
      rw [hq] at hq'
      obtain ⟨hdata, -⟩ := List.cons.inj hq'
      cases hdata
      rw [hpc] at hpayload
      exact absurd trivial hpayload
    | settle hres =>
      have hjob := hres.executes.job_eq
      rw [hpc] at hjob
      cases hjob
    | _ hpc' => cases hpc.symm.trans hpc'
  · have hidle : Idle exec wk [] :=
      ⟨by rw [hworkers, List.append_nil]; exact hretired, hothers, hmaster⟩
    obtain ⟨hm, hidle'⟩ := hidle.step hstep
    have hretired' := hidle'.retired
    rw [hworkers, List.append_nil] at hretired'
    exact ⟨hm, hretired'.ready, hidle'.fromOthers, hidle'.toMaster⟩

section
variable (htodo : s.master.todo = []) (hpc : System.Callable s.master.pc = true)
include htodo hpc

theorem System.masterStep_of_callable : s.masterStep exec = none := by
  unfold masterStep
  rw [htodo]
  dsimp only
  generalize s.master.pc = pc at hpc ⊢
  cases pc <;> first | rfl | cases hpc

theorem System.collect_of_callable : s.collect w = none := by
  unfold collect
  rw [htodo]
  generalize s.master.pc = pc at hpc ⊢
  cases pc <;> first | rfl | cases hpc

end

/-- **Between calls nothing happens**, other than that the workers come to rest. -/
theorem System.Ready.step (h : s.Ready exec) (hs : s.Threads exec s') :
    s'.Ready exec ∧ s'.state = s.state ∧ s'.master = s.master := by
  cases hs with
  | @worker w m hw hstep =>
    obtain ⟨hm, hready, hothers, hmaster⟩ :=
      (h.workers w hw).step (h.fromOthers w hw) (h.toMaster w hw) rfl hstep
    have hself : (s.applyMove w m).worker w = m.worker := by
      rw [hm]; simp [System.applyMove, System.deliver, quiet]
    have hother : ∀ v, v ≠ w → (s.applyMove w m).worker v = s.worker v := by
      intro v hv
      rw [hm]; simp [System.applyMove, System.deliver, quiet, hv]
    have hstate : (s.applyMove w m).state = s.state := by rw [hm]; rfl
    refine ⟨⟨fun v hv => ?_, fun v hv => ?_, fun v hv => ?_, h.todo, h.callable, ?_⟩, hstate, rfl⟩
    · by_cases hvw : v = w
      · subst hvw; rw [hself]; exact hready
      · rw [hother v hvw]; exact h.workers v hv
    · by_cases hvw : v = w
      · subst hvw; rw [hself]; exact hothers
      · rw [hother v hvw]; exact h.fromOthers v hv
    · by_cases hvw : v = w
      · subst hvw; rw [hself]; exact hmaster
      · rw [hother v hvw]; exact h.toMaster v hv
    · rw [hstate]; exact h.taints
  | master hstep => cases (masterStep_of_callable h.todo h.callable).symm.trans hstep
  | collect hw hstep => cases (collect_of_callable h.todo h.callable).symm.trans hstep

theorem System.Ready.of_run (h : s.Ready exec) {as : List Action} (has : ∀ a ∈ as, a.OfThread)
    (hexec : Transition.exec (System.step exec) as s = some s') :
    s'.Ready exec ∧ s'.state = s.state ∧ s'.master = s.master := by
  refine Transition.exec_invariant_of
    (I := fun s' => s'.Ready exec ∧ s'.state = s.state ∧ s'.master = s.master)
    (fun s₁ a s₂ ha hi hs => ?_) has hexec ⟨h, rfl, rfl⟩
  obtain ⟨hready, hstate, hmaster⟩ := hi.1.step (System.threads_of_step ha hs)
  exact ⟨hready, hstate.trans hi.2.1, hmaster.trans hi.2.2⟩

/-- The executor is clean: nothing is going on, and there is nothing in the state or the
pools. -/
structure System.Clean (exec : Executor) (s : System) : Prop where
  ready : s.Ready exec
  state : s.state = ∅
  txPool : s.master.txPool = []
  orphanPool : s.master.orphanPool = []

theorem System.Ready.clean (h : s.Ready exec) (hcalled : s.Called exec .clean s') :
    s'.Clean exec := by
  obtain ⟨as, has, hexec⟩ := hcalled
  have hbegin : (s.begin exec .clean).Ready exec :=
    ⟨h.workers, h.fromOthers, h.toMaster, h.todo, rfl, fun k o hk => by cases hk⟩
  obtain ⟨hready, hstate, hmaster⟩ := hbegin.of_run has hexec
  exact ⟨hready, hstate, by rw [hmaster]; rfl, by rw [hmaster]; rfl⟩

theorem System.Ready.begin_applyState (h : s.Ready exec) {state : StateMap}
    (htaints : ∀ k o, state.taint k = some o → o ∈ exec.workers) :
    (s.begin exec (.applyState state)).Ready exec := by
  refine ⟨h.workers, h.fromOthers, h.toMaster, h.todo, rfl, fun k o hk => ?_⟩
  have hunion : (s.begin exec (.applyState state)).state = state ∪ s.state := rfl
  by_cases hmem : k ∈ state
  · rw [StateType.taint, hunion, Finmap.lookup_union_left hmem] at hk
    exact htaints k o hk
  · rw [StateType.taint, hunion, Finmap.lookup_union_right hmem] at hk
    exact h.taints k o hk

/-- The initial state is applied, if there is one. -/
def System.Applies (exec : Executor) (s : System) (initialState : Option StateMap) (s' : System) :
    Prop :=
  match initialState with
  | some state => s.Called exec (.applyState state) s'
  | none => ∃ as : List Action, (∀ a ∈ as, a.OfThread) ∧
      Transition.exec (System.step exec) as s = some s'

/-- An executor that is clean gets the initial state as it is. -/
theorem System.Clean.applies {initialState : Option StateMap} (h : s.Clean exec)
    (happlies : s.Applies exec initialState s')
    (htaints : ∀ state ∈ initialState, ∀ k o, state.taint k = some o → o ∈ exec.workers) :
    s'.Ready exec ∧ s'.state = initialState.getD ∅ ∧ s'.master.txPool = [] ∧
      s'.master.orphanPool = [] := by
  cases initialState with
  | none =>
    obtain ⟨as, has, hexec⟩ := happlies
    obtain ⟨hready, hstate, hmaster⟩ := h.ready.of_run has hexec
    exact ⟨hready, hstate.trans h.state, by rw [hmaster]; exact h.txPool,
      by rw [hmaster]; exact h.orphanPool⟩
  | some state =>
    obtain ⟨as, has, hexec⟩ := happlies
    have hunion : (s.begin exec (.applyState state)).state = state := by
      change state ∪ s.state = state
      rw [h.state]
      exact Finmap.union_empty
    obtain ⟨hready, hstate, hmaster⟩ := (h.ready.begin_applyState (htaints state rfl)).of_run has hexec
    exact ⟨hready, hstate.trans hunion, by rw [hmaster]; exact h.txPool,
      by rw [hmaster]; exact h.orphanPool⟩

/-- When `validate_block` has returned, the next call can be made. -/
theorem ValidateCall.ready_again {s₀ : System} {block : List Transaction}
    (h : ValidateCall exec s₀ block s) (htagged : Tagged exec block)
    (hcallable : System.Callable s.master.pc = true) :
    s.Ready exec ∧ ∀ tx ∈ s.master.orphanPool, tx.tag = .orphan := by
  obtain ⟨as, has, hexec⟩ := h.run
  obtain ⟨-, htainted⟩ := System.recorded_of_run has hexec
  rcases h.phase_of htagged (K := fun _ => True) trivial fun _ _ _ _ _ => trivial with
    (⟨hvalidation, -⟩ | ⟨s₁, ⟨hreported, -⟩, hclosing⟩) | ⟨-, why, hpanic⟩
  · obtain ⟨n, -, hpc | hpc⟩ := hvalidation.master <;> rw [hpc] at hcallable <;> cases hcallable
  · refine ⟨hclosing.ready_of_callable hcallable fun k o hk =>
      (htainted k o hk).elim (h.ready.taints k o) id, ?_⟩
    rw [hclosing.orphanPool, hreported.orphanPool]
    exact h.tagged_orphans
  · rw [hpanic] at hcallable
    cases hcallable

end

/-! ## `author_and_validate` -/

/-- A run of `author_and_validate`, by the states in which the calls that it makes have
returned. -/
structure AuthorAndValidate (exec : Executor) (s₀ : System) (initialTransactions : List Transaction)
    (initialState : Option StateMap) where
  applied : System
  authored : System
  cleaned : System
  reapplied : System
  validated : System
  recleaned : System
  authoringState : StateMap
  block : List Transaction
  validationState : StateMap
  apply_run : s₀.Applies exec initialState applied
  author_run : applied.Called exec (.authorBlock initialTransactions) authored
  author_returns : authored.master.pc = .authored authoringState block
  clean_run : authored.Called exec .clean cleaned
  reapply_run : cleaned.Applies exec initialState reapplied
  validate_run : reapplied.Called exec (.validateBlock block) validated
  validate_returns : validated.master.pc = .validated validationState
  reclean_run : validated.Called exec .clean recleaned

/-- What it returns. -/
def AuthorAndValidate.result {exec : Executor} {s₀ : System} {initialTransactions : List Transaction}
    {initialState : Option StateMap}
    (r : AuthorAndValidate exec s₀ initialTransactions initialState) : Bool :=
  r.validationState.stateEq r.authoringState

/-- What a run comes to: both maps have the keys that authoring has stored under, and the
author's has those for which a read has made an entry as well. -/
structure AuthorAndValidate.Outcome {exec : Executor} {s₀ : System}
    {initialTransactions : List Transaction} {initialState : Option StateMap}
    (r : AuthorAndValidate exec s₀ initialTransactions initialState) : Prop where
  data : r.validationState.data = r.authoringState.data
  clean : r.recleaned.Clean exec
  absent : ∀ k ∈ createdKeys r.authored.log, k ∉ r.applied.state
  authoringKeys : ∀ k, k ∈ r.authoringState ↔ k ∈ r.applied.state ∨
    k ∈ createdKeys r.authored.log ∨ ∃ t, k ∈ storedBy t r.authored.log
  validationKeys : ∀ k, k ∈ r.validationState ↔ k ∈ r.applied.state ∨
    ∃ t, k ∈ storedBy t r.authored.log

section
variable {exec : Executor} {s₀ : System} {txs : List Transaction} {pool : Pool}
  {initialState : Option StateMap}

/-- Nothing is tainted at the start, so that worker ids in taints, and whether a worker is
still in its last task, do not matter. -/
theorem AuthorAndValidate.outcome (r : AuthorAndValidate exec s₀ txs initialState)
    (hclean : s₀.Clean exec) (huntainted : ∀ state ∈ initialState, ∀ k, state.taint k = none)
    (htxs : Submitted txs) (hdist : Distributes exec txs pool)
    (hsound : ¬ r.authored.DispatchPanicked exec) : r.Outcome := by
  have htaints : ∀ state ∈ initialState, ∀ k o, state.taint k = some o → o ∈ exec.workers := by
    intro state hstate k o hk
    rw [huntainted state hstate k] at hk
    cases hk
  obtain ⟨hready, hstate, htxPool, horphanPool⟩ := hclean.applies r.apply_run htaints
  have hfresh : ∀ w ∈ exec.workers, r.applied.Fresh w := by
    intro w hw _ k hk
    rw [ConcurrentRuntime.Owns, hstate] at hk
    cases initialState with
    | none => cases hk
    | some state => rw [Option.getD_some, huntainted state rfl k] at hk; cases hk
  have hrun : AuthorRun exec r.applied txs pool r.authored :=
    ⟨hready, htxPool, horphanPool, htxs, hdist, r.author_run, hsound⟩
  have hcallable : System.Callable r.authored.master.pc = true := by rw [r.author_returns]; rfl
  have hcleaned := (hrun.ready_again hcallable).1.clean r.clean_run
  obtain ⟨hready', hstate', -, horphanPool'⟩ := hcleaned.applies r.reapply_run htaints
  have hsame : r.reapplied.state = r.applied.state := hstate'.trans hstate.symm
  have hpool := hdist.assigned htxs
  obtain ⟨s₁, tail, hreturned⟩ := hrun.returned r.author_returns
  obtain ⟨hcall, htagged, hapart, hreplay⟩ := hreturned.validateCall hpool hfresh rfl hready'
    horphanPool' (by rw [hsame]) r.validate_run
  have hrevalidated := hcall.returned htagged hapart r.validate_returns
  obtain ⟨as, has, hexec⟩ := r.author_run
  obtain ⟨⟨events, hevents, hrecorded⟩, -⟩ := System.recorded_of_run has hexec
  rw [System.begin_eq htxs htxPool] at hevents hrecorded
  have hlog : r.authored.log = events := hevents
  rw [← hlog, ← hreturned.state_eq] at hrecorded
  refine ⟨Except.ok.inj (hrevalidated.run.symm.trans hreplay),
    hrevalidated.ready.clean r.reclean_run, hrecorded.absent, hrecorded.keys, fun k => ?_⟩
  rw [hrevalidated.keys k, horphanPool', hreturned.replayed hpool, hsame,
    hreturned.stored_iff_written hpool hfresh]

/-- **When `author_and_validate` returns true**: exactly when each key for which a read in
authoring has made an entry was stored as well. -/
theorem author_and_validate_iff (r : AuthorAndValidate exec s₀ txs initialState)
    (hclean : s₀.Clean exec) (huntainted : ∀ state ∈ initialState, ∀ k, state.taint k = none)
    (htxs : Submitted txs) (hdist : Distributes exec txs pool)
    (hsound : ¬ r.authored.DispatchPanicked exec) :
    r.result = true ↔ ∀ k ∈ createdKeys r.authored.log, ∃ t, k ∈ storedBy t r.authored.log := by
  have houtcome := r.outcome hclean huntainted htxs hdist hsound
  rw [AuthorAndValidate.result, StateType.stateEq_iff_data]
  constructor
  · rintro ⟨hsameKeys, -⟩ k hk
    have hmem := (hsameKeys k).mpr ((houtcome.authoringKeys k).mpr (.inr (.inl hk)))
    exact ((houtcome.validationKeys k).mp hmem).resolve_left (houtcome.absent k hk)
  · intro hall
    refine ⟨fun k => ?_, houtcome.data⟩
    rw [houtcome.validationKeys k, houtcome.authoringKeys k]
    constructor
    · exact fun hk => hk.imp_right .inr
    · rintro (hk | hk | hk)
      · exact .inl hk
      · exact .inr (hall k hk)
      · exact .inr hk

/-- **Authoring and validation have the same data**, whatever `author_and_validate`
returns; validation has no entry that authoring has not, and the executor is clean again. -/
theorem author_and_validate_replays (r : AuthorAndValidate exec s₀ txs initialState)
    (hclean : s₀.Clean exec) (huntainted : ∀ state ∈ initialState, ∀ k, state.taint k = none)
    (htxs : Submitted txs) (hdist : Distributes exec txs pool)
    (hsound : ¬ r.authored.DispatchPanicked exec) :
    r.validationState.data = r.authoringState.data ∧
    (∀ k ∈ r.validationState, k ∈ r.authoringState) ∧ r.recleaned.Clean exec := by
  have houtcome := r.outcome hclean huntainted htxs hdist hsound
  refine ⟨houtcome.data, fun k hk => ?_, houtcome.clean⟩
  rw [houtcome.authoringKeys k]
  exact ((houtcome.validationKeys k).mp hk).imp_right .inr

end

end

section
open Testing

namespace Testing

/-- A clean executor. -/
def emptied : System := { spawned with state := ∅ }

/-- Alice has nothing to pay with, and dave pays himself nothing. -/
def overdrawn : List Transaction :=
  [signed 7 (.balances (.transfer bob 4)) alice, signed 9 (.balances (.transfer dave 0)) dave]

def overdrawnPool : Pool :=
  overdrawn.mapIdx fun i tx => { tx with tag := .done (twoWorkers.workers.getD (i % 2) 0) }

def overdrawnAuthored : System :=
  (Transition.exec (System.step twoWorkers)
    (List.replicate 11 Action.master ++
      (List.replicate 9 [Action.worker 1, Action.worker 2]).flatten ++
      [Action.worker 2, .commit 2 (balanceOf.keyFor dave)] ++ List.replicate 3 (Action.worker 2) ++
      [Action.collect 1, .master, .collect 2] ++ List.replicate 4 Action.master)
    (emptied.begin twoWorkers (.authorBlock overdrawn))).get (by decide +kernel)

def overdrawnReturned : StateMap × List Transaction :=
  (returned overdrawnAuthored).get (by decide +kernel)

def overdrawnValidated : System :=
  (Transition.exec (System.step twoWorkers)
    (List.replicate 8 Action.master ++
      (List.replicate 8 [Action.worker 1, Action.worker 2]).flatten ++
      List.replicate 3 (Action.worker 2) ++
      [Action.collect 1, .master, .collect 2, .master, .master])
    ((overdrawnAuthored.begin twoWorkers .clean).begin twoWorkers
      (.validateBlock overdrawnReturned.2))).get (by decide +kernel)

def overdrawnRun : AuthorAndValidate twoWorkers emptied overdrawn none where
  applied := emptied
  authored := overdrawnAuthored
  cleaned := overdrawnAuthored.begin twoWorkers .clean
  reapplied := overdrawnAuthored.begin twoWorkers .clean
  validated := overdrawnValidated
  recleaned := overdrawnValidated.begin twoWorkers .clean
  authoringState := overdrawnReturned.1
  block := overdrawnReturned.2
  validationState := (validatedState overdrawnValidated).get (by decide +kernel)
  apply_run := ⟨[], fun _ h => absurd h List.not_mem_nil, rfl⟩
  author_run := ⟨_, by decide, (Option.some_get _).symm⟩
  author_returns := pc_of_returned (Option.some_get _).symm
  clean_run := System.called_begin ..
  reapply_run := ⟨[], fun _ h => absurd h List.not_mem_nil, rfl⟩
  validate_run := ⟨_, by decide, (Option.some_get _).symm⟩
  validate_returns := pc_of_validatedState (Option.some_get _).symm
  reclean_run := System.called_begin ..

theorem emptied_clean : emptied.Clean twoWorkers where
  ready := ⟨spawned_ready.workers, spawned_ready.fromOthers, spawned_ready.toMaster, rfl, rfl,
    fun k o h => by cases h⟩
  state := rfl
  txPool := rfl
  orphanPool := rfl

theorem overdrawn_submitted : Submitted overdrawn := ⟨by decide +kernel, by decide, by decide⟩

theorem overdrawn_distributes : Distributes twoWorkers overdrawn overdrawnPool :=
  ⟨rfl, .cons ⟨1, by decide, rfl⟩ (.cons ⟨2, by decide, rfl⟩ .nil)⟩

theorem overdrawn_sound : ¬ overdrawnAuthored.DispatchPanicked twoWorkers :=
  not_panicked_of_sound (by decide +kernel)

/-- With something in her account alice can pay, and bob's entry is made. -/
def endowed : System := emptied.begin twoWorkers (.applyState spawned.state)

def endowedAuthored : System :=
  (Transition.exec (System.step twoWorkers)
    (List.replicate 11 Action.master ++
      (List.replicate 10 [Action.worker 1, Action.worker 2]).flatten ++
      [Action.commit 2 (balanceOf.keyFor dave), .worker 1, .commit 1 (balanceOf.keyFor alice),
        .commit 1 (balanceOf.keyFor bob)] ++
      (List.replicate 3 [Action.worker 1, Action.worker 2]).flatten ++
      [Action.collect 1, .master, .collect 2] ++ List.replicate 4 Action.master)
    (endowed.begin twoWorkers (.authorBlock overdrawn))).get (by decide +kernel)

def endowedReturned : StateMap × List Transaction :=
  (returned endowedAuthored).get (by decide +kernel)

def endowedCleaned : System := endowedAuthored.begin twoWorkers .clean

def endowedValidated : System :=
  (Transition.exec (System.step twoWorkers)
    (List.replicate 8 Action.master ++
      (List.replicate 11 [Action.worker 1, Action.worker 2]).flatten ++
      [Action.collect 1, .master, .collect 2, .master, .master])
    ((endowedCleaned.begin twoWorkers (.applyState spawned.state)).begin twoWorkers
      (.validateBlock endowedReturned.2))).get (by decide +kernel)

def endowedRun : AuthorAndValidate twoWorkers emptied overdrawn (some spawned.state) where
  applied := endowed
  authored := endowedAuthored
  cleaned := endowedCleaned
  reapplied := endowedCleaned.begin twoWorkers (.applyState spawned.state)
  validated := endowedValidated
  recleaned := endowedValidated.begin twoWorkers .clean
  authoringState := endowedReturned.1
  block := endowedReturned.2
  validationState := (validatedState endowedValidated).get (by decide +kernel)
  apply_run := System.called_begin ..
  author_run := ⟨_, by decide, (Option.some_get _).symm⟩
  author_returns := pc_of_returned (Option.some_get _).symm
  clean_run := System.called_begin ..
  reapply_run := System.called_begin ..
  validate_run := ⟨_, by decide, (Option.some_get _).symm⟩
  validate_returns := pc_of_validatedState (Option.some_get _).symm
  reclean_run := System.called_begin ..

end Testing

/-- Reads make entries for bob and dave, and both are stored. -/
theorem author_and_validate_endowed : (createdKeys endowedRun.authored.log).length = 2 ∧
    endowedRun.result = true := by
  refine ⟨by decide +kernel, (author_and_validate_iff endowedRun emptied_clean ?_ overdrawn_submitted
    overdrawn_distributes (not_panicked_of_sound (by decide +kernel))).mpr ?_⟩
  · intro state hstate k
    obtain rfl := Option.mem_some_iff.mp hstate
    exact spawned_untainted k
  · have hstored : ∀ k ∈ createdKeys endowedRun.authored.log,
        k ∈ storedBy (some 1) endowedRun.authored.log ∨
          k ∈ storedBy (some 2) endowedRun.authored.log := by
      decide +kernel
    exact fun k hk => (hstored k hk).elim (fun h => ⟨_, h⟩) fun h => ⟨_, h⟩

/-- Alice has no entry when she tries to pay, and none is stored: authoring makes one for
her, and validation does not. -/
theorem author_and_validate_disagrees : emptied.Clean twoWorkers ∧ Submitted overdrawn ∧
    Distributes twoWorkers overdrawn overdrawnPool ∧
    ¬ overdrawnRun.authored.DispatchPanicked twoWorkers ∧
    ¬ overdrawnRun.validated.DispatchPanicked twoWorkers ∧ overdrawnRun.result = false :=
  ⟨emptied_clean, overdrawn_submitted, overdrawn_distributes, overdrawn_sound,
    not_panicked_of_sound (by decide +kernel), by decide +kernel⟩

theorem author_and_validate_replays_overdrawn : overdrawnRun.result = false ∧
    overdrawnRun.validationState.data = overdrawnRun.authoringState.data ∧
    (∀ k ∈ overdrawnRun.validationState, k ∈ overdrawnRun.authoringState) ∧
    overdrawnRun.recleaned.Clean twoWorkers :=
  ⟨by decide +kernel, author_and_validate_replays overdrawnRun emptied_clean
    (fun state h => absurd h (by simp)) overdrawn_submitted overdrawn_distributes overdrawn_sound⟩

end
end SonicChain
