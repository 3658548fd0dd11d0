import SonicChain.Settlement
import SonicChain.SequentialExecutor

/-! # The orphan phase

Once everything is settled, the master executes the orphans one after the other,
straight on the state, while the workers go back to park.  `Replays` says how far
the master has come: the orphans executed so far did what their codes do alone.
Its panic is out of reach, because a code that is refused nothing reports no
refusal.
-/

namespace SonicChain
open Worker StoreProgram

variable [Ed25519]

/-! ## The master -/

/-- How far the master has come in `execute_orphan_pool`, which began on `data₁`:
it has executed the given orphans and stored under the given keys. -/
def Replays (data₁ : Key → Value) (return_to : Master.Return) (orphans executed : List Transaction)
    (stored : List Key) (state : StateMap) : Master.Pc → Prop
  | .executeOrphanPool r rest =>
    r = return_to ∧ executed ++ rest = orphans ∧
      runAll (executed.map Transaction.code) data₁ = .ok state.data ∧
      ∀ k, k ∈ stored ↔ k ∈ writtenAll (executed.map Transaction.code) data₁
  | .executingOrphan r tx code rest =>
    r = return_to ∧ executed ++ tx :: rest = orphans ∧
      ∃ data, runAll (executed.map Transaction.code) data₁ = .ok data ∧
        tx.code.run data = code.run state.data ∧
        ∀ k, k ∈ stored ∨ k ∈ code.written state.data ↔
          k ∈ writtenAll (executed.map Transaction.code) data₁ ∨ k ∈ tx.code.written data
  | _ => False

/-- The event is the master's, in the orphan phase. -/
def Event.OfOrphans : Event → Prop
  | .orphanExecuted _ => True
  | .stored none _ => True
  | _ => False

/-- What the master changes in a step of the orphan phase. -/
structure OrphanStep (data₁ : Key → Value) (return_to : Master.Return)
    (orphans executed : List Transaction) (stored : List Key) (s s' : System) : Prop where
  worker : s'.worker = s.worker
  todo : s'.master.todo = s.master.todo
  txPool : s'.master.txPool = s.master.txPool
  orphanPool : s'.master.orphanPool = s.master.orphanPool
  progress : ∃ events, s'.log = s.log ++ events ∧ (∀ e ∈ events, e.OfOrphans) ∧
    Replays data₁ return_to orphans (executed ++ orphansExecuted events)
      (stored ++ storedBy none events) s'.state s'.master.pc

/-- **A step of the orphan phase** goes on with the orphans, or finds that there are
no more; the body of a call may panic. -/
theorem Replays.step {exec : Executor} {data₁ : Key → Value} {return_to : Master.Return}
    {orphans executed : List Transaction} {stored : List Key} {s s' : System}
    (h : Replays data₁ return_to orphans executed stored s.state s.master.pc)
    (htags : ∀ tx ∈ orphans, tx.tag = .orphan) (htodo : s.master.todo = [])
    (hs : s.masterStep exec = some s') :
    OrphanStep data₁ return_to orphans executed stored s s' ∨
      (s'.master.todo = [] ∧ ∃ why, s'.master.pc = .dispatchPanicked why) ∨
      s.master.pc = .executeOrphanPool return_to [] ∧ s' = s.finish return_to := by
  unfold System.masterStep at hs
  rw [htodo] at hs
  cases hpc : s.master.pc with
  | executeOrphanPool r rest =>
    rw [hpc] at h hs
    obtain ⟨rfl, horphans, hrun, hstored⟩ := h
    cases rest with
    | nil => exact .inr (.inr ⟨rfl, (Option.some.inj hs).symm⟩)
    | cons tx rest =>
      have htag : tx.tag = .orphan := htags tx (by rw [← horphans]; simp)
      simp only [htag, ↓reduceIte, Option.some.injEq] at hs
      subst hs
      refine .inl ⟨rfl, rfl, rfl, rfl, [], (List.append_nil _).symm,
        fun _ h => absurd h List.not_mem_nil, rfl, ?_, s.state.data, ?_,
        rfl, fun k => ?_⟩
      · simpa [orphansExecuted] using horphans
      · simpa [orphansExecuted] using hrun
      · simpa [orphansExecuted, storedBy, System.setMaster] using or_congr_left (hstored k)
  | executingOrphan r tx code rest =>
    rw [hpc] at h hs
    obtain ⟨rfl, horphans, data, hrun, hcode, hstored⟩ := h
    cases code with
    | done result =>
      obtain ⟨success, hresult⟩ := toRuntimeDispatchResult_of_run hcode
      simp only [hresult, Option.some.injEq] at hs
      subst hs
      refine .inl ⟨rfl, rfl, rfl, rfl, [.orphanExecuted tx], rfl, ?_, rfl, ?_, ?_, fun k => ?_⟩
      · simp [Event.OfOrphans]
      · simpa [orphansExecuted, Event.orphanExecuted?] using horphans
      · have hone : orphansExecuted [.orphanExecuted tx] = [tx] := rfl
        rw [hone, List.map_append]
        exact runAll_concat hrun hcode
      · have hone : orphansExecuted [.orphanExecuted tx] = [tx] := rfl
        have hnone : storedBy none [.orphanExecuted tx] = [] := rfl
        rw [hone, hnone, List.map_append, List.append_nil]
        rw [show List.map Transaction.code [tx] = [tx.code] from rfl, writtenAll_concat hrun,
          List.mem_append]
        simpa [written] using hstored k
    | fault why =>
      simp only [Option.some.injEq] at hs
      subst hs
      exact .inr (.inl ⟨htodo, why, rfl⟩)
    | read key next =>
      simp only [Option.some.injEq] at hs
      subst hs
      refine .inl ⟨rfl, rfl, rfl, rfl, [], (List.append_nil _).symm,
        fun _ h => absurd h List.not_mem_nil, rfl, ?_, data, ?_, ?_,
        fun k => ?_⟩
      · simpa [orphansExecuted] using horphans
      · simpa [orphansExecuted] using hrun
      · rw [SequentialRuntime.read_eq]; exact hcode
      · rw [SequentialRuntime.read_eq]
        simpa [orphansExecuted, storedBy, written, System.setMaster] using hstored k
    | write key value next =>
      simp only [Option.some.injEq] at hs
      subst hs
      have hnone : orphansExecuted [.stored none key] = [] := rfl
      have hone : storedBy none [.stored none key] = [key] := by simp [storedBy, Event.storedBy]
      refine .inl ⟨rfl, rfl, rfl, rfl, [.stored none key], rfl, by simp [Event.OfOrphans], ?_⟩
      rw [hnone, hone, List.append_nil]
      refine ⟨rfl, horphans, data, hrun, ?_, fun k => ?_⟩
      · rw [SequentialRuntime.data_write]; exact hcode
      · rw [SequentialRuntime.data_write, ← hstored k, written, List.mem_append,
          List.mem_singleton, List.mem_cons]
        tauto
  | _ => rw [hpc] at h; exact h.elim

/-! ## The workers -/

/-- How a worker goes back to park when the task is done. -/
inductive Retired (workers : List ThreadId) : Pc → List ThreadId → List MessagePayload → Prop
  | pollMaster : Retired workers .pollMaster workers [.taskDone]
  | pollOthers : Retired workers .pollOthers workers [.taskDone]
  | park : Retired workers .park workers []
  | recvTask : Retired workers .recvTask workers []

theorem Retired.cases {workers toOthers : List ThreadId} {pc : Pc} {inbox : List MessagePayload}
    (h : Retired workers pc toOthers inbox) :
    toOthers = workers ∧ (inbox = [.taskDone] ∧ (pc = .pollMaster ∨ pc = .pollOthers) ∨
      inbox = [] ∧ (pc = .park ∨ pc = .recvTask)) := by
  cases h <;> simp

/-- A worker that has nothing more to do. -/
structure Idle (exec : Executor) (wk : Worker) (pending : List MessagePayload) : Prop where
  retired : Retired exec.workers wk.pc wk.toOthers (wk.fromMaster ++ pending)
  fromOthers : ∀ v, wk.fromOthers v = []
  toMaster : wk.toMaster = []

/-- **A worker that has nothing more to do touches nothing.** -/
theorem Idle.step {exec : Executor} {wk : Worker} {pending : List MessagePayload} {w : ThreadId}
    {state : StateMap} {m : Move} (h : Idle exec wk pending) (hstep : Step w wk state m) :
    m = quiet m.worker state ∧ Idle exec m.worker pending := by
  obtain ⟨hothers, hcases⟩ := h.retired.cases
  have stay : ∀ {wk' : Worker}, wk'.fromOthers = wk.fromOthers → wk'.toMaster = wk.toMaster →
      Retired exec.workers wk'.pc wk'.toOthers (wk'.fromMaster ++ pending) →
      Idle exec wk' pending := fun hf ht hr =>
    ⟨hr, fun v => by rw [hf]; exact h.fromOthers v, ht.trans h.toMaster⟩
  cases hstep with
  | taskDone hpc hq =>
    obtain ⟨hinbox, -⟩ := hcases.resolve_right (by simp [hpc])
    rw [hq] at hinbox
    refine ⟨rfl, stay rfl rfl ?_⟩
    dsimp only [quiet]
    rw [hothers, (queue_eq_cons hinbox).2]
    exact .park
  | pollMaster hpc =>
    obtain ⟨hinbox, -⟩ := hcases.resolve_right (by simp [hpc])
    refine ⟨rfl, stay rfl rfl ?_⟩
    dsimp only [quiet]
    rw [hothers, hinbox]
    exact .pollOthers
  | pollOthers hpc =>
    obtain ⟨hinbox, -⟩ := hcases.resolve_right (by simp [hpc])
    refine ⟨rfl, stay rfl rfl ?_⟩
    dsimp only [quiet]
    rw [hothers, hinbox]
    exact .pollMaster
  | park hpc =>
    obtain ⟨hinbox, -⟩ := hcases.resolve_left (by simp [hpc])
    refine ⟨rfl, stay rfl rfl ?_⟩
    dsimp only [quiet]
    rw [hothers, hinbox]
    exact .recvTask
  | takeForwarded hpc hq => rw [h.fromOthers] at hq; cases hq
  | unexpectedFromOthers hpc hq => rw [h.fromOthers] at hq; cases hq
  | takeAuthoring hpc hq | takeValidating hpc hq | takeTerminate hpc hq =>
    obtain ⟨hinbox, -⟩ := hcases.resolve_left (by simp [hpc])
    rw [hq] at hinbox
    cases hinbox
  | unexpected hreceives hq hpayload =>
    exfalso
    rcases hcases with ⟨hinbox, hpc | hpc⟩ | ⟨hinbox, hpc | hpc⟩
    · rw [hq] at hinbox
      rw [(queue_eq_cons hinbox).1, hpc] at hpayload
      exact hpayload trivial
    · rw [hpc] at hreceives; exact hreceives
    · rw [hpc] at hreceives; exact hreceives
    · rw [hq] at hinbox; cases hinbox
  | settle hres =>
    have hjob := hres.executes.job_eq
    rcases hcases with ⟨-, hpc | hpc⟩ | ⟨-, hpc | hpc⟩ <;> rw [hpc] at hjob <;> cases hjob
  | _ hpc => simp [hpc] at hcases

/-! ## The system -/

/-- `execute_orphan_pool` has returned to its caller, which has returned too. -/
structure Completed (data₁ : Key → Value) (return_to : Master.Return)
    (orphans executed : List Transaction) (stored : List Key) (s : System) : Prop where
  todo : s.master.todo = []
  pc : s.master.pc = (s.finish return_to).master.pc
  executed : executed = orphans
  run : runAll (orphans.map Transaction.code) data₁ = .ok s.state.data
  stored : ∀ k, k ∈ stored ↔ k ∈ writtenAll (orphans.map Transaction.code) data₁

/-- **The invariant of the orphan phase**, which began in `s₁`.  The workers go back to
park and touch nothing, so that the master is alone with the state: either it is at
some orphan and has replayed those before it, or it has come to the end of the pool
and returned. -/
structure Closing (exec : Executor) (return_to : Master.Return) (s₁ s : System) : Prop where
  workers : ∀ w ∈ exec.workers,
    Idle exec (s.worker w) (s.master.todo.filterMap (Master.Effect.messageTo w))
  todo : ∀ effect ∈ s.master.todo, ∃ w payload, effect = .send w payload
  txPool : s.master.txPool = s₁.master.txPool
  orphanPool : s.master.orphanPool = s₁.master.orphanPool
  progress : ∃ tail, s.log = s₁.log ++ tail ∧ (∀ e ∈ tail, e.OfOrphans) ∧
    (Replays s₁.state.data return_to s₁.master.orphanPool (orphansExecuted tail)
        (storedBy none tail) s.state s.master.pc ∨
      Completed s₁.state.data return_to s₁.master.orphanPool (orphansExecuted tail)
        (storedBy none tail) s)

namespace Closing
variable {exec : Executor} {return_to : Master.Return} {s₁ s s' : System} {w : ThreadId}

/-- A worker goes on its way back to park. -/
theorem worker_step (h : Closing exec return_to s₁ s) (hw : w ∈ exec.workers) {m : Move}
    (hstep : Step w (s.worker w) s.state m) : Closing exec return_to s₁ (s.applyMove w m) := by
  obtain ⟨hm, hidle⟩ := (h.workers w hw).step hstep
  rw [hm]
  refine ⟨fun v hv => ?_, h.todo, h.txPool, h.orphanPool, ?_⟩
  · by_cases hvw : v = w
    · subst hvw
      simpa [System.applyMove, System.deliver, quiet] using hidle
    · simpa [System.applyMove, System.deliver, quiet, hvw] using h.workers v hv
  · obtain ⟨tail, hlog, htail, hprogress⟩ := h.progress
    refine ⟨tail, by simpa [System.applyMove, quiet] using hlog, htail, ?_⟩
    exact hprogress.imp id fun hc => ⟨hc.todo, by cases return_to <;> exact hc.pc, hc.executed,
      hc.run, hc.stored⟩

/-- The master tells a worker that the task is done. -/
theorem perform (h : Closing exec return_to s₁ s) {effect : Master.Effect}
    {todo : List Master.Effect} (htodo : s.master.todo = effect :: todo) :
    Closing exec return_to s₁ (s.perform effect todo) := by
  obtain ⟨v, payload, rfl⟩ := h.todo effect (by rw [htodo]; exact List.mem_cons_self ..)
  refine ⟨fun w hw => ?_, fun e he => h.todo e (by rw [htodo]; exact List.mem_cons_of_mem _ he),
    h.txPool, h.orphanPool, ?_⟩
  · have hidle := h.workers w hw
    rw [htodo] at hidle
    by_cases hwv : w = v
    · subst hwv
      simp only [List.filterMap_cons, Master.Effect.messageTo, ↓reduceIte] at hidle
      refine ⟨?_, ?_, ?_⟩
      · simpa [System.perform, System.setWorker] using hidle.retired
      · simpa [System.perform, System.setWorker] using hidle.fromOthers
      · simpa [System.perform, System.setWorker] using hidle.toMaster
    · simpa [System.perform, System.setWorker, hwv, Master.Effect.messageTo, Ne.symm hwv]
        using hidle
  · obtain ⟨tail, hlog, htail, hprogress⟩ := h.progress
    refine ⟨tail, hlog, htail, .inl (hprogress.resolve_right fun hc => ?_)⟩
    exact absurd (htodo.symm.trans hc.todo) (List.cons_ne_nil _ _)

/-- **Every step keeps the invariant of the orphan phase**, unless the body of a call
panics. -/
theorem step (h : Closing exec return_to s₁ s)
    (htags : ∀ tx ∈ s₁.master.orphanPool, tx.tag = .orphan) (hs : s.Threads exec s') :
    Closing exec return_to s₁ s' ∨ s'.MasterPanicked := by
  obtain ⟨tail, hlog, htail, hprogress⟩ := h.progress
  cases hs with
  | worker hw hstep => exact .inl (h.worker_step hw hstep)
  | collect hw hstep =>
    exfalso
    unfold System.collect at hstep
    rcases hprogress with hreplays | hdone
    · split at hstep
      · rename_i hpc _; rw [hpc] at hreplays; exact hreplays
      · rename_i hpc _; rw [hpc] at hreplays; exact hreplays
      · cases hstep
    · rw [hdone.todo, hdone.pc] at hstep
      cases return_to <;> cases hstep
  | master hstep =>
    cases htodo : s.master.todo with
    | cons effect todo =>
      rw [System.masterStep, htodo] at hstep
      exact .inl (Option.some.inj hstep ▸ h.perform htodo)
    | nil =>
      rcases hprogress with hreplays | hdone
      · rcases hreplays.step htags htodo hstep with hnext | hpanic | ⟨hpc, rfl⟩
        · obtain ⟨events, hevents, hof, hnext'⟩ := hnext.progress
          refine .inl ⟨fun w hw => ?_, ?_, hnext.txPool.trans h.txPool,
            hnext.orphanPool.trans h.orphanPool, tail ++ events, ?_, ?_, .inl ?_⟩
          · rw [hnext.worker, hnext.todo]; exact h.workers w hw
          · rw [hnext.todo]; exact h.todo
          · rw [hevents, hlog, List.append_assoc]
          · intro e he
            exact (List.mem_append.mp he).elim (htail e) (hof e)
          · rw [orphansExecuted_append, storedBy_append]; exact hnext'
        · exact .inr hpanic
        · rw [hpc] at hreplays
          obtain ⟨-, horphans, hrun, hstored⟩ := hreplays
          rw [List.append_nil] at horphans
          rw [horphans] at hrun hstored
          left
          cases return_to <;> exact ⟨h.workers, h.todo, h.txPool, h.orphanPool, tail, hlog, htail,
            .inr ⟨htodo, rfl, horphans, hrun, hstored⟩⟩
      · rw [System.masterStep, htodo, hdone.pc] at hstep
        cases return_to <;> cases hstep

end Closing
end SonicChain
