import SonicChain.Worker
import SonicChain.Transition

/-! # The concurrent executor

The master, the workers, the shared state and the channels between them, as a
transition system.  An `Action` says who moves next; where a thread has a choice,
or the environment makes one (which channel has a message, what a hash map
iterates over next), the action names it.

The master's program is a control point (`Master.Pc`) with the list of the sends
and wake-ups it is about to make, one a step (`Master.todo`).
-/

namespace SonicChain
open Worker (Move)

variable [Ed25519]

/-- `Distributer::distribute`: from the worker ids and the pool to the tagged
pool. -/
abbrev Distributer := List ThreadId → Pool → Except Panic Pool

/-- What does not change in an executor: the ids of its workers, as the keys of a
`BTreeMap` come, and how transactions are distributed. -/
structure Executor where
  workers : List ThreadId
  sorted : workers.Pairwise (· < ·)
  distribute : Distributer

/-! ## The master -/

namespace Master

/-- The counters of the collection loop. -/
structure Counters where
  executedWorkers : Nat
  executedLocal : Nat
  forwarded : Nat
  reported : Nat
  total : Nat
  deriving DecidableEq, Repr

/-- Who called `execute_orphan_pool`. -/
inductive Return where
  | author
  | validate
  deriving DecidableEq, Repr

/-- One effect of the master on the threads or its pools. -/
inductive Effect where
  | unpark (worker : ThreadId)
  | send (worker : ThreadId) (payload : MessagePayload)
  | pushOrphan (tx : Transaction)
  | panic (why : Panic)

/-- Where the master stands in its program. -/
inductive Pc where
  | idle
  /-- About to distribute the pool. -/
  | concurrentPhase
  /-- At `try_recv` in the loop of `collection_phase`. -/
  | collect (counters : Counters)
  /-- At the exit condition of that loop. -/
  | check (counters : Counters)
  /-- At `try_recv` in the loop of `validate_block`. -/
  | collectReports (workersDone : Nat)
  /-- At the exit condition of that loop. -/
  | checkReports (workersDone : Nat)
  /-- In the loop of `execute_orphan_pool`, with the orphans still to come. -/
  | executeOrphanPool (return_to : Return) (rest : List Transaction)
  /-- Inside the dispatch of an orphan. -/
  | executingOrphan (return_to : Return) (tx : Transaction)
      (code : Storage (Except DispatchError Unit)) (rest : List Transaction)
  /-- `author_block` has returned. -/
  | authored (state : StateMap) (block : List Transaction)
  /-- `validate_block` has returned. -/
  | validated (state : StateMap)
  | panicked (why : Panic)
  /-- The body of a call panicked. -/
  | dispatchPanicked (why : Panic)

end Master

structure Master where
  pc : Master.Pc
  todo : List Master.Effect
  txPool : Pool
  orphanPool : List Transaction

namespace Master

/-- `unpark_all`. -/
def unparkAll (workers : List ThreadId) : List Effect := workers.map .unpark

def broadcast (workers : List ThreadId) (payload : MessagePayload) : List Effect :=
  workers.map fun w => .send w payload

/-- Send to a worker that must exist. -/
def sendTo (workers : List ThreadId) (text : String) (w : ThreadId) (tx : Transaction) : Effect :=
  if w ∈ workers then .send w (.transaction tx) else .panic (.expect text)

/-- The transactions with their designated workers. -/
def threadsAndTxs : Pool → Except Panic (List (ThreadId × Transaction))
  | [] => .ok []
  | tx :: pool =>
    match tx.tag with
    | .done w =>
      match threadsAndTxs pool with
      | .ok rest => .ok ((w, tx) :: rest)
      | .error why => .error why
    | _ => .error (.message
        "A transaction has not been assigned. This is a bug in the distribution code")

/-- The sends of `concurrent_phase`. -/
def distributeEffects (workers : List ThreadId) (pool : Pool) : List Effect :=
  match threadsAndTxs pool with
  | .ok assigned =>
    assigned.map (fun a => sendTo workers "Worker thread must exist; qed." a.1 a.2) ++
      broadcast workers .transactionDistributionDone
  | .error why => [.panic why]

/-- What `validate_block` does with one transaction of the block. -/
def validateEffect (workers : List ThreadId) (tx : Transaction) : Effect :=
  match tx.tag with
  | .done owner => sendTo workers "Worker should exist" owner tx
  | .orphan => .pushOrphan tx
  | .notExecuted =>
    .panic (.message "Transaction for validation need to be executed or orphan")

/-- One message in the collection loop: the counters and the pools after it. -/
def collectMessage (c : Counters) (txPool : Pool) (orphanPool : List Transaction)
    (worker : ThreadId) : MessagePayload → Except Panic (Counters × Pool × List Transaction)
  | .authoringReport e f =>
    .ok ({ c with
      executedWorkers := c.executedWorkers + e
      forwarded := c.forwarded + f
      reported := c.reported + 1 }, txPool, orphanPool)
  | .workerOrphan tid =>
    match Pool.remove (fun t => t.id == tid) txPool with
    | some (orphan, rest) => .ok (c, rest, orphanPool ++ [{ orphan with tag := .orphan }])
    | none => .error (.expect "Transaction must exist in the pool")
  | .workerExecuted tid =>
    match Pool.remove (fun t => t.id == tid) txPool with
    | some (t, rest) =>
      match t.tag with
      | .done initialWorker =>
        if worker = initialWorker then .error (.message "assert_ne!(worker, initial_worker)")
        else
          -- Add it to the end. This ensures partial order, which is important.
          match Pool.pushBack rest { t with tag := .done worker } with
          | .ok pool => .ok ({ c with executedLocal := c.executedLocal + 1 }, pool, orphanPool)
          | .error why => .error why
      | _ => .error (.message "Unexpected initial worker.")
    | none => .error (.expect "Transaction must exist in the pool")
  | _ => .error (.message "Unexpected message type at master.")

/-- The condition for leaving the collection loop. -/
def exitCondition (workersLen : Nat) (c : Counters) (orphanPool : List Transaction) : Bool :=
  c.reported == workersLen && c.forwarded == c.executedLocal + orphanPool.length

end Master

/-! ## The system -/

structure System where
  state : StateMap
  worker : ThreadId → Worker
  master : Master
  /-- What has happened since the last call. -/
  log : List Event

/-- The calls that may be made on the executor. -/
inductive Call where
  | authorBlock (initialTransactions : List Transaction)
  | validateBlock (block : List Transaction)
  | clean
  | applyState (state : StateMap)
  | runTerminate

inductive Action where
  /-- The next step of a worker. -/
  | worker (w : ThreadId)
  /-- The worker's look at the other workers' queues finds a message of `sender`. -/
  | receive (w sender : ThreadId)
  /-- The cache that the worker commits yields `key`. -/
  | commit (w : ThreadId) (key : Key)
  /-- The next step of the master. -/
  | master
  /-- The master's `try_recv` finds a message of `w`. -/
  | collect (w : ThreadId)
  /-- The user of the executor makes a call. -/
  | call (c : Call)

namespace System
variable (exec : Executor)

/-- Deliver a worker's message to another worker. -/
def deliver (sender : ThreadId) (message : Option (ThreadId × MessagePayload))
    (worker : ThreadId → Worker) : ThreadId → Worker :=
  match message with
  | some (target, payload) =>
    let wk := worker target
    Function.update worker target { wk with
      fromOthers := Function.update wk.fromOthers sender (wk.fromOthers sender ++ [payload]) }
  | none => worker

def applyMove (s : System) (w : ThreadId) (m : Move) : System :=
  { s with
    state := m.state
    worker := deliver w m.forward (Function.update s.worker w m.worker)
    log := s.log ++ m.events }

def setMaster (s : System) (pc : Master.Pc) : System := { s with master := { s.master with pc } }

def setWorker (s : System) (w : ThreadId) (wk : Worker) : System :=
  { s with worker := Function.update s.worker w wk }

/-- Perform one effect of the master. -/
def perform (s : System) (effect : Master.Effect) (todo : List Master.Effect) : System :=
  let s : System := { s with master := { s.master with todo } }
  match effect with
  | .unpark w => s.setWorker w { s.worker w with token := true }
  | .send w payload =>
    let wk := s.worker w
    s.setWorker w { wk with fromMaster := wk.fromMaster ++ [payload] }
  | .pushOrphan tx =>
    { s with master := { s.master with orphanPool := s.master.orphanPool ++ [tx] } }
  | .panic why => { s with master := { s.master with todo := [], pc := .panicked why } }

/-- `execute_orphan_pool` returns. -/
def finish (s : System) : Master.Return → System
  | .author => s.setMaster (.authored s.state (s.master.txPool ++ s.master.orphanPool))
  | .validate => s.setMaster (.validated s.state)

/-- The next step of the master's own program. -/
def masterStep (s : System) : Option System :=
  match s.master.todo with
  | effect :: todo => some (s.perform effect todo)
  | [] =>
    match s.master.pc with
    | .concurrentPhase =>
      match exec.distribute exec.workers s.master.txPool with
      | .ok pool =>
        some { s with master := { s.master with
          txPool := pool
          todo := Master.distributeEffects exec.workers pool
          pc := .collect ⟨0, 0, 0, 0, pool.length⟩ } }
      | .error why => some (s.setMaster (.panicked why))
    -- `try_recv` finds nothing.
    | .collect c => some (s.setMaster (.check c))
    | .check c =>
      if Master.exitCondition exec.workers.length c s.master.orphanPool then
        if c.total = c.executedLocal + c.executedWorkers + s.master.orphanPool.length then
          some { s with master := { s.master with
            todo := Master.broadcast exec.workers .taskDone
            pc := .executeOrphanPool .author s.master.orphanPool } }
        else some (s.setMaster (.panicked (.debugAssert
          "total == executed_local + executed_workers + self.orphan_pool.len()")))
      else some (s.setMaster (.collect c))
    | .collectReports workersDone => some (s.setMaster (.checkReports workersDone))
    | .checkReports workersDone =>
      if workersDone = exec.workers.length then
        some (s.setMaster (.executeOrphanPool .validate s.master.orphanPool))
      else some (s.setMaster (.collectReports workersDone))
    | .executeOrphanPool return_to (tx :: rest) =>
      if tx.tag = .orphan then some (s.setMaster (.executingOrphan return_to tx tx.code rest))
      else some (s.setMaster (.panicked (.debugAssert "tx.tag == ExecutionTag::Orphan")))
    | .executeOrphanPool return_to [] => some (s.finish return_to)
    | .executingOrphan return_to tx (.done result) rest =>
      match toRuntimeDispatchResult result with
      | .ok _ =>
        some { s.setMaster (.executeOrphanPool return_to rest) with
          log := s.log ++ [.orphanExecuted tx] }
      | .error _ => some (s.setMaster (.panicked (.expect
          "Executing transaction in the master runtime should never fail; qed")))
    | .executingOrphan _ _ (.fault why) _ => some (s.setMaster (.dispatchPanicked why))
    | .executingOrphan return_to tx (.read key next) rest =>
      some (s.setMaster
        (.executingOrphan return_to tx (next (.ok (SequentialRuntime.read s.state key))) rest))
    | .executingOrphan return_to tx (.write key value next) rest =>
      some { s.setMaster (.executingOrphan return_to tx (next (.ok ())) rest) with
        state := SequentialRuntime.write s.state key value
        log := s.log ++ [.stored none key] }
    | .idle => none
    | .authored _ _ => none
    | .validated _ => none
    | .panicked _ => none
    | .dispatchPanicked _ => none

/-- The first message of `w` is taken out of its channel to the master. -/
def received (s : System) (w : ThreadId) (payload : MessagePayload) (rest : List MessagePayload) :
    System :=
  { s.setWorker w { s.worker w with toMaster := rest } with
    log := s.log ++ [.collected w payload] }

/-- The master receives the first message of `w`. -/
def collect (s : System) (w : ThreadId) : Option System :=
  match s.master.todo, s.master.pc, (s.worker w).toMaster with
  | [], .collect c, payload :: rest =>
    let s := s.received w payload rest
    match Master.collectMessage c s.master.txPool s.master.orphanPool w payload with
    | .ok (c', txPool, orphanPool) =>
      some { s with master := { s.master with pc := .check c', txPool, orphanPool } }
    | .error why => some (s.setMaster (.panicked why))
  | [], .collectReports workersDone, payload :: rest =>
    let s := s.received w payload rest
    match payload with
    | .validationReport => some (s.setMaster (.checkReports (workersDone + 1)))
    | _ => some (s.setMaster (.panicked (.message "Unexpected message type")))
  | _, _, _ => none

/-- A call has returned, or none has been made. -/
def Callable : Master.Pc → Bool
  | .idle => true
  | .authored _ _ => true
  | .validated _ => true
  | _ => false

/-- A call begins. -/
def begin (s : System) : Call → System
  | .authorBlock initialTransactions =>
    match s.master.txPool.pushBatch initialTransactions with
    | .ok pool =>
      { s with
        master := { s.master with
          txPool := pool
          todo := Master.unparkAll exec.workers ++ Master.unparkAll exec.workers ++
            Master.broadcast exec.workers (.task .authoring)
          pc := .concurrentPhase }
        log := [] }
    | .error why => s.setMaster (.panicked why)
  | .validateBlock block =>
    { s with
      master := { s.master with
        todo := Master.unparkAll exec.workers ++
          Master.broadcast exec.workers (.task .validating) ++
          block.map (Master.validateEffect exec.workers) ++
          Master.broadcast exec.workers .transactionDistributionDone
        pc := .collectReports 0 }
      log := [] }
  | .clean => { s with state := ∅, master := { s.master with
      pc := .idle, txPool := [], orphanPool := [] } }
  | .applyState state => { s with state := state ∪ s.state, master := { s.master with pc := .idle } }
  | .runTerminate => { s with master := { s.master with
      todo := Master.unparkAll exec.workers ++ Master.broadcast exec.workers .terminate
      pc := .idle } }

/-- One step of one thread, or a call. -/
def step (s : System) : Action → Option System
  | .worker w =>
    if w ∈ exec.workers then (Worker.step w (s.worker w) s.state).map (s.applyMove w) else none
  | .receive w sender =>
    if w ∈ exec.workers ∧ sender ∈ exec.workers then
      (Worker.receive w (s.worker w) s.state sender).map (s.applyMove w)
    else none
  | .commit w key =>
    if w ∈ exec.workers then (Worker.commit w (s.worker w) s.state key).map (s.applyMove w)
    else none
  | .master => s.masterStep exec
  | .collect w => if w ∈ exec.workers then s.collect w else none
  | .call c =>
    if Callable s.master.pc = true ∧ s.master.todo.isEmpty = true then some (s.begin exec c)
    else none

/-- A step of a thread, by who makes it. -/
inductive Threads (s : System) : System → Prop
  | worker {w : ThreadId} {m : Move} (hw : w ∈ exec.workers)
    (hstep : Worker.Step w (s.worker w) s.state m) : Threads s (s.applyMove w m)
  | master {s' : System} (hstep : s.masterStep exec = some s') : Threads s s'
  | collect {w : ThreadId} {s' : System} (hw : w ∈ exec.workers) (hstep : s.collect w = some s') :
    Threads s s'

end System

/-- The action is a thread's, not a call. -/
def Action.OfThread : Action → Prop
  | .call _ => False
  | _ => True

instance : DecidablePred Action.OfThread
  | .call _ => isFalse id
  | .worker _ => isTrue trivial
  | .receive _ _ => isTrue trivial
  | .commit _ _ => isTrue trivial
  | .master => isTrue trivial
  | .collect _ => isTrue trivial

variable {exec : Executor}

/-- **Every step that is not a call is a worker's or the master's.** -/
theorem System.threads_of_step {s s' : System} {a : Action} (ha : a.OfThread)
    (h : s.step exec a = some s') : s.Threads exec s' := by
  cases a with
  | worker w =>
    rw [step] at h
    split at h
    · rename_i hw
      obtain ⟨m, hm, rfl⟩ := Option.map_eq_some_iff.mp h
      exact .worker hw (.of_step hm)
    · cases h
  | receive w sender =>
    rw [step] at h
    split at h
    · rename_i hw
      obtain ⟨m, hm, rfl⟩ := Option.map_eq_some_iff.mp h
      exact .worker hw.1 (.of_receive hm)
    · cases h
  | commit w key =>
    rw [step] at h
    split at h
    · rename_i hw
      obtain ⟨m, hm, rfl⟩ := Option.map_eq_some_iff.mp h
      exact .worker hw (.of_commit hm)
    · cases h
  | master => exact .master h
  | collect w =>
    rw [step] at h
    split at h
    · rename_i hw
      exact .collect hw h
    · cases h
  | call c => exact ha.elim

namespace System

/-- The body of a call has panicked, and its thread with it. -/
def DispatchPanicked (exec : Executor) (s : System) : Prop :=
  (∃ w ∈ exec.workers, ∃ why, (s.worker w).pc = .dispatchPanicked why) ∨
    s.master.todo = [] ∧ ∃ why, s.master.pc = .dispatchPanicked why

/-- The body of a call has panicked, at the master. -/
def MasterPanicked (s : System) : Prop :=
  s.master.todo = [] ∧ ∃ why, s.master.pc = .dispatchPanicked why

variable {s s' : System} {w : ThreadId} {m : Move}

@[simp] theorem deliver_pc (sender : ThreadId) (message : Option (ThreadId × MessagePayload))
    (worker : ThreadId → Worker) (v : ThreadId) :
    (deliver sender message worker v).pc = (worker v).pc := by
  cases message with
  | none => rfl
  | some message =>
    by_cases hv : v = message.1
    · subst hv; simp [deliver]
    · simp [deliver, hv]

theorem applyMove_pc_self : ((s.applyMove w m).worker w).pc = m.worker.pc := by
  simp [applyMove]

theorem applyMove_pc_other {v : ThreadId} (hv : v ≠ w) :
    ((s.applyMove w m).worker v).pc = (s.worker v).pc := by
  simp [applyMove, hv]

theorem perform_pc (effect : Master.Effect) (todo : List Master.Effect) (v : ThreadId) :
    ((s.perform effect todo).worker v).pc = (s.worker v).pc := by
  cases effect with
  | unpark u | send u payload =>
    by_cases hv : v = u
    · subst hv; simp [perform, setWorker]
    · simp [perform, setWorker, hv]
  | _ => rfl

@[simp] theorem finish_worker (return_to : Master.Return) :
    (s.finish return_to).worker = s.worker := by
  cases return_to <;> rfl

/-- The master leaves the workers' control points alone. -/
theorem masterStep_pc (h : s.masterStep exec = some s') (v : ThreadId) :
    (s'.worker v).pc = (s.worker v).pc := by
  unfold masterStep at h
  split at h
  · obtain rfl := Option.some.inj h
    exact perform_pc ..
  · repeat' split at h
    all_goals cases h
    all_goals first | rfl | rw [finish_worker]

theorem collect_pc (h : s.collect w = some s') (v : ThreadId) :
    (s'.worker v).pc = (s.worker v).pc := by
  have hreceived : ∀ rest, (Function.update s.worker w { s.worker w with toMaster := rest } v).pc =
      (s.worker v).pc := by
    intro rest
    by_cases hv : v = w
    · subst hv; simp
    · simp [hv]
  unfold collect at h
  split at h
  · dsimp only at h
    split at h <;> obtain rfl := Option.some.inj h <;> exact hreceived _
  · dsimp only at h
    split at h <;> obtain rfl := Option.some.inj h <;> exact hreceived _
  · cases h

/-- A master that has panicked stays so. -/
theorem MasterPanicked.step (h : s.MasterPanicked) (hs : s.Threads exec s') : s'.MasterPanicked := by
  obtain ⟨htodo, why, hpc⟩ := h
  cases hs with
  | worker hw hstep => exact ⟨htodo, why, hpc⟩
  | master hstep => simp [masterStep, htodo, hpc] at hstep
  | collect hw hstep => simp [collect, htodo, hpc] at hstep

/-- **A thread that has panicked stays so.** -/
theorem DispatchPanicked.step (h : s.DispatchPanicked exec) (hs : s.Threads exec s') :
    s'.DispatchPanicked exec := by
  rcases h with ⟨v, hv, why, hpc⟩ | hmaster
  · refine .inl ⟨v, hv, why, ?_⟩
    cases hs with
    | @worker w m hw hstep =>
      by_cases hvw : v = w
      · subst hvw
        exact absurd hpc (hstep.not_dispatchPanicked why)
      · rw [applyMove_pc_other hvw, hpc]
    | master hstep => rw [masterStep_pc hstep, hpc]
    | collect hw hstep => rw [collect_pc hstep, hpc]
  · exact .inr (MasterPanicked.step hmaster hs)

end System
end SonicChain
