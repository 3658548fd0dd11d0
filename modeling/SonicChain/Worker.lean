import SonicChain.Types

/-! # A worker thread

A worker takes its orders from the master's queue, executes transactions through
its concurrent runtime while authoring, and through its sequential runtime while
validating.  Its program is split where other threads may interfere: at every
receive and send, and at every lock-protected section of the shared state
(`Worker.step`, `Worker.receive`, `Worker.commit`).

`Worker.Step` lists the steps by name; `Step.of_step` and its companions say that
the worker takes no others.
-/

namespace SonicChain
open TaintState (Recheck)

/-- From where `execute_or_forward` is called. -/
inductive Worker.Caller where
  | depleteMasterQueue (executed forwarded : Nat)
  | runAuthor
  deriving DecidableEq, Repr

/-- The execution outcome of a transaction. -/
inductive ExecutionOutcome where
  | executed (success : RuntimeDispatchSuccess)
  | forwarded (wid : ThreadId)
  | forwardedToMaster
  deriving DecidableEq, Repr

variable [Ed25519]

/-- What the threads have done, for the record: no step reads it. -/
inductive Event where
  /-- A worker took a transaction from the master (`none`) or another worker. -/
  | attempted (worker : ThreadId) (source : Option ThreadId) (tx : Transaction)
  /-- The worker's dispatch of the transaction returned. -/
  | dispatched (worker : ThreadId) (tx : Transaction) (result : RuntimeDispatchResult)
  | reported (worker : ThreadId) (executed forwarded : Nat)
  /-- The worker executed the transaction for validation. -/
  | validated (worker : ThreadId) (tx : Transaction)
  /-- The master received a message of the worker. -/
  | collected (worker : ThreadId) (payload : MessagePayload)
  /-- The master executed an orphan. -/
  | orphanExecuted (tx : Transaction)
  /-- A read found no entry and made one. -/
  | created (key : Key)
  /-- A worker, or the master (`none`), inserted a value. -/
  | stored (thread : Option ThreadId) (key : Key)

namespace Worker

/-- A transaction under execution, and who asked for it. -/
structure Job where
  caller : Caller
  tx : Transaction

/-- Where a worker stands in its program. -/
inductive Pc where
  | waitFinalizeSetup
  | park
  | recvTask
  | depleteMasterQueue (executed forwarded : Nat)
  | sendReport (executed forwarded : Nat)
  /-- `run_author`'s loop: the look into the master's queue. -/
  | pollMaster
  /-- `run_author`'s loop: the look into the queue of the other workers. -/
  | pollOthers
  /-- Inside a dispatch, with what is left of the code and the cache. -/
  | executing (job : Job) (code : Storage (Except DispatchError Unit)) (cache : Cache)
  /-- Inside a dispatch, between the two sections of a state read. -/
  | recheck (job : Job) (code : Storage (Except DispatchError Unit)) (cache : Cache)
      (branch : Recheck)
  /-- Inside `commit_cache`, with the entries not yet in the state. -/
  | committing (job : Job) (cache : Cache)
  | runValidate
  | validating (tx : Transaction) (code : Storage (Except DispatchError Unit))
  | sendValidationReport
  | terminated
  | panicked (why : Panic)
  /-- The body of a call panicked. -/
  | dispatchPanicked (why : Panic)

end Worker

/-- A worker with its ends of the channels: what has been sent to it and not yet
received, from the master and from each other worker, and what it has sent to
the master and the master has not yet received. -/
structure Worker where
  pc : Worker.Pc
  /-- The token of `park` and `unpark`. -/
  token : Bool
  toOthers : List ThreadId
  fromMaster : List MessagePayload
  fromOthers : ThreadId → List MessagePayload
  toMaster : List MessagePayload

namespace Worker

/-- What a step of a worker comes to: the worker and the state after it, the
message sent to another worker, if any, and the events it goes down as. -/
structure Move where
  worker : Worker
  state : StateMap
  forward : Option (ThreadId × MessagePayload)
  events : List Event

/-- A step that concerns the worker alone. -/
def quiet (worker : Worker) (state : StateMap) : Move := ⟨worker, state, none, []⟩

def panic (wk : Worker) (state : StateMap) (why : Panic) : Move :=
  quiet { wk with pc := .panicked why } state

/-- The caller of `execute_or_forward` goes on with the outcome. -/
def Caller.resume : Caller → ExecutionOutcome → Pc
  | .depleteMasterQueue executed forwarded, .executed _ =>
    .depleteMasterQueue (executed + 1) forwarded
  | .depleteMasterQueue executed forwarded, _ => .depleteMasterQueue executed (forwarded + 1)
  | .runAuthor, _ => .pollMaster

/-- `execute_or_forward` begins: the dispatch starts with an empty cache. -/
def start (id : ThreadId) (wk : Worker) (state : StateMap) (caller : Caller)
    (source : Option ThreadId) (tx : Transaction) : Move :=
  ⟨{ wk with pc := .executing ⟨caller, tx⟩ tx.code ∅ }, state, none, [.attempted id source tx]⟩

/-- `execute_or_forward` ends, with the result of the dispatch. -/
def executeOrForward (id : ThreadId) (wk : Worker) (state : StateMap) (job : Job)
    (result : RuntimeDispatchResult) : Move :=
  let tx := job.tx
  let events := [Event.dispatched id tx result]
  let forwardToMaster : Move :=
    ⟨{ wk with
        pc := job.caller.resume .forwardedToMaster
        toMaster := wk.toMaster ++ [.workerOrphan tx.id] }, state, none, events⟩
  match result with
  | .error (.tainted byWhom corrupt) =>
    if tx.execStatus = .initial then
      if corrupt then forwardToMaster
      else if byWhom ∈ wk.toOthers then
        ⟨{ wk with pc := job.caller.resume (.forwarded byWhom) }, state,
          some (byWhom, .transaction tx), events⟩
      else wk.panic state (.expect "Must have queue to all other workers; qed.")
    else forwardToMaster
  | .ok success =>
    if tx.execStatus = .forwarded then
      ⟨{ wk with
          pc := job.caller.resume (.executed success)
          toMaster := wk.toMaster ++ [.workerExecuted tx.id] }, state, none, events⟩
    else ⟨{ wk with pc := job.caller.resume (.executed success) }, state, none, events⟩

/-- The key of the next access, if the code has not ended. -/
def accessKey {A : Type} : Storage A → Option Key
  | .read key _ => some key
  | .write key _ _ => some key
  | .done _ => none
  | .fault _ => none

/-- The runtime passes the answer for the key on to the code; a granted write goes
into the cache. -/
def answer {A : Type} : Storage A → Cache → Except ThreadId Value → Storage A × Cache
  | .read _ next, cache, outcome => (next outcome, cache)
  | .write key value next, cache, .ok _ => (next (.ok ()), cache.insert key value)
  | .write _ _ next, cache, .error owner => (next (.error owner), cache)
  | code, cache, _ => (code, cache)

def answered (wk : Worker) (state : StateMap) (job : Job)
    (code : Storage (Except DispatchError Unit)) (cache : Cache) (outcome : Except ThreadId Value)
    (events : List Event) : Move :=
  let (rest, cache') := answer code cache outcome
  ⟨{ wk with pc := .executing job rest cache' }, state, none, events⟩

/-- One access of a dispatch: from the cache, or the read-lock section. -/
def access (id : ThreadId) (wk : Worker) (state : StateMap) (job : Job)
    (code : Storage (Except DispatchError Unit)) (cache : Cache) (key : Key) : Move :=
  match cache.lookup key with
  | some value => wk.answered state job code cache (.ok value) []
  | none =>
    match TaintState.readSection state key id with
    | .inr outcome => wk.answered state job code cache outcome []
    | .inl branch => quiet { wk with pc := .recheck job code cache branch } state

/-- The write-lock section of a read. -/
def accessRecheck (id : ThreadId) (wk : Worker) (state : StateMap) (job : Job)
    (code : Storage (Except DispatchError Unit)) (cache : Cache) (branch : Recheck) (key : Key) :
    Move :=
  match TaintState.readRecheck branch state key id with
  | .ok (outcome, state') =>
    wk.answered state' job code cache outcome
      (if state.lookup key = none then [.created key] else [])
  | .error why => wk.panic state why

/-- The next step of the worker, where it needs no choice. -/
def step (id : ThreadId) (wk : Worker) (state : StateMap) : Option Move :=
  match wk.pc with
  | .waitFinalizeSetup =>
    match wk.fromMaster with
    | .finalizeSetup data :: rest =>
      some (quiet { wk with fromMaster := rest, toOthers := data, pc := .park } state)
    | _ :: _ => some (wk.panic state (.message "Received unexpected message"))
    | [] => none
  -- `park` returns once the token is there, and may return without.
  | .park => some (quiet { wk with token := false, pc := .recvTask } state)
  | .recvTask =>
    match wk.fromMaster with
    | .task .authoring :: rest =>
      some (quiet { wk with fromMaster := rest, pc := .depleteMasterQueue 0 0 } state)
    | .task .validating :: rest =>
      some (quiet { wk with fromMaster := rest, pc := .runValidate } state)
    | .terminate :: rest => some (quiet { wk with fromMaster := rest, pc := .terminated } state)
    | _ :: _ => some (wk.panic state (.message "Unexpected message"))
    | [] => none
  | .depleteMasterQueue executed forwarded =>
    match wk.fromMaster with
    | .transaction tx :: rest =>
      some (start id { wk with fromMaster := rest } state (.depleteMasterQueue executed forwarded)
        none tx)
    | .transactionDistributionDone :: rest =>
      some (quiet { wk with fromMaster := rest, pc := .sendReport executed forwarded } state)
    | _ :: _ => some (wk.panic state (.message "Unexpected message payload."))
    | [] => none
  | .sendReport executed forwarded =>
    some ⟨{ wk with
        pc := .pollMaster
        toMaster := wk.toMaster ++ [.authoringReport executed forwarded] },
      state, none, [.reported id executed forwarded]⟩
  | .pollMaster =>
    match wk.fromMaster with
    | .taskDone :: rest => some (quiet { wk with fromMaster := rest, pc := .park } state)
    | _ :: _ => some (wk.panic state (.message "Unexpected message payload."))
    | [] => some (quiet { wk with pc := .pollOthers } state)
  -- Nothing has arrived from another worker.
  | .pollOthers => some (quiet { wk with pc := .pollMaster } state)
  | .executing job code cache =>
    match code with
    | .done (.ok ()) => some (quiet { wk with pc := .committing job cache } state)
    | .done (.error e) =>
      some (executeOrForward id wk state job (toRuntimeDispatchResult (.error e)))
    | .fault why => some (quiet { wk with pc := .dispatchPanicked why } state)
    | .read key next => some (access id wk state job (.read key next) cache key)
    | .write key value next => some (access id wk state job (.write key value next) cache key)
  | .recheck job code cache branch =>
    match accessKey code with
    | some key => some (accessRecheck id wk state job code cache branch key)
    | none => none
  | .committing job cache =>
    if cache = ∅ then some (executeOrForward id wk state job (toRuntimeDispatchResult (.ok ())))
    else none
  | .runValidate =>
    match wk.fromMaster with
    | .transaction tx :: rest =>
      if tx.tag = .done id then
        some (quiet { wk with fromMaster := rest, pc := .validating tx tx.code } state)
      else
        some (wk.panic state (.debugAssert "matches!(tag, ExecutionTag::Done(who) if who == self.id)"))
    | .transactionDistributionDone :: rest =>
      some (quiet { wk with fromMaster := rest, pc := .sendValidationReport } state)
    | _ :: _ => some (wk.panic state (.message "Unexpected message type in validation."))
    | [] => none
  | .validating tx code =>
    match code with
    | .done result =>
      match toRuntimeDispatchResult result with
      | .ok _ => some ⟨{ wk with pc := .runValidate }, state, none, [.validated id tx]⟩
      | .error _ => some (wk.panic state (.expect
          "Executing transaction in the validation phase by thread should never fail"))
    | .fault why => some (quiet { wk with pc := .dispatchPanicked why } state)
    | .read key next =>
      some (quiet { wk with pc := .validating tx (next (.ok (SequentialRuntime.read state key))) }
        state)
    | .write key value next =>
      some ⟨{ wk with pc := .validating tx (next (.ok ())) },
        SequentialRuntime.write state key value, none, [.stored (some id) key]⟩
  | .sendValidationReport =>
    some (quiet { wk with pc := .park, toMaster := wk.toMaster ++ [.validationReport] } state)
  | .terminated => none
  | .panicked _ => none
  | .dispatchPanicked _ => none

/-- The look into the queue of the other workers finds a message of `sender`. -/
def receive (id : ThreadId) (wk : Worker) (state : StateMap) (sender : ThreadId) : Option Move :=
  match wk.pc, wk.fromOthers sender with
  | .pollOthers, .transaction tx :: rest =>
    some (start id { wk with fromOthers := Function.update wk.fromOthers sender rest } state
      .runAuthor (some sender) { tx with execStatus := .forwarded })
  | .pollOthers, _ :: _ => some (wk.panic state (.message "Unexpected message payload"))
  | _, _ => none

/-- The cache's iterator yields `key`. -/
def commit (id : ThreadId) (wk : Worker) (state : StateMap) (key : Key) : Option Move :=
  match wk.pc with
  | .committing job cache =>
    match cache.lookup key with
    | some value =>
      match ConcurrentRuntime.commitEntry id state key value with
      | .ok state' =>
        some ⟨{ wk with pc := .committing job (cache.erase key) }, state', none,
          [.stored (some id) key]⟩
      | .error why => some (wk.panic state why)
    | none => none
  | _ => none

/-! ## The steps by name -/

/-- The worker is inside a dispatch, for `job`. -/
inductive Pc.Executes : Pc → Job → Prop
  | executing (job : Job) (code : Storage (Except DispatchError Unit)) (cache : Cache) :
    Executes (.executing job code cache) job
  | recheck (job : Job) (code : Storage (Except DispatchError Unit)) (cache : Cache)
    (branch : Recheck) : Executes (.recheck job code cache branch) job
  | committing (job : Job) (cache : Cache) : Executes (.committing job cache) job

/-- The dispatch that a control point is inside of. -/
def Pc.job : Pc → Option Job
  | .executing job _ _ => some job
  | .recheck job _ _ _ => some job
  | .committing job _ => some job
  | _ => none

theorem Pc.Executes.job_eq {pc : Pc} {job : Job} (h : pc.Executes job) : pc.job = some job := by
  cases h <;> rfl

theorem Pc.Executes.unique {pc : Pc} {job job' : Job} (h : pc.Executes job)
    (h' : pc.Executes job') : job = job' := Option.some.inj (h.job_eq.symm.trans h'.job_eq)

/-- The dispatch has come to its result: the body has failed, or everything has
been committed. -/
inductive Pc.Results : Pc → Job → Except DispatchError Unit → Prop
  | failed (job : Job) (e : DispatchError) (cache : Cache) :
    Results (.executing job (.done (.error e)) cache) job (.error e)
  | committed (job : Job) : Results (.committing job ∅) job (.ok ())

/-- The payloads that a worker may receive from the master, by control point. -/
def Pc.Accepts : Pc → MessagePayload → Prop
  | .waitFinalizeSetup, .finalizeSetup _ => True
  | .recvTask, .task _ => True
  | .recvTask, .terminate => True
  | .depleteMasterQueue _ _, .transaction _ => True
  | .depleteMasterQueue _ _, .transactionDistributionDone => True
  | .pollMaster, .taskDone => True
  | .runValidate, .transaction _ => True
  | .runValidate, .transactionDistributionDone => True
  | _, _ => False

/-- The control points at which a worker looks into the master's queue. -/
def Pc.Receives : Pc → Prop
  | .waitFinalizeSetup => True
  | .recvTask => True
  | .depleteMasterQueue _ _ => True
  | .pollMaster => True
  | .runValidate => True
  | _ => False

/-- The control points of `run_validate`. -/
def Pc.Validates : Pc → Prop
  | .runValidate => True
  | .validating _ _ => True
  | .sendValidationReport => True
  | _ => False

/-- The steps of a worker. -/
inductive Step (id : ThreadId) (wk : Worker) (state : StateMap) : Move → Prop
  | setup {data : List ThreadId} {rest : List MessagePayload} (hpc : wk.pc = .waitFinalizeSetup)
    (hq : wk.fromMaster = .finalizeSetup data :: rest) :
    Step id wk state (quiet { wk with fromMaster := rest, toOthers := data, pc := .park } state)
  | park (hpc : wk.pc = .park) :
    Step id wk state (quiet { wk with token := false, pc := .recvTask } state)
  | takeAuthoring {rest : List MessagePayload} (hpc : wk.pc = .recvTask)
    (hq : wk.fromMaster = .task .authoring :: rest) :
    Step id wk state (quiet { wk with fromMaster := rest, pc := .depleteMasterQueue 0 0 } state)
  | takeValidating {rest : List MessagePayload} (hpc : wk.pc = .recvTask)
    (hq : wk.fromMaster = .task .validating :: rest) :
    Step id wk state (quiet { wk with fromMaster := rest, pc := .runValidate } state)
  | takeTerminate {rest : List MessagePayload} (hpc : wk.pc = .recvTask)
    (hq : wk.fromMaster = .terminate :: rest) :
    Step id wk state (quiet { wk with fromMaster := rest, pc := .terminated } state)
  | takeTransaction {e f : Nat} {tx : Transaction} {rest : List MessagePayload}
    (hpc : wk.pc = .depleteMasterQueue e f) (hq : wk.fromMaster = .transaction tx :: rest) :
    Step id wk state (start id { wk with fromMaster := rest } state (.depleteMasterQueue e f) none tx)
  | distributionDone {e f : Nat} {rest : List MessagePayload}
    (hpc : wk.pc = .depleteMasterQueue e f)
    (hq : wk.fromMaster = .transactionDistributionDone :: rest) :
    Step id wk state (quiet { wk with fromMaster := rest, pc := .sendReport e f } state)
  | report {e f : Nat} (hpc : wk.pc = .sendReport e f) :
    Step id wk state ⟨{ wk with
      pc := .pollMaster
      toMaster := wk.toMaster ++ [.authoringReport e f] }, state, none, [.reported id e f]⟩
  | taskDone {rest : List MessagePayload} (hpc : wk.pc = .pollMaster)
    (hq : wk.fromMaster = .taskDone :: rest) :
    Step id wk state (quiet { wk with fromMaster := rest, pc := .park } state)
  | pollMaster (hpc : wk.pc = .pollMaster) (hq : wk.fromMaster = []) :
    Step id wk state (quiet { wk with pc := .pollOthers } state)
  | pollOthers (hpc : wk.pc = .pollOthers) :
    Step id wk state (quiet { wk with pc := .pollMaster } state)
  | takeForwarded {sender : ThreadId} {tx : Transaction} {rest : List MessagePayload}
    (hpc : wk.pc = .pollOthers) (hq : wk.fromOthers sender = .transaction tx :: rest) :
    Step id wk state (start id
      { wk with fromOthers := Function.update wk.fromOthers sender rest } state .runAuthor
      (some sender) { tx with execStatus := .forwarded })
  | access {job : Job} {code : Storage (Except DispatchError Unit)} {cache : Cache} {key : Key}
    (hpc : wk.pc = .executing job code cache) (hkey : accessKey code = some key) :
    Step id wk state (access id wk state job code cache key)
  | accessRecheck {job : Job} {code : Storage (Except DispatchError Unit)} {cache : Cache}
    {branch : Recheck} {key : Key} (hpc : wk.pc = .recheck job code cache branch)
    (hkey : accessKey code = some key) :
    Step id wk state (accessRecheck id wk state job code cache branch key)
  | beginCommit {job : Job} {cache : Cache} (hpc : wk.pc = .executing job (.done (.ok ())) cache) :
    Step id wk state (quiet { wk with pc := .committing job cache } state)
  | commit {job : Job} {cache : Cache} {key : Key} {value : Value} {state' : StateMap}
    (hpc : wk.pc = .committing job cache) (hkey : cache.lookup key = some value)
    (hcommit : ConcurrentRuntime.commitEntry id state key value = .ok state') :
    Step id wk state
      ⟨{ wk with pc := .committing job (cache.erase key) }, state', none, [.stored (some id) key]⟩
  | commitPanic {job : Job} {cache : Cache} {key : Key} {value : Value} {why : Panic}
    (hpc : wk.pc = .committing job cache) (hkey : cache.lookup key = some value)
    (hcommit : ConcurrentRuntime.commitEntry id state key value = .error why) :
    Step id wk state (wk.panic state why)
  | settle {job : Job} {result : Except DispatchError Unit} (hpc : wk.pc.Results job result) :
    Step id wk state (executeOrForward id wk state job (toRuntimeDispatchResult result))
  | fault {job : Job} {why : Panic} {cache : Cache} (hpc : wk.pc = .executing job (.fault why) cache) :
    Step id wk state (quiet { wk with pc := .dispatchPanicked why } state)
  | takeForValidation {tx : Transaction} {rest : List MessagePayload} (hpc : wk.pc = .runValidate)
    (hq : wk.fromMaster = .transaction tx :: rest) (htag : tx.tag = .done id) :
    Step id wk state (quiet { wk with fromMaster := rest, pc := .validating tx tx.code } state)
  | mistagged {tx : Transaction} {rest : List MessagePayload} {why : Panic}
    (hpc : wk.pc = .runValidate)
    (hq : wk.fromMaster = .transaction tx :: rest) (htag : tx.tag ≠ .done id) :
    Step id wk state (wk.panic state why)
  | validationDone {rest : List MessagePayload} (hpc : wk.pc = .runValidate)
    (hq : wk.fromMaster = .transactionDistributionDone :: rest) :
    Step id wk state (quiet { wk with fromMaster := rest, pc := .sendValidationReport } state)
  | validateRead {tx : Transaction} {key : Key}
    {next : Except ThreadId Value → Storage (Except DispatchError Unit)}
    (hpc : wk.pc = .validating tx (.read key next)) :
    Step id wk state (quiet
      { wk with pc := .validating tx (next (.ok (SequentialRuntime.read state key))) } state)
  | validateWrite {tx : Transaction} {key : Key} {value : Value}
    {next : Except ThreadId Unit → Storage (Except DispatchError Unit)}
    (hpc : wk.pc = .validating tx (.write key value next)) :
    Step id wk state ⟨{ wk with pc := .validating tx (next (.ok ())) },
      SequentialRuntime.write state key value, none, [.stored (some id) key]⟩
  | validateEnd {tx : Transaction} {result : Except DispatchError Unit}
    {success : RuntimeDispatchSuccess} (hpc : wk.pc = .validating tx (.done result))
    (hresult : toRuntimeDispatchResult result = .ok success) :
    Step id wk state ⟨{ wk with pc := .runValidate }, state, none, [.validated id tx]⟩
  | validateRefused {tx : Transaction} {result : Except DispatchError Unit}
    {e : RuntimeDispatchError} {why : Panic} (hpc : wk.pc = .validating tx (.done result))
    (hresult : toRuntimeDispatchResult result = .error e) : Step id wk state (wk.panic state why)
  | validateFault {tx : Transaction} {why : Panic} (hpc : wk.pc = .validating tx (.fault why)) :
    Step id wk state (quiet { wk with pc := .dispatchPanicked why } state)
  | sendValidationReport (hpc : wk.pc = .sendValidationReport) :
    Step id wk state
      (quiet { wk with pc := .park, toMaster := wk.toMaster ++ [.validationReport] } state)
  | unexpected {payload : MessagePayload} {rest : List MessagePayload} {why : Panic}
    (hpc : wk.pc.Receives) (hq : wk.fromMaster = payload :: rest)
    (hpayload : ¬ wk.pc.Accepts payload) : Step id wk state (wk.panic state why)
  | unexpectedFromOthers {sender : ThreadId} {payload : MessagePayload}
    {rest : List MessagePayload} {why : Panic} (hpc : wk.pc = .pollOthers)
    (hq : wk.fromOthers sender = payload :: rest) (hpayload : ∀ tx, payload ≠ .transaction tx) :
    Step id wk state (wk.panic state why)

variable {id : ThreadId} {wk : Worker} {state : StateMap} {m : Move}

/-- **Every step of a worker is one of those listed.** -/
theorem Step.of_step (h : step id wk state = some m) : Step id wk state m := by
  cases hpc : wk.pc with
  | waitFinalizeSetup =>
    cases hq : wk.fromMaster with
    | nil => simp [step, hpc, hq] at h
    | cons payload rest =>
      cases payload <;> simp only [step, hpc, hq, Option.some.injEq] at h <;> subst h
      case finalizeSetup data => exact .setup hpc hq
      all_goals exact .unexpected (by simp [hpc, Pc.Receives]) hq (by simp [hpc, Pc.Accepts])
  | park =>
    simp only [step, hpc, Option.some.injEq] at h
    exact h ▸ .park hpc
  | recvTask =>
    cases hq : wk.fromMaster with
    | nil => simp [step, hpc, hq] at h
    | cons payload rest =>
      cases payload
      case task t =>
        cases t <;> simp only [step, hpc, hq, Option.some.injEq] at h <;> subst h
        · exact .takeAuthoring hpc hq
        · exact .takeValidating hpc hq
      all_goals simp only [step, hpc, hq, Option.some.injEq] at h; subst h
      case terminate => exact .takeTerminate hpc hq
      all_goals exact .unexpected (by simp [hpc, Pc.Receives]) hq (by simp [hpc, Pc.Accepts])
  | depleteMasterQueue e f =>
    cases hq : wk.fromMaster with
    | nil => simp [step, hpc, hq] at h
    | cons payload rest =>
      cases payload <;> simp only [step, hpc, hq, Option.some.injEq] at h <;> subst h
      case transaction tx => exact .takeTransaction hpc hq
      case transactionDistributionDone => exact .distributionDone hpc hq
      all_goals exact .unexpected (by simp [hpc, Pc.Receives]) hq (by simp [hpc, Pc.Accepts])
  | sendReport e f =>
    simp only [step, hpc, Option.some.injEq] at h
    exact h ▸ .report hpc
  | pollMaster =>
    cases hq : wk.fromMaster with
    | nil =>
      simp only [step, hpc, hq, Option.some.injEq] at h
      rw [← hq] at h
      exact h ▸ .pollMaster hpc hq
    | cons payload rest =>
      cases payload <;> simp only [step, hpc, hq, Option.some.injEq] at h <;> subst h
      case taskDone => exact .taskDone hpc hq
      all_goals exact .unexpected (by simp [hpc, Pc.Receives]) hq (by simp [hpc, Pc.Accepts])
  | pollOthers =>
    simp only [step, hpc, Option.some.injEq] at h
    exact h ▸ .pollOthers hpc
  | executing job code cache =>
    cases code with
    | done result =>
      cases result with
      | error e =>
        simp only [step, hpc, Option.some.injEq] at h
        exact h ▸ .settle (by rw [hpc]; exact .failed job e cache)
      | ok u =>
        simp only [step, hpc, Option.some.injEq] at h
        exact h ▸ .beginCommit hpc
    | fault why =>
      simp only [step, hpc, Option.some.injEq] at h
      exact h ▸ .fault hpc
    | read key next =>
      simp only [step, hpc, Option.some.injEq] at h
      exact h ▸ .access hpc rfl
    | write key value next =>
      simp only [step, hpc, Option.some.injEq] at h
      exact h ▸ .access hpc rfl
  | recheck job code cache branch =>
    cases hkey : accessKey code with
    | some key =>
      simp only [step, hpc, hkey, Option.some.injEq] at h
      exact h ▸ .accessRecheck hpc hkey
    | none => simp [step, hpc, hkey] at h
  | committing job cache =>
    simp only [step, hpc] at h
    split at h
    · rename_i hempty
      subst hempty
      exact Option.some.inj h ▸ .settle (by rw [hpc]; exact .committed job)
    · cases h
  | runValidate =>
    cases hq : wk.fromMaster with
    | nil => simp [step, hpc, hq] at h
    | cons payload rest =>
      cases payload
      case transaction tx =>
        by_cases htag : tx.tag = .done id
        · simp only [step, hpc, hq, htag, ↓reduceIte, Option.some.injEq] at h
          exact h ▸ .takeForValidation hpc hq htag
        · simp only [step, hpc, hq, htag, ↓reduceIte, Option.some.injEq] at h
          exact h ▸ .mistagged hpc hq htag
      all_goals simp only [step, hpc, hq, Option.some.injEq] at h; subst h
      case transactionDistributionDone => exact .validationDone hpc hq
      all_goals exact .unexpected (by simp [hpc, Pc.Receives]) hq (by simp [hpc, Pc.Accepts])
  | validating tx code =>
    cases code with
    | done result =>
      simp only [step, hpc] at h
      split at h
      · rename_i hresult
        exact Option.some.inj h ▸ .validateEnd hpc hresult
      · rename_i hresult
        exact Option.some.inj h ▸ .validateRefused hpc hresult
    | fault why =>
      simp only [step, hpc, Option.some.injEq] at h
      exact h ▸ .validateFault hpc
    | read key next =>
      simp only [step, hpc, Option.some.injEq] at h
      exact h ▸ .validateRead hpc
    | write key value next =>
      simp only [step, hpc, Option.some.injEq] at h
      exact h ▸ .validateWrite hpc
  | sendValidationReport =>
    simp only [step, hpc, Option.some.injEq] at h
    exact h ▸ .sendValidationReport hpc
  | terminated => simp [step, hpc] at h
  | panicked why => simp [step, hpc] at h
  | dispatchPanicked why => simp [step, hpc] at h

theorem Step.of_receive {sender : ThreadId} (h : receive id wk state sender = some m) :
    Step id wk state m := by
  unfold receive at h
  split at h
  · rename_i hpc hq
    exact Option.some.inj h ▸ .takeForwarded hpc hq
  · rename_i hne hpc hq
    exact Option.some.inj h ▸ .unexpectedFromOthers hpc hq fun tx htx => hne tx (htx ▸ rfl)
  · cases h

theorem Step.of_commit {key : Key} (h : Worker.commit id wk state key = some m) : Step id wk state m := by
  unfold Worker.commit at h
  split at h
  · rename_i hpc
    split at h
    · rename_i hkey
      split at h
      · rename_i hcommit
        exact Option.some.inj h ▸ .commit hpc hkey hcommit
      · rename_i hcommit
        exact Option.some.inj h ▸ .commitPanic hpc hkey hcommit
    · cases h
  · cases h

/-- A worker whose dispatch has panicked takes no step. -/
theorem Step.not_dispatchPanicked (h : Step id wk state m) (why : Panic) :
    wk.pc ≠ .dispatchPanicked why := by
  intro hpc
  cases h with
  | settle hres => rw [hpc] at hres; cases hres
  | unexpected hreceives => rw [hpc] at hreceives; exact hreceives
  | _ => simp_all

end Worker
end SonicChain
