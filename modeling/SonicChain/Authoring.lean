import SonicChain.Ownership
import SonicChain.System
import SonicChain.Tokens

/-! # The protocol of authoring

The invariant of a run of `author_block`, up to the end of the collection phase.

* Each worker goes through its orders in order, and then polls the other workers
  until the task is done (`Stand`).  What it has sent to the master is what the
  master has received, followed by what is in the channel.
* Each transaction is in one place (`Slot`): in the orders of its designated
  worker, inside a dispatch, in the queue to another worker, or settled, having
  been run or sent to the master as an orphan.
* The master's pools and counters are what the messages that it has received make
  of the distributed pool (`Collected`).

`Authoring` is all of this, with the invariant of each worker's dispatches.  It is
kept by every step (`Authoring.step`) until the master leaves the collection
loop, unless the body of a call panics.
-/

namespace SonicChain
open Worker

variable [Ed25519]

/-! ## Orders -/

/-- The transactions designated for a worker. -/
def Pool.share (pool : Pool) (w : ThreadId) : List Transaction :=
  pool.filter fun tx => decide (tx.tag = .done w)

/-- The orders to execute the given transactions. -/
def orders (txs : List Transaction) : List MessagePayload :=
  txs.map .transaction ++ [.transactionDistributionDone]

/-- The transactions in a queue. -/
def txIds (queue : List MessagePayload) : List TransactionId :=
  (queue.filterMap MessagePayload.transaction?).map Transaction.id

theorem txIds_append (queue queue' : List MessagePayload) :
    txIds (queue ++ queue') = txIds queue ++ txIds queue' := by
  simp [txIds]

@[simp] theorem txIds_nil : txIds [] = [] := rfl

@[simp] theorem txIds_transaction (tx : Transaction) (queue : List MessagePayload) :
    txIds (.transaction tx :: queue) = tx.id :: txIds queue := rfl

@[simp] theorem txIds_orders (txs : List Transaction) :
    txIds (orders txs) = txs.map Transaction.id := by
  induction txs with
  | nil => rfl
  | cons tx txs ih => exact congrArg (tx.id :: ·) ih

theorem queue_eq_cons {payload payload' : MessagePayload} {queue queue' rest : List MessagePayload}
    (h : payload :: queue ++ queue' = payload' :: rest) :
    payload = payload' ∧ queue ++ queue' = rest := List.cons.inj h

theorem orders_eq_transaction {txs : List Transaction} {tx : Transaction}
    {queue queue' : List MessagePayload} (h : .transaction tx :: queue ++ queue' = orders txs) :
    ∃ rest, txs = tx :: rest ∧ queue ++ queue' = orders rest := by
  cases txs with
  | nil => cases h
  | cons t rest =>
    obtain ⟨ht, hq⟩ := List.cons.inj h
    cases ht
    exact ⟨rest, rfl, hq⟩

theorem orders_eq_done {txs : List Transaction} {queue queue' : List MessagePayload}
    (h : .transactionDistributionDone :: queue ++ queue' = orders txs) :
    txs = [] ∧ queue ++ queue' = [] := by
  cases txs with
  | nil => exact ⟨rfl, (List.cons.inj h).2⟩
  | cons t rest => cases h

/-- The message that an effect sends to the worker. -/
def Master.Effect.messageTo (w : ThreadId) : Master.Effect → Option MessagePayload
  | .send v payload => if v = w then some payload else none
  | _ => none

/-- What the master is about to send to the worker, once it has distributed
`pool`. -/
def Master.pending (pool : Pool) (master : Master) (w : ThreadId) : List MessagePayload :=
  master.todo.filterMap (Master.Effect.messageTo w) ++
    match master.pc with
    | .concurrentPhase => orders (pool.share w)
    | _ => []

/-! ## The workers -/

/-- A transaction of the pool that was forwarded to `w`, which is not its
designated worker. -/
def Passed (pool : Pool) (w : ThreadId) (tx : Transaction) : Prop :=
  ∃ t ∈ pool, t.tag ≠ .done w ∧ tx = { t with execStatus := .forwarded }

/-- What was forwarded to the worker, and run, while it was still at its last task:
nothing, if it is `fresh`. -/
structure Early (pool : Pool) (w : ThreadId) (fresh : Prop) (early : List Transaction) : Prop where
  passed : ∀ tx ∈ early, Passed pool w tx
  nil : fresh → early = []

/-- How far worker `w` has come in `run_author`: with its control point, the
workers it can send to and its orders still to come go the transactions it has
run and the reports it has made.

The worker passes `setup` once in its life.  A worker that has yet to take the
`TaskDone` of its last task begins at `draining`, one that has taken it at `park`; it
goes through its orders (`depleting`, `first`), reports, and then serves what the
others forward to it (`polling`, `second`) until the collection ends.  `early` is what
it has run before its orders, `own` what it has run of them, and `later` what it has
run of what was forwarded to it; `before` and `rest` are its orders, taken and to
come. -/
inductive Stand (workers : List ThreadId) (pool : Pool) (w : ThreadId) (fresh : Prop) :
    Pc → List ThreadId → List MessagePayload → List Transaction → List (Nat × Nat) → Prop
  | setup (toOthers : List ThreadId) : Stand workers pool w fresh .waitFinalizeSetup toOthers
    (.finalizeSetup workers :: .task .authoring :: orders (pool.share w)) [] []
  /-- Still in the loop of its last task. -/
  | draining {pc : Pc} {early : List Transaction} (hpc : pc = .pollMaster ∨ pc = .pollOthers)
    (hearly : Early pool w fresh early) :
    Stand workers pool w fresh pc workers
      (.taskDone :: .task .authoring :: orders (pool.share w)) early []
  /-- Inside the dispatch of a transaction that was forwarded to that loop. -/
  | zeroth {pc : Pc} {job : Job} {early : List Transaction} (hpc : pc.Executes job)
    (hcaller : job.caller = .runAuthor) (htx : Passed pool w job.tx) (hstale : ¬ fresh)
    (hearly : Early pool w fresh early) :
    Stand workers pool w fresh pc workers
      (.taskDone :: .task .authoring :: orders (pool.share w)) early []
  | park {early : List Transaction} (hearly : Early pool w fresh early) :
    Stand workers pool w fresh .park workers (.task .authoring :: orders (pool.share w)) early []
  | recvTask {early : List Transaction} (hearly : Early pool w fresh early) :
    Stand workers pool w fresh .recvTask workers
      (.task .authoring :: orders (pool.share w)) early []
  | depleting {e f : Nat} {early before rest own : List Transaction}
    (hearly : Early pool w fresh early) (hshare : pool.share w = before ++ rest)
    (hown : own.Sublist before) (he : e = own.length) (hf : e + f = before.length) :
    Stand workers pool w fresh (.depleteMasterQueue e f) workers (orders rest) (early ++ own) []
  /-- Inside the dispatch of a designated transaction. -/
  | first {pc : Pc} {job : Job} {e f : Nat} {early before rest own : List Transaction}
    (hpc : pc.Executes job) (hcaller : job.caller = .depleteMasterQueue e f)
    (hearly : Early pool w fresh early) (hshare : pool.share w = before ++ job.tx :: rest)
    (hown : own.Sublist before) (he : e = own.length) (hf : e + f = before.length) :
    Stand workers pool w fresh pc workers (orders rest) (early ++ own) []
  | reporting {e f : Nat} {early own : List Transaction} (hearly : Early pool w fresh early)
    (hown : own.Sublist (pool.share w)) (he : e = own.length)
    (hf : e + f = (pool.share w).length) :
    Stand workers pool w fresh (.sendReport e f) workers [] (early ++ own) []
  | polling {pc : Pc} {e f : Nat} {early own later : List Transaction}
    (hpc : pc = .pollMaster ∨ pc = .pollOthers) (hearly : Early pool w fresh early)
    (hown : own.Sublist (pool.share w)) (hlater : ∀ tx ∈ later, Passed pool w tx)
    (he : e = own.length) (hf : e + f = (pool.share w).length) :
    Stand workers pool w fresh pc workers [] (early ++ own ++ later) [(e, f)]
  /-- Inside the dispatch of a forwarded transaction. -/
  | second {pc : Pc} {job : Job} {e f : Nat} {early own later : List Transaction}
    (hpc : pc.Executes job) (hcaller : job.caller = .runAuthor) (htx : Passed pool w job.tx)
    (hearly : Early pool w fresh early) (hown : own.Sublist (pool.share w))
    (hlater : ∀ tx ∈ later, Passed pool w tx) (he : e = own.length)
    (hf : e + f = (pool.share w).length) :
    Stand workers pool w fresh pc workers [] (early ++ own ++ later) [(e, f)]

/-- The worker is still at its last task, by what is in its queue. -/
def Draining (inbox : List MessagePayload) : Prop := ∃ rest, inbox = .taskDone :: rest

/-- The invariant of one worker, given what the master is about to send to it: where
it stands, what it has in its queues, what it has told the master, and that on the
keys it owns the state is what the transactions that it has run, and the one it is
at, have made of the initial data. -/
structure WorkerInv (exec : Executor) (pool : Pool) (data₀ : Key → Value) (w : ThreadId)
    (fresh : Prop) (wk : Worker) (pending : List MessagePayload) (state : StateMap)
    (log : List Event) : Prop where
  stand : Stand exec.workers pool w fresh wk.pc wk.toOthers (wk.fromMaster ++ pending) (ran w log)
    ((sentBy w log).filterMap MessagePayload.report?)
  /-- What has been forwarded to the worker. -/
  queues : ∀ v, ∀ payload ∈ wk.fromOthers v,
    ∃ tx ∈ pool, tx.tag ≠ .done w ∧ payload = .transaction tx
  /-- Nothing is forwarded to a worker that is fresh and still at its last task. -/
  undisturbed : fresh → Draining (wk.fromMaster ++ pending) →
    (∀ v, wk.fromOthers v = []) ∧ ∀ k, ¬ ConcurrentRuntime.Owns w state k
  channel : sentBy w log = collectedFrom w log ++ wk.toMaster
  /-- The worker tells the master about the forwarded transactions it has run. -/
  executed : (sentBy w log).filterMap MessagePayload.executed? =
    ((ran w log).filter fun tx => decide (tx.execStatus = .forwarded)).map Transaction.id
  faithful : Faithful exec.workers data₀ w state ((ran w log).map Transaction.code)
    (storedBy (some w) log) wk.pc

/-! ## The transactions -/

/-- Where a transaction can be, at a worker. -/
inductive Slot where
  | pending
  | executing
  | ran
  | orphan
  /-- In the queue from another worker. -/
  | forwarded (sender : ThreadId)
  deriving DecidableEq

structure Place where
  worker : ThreadId
  slot : Slot

/-- The transactions at each place of the worker. -/
def Slot.held (w : ThreadId) (wk : Worker) (pending : List MessagePayload) (log : List Event) :
    Slot → List TransactionId
  | .pending => txIds (wk.fromMaster ++ pending)
  | .executing => (wk.pc.job.map fun job => job.tx.id).toList
  | .ran => (SonicChain.ran w log).map Transaction.id
  | .orphan => (sentBy w log).filterMap MessagePayload.orphan?
  | .forwarded sender => txIds (wk.fromOthers sender)

/-- How often a transaction at this place has been attempted, at most. -/
def Slot.attempts (wk : Worker) : Slot → Nat
  | .pending => 0
  | .executing =>
    match wk.pc.job with
    | some job => if job.tx.execStatus = .initial then 1 else 2
    | none => 0
  | .ran => 2
  | .orphan => 2
  | .forwarded _ => 1

namespace System

def held (pool : Pool) (s : System) (p : Place) : List TransactionId :=
  p.slot.held p.worker (s.worker p.worker) (s.master.pending pool p.worker) s.log

/-- Each transaction is in one place, and has been attempted as often as it can
have been there. -/
structure Tracked (exec : Executor) (pool : Pool) (s : System) : Prop where
  placed : Placed (fun p : Place => p.worker ∈ exec.workers) (pool.map Transaction.id) (s.held pool)
  attempts : ∀ p : Place, p.worker ∈ exec.workers → ∀ tid ∈ s.held pool p,
    (attemptsOf tid s.log).length ≤ p.slot.attempts (s.worker p.worker)

end System

/-! ## The master -/

/-- The messages about transactions that a worker has run for another. -/
def executedIn (messages : List (ThreadId × MessagePayload)) : List TransactionId :=
  messages.filterMap fun c => c.2.executed?

def orphansIn (messages : List (ThreadId × MessagePayload)) : List TransactionId :=
  messages.filterMap fun c => c.2.orphan?

def reportsIn (messages : List (ThreadId × MessagePayload)) : List (Nat × Nat) :=
  messages.filterMap fun c => c.2.report?

def Pool.byId (pool : Pool) (tid : TransactionId) : Option Transaction :=
  pool.find? fun tx => decide (tx.id = tid)

/-- The transactions of the pool that no message has been received about. -/
def remaining (pool : Pool) (messages : List (ThreadId × MessagePayload)) : Pool :=
  pool.filter fun tx => decide (tx.id ∉ executedIn messages ∧ tx.id ∉ orphansIn messages)

/-- The transactions that were run by another than their designated worker, as the
messages about them came in. -/
def relocated (pool : Pool) (messages : List (ThreadId × MessagePayload)) : List Transaction :=
  messages.filterMap fun c =>
    c.2.executed?.bind fun tid => (pool.byId tid).map fun tx => { tx with tag := .done c.1 }

def orphaned (pool : Pool) (messages : List (ThreadId × MessagePayload)) : List Transaction :=
  messages.filterMap fun c =>
    c.2.orphan?.bind fun tid => (pool.byId tid).map fun tx => { tx with tag := .orphan }

def counted (pool : Pool) (messages : List (ThreadId × MessagePayload)) : Master.Counters where
  executedWorkers := ((reportsIn messages).map Prod.fst).sum
  executedLocal := (executedIn messages).length
  forwarded := ((reportsIn messages).map Prod.snd).sum
  reported := (reportsIn messages).length
  total := pool.length

/-- What the master has of the pool once it has received the messages. -/
structure Collected (pool : Pool) (messages : List (ThreadId × MessagePayload))
    (c : Master.Counters) (master : Master) : Prop where
  counters : c = counted pool messages
  txPool : master.txPool = remaining pool messages ++ relocated pool messages
  orphanPool : master.orphanPool = orphaned pool messages
  /-- Nothing is lost. -/
  content : List.Perm ((master.txPool ++ master.orphanPool).map Transaction.content)
    (pool.map Transaction.content)

/-- The master, up to the end of the collection loop. -/
def MasterInv (exec : Executor) (pool : Pool) (messages : List (ThreadId × MessagePayload))
    (master : Master) : Prop :=
  match master.pc with
  | .concurrentPhase =>
    exec.distribute exec.workers master.txPool = .ok pool ∧ master.orphanPool = [] ∧ messages = []
  | .collect c => Collected pool messages c master
  | .check c => Collected pool messages c master
  | _ => False

/-! ## The system -/

/-- A pool as it comes from the distributer. -/
structure Assigned (exec : Executor) (pool : Pool) : Prop where
  ids : (pool.map Transaction.id).Nodup
  initial : ∀ tx ∈ pool, tx.execStatus = .initial
  designated : ∀ tx ∈ pool, ∃ w ∈ exec.workers, tx.tag = .done w
  verified : AllVerified pool

/-- **The invariant of authoring**, up to the end of the collection loop.  Each worker
keeps to the protocol and replays what it has run (`workers`); each transaction of the
pool is in one place (`tracked`); keys that nobody owns hold the initial data
(`untouched`); and the master has in its pools what the messages it has collected make
of the pool that it began with (`master`).  The workers in `fresh` have nothing
forwarded to them before they begin. -/
structure Authoring (exec : Executor) (pool : Pool) (data₀ : Key → Value) (fresh : ThreadId → Prop)
    (s : System) : Prop where
  workers : ∀ w ∈ exec.workers,
    WorkerInv exec pool data₀ w (fresh w) (s.worker w) (s.master.pending pool w) s.state s.log
  tracked : s.Tracked exec pool
  untouched : Untouched exec.workers data₀ s.state
  todo : ∀ effect ∈ s.master.todo, (∃ w, effect = .unpark w) ∨ ∃ w payload, effect = .send w payload
  record : ∀ e ∈ s.log, e.OfWorkers exec.workers
  master : MasterInv exec pool (collectedAll s.log) s.master

/-- The messages that the master has received are the workers'. -/
theorem Authoring.senders {exec : Executor} {pool : Pool} {data₀ : Key → Value}
    {fresh : ThreadId → Prop} {s : System} (h : Authoring exec pool data₀ fresh s) :
    ∀ c ∈ collectedAll s.log, c.1 ∈ exec.workers := by
  intro c hc
  obtain ⟨e, he, hec⟩ := List.mem_filterMap.mp hc
  obtain ⟨w, hw, hby | ⟨payload, rfl⟩⟩ := h.record e he
  · cases e <;> cases hec
    exact hby.elim
  · cases hec
    exact hw

end SonicChain
