import SonicChain.Worker

/-! # Reading the record

What the log says about one worker, or one transaction.  Each reading is a
selection of events, so that a step, which adds at most one event that counts,
extends it at the end.
-/

namespace SonicChain
variable [Ed25519]

namespace Event

/-- The transaction that the worker has run to `Ok`. -/
def ran (worker : ThreadId) : Event → Option Transaction
  | .dispatched w tx (.ok _) => if w = worker then some tx else none
  | _ => none

/-- The message that the worker has sent to the master at this event. -/
def sent (worker : ThreadId) : Event → Option MessagePayload
  | .dispatched w tx (.ok _) =>
    if w = worker ∧ tx.execStatus = .forwarded then some (.workerExecuted tx.id) else none
  | .dispatched w tx (.error (.tainted _ corrupt)) =>
    if w = worker ∧ (tx.execStatus = .forwarded ∨ corrupt = true) then some (.workerOrphan tx.id)
    else none
  | .reported w executed forwarded =>
    if w = worker then some (.authoringReport executed forwarded) else none
  | _ => none

/-- The message of the worker that the master has received. -/
def collectedFrom (worker : ThreadId) : Event → Option MessagePayload
  | .collected w payload => if w = worker then some payload else none
  | _ => none

def received : Event → Option (ThreadId × MessagePayload)
  | .collected w payload => some (w, payload)
  | _ => none

/-- The worker that has taken the transaction. -/
def attemptOf (tid : TransactionId) : Event → Option ThreadId
  | .attempted w _ tx => if tx.id = tid then some w else none
  | _ => none

/-- The orphan that the master has executed. -/
def orphanExecuted? : Event → Option Transaction
  | .orphanExecuted tx => some tx
  | _ => none

/-- The transaction that has been run to `Ok`, with who ran it. -/
def execution : Event → Option (TransactionId × ExecutionTag)
  | .dispatched w tx (.ok _) => some (tx.id, .done w)
  | .orphanExecuted tx => some (tx.id, .orphan)
  | _ => none

/-- The key that the worker, or the master (`none`), has stored under. -/
def storedBy (thread : Option ThreadId) : Event → Option Key
  | .stored t key => if t = thread then some key else none
  | _ => none

def created? : Event → Option Key
  | .created key => some key
  | _ => none

/-- The event is about the state only. -/
def IsAccess : Event → Prop
  | .created _ => True
  | .stored _ _ => True
  | _ => False

/-- The event is a worker's own. -/
def By (worker : ThreadId) : Event → Prop
  | .attempted w _ _ => w = worker
  | .dispatched w _ _ => w = worker
  | .reported w _ _ => w = worker
  | .created _ => True
  | .stored t _ => t = some worker
  | _ => False

/-- The event is of the phase in which the workers execute: one of the workers', or the
receipt of a message of theirs. -/
def OfWorkers (workers : List ThreadId) (e : Event) : Prop :=
  ∃ w ∈ workers, e.By w ∨ ∃ payload, e = .collected w payload

/-- An event is read as nothing if it is about the state only. -/
theorem filterMap_of_isAccess {A : Type} {f : Event → Option A}
    (hf : ∀ e : Event, e.IsAccess → f e = none) {events : List Event}
    (h : ∀ e ∈ events, e.IsAccess) : events.filterMap f = [] :=
  List.filterMap_eq_nil_iff.mpr fun e he => hf e (h e he)

end Event

/-- The transactions that the worker has run to `Ok`, in order. -/
def ran (worker : ThreadId) (log : List Event) : List Transaction := log.filterMap (Event.ran worker)

/-- The messages that the worker has sent to the master, in order. -/
def sentBy (worker : ThreadId) (log : List Event) : List MessagePayload :=
  log.filterMap (Event.sent worker)

/-- The messages of the worker that the master has received, in order. -/
def collectedFrom (worker : ThreadId) (log : List Event) : List MessagePayload :=
  log.filterMap (Event.collectedFrom worker)

/-- The messages that the master has received, in order. -/
def collectedAll (log : List Event) : List (ThreadId × MessagePayload) := log.filterMap Event.received

/-- The workers that have taken the transaction, in order. -/
def attemptsOf (tid : TransactionId) (log : List Event) : List ThreadId :=
  log.filterMap (Event.attemptOf tid)

/-- The orphans that the master has executed, in order. -/
def orphansExecuted (log : List Event) : List Transaction := log.filterMap Event.orphanExecuted?

/-- The transactions that have been run to `Ok`, in order, with who ran them. -/
def executions (log : List Event) : List (TransactionId × ExecutionTag) := log.filterMap Event.execution

def storedBy (thread : Option ThreadId) (log : List Event) : List Key :=
  log.filterMap (Event.storedBy thread)

/-- The keys under which a read made an entry. -/
def createdKeys (log : List Event) : List Key := log.filterMap Event.created?

/-- The transaction that a message is about. -/
def MessagePayload.executed? : MessagePayload → Option TransactionId
  | .workerExecuted tid => some tid
  | _ => none

def MessagePayload.orphan? : MessagePayload → Option TransactionId
  | .workerOrphan tid => some tid
  | _ => none

def MessagePayload.report? : MessagePayload → Option (Nat × Nat)
  | .authoringReport executed forwarded => some (executed, forwarded)
  | _ => none

def MessagePayload.transaction? : MessagePayload → Option Transaction
  | .transaction tx => some tx
  | _ => none

section
variable (w : ThreadId) (log events : List Event)

@[simp] theorem ran_append : ran w (log ++ events) = ran w log ++ ran w events :=
  List.filterMap_append

@[simp] theorem sentBy_append : sentBy w (log ++ events) = sentBy w log ++ sentBy w events :=
  List.filterMap_append

@[simp] theorem collectedFrom_append :
    collectedFrom w (log ++ events) = collectedFrom w log ++ collectedFrom w events :=
  List.filterMap_append

@[simp] theorem collectedAll_append :
    collectedAll (log ++ events) = collectedAll log ++ collectedAll events :=
  List.filterMap_append

@[simp] theorem attemptsOf_append (tid : TransactionId) :
    attemptsOf tid (log ++ events) = attemptsOf tid log ++ attemptsOf tid events :=
  List.filterMap_append

@[simp] theorem orphansExecuted_append :
    orphansExecuted (log ++ events) = orphansExecuted log ++ orphansExecuted events :=
  List.filterMap_append

@[simp] theorem executions_append :
    executions (log ++ events) = executions log ++ executions events :=
  List.filterMap_append

@[simp] theorem storedBy_append (t : Option ThreadId) :
    storedBy t (log ++ events) = storedBy t log ++ storedBy t events :=
  List.filterMap_append

@[simp] theorem createdKeys_append :
    createdKeys (log ++ events) = createdKeys log ++ createdKeys events :=
  List.filterMap_append

end

/-- The messages of a worker are of three kinds. -/
theorem Event.sent_kind {w : ThreadId} {e : Event} {payload : MessagePayload}
    (h : e.sent w = some payload) :
    (∃ tid, payload = .workerExecuted tid) ∨ (∃ tid, payload = .workerOrphan tid) ∨
      ∃ executed forwarded, payload = .authoringReport executed forwarded := by
  unfold Event.sent at h
  split at h <;> try cases h
  all_goals
    split at h
    · obtain rfl := Option.some.inj h
      simp
    · cases h

/-! ### Events that a reading passes over -/

section
variable {v w : ThreadId} {events : List Event} (hevents : ∀ e ∈ events, e.By w)
include hevents

theorem collectedFrom_of_by : collectedFrom v events = [] := by
  refine List.filterMap_eq_nil_iff.mpr fun e he => ?_
  have := hevents e he
  cases e <;> simp_all [Event.By, Event.collectedFrom]

theorem collectedAll_of_by : collectedAll events = [] := by
  refine List.filterMap_eq_nil_iff.mpr fun e he => ?_
  have := hevents e he
  cases e <;> simp_all [Event.By, Event.received]

variable (hv : v ≠ w)
include hv

theorem ran_of_by : ran v events = [] := by
  refine List.filterMap_eq_nil_iff.mpr fun e he => ?_
  have := hevents e he
  cases e with
  | dispatched u tx result =>
    obtain rfl := this
    cases result <;> simp [Event.ran, Ne.symm hv]
  | _ => rfl

theorem sentBy_of_by : sentBy v events = [] := by
  refine List.filterMap_eq_nil_iff.mpr fun e he => ?_
  have := hevents e he
  cases e with
  | dispatched u tx result =>
    obtain rfl := this
    cases result with
    | ok success => simp [Event.sent, Ne.symm hv]
    | error e => cases e; simp [Event.sent, Ne.symm hv]
  | reported u e f =>
    obtain rfl := this
    simp [Event.sent, Ne.symm hv]
  | _ => rfl

theorem storedBy_of_by : storedBy (some v) events = [] := by
  refine List.filterMap_eq_nil_iff.mpr fun e he => ?_
  have := hevents e he
  cases e with
  | stored t key =>
    obtain rfl := this
    simp [Event.storedBy, Ne.symm hv]
  | _ => rfl

end

section
variable {w : ThreadId} {events : List Event} (hevents : ∀ e ∈ events, e.IsAccess)
include hevents

theorem ran_of_isAccess : ran w events = [] :=
  Event.filterMap_of_isAccess (fun e he => by cases e <;> first | rfl | exact he.elim) hevents

theorem sentBy_of_isAccess : sentBy w events = [] :=
  Event.filterMap_of_isAccess (fun e he => by cases e <;> first | rfl | exact he.elim) hevents

theorem attemptsOf_of_isAccess (tid : TransactionId) : attemptsOf tid events = [] :=
  Event.filterMap_of_isAccess (fun e he => by cases e <;> first | rfl | exact he.elim) hevents

end

/-- Among what has been run are the worker's transactions. -/
theorem executions_filter (w : ThreadId) (log : List Event) :
    (executions log).filter (fun x => decide (x.2 = .done w)) =
      (ran w log).map fun tx => (tx.id, .done w) := by
  induction log with
  | nil => rfl
  | cons e log ih =>
    rw [executions, ran] at ih ⊢
    cases e with
    | dispatched v tx result =>
      cases result with
      | ok success =>
        by_cases hv : v = w
        · simpa [List.filterMap_cons, Event.execution, Event.ran, hv] using ih
        · simpa [List.filterMap_cons, Event.execution, Event.ran, hv] using ih
      | error why => exact ih
    | orphanExecuted tx => simpa [List.filterMap_cons, Event.execution, Event.ran] using ih
    | _ => exact ih

/-- What the master has received of a worker is part of what it has received. -/
theorem collectedFrom_eq (w : ThreadId) (log : List Event) :
    collectedFrom w log = (collectedAll log).filterMap fun c => if c.1 = w then some c.2 else none := by
  rw [collectedFrom, collectedAll, List.filterMap_filterMap]
  congr 1
  funext e
  cases e <;> rfl

end SonicChain
