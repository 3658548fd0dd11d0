import SonicChain.AuthorRun

/-! # The protocol of validation

In `validate_block` each worker executes the transactions that are tagged with it, in
order, and reports (`Validator`).  The master keeps the orphans, waits for the reports,
and executes the orphans once it has them all: from there the run is `Closing`, as the
end of an authoring run is.
-/

namespace SonicChain
open Worker StoreProgram

section
variable [Ed25519]

/-! ## Reading the record -/

/-- The transaction that the worker has executed for validation. -/
def Event.validatedBy (worker : ThreadId) : Event → Option Transaction
  | .validated w tx => if w = worker then some tx else none
  | _ => none

/-- The transactions that the worker has executed for validation, in order. -/
def validatedBy (worker : ThreadId) (log : List Event) : List Transaction :=
  log.filterMap (Event.validatedBy worker)

@[simp] theorem validatedBy_append (w : ThreadId) (log events : List Event) :
    validatedBy w (log ++ events) = validatedBy w log ++ validatedBy w events :=
  List.filterMap_append

/-- The event is the worker's, in validation, or the receipt of a message of its. -/
def Event.OfValidation (worker : ThreadId) : Event → Prop
  | .validated w _ => w = worker
  | .stored t _ => t = some worker
  | .collected w _ => w = worker
  | _ => False

section
variable {v w : ThreadId} {events : List Event} (hevents : ∀ e ∈ events, e.OfValidation w)
  (hv : v ≠ w)
include hevents hv

theorem validatedBy_of_other : validatedBy v events = [] := by
  refine List.filterMap_eq_nil_iff.mpr fun e he => ?_
  have hof := hevents e he
  cases e with
  | validated u tx =>
    obtain rfl := hof
    simp [Event.validatedBy, Ne.symm hv]
  | _ => rfl

theorem collectedFrom_of_other : collectedFrom v events = [] := by
  refine List.filterMap_eq_nil_iff.mpr fun e he => ?_
  have hof := hevents e he
  cases e with
  | collected u payload =>
    obtain rfl := hof
    simp [Event.collectedFrom, Ne.symm hv]
  | _ => rfl

theorem storedBy_of_other : storedBy (some v) events = [] := by
  refine List.filterMap_eq_nil_iff.mpr fun e he => ?_
  have hof := hevents e he
  cases e with
  | stored t key =>
    obtain rfl := hof
    simp [Event.storedBy, Ne.symm hv]
  | _ => rfl

end

/-! ## The workers -/

/-- How far a worker has come in `run_validate`: with its control point, the workers it
can send to and its orders still to come go the transactions it has executed and what it
has reported.  It begins `ready`, where it may still be on its way back from its last
task; it takes its share in order, one dispatch each, and its one report comes after the
whole share.  There is no forwarding in validation: nothing here depends on another
worker. -/
inductive Validator (workers : List ThreadId) (share : List Transaction) :
    Pc → List ThreadId → List MessagePayload → List Transaction → List MessagePayload → Prop
  | ready {pc : Pc} {toOthers : List ThreadId} {inbox : List MessagePayload}
    (h : Ready workers pc toOthers inbox) :
    Validator workers share pc toOthers (inbox ++ .task .validating :: orders share) [] []
  | depleting {executed rest : List Transaction} (hshare : share = executed ++ rest) :
    Validator workers share .runValidate workers (orders rest) executed []
  | executing {tx : Transaction} {code : Storage (Except DispatchError Unit)}
    {executed rest : List Transaction} (hshare : share = executed ++ tx :: rest)
    (hstop : FailStop DispatchError.Reports Panic.IsExpect code) :
    Validator workers share (.validating tx code) workers (orders rest) executed []
  | reporting : Validator workers share .sendValidationReport workers [] share []
  | reported {pc : Pc} (hpc : pc = .park ∨ pc = .recvTask) :
    Validator workers share pc workers [] share [.validationReport]
  /-- The body of a call has panicked. -/
  | panicked {why : Panic} {inbox : List MessagePayload} {executed rest : List Transaction}
    (hshare : share = executed ++ rest) :
    Validator workers share (.dispatchPanicked why) workers inbox executed []

namespace Validator
variable {workers : List ThreadId} {share : List Transaction} {pc : Pc} {toOthers : List ThreadId}
  {inbox reports : List MessagePayload} {executed : List Transaction} {tx : Transaction}
  {code : Storage (Except DispatchError Unit)}

theorem of_setup (h : Validator workers share .waitFinalizeSetup toOthers inbox executed reports) :
    inbox = .finalizeSetup workers :: .task .validating :: orders share ∧ executed = [] ∧
      reports = [] := by
  cases h with
  | ready hready =>
    cases hready with
    | setup => exact ⟨rfl, rfl, rfl⟩
    | draining hpc => simp at hpc
  | reported hpc => simp at hpc

/-- A worker that is parked, or waits for a task: it has not begun, or is done. -/
theorem of_waiting (h : Validator workers share pc toOthers inbox executed reports)
    (hpc : pc = .park ∨ pc = .recvTask) : toOthers = workers ∧
      (inbox = .task .validating :: orders share ∧ executed = [] ∧ reports = [] ∨
        inbox = [] ∧ executed = share ∧ reports = [.validationReport]) := by
  cases h with
  | ready hready =>
    cases hready with
    | setup => simp at hpc
    | park => exact ⟨rfl, .inl ⟨rfl, rfl, rfl⟩⟩
    | recvTask => exact ⟨rfl, .inl ⟨rfl, rfl, rfl⟩⟩
    | draining hpc' => rcases hpc' with rfl | rfl <;> simp at hpc
  | reported => exact ⟨rfl, .inr ⟨rfl, rfl, rfl⟩⟩
  | _ => simp at hpc

theorem of_polling (h : Validator workers share pc toOthers inbox executed reports)
    (hpc : pc = .pollMaster ∨ pc = .pollOthers) : toOthers = workers ∧
      inbox = .taskDone :: .task .validating :: orders share ∧ executed = [] ∧ reports = [] := by
  cases h with
  | ready hready =>
    cases hready with
    | draining => exact ⟨rfl, rfl, rfl, rfl⟩
    | _ => simp at hpc
  | reported hpc' => rcases hpc' with rfl | rfl <;> simp at hpc
  | _ => simp at hpc

theorem of_runValidate (h : Validator workers share .runValidate toOthers inbox executed reports) :
    toOthers = workers ∧ reports = [] ∧ ∃ rest, share = executed ++ rest ∧ inbox = orders rest := by
  cases h with
  | ready hready => cases hready with | draining hpc => simp at hpc
  | depleting hshare => exact ⟨rfl, rfl, _, hshare, rfl⟩
  | reported hpc => simp at hpc

theorem of_validating
    (h : Validator workers share (.validating tx code) toOthers inbox executed reports) :
    toOthers = workers ∧ reports = [] ∧ FailStop DispatchError.Reports Panic.IsExpect code ∧
      ∃ rest, share = executed ++ tx :: rest ∧ inbox = orders rest := by
  cases h with
  | ready hready => cases hready with | draining hpc => simp at hpc
  | executing hshare hstop => exact ⟨rfl, rfl, hstop, _, hshare, rfl⟩
  | reported hpc => simp at hpc

/-- A transaction that is refused nothing returns `Ok`. -/
theorem returns {result : Except DispatchError Unit}
    (h : Validator workers share (.validating tx (.done result)) toOthers inbox executed reports) :
    ∃ success, toRuntimeDispatchResult result = .ok success := by
  obtain ⟨-, -, hstop, -⟩ := h.of_validating
  cases result with
  | ok u => exact ⟨_, rfl⟩
  | error e =>
    cases e with
    | tainted owner corrupt => exact absurd ⟨corrupt, rfl⟩ (hstop owner)
    | logicError why => exact ⟨_, rfl⟩

theorem of_reporting
    (h : Validator workers share .sendValidationReport toOthers inbox executed reports) :
    toOthers = workers ∧ inbox = [] ∧ executed = share ∧ reports = [] := by
  cases h with
  | ready hready => cases hready with | draining hpc => simp at hpc
  | reporting => exact ⟨rfl, rfl, rfl, rfl⟩
  | reported hpc => simp at hpc

/-- A worker that validates does not author. -/
theorem not_authors (h : Validator workers share pc toOthers inbox executed reports) :
    pc.job = none ∧ ∀ e f, pc ≠ .depleteMasterQueue e f ∧ pc ≠ .sendReport e f := by
  cases h with
  | ready hready =>
    refine ⟨hready.job, fun e f => ?_⟩
    cases hready with
    | draining hpc => rcases hpc with rfl | rfl <;> simp
    | _ => simp
  | reported hpc => rcases hpc with rfl | rfl <;> simp [Pc.job]
  | _ => simp [Pc.job]

/-- The master's orders are what the worker expects. -/
theorem accepts (h : Validator workers share pc toOthers inbox executed reports) (hpc : pc.Receives)
    {payload : MessagePayload} {rest : List MessagePayload} (hinbox : inbox = payload :: rest) :
    pc.Accepts payload := by
  cases h with
  | ready hready =>
    cases hready with
    | setup => cases hinbox; trivial
    | park => cases hpc
    | recvTask => cases hinbox; trivial
    | draining hpc' =>
      rcases hpc' with rfl | rfl
      · cases hinbox; trivial
      · exact hpc.elim
  | @depleting _ txs =>
    cases txs with
    | nil => cases hinbox; trivial
    | cons tx txs => cases hinbox; trivial
  | executing => cases hpc
  | reporting => cases hpc
  | panicked => cases hpc
  | reported => cases hinbox

/-- A worker reports once, when it has executed its share. -/
theorem reports_cases (h : Validator workers share pc toOthers inbox executed reports) :
    reports = [] ∨ reports = [.validationReport] ∧ toOthers = workers ∧ inbox = [] ∧
      executed = share ∧ (pc = .park ∨ pc = .recvTask) := by
  cases h with
  | reported hpc => exact .inr ⟨rfl, rfl, rfl, rfl, hpc⟩
  | _ => exact .inl rfl

end Validator

/-- What a worker makes of its step in validation. -/
structure Validator.Stepped (workers : List ThreadId) (share : List Transaction) (w : ThreadId)
    (wk : Worker) (pending : List MessagePayload) (executed : List Transaction)
    (collected : List MessagePayload) (m : Move) : Prop where
  validator : Validator workers share m.worker.pc m.worker.toOthers (m.worker.fromMaster ++ pending)
    (executed ++ validatedBy w m.events) (collected ++ m.worker.toMaster)
  fromOthers : m.worker.fromOthers = wk.fromOthers
  forward : m.forward = none
  events : ∀ e ∈ m.events, e.OfValidation w
  received : collectedAll m.events = []

section
variable {workers : List ThreadId} {share : List Transaction} {w : ThreadId} {wk wk' : Worker}
  {state : StateMap} {pending collected : List MessagePayload} {executed : List Transaction}
  {m : Move}

theorem Validator.Stepped.of_quiet
    (h : Validator workers share wk'.pc wk'.toOthers (wk'.fromMaster ++ pending) executed
      (collected ++ wk'.toMaster)) (hqueues : wk'.fromOthers = wk.fromOthers) :
    Validator.Stepped workers share w wk pending executed collected (quiet wk' state) :=
  ⟨(List.append_nil executed).symm ▸ h, hqueues, rfl, fun _ he => absurd he List.not_mem_nil, rfl⟩

/-- **Every step of a worker keeps the protocol of validation.** -/
theorem Validator.step
    (h : Validator workers share wk.pc wk.toOthers (wk.fromMaster ++ pending) executed
      (collected ++ wk.toMaster)) (hqueues : ∀ v, wk.fromOthers v = [])
    (htags : ∀ tx ∈ share, tx.tag = .done w) (hstep : Step w wk state m) :
    Validator.Stepped workers share w wk pending executed collected m := by
  cases hstep with
  | setup hpc hq =>
    rw [hpc, hq] at h
    obtain ⟨hinbox, rfl, hreports⟩ := h.of_setup
    obtain ⟨hdata, hrest⟩ := queue_eq_cons hinbox
    cases hdata
    refine .of_quiet ?_ rfl
    dsimp only
    rw [hrest, hreports]
    exact .ready .park
  | park hpc =>
    rw [hpc] at h
    refine .of_quiet ?_ rfl
    dsimp only
    obtain ⟨hothers, ⟨hinbox, rfl, hreports⟩ | ⟨hinbox, rfl, hreports⟩⟩ := h.of_waiting (.inl rfl)
    · rw [hothers, hinbox, hreports]
      exact .ready .recvTask
    · rw [hothers, hinbox, hreports]
      exact .reported (.inr rfl)
  | takeValidating hpc hq =>
    rw [hpc, hq] at h
    obtain ⟨hothers, ⟨hinbox, rfl, hreports⟩ | ⟨hinbox, -, -⟩⟩ := h.of_waiting (.inr rfl)
    · refine .of_quiet ?_ rfl
      dsimp only
      rw [hothers, (queue_eq_cons hinbox).2, hreports]
      exact .depleting (List.nil_append share).symm
    · cases hinbox
  | takeAuthoring hpc hq | takeTerminate hpc hq =>
    rw [hpc, hq] at h
    obtain ⟨-, ⟨hinbox, -, -⟩ | ⟨hinbox, -, -⟩⟩ := h.of_waiting (.inr rfl) <;> cases hinbox
  | taskDone hpc hq =>
    rw [hpc, hq] at h
    obtain ⟨hothers, hinbox, rfl, hreports⟩ := h.of_polling (.inl rfl)
    refine .of_quiet ?_ rfl
    dsimp only
    rw [hothers, (queue_eq_cons hinbox).2, hreports]
    exact .ready .park
  | pollMaster hpc =>
    rw [hpc] at h
    obtain ⟨hothers, hinbox, rfl, hreports⟩ := h.of_polling (.inl rfl)
    refine .of_quiet ?_ rfl
    dsimp only
    rw [hothers, hinbox, hreports]
    exact .ready (.draining (.inr rfl))
  | pollOthers hpc =>
    rw [hpc] at h
    obtain ⟨hothers, hinbox, rfl, hreports⟩ := h.of_polling (.inr rfl)
    refine .of_quiet ?_ rfl
    dsimp only
    rw [hothers, hinbox, hreports]
    exact .ready (.draining (.inl rfl))
  | takeForwarded hpc hq | unexpectedFromOthers hpc hq => rw [hqueues] at hq; cases hq
  | takeForValidation hpc hq =>
    rw [hpc, hq] at h
    obtain ⟨hothers, hreports, rest, hshare, hinbox⟩ := h.of_runValidate
    obtain ⟨rest', rfl, hrest⟩ := orders_eq_transaction hinbox
    refine .of_quiet ?_ rfl
    dsimp only
    rw [hothers, hrest, hreports]
    exact .executing hshare (OuterCall.failStop_dispatch ..)
  | validationDone hpc hq =>
    rw [hpc, hq] at h
    obtain ⟨hothers, hreports, rest, hshare, hinbox⟩ := h.of_runValidate
    obtain ⟨rfl, hrest⟩ := orders_eq_done hinbox
    rw [List.append_nil] at hshare
    refine .of_quiet ?_ rfl
    dsimp only
    rw [hothers, hrest, hreports, ← hshare]
    exact .reporting
  | validateRead hpc =>
    rw [hpc] at h
    obtain ⟨hothers, hreports, hstop, rest, hshare, hinbox⟩ := h.of_validating
    refine .of_quiet ?_ rfl
    dsimp only
    rw [hothers, hinbox, hreports]
    exact .executing hshare (hstop.2 _)
  | validateWrite hpc =>
    rw [hpc] at h
    obtain ⟨hothers, hreports, hstop, rest, hshare, hinbox⟩ := h.of_validating
    refine ⟨?_, rfl, rfl, fun e he => List.mem_singleton.mp he ▸ rfl, rfl⟩
    dsimp only
    rw [hothers, hinbox, hreports, show validatedBy w [.stored (some w) _] = [] from rfl,
      List.append_nil]
    exact .executing hshare (hstop.2 _)
  | @validateEnd tx _ _ hpc hresult =>
    rw [hpc] at h
    obtain ⟨hothers, hreports, hstop, rest, hshare, hinbox⟩ := h.of_validating
    refine ⟨?_, rfl, rfl, fun e he => List.mem_singleton.mp he ▸ rfl, rfl⟩
    dsimp only
    have hone : validatedBy w [.validated w tx] = [tx] := by simp [validatedBy, Event.validatedBy]
    rw [hothers, hinbox, hreports, hone]
    exact .depleting (by rw [hshare, List.append_assoc, List.singleton_append])
  | validateRefused hpc hresult =>
    rw [hpc] at h
    obtain ⟨success, hok⟩ := h.returns
    cases hok.symm.trans hresult
  | validateFault hpc =>
    rw [hpc] at h
    obtain ⟨hothers, hreports, hstop, rest, hshare, hinbox⟩ := h.of_validating
    refine .of_quiet ?_ rfl
    dsimp only
    rw [hothers, hinbox, hreports]
    exact .panicked hshare
  | sendValidationReport hpc =>
    rw [hpc] at h
    obtain ⟨hothers, hinbox, rfl, hreports⟩ := h.of_reporting
    refine .of_quiet ?_ rfl
    dsimp only
    rw [hothers, hinbox, ← List.append_assoc, hreports]
    exact .reported (.inl rfl)
  | mistagged hpc hq htag =>
    rw [hpc, hq] at h
    obtain ⟨-, -, rest, hshare, hinbox⟩ := h.of_runValidate
    obtain ⟨rest', rfl, -⟩ := orders_eq_transaction hinbox
    exact absurd (htags _ (by rw [hshare]; simp)) htag
  | unexpected hreceives hq hpayload =>
    rw [hq] at h
    exact absurd (h.accepts hreceives rfl) hpayload
  | takeTransaction hpc | distributionDone hpc => exact absurd hpc (h.not_authors.2 _ _).1
  | report hpc => exact absurd hpc (h.not_authors.2 _ _).2
  | settle hres =>
    have hjob := h.not_authors.1
    rw [hres.executes.job_eq] at hjob
    cases hjob
  | access hpc | accessRecheck hpc | beginCommit hpc | commit hpc | commitPanic hpc | fault hpc =>
    have hjob := h.not_authors.1
    rw [hpc] at hjob
    cases hjob

end

/-! ## The master -/

/-- The orphan that an effect keeps. -/
def Master.Effect.pushed? : Master.Effect → Option Transaction
  | .pushOrphan tx => some tx
  | _ => none

/-- The effects of `validate_block`, on a block whose tags it expects. -/
def Master.Effect.OfValidation : Master.Effect → Prop
  | .panic _ => False
  | _ => True

/-- The transactions that are tagged as orphans. -/
def Pool.orphans (block : Pool) : List Transaction := block.filter fun tx => decide (tx.tag = .orphan)

/-- The transactions can be validated: each is an orphan, or was executed by a worker. -/
def Tagged (exec : Executor) (block : List Transaction) : Prop :=
  ∀ tx ∈ block, tx.tag = .orphan ∨ ∃ w ∈ exec.workers, tx.tag = .done w

omit [Ed25519] in
theorem filterMap_cons_toList {A B : Type} (f : A → Option B) (a : A) (l : List A) :
    (a :: l).filterMap f = (f a).toList ++ l.filterMap f := by
  cases h : f a <;> simp [h]

/-- What an effect of the master changes in a worker: what has been sent to it. -/
theorem System.perform_worker (s : System) (effect : Master.Effect) (todo : List Master.Effect)
    (v : ThreadId) : ((s.perform effect todo).worker v).pc = (s.worker v).pc ∧
      ((s.perform effect todo).worker v).toOthers = (s.worker v).toOthers ∧
      ((s.perform effect todo).worker v).fromOthers = (s.worker v).fromOthers ∧
      ((s.perform effect todo).worker v).toMaster = (s.worker v).toMaster ∧
      ((s.perform effect todo).worker v).fromMaster =
        (s.worker v).fromMaster ++ (effect.messageTo v).toList := by
  cases effect with
  | unpark u =>
    by_cases hv : v = u
    · subst hv; simp [perform, setWorker, Master.Effect.messageTo]
    · simp [perform, setWorker, Master.Effect.messageTo, hv]
  | send u payload =>
    by_cases hv : v = u
    · subst hv; simp [perform, setWorker, Master.Effect.messageTo]
    · simp [perform, setWorker, Master.Effect.messageTo, hv, Ne.symm hv]
  | _ => simp [perform, Master.Effect.messageTo]

section
variable {exec : Executor} {block : List Transaction}

theorem Tagged.tail {tx : Transaction} (h : Tagged exec (tx :: block)) : Tagged exec block :=
  fun t ht => h t (List.mem_cons_of_mem _ ht)

/-- What `validate_block` sends to a worker, for the transactions. -/
theorem validateEffects_to (h : Tagged exec block) (w : ThreadId) :
    (block.map (Master.validateEffect exec.workers)).filterMap (Master.Effect.messageTo w) =
      (Pool.share block w).map .transaction := by
  induction block with
  | nil => rfl
  | cons tx block ih =>
    have ih := ih h.tail
    rw [Pool.share] at ih ⊢
    rw [List.map_cons, filterMap_cons_toList, ih]
    rcases h tx (List.mem_cons_self ..) with htag | ⟨v, hv, htag⟩
    · simp [Master.validateEffect, Master.Effect.messageTo, htag]
    · by_cases hvw : v = w
      · subst hvw
        simp [Master.validateEffect, Master.sendTo, Master.Effect.messageTo, htag, hv]
      · simp [Master.validateEffect, Master.sendTo, Master.Effect.messageTo, htag, hv, hvw]

/-- It keeps the orphans. -/
theorem validateEffects_pushed (h : Tagged exec block) :
    (block.map (Master.validateEffect exec.workers)).filterMap Master.Effect.pushed? =
      Pool.orphans block := by
  induction block with
  | nil => rfl
  | cons tx block ih =>
    have ih := ih h.tail
    rw [Pool.orphans] at ih ⊢
    rw [List.map_cons, filterMap_cons_toList, ih]
    rcases h tx (List.mem_cons_self ..) with htag | ⟨v, hv, htag⟩
    · simp [Master.validateEffect, Master.Effect.pushed?, htag]
    · simp [Master.validateEffect, Master.sendTo, Master.Effect.pushed?, htag, hv]

theorem validateEffects_ofValidation (h : Tagged exec block) :
    ∀ effect ∈ block.map (Master.validateEffect exec.workers), effect.OfValidation := by
  intro effect heffect
  obtain ⟨tx, htx, rfl⟩ := List.mem_map.mp heffect
  rcases h tx htx with htag | ⟨v, hv, htag⟩
  · rw [Master.validateEffect, htag]
    trivial
  · simp [Master.validateEffect, Master.sendTo, htag, hv, Master.Effect.OfValidation]

end

/-! ## The system -/

/-- **The invariant of validation**, up to the end of the loop in which the master waits
for the reports. -/
structure Validation (exec : Executor) (block orphans : List Transaction) (s : System) : Prop where
  workers : ∀ w ∈ exec.workers, Validator exec.workers (Pool.share block w) (s.worker w).pc
    (s.worker w).toOthers
    ((s.worker w).fromMaster ++ s.master.todo.filterMap (Master.Effect.messageTo w))
    (validatedBy w s.log) (collectedFrom w s.log ++ (s.worker w).toMaster)
  fromOthers : ∀ w ∈ exec.workers, ∀ v, (s.worker w).fromOthers v = []
  todo : ∀ effect ∈ s.master.todo, effect.OfValidation
  orphanPool : s.master.orphanPool ++ s.master.todo.filterMap Master.Effect.pushed? = orphans
  record : ∀ e ∈ s.log, ∃ w ∈ exec.workers, e.OfValidation w
  master : ∃ workersDone, workersDone = (collectedAll s.log).length ∧
    (s.master.pc = .collectReports workersDone ∨ s.master.pc = .checkReports workersDone)

/-- The loop ends: all workers have reported. -/
structure AllReported (exec : Executor) (block orphans : List Transaction) (s : System) : Prop where
  validation : Validation exec block orphans s
  todo : s.master.todo = []
  reported : ∀ w ∈ exec.workers, collectedFrom w s.log = [.validationReport]

/-- The master leaves the loop. -/
def System.leaveReports (s : System) : System :=
  s.setMaster (.executeOrphanPool .validate s.master.orphanPool)

namespace Validation
variable {exec : Executor} {block orphans : List Transaction} {s s' : System} {w : ThreadId}

/-- A worker takes a step. -/
theorem worker_step (h : Validation exec block orphans s) (hw : w ∈ exec.workers) {m : Move}
    (hstep : Step w (s.worker w) s.state m) :
    Validation exec block orphans (s.applyMove w m) := by
  have htags : ∀ tx ∈ Pool.share block w, tx.tag = .done w := fun tx htx =>
    of_decide_eq_true (List.mem_filter.mp htx).2
  have hm := (h.workers w hw).step (h.fromOthers w hw) htags hstep
  have hself : (s.applyMove w m).worker w = m.worker := by
    simp [System.applyMove, System.deliver, hm.forward]
  have hother : ∀ v, v ≠ w → (s.applyMove w m).worker v = s.worker v := by
    intro v hv
    simp [System.applyMove, System.deliver, hm.forward, hv]
  have hlog : (s.applyMove w m).log = s.log ++ m.events := rfl
  refine ⟨fun v hv => ?_, fun v hv u => ?_, h.todo, h.orphanPool, fun e he => ?_, ?_⟩
  · rw [hlog, validatedBy_append, collectedFrom_append]
    by_cases hvw : v = w
    · subst hvw
      have hnone : collectedFrom v m.events = [] := by
        rw [collectedFrom_eq, hm.received]
        rfl
      rw [hself, hnone, List.append_nil]
      exact hm.validator
    · rw [hother v hvw, validatedBy_of_other hm.events hvw, collectedFrom_of_other hm.events hvw,
        List.append_nil, List.append_nil]
      exact h.workers v hv
  · by_cases hvw : v = w
    · subst hvw
      rw [hself, hm.fromOthers]
      exact h.fromOthers v hv u
    · rw [hother v hvw]
      exact h.fromOthers v hv u
  · rcases List.mem_append.mp he with he | he
    · exact h.record e he
    · exact ⟨w, hw, hm.events e he⟩
  · rw [hlog, collectedAll_append, hm.received, List.append_nil]
    exact h.master

/-- The master sends an order, wakes a worker, or keeps an orphan. -/
theorem perform (h : Validation exec block orphans s) {effect : Master.Effect}
    {todo : List Master.Effect} (htodo : s.master.todo = effect :: todo) :
    Validation exec block orphans (s.perform effect todo) := by
  have heffect : effect.OfValidation := h.todo effect (by rw [htodo]; exact List.mem_cons_self ..)
  have htodo' : (s.perform effect todo).master.todo = todo := by
    cases effect <;> first | rfl | exact heffect.elim
  have hlog : (s.perform effect todo).log = s.log := by cases effect <;> rfl
  refine ⟨fun w hw => ?_, fun w hw v => ?_, fun e he => ?_, ?_, ?_, ?_⟩
  · obtain ⟨hpc, hothers, -, hto, hinbox⟩ := System.perform_worker s effect todo w
    rw [hpc, hothers, hto, hinbox, htodo', hlog, List.append_assoc]
    have hworker := h.workers w hw
    rw [htodo, filterMap_cons_toList] at hworker
    exact hworker
  · rw [(System.perform_worker s effect todo w).2.2.1]
    exact h.fromOthers w hw v
  · rw [htodo'] at he
    exact h.todo e (by rw [htodo]; exact List.mem_cons_of_mem _ he)
  · have horphans := h.orphanPool
    rw [htodo, filterMap_cons_toList, ← List.append_assoc] at horphans
    rw [htodo', ← horphans]
    cases effect with
    | pushOrphan tx => rfl
    | panic why => exact heffect.elim
    | _ => exact congrArg (· ++ _) (List.append_nil _).symm
  · rw [hlog]
    exact h.record
  · rw [hlog]
    obtain ⟨workersDone, hcount, hpc⟩ := h.master
    refine ⟨workersDone, hcount, ?_⟩
    cases effect <;> first | exact hpc | exact heffect.elim

/-- The messages that the master has received are the workers'. -/
theorem senders (h : Validation exec block orphans s) :
    ∀ c ∈ collectedAll s.log, c.1 ∈ exec.workers := by
  intro c hc
  obtain ⟨e, he, hec⟩ := List.mem_filterMap.mp hc
  obtain ⟨w, hw, hof⟩ := h.record e he
  cases e <;> cases hec
  exact hof ▸ hw

/-- The master receives the report of a worker. -/
theorem collect (h : Validation exec block orphans s) (hw : w ∈ exec.workers)
    (hstep : s.collect w = some s') : Validation exec block orphans s' := by
  obtain ⟨workersDone, hcount, hpc⟩ := h.master
  have hworker := h.workers w hw
  unfold System.collect at hstep
  split at hstep
  · rename_i hcollect _
    rcases hpc with hpc | hpc <;> cases hpc.symm.trans hcollect
  · rename_i n payload rest htodo hreports hq
    -- The message is the worker's report, and the only one.
    rw [hq] at hworker
    obtain ⟨hcollected, rfl, rfl⟩ :
        collectedFrom w s.log = [] ∧ payload = .validationReport ∧ rest = [] := by
      rcases hworker.reports_cases with hnil | ⟨hone, -⟩
      · exact absurd (List.append_eq_nil_iff.mp hnil).2 (List.cons_ne_nil _ _)
      · cases hfrom : collectedFrom w s.log with
        | nil =>
          rw [hfrom] at hone
          obtain ⟨hpayload, hrest⟩ := List.cons.inj hone
          exact ⟨rfl, hpayload, hrest⟩
        | cons first more =>
          rw [hfrom] at hone
          cases (List.append_eq_nil_iff.mp (List.cons.inj hone).2).2
    obtain rfl := Option.some.inj hstep
    have hdone : workersDone = n := by
      rcases hpc with hpc | hpc <;> cases hpc.symm.trans hreports
      rfl
    refine ⟨fun v hv => ?_, fun v hv u => ?_, h.todo, h.orphanPool, fun e he => ?_,
      n + 1, ?_, .inr rfl⟩
    · have hnone : validatedBy v [.collected w .validationReport] = [] := rfl
      by_cases hvw : v = w
      · subst hvw
        simpa [System.setMaster, System.received, System.setWorker, hnone, collectedFrom,
          Event.collectedFrom] using hworker
      · simpa [System.setMaster, System.received, System.setWorker, hnone, collectedFrom,
          Event.collectedFrom, hvw, Ne.symm hvw] using h.workers v hv
    · by_cases hvw : v = w
      · subst hvw
        simpa [System.setMaster, System.received, System.setWorker] using h.fromOthers v hv u
      · simpa [System.setMaster, System.received, System.setWorker, hvw] using h.fromOthers v hv u
    · rcases List.mem_append.mp he with he | he
      · exact h.record e he
      · exact ⟨w, hw, List.mem_singleton.mp he ▸ rfl⟩
    · rw [← hdone, hcount]
      simp [System.setMaster, System.received, collectedAll, Event.received]
  · cases hstep

/-- **The loop ends when all workers have reported**, each once. -/
theorem allReported (h : Validation exec block orphans s) (htodo : s.master.todo = [])
    (hcount : (collectedAll s.log).length = exec.workers.length) : AllReported exec block orphans s := by
  refine ⟨h, htodo, ?_⟩
  have hle : ∀ w ∈ exec.workers, (collectedFrom w s.log).length ≤ 1 := by
    intro w hw
    rcases (h.workers w hw).reports_cases with hnil | ⟨hone, -⟩
    · simp [(List.append_eq_nil_iff.mp hnil).1]
    · have hlength := congrArg List.length hone
      rw [List.length_append, List.length_singleton] at hlength
      omega
  have hsum : (exec.workers.map fun _ => 1).sum ≤
      (exec.workers.map fun w => (collectedFrom w s.log).length).sum := by
    have hperm := (Tally.perm_flatMap exec.nodup h.senders some).length_eq
    rw [List.length_flatMap] at hperm
    simp only [Tally.of, List.filterMap_some, ← collectedFrom_eq] at hperm
    rw [← hperm, List.length_filterMap_eq_countP]
    simp [hcount]
  intro w hw
  have hone := Tally.eq_of_sum_le exec.workers hle hsum w hw
  rcases (h.workers w hw).reports_cases with hnil | ⟨hreport, -⟩
  · rw [(List.append_eq_nil_iff.mp hnil).1] at hone
    cases hone
  · cases hfrom : collectedFrom w s.log with
    | nil => rw [hfrom] at hone; cases hone
    | cons first more =>
      rw [hfrom] at hreport
      obtain ⟨rfl, hmore⟩ := List.cons.inj hreport
      rw [(List.append_eq_nil_iff.mp hmore).1]

/-- **Every step keeps the protocol of validation**, until the master leaves the loop. -/
theorem step (h : Validation exec block orphans s) (hs : s.Threads exec s') :
    Validation exec block orphans s' ∨ AllReported exec block orphans s ∧ s' = s.leaveReports := by
  cases hs with
  | worker hw hstep => exact .inl (h.worker_step hw hstep)
  | collect hw hstep => exact .inl (h.collect hw hstep)
  | master hstep =>
    cases htodo : s.master.todo with
    | cons effect todo =>
      rw [System.masterStep, htodo] at hstep
      exact .inl (Option.some.inj hstep ▸ h.perform htodo)
    | nil =>
      rw [System.masterStep, htodo] at hstep
      obtain ⟨workersDone, hcount, hpc⟩ := h.master
      have hstay : ∀ pc, (pc = .collectReports workersDone ∨ pc = .checkReports workersDone) →
          Validation exec block orphans (s.setMaster pc) := fun pc hpc =>
        ⟨h.workers, h.fromOthers, h.todo, h.orphanPool, h.record, workersDone, hcount, hpc⟩
      rcases hpc with hpc | hpc <;> simp only [hpc] at hstep
      · exact .inl (Option.some.inj hstep ▸ hstay _ (.inr rfl))
      · split at hstep
        · rename_i hdone
          exact .inr ⟨h.allReported htodo (hcount.symm.trans hdone), (Option.some.inj hstep).symm⟩
        · exact .inl (Option.some.inj hstep ▸ hstay _ (.inl rfl))

end Validation

namespace AllReported
variable {exec : Executor} {block orphans : List Transaction} {s : System} {w : ThreadId}
  (h : AllReported exec block orphans s)
include h

/-- A worker that has reported has nothing more to do. -/
theorem idle (hw : w ∈ exec.workers) : Idle exec (s.worker w) [] := by
  have hworker := h.validation.workers w hw
  rw [h.reported w hw, h.todo] at hworker
  obtain hnil | ⟨hreports, hothers, hinbox, -, hpc⟩ := hworker.reports_cases
  · cases hnil
  · refine ⟨?_, h.validation.fromOthers w hw, (List.cons.inj hreports).2⟩
    rw [hothers]
    change (s.worker w).fromMaster ++ [] = [] at hinbox
    rw [hinbox]
    rcases hpc with hpc | hpc <;> rw [hpc]
    · exact .park
    · exact .recvTask

/-- It has executed its share. -/
theorem executed (hw : w ∈ exec.workers) : validatedBy w s.log = Pool.share block w := by
  have hworker := h.validation.workers w hw
  rw [h.reported w hw] at hworker
  obtain hnil | ⟨-, -, -, hexecuted, -⟩ := hworker.reports_cases
  · cases hnil
  · exact hexecuted

theorem orphanPool : s.master.orphanPool = orphans := by
  have horphans := h.validation.orphanPool
  rwa [h.todo, List.filterMap_nil, List.append_nil] at horphans

/-- **The orphan phase begins.** -/
theorem closing : Closing exec .validate s s.leaveReports := by
  refine ⟨fun w hw => ?_, fun effect heffect => ?_, rfl, rfl, [], (List.append_nil _).symm,
    fun _ he => absurd he List.not_mem_nil, .inl ⟨rfl, rfl, rfl, fun _ => Iff.rfl⟩⟩
  · change Idle exec (s.worker w) (s.master.todo.filterMap (Master.Effect.messageTo w))
    rw [h.todo]
    exact h.idle hw
  · change effect ∈ s.master.todo at heffect
    rw [h.todo] at heffect
    cases heffect

end AllReported

/-! ## Runs -/

/-- The call has been made in `s₀`, and the threads have taken steps since, in any
order. -/
def System.Called (exec : Executor) (s₀ : System) (c : Call) (s : System) : Prop :=
  ∃ as : List Action, (∀ a ∈ as, a.OfThread) ∧
    Transition.exec (System.step exec) as (s₀.begin exec c) = some s

/-- No thread has taken a step yet. -/
theorem System.called_begin (exec : Executor) (s₀ : System) (c : Call) :
    s₀.Called exec c (s₀.begin exec c) :=
  ⟨[], fun _ ha => absurd ha List.not_mem_nil, rfl⟩

/-- Nothing else than orphans is in an orphan pool that is empty. -/
theorem System.onlyOrphans {s : System} (h : s.master.orphanPool = []) :
    ∀ tx ∈ s.master.orphanPool, tx.tag = .orphan := by
  intro tx htx
  rw [h] at htx
  cases htx

/-- A call of `validate_block`, up to some state. -/
structure ValidateCall (exec : Executor) (s₀ : System) (block : List Transaction) (s : System) :
    Prop where
  ready : s₀.Ready exec
  orphanPool : ∀ tx ∈ s₀.master.orphanPool, tx.tag = .orphan
  run : s₀.Called exec (.validateBlock block) s

section
variable {exec : Executor} {s₀ s s' : System} {block orphans : List Transaction}

/-- **A call of `validate_block` on an executor that is ready begins a run.** -/
theorem Validation.begin (hready : s₀.Ready exec) (htags : Tagged exec block) :
    Validation exec block (s₀.master.orphanPool ++ Pool.orphans block)
      (s₀.begin exec (.validateBlock block)) := by
  refine ⟨fun w hw => ?_, hready.fromOthers, fun effect heffect => ?_, ?_,
    fun _ he => absurd he List.not_mem_nil, 0, rfl, .inl rfl⟩
  · have hpending : (s₀.begin exec (.validateBlock block)).master.todo.filterMap
        (Master.Effect.messageTo w) = .task .validating :: orders (Pool.share block w) := by
      simp [System.begin, List.filterMap_append, unparkAll_to, broadcast_to exec.nodup hw,
        validateEffects_to htags, orders]
    rw [hpending]
    have hto : (s₀.worker w).toMaster = [] := hready.toMaster w hw
    have hstart : Validator exec.workers (Pool.share block w) _ _ _ [] [] :=
      .ready (hready.workers w hw)
    exact hto ▸ hstart
  · simp only [System.begin, List.mem_append] at heffect
    rcases heffect with ((heffect | heffect) | heffect) | heffect
    · obtain ⟨u, -, rfl⟩ := List.mem_map.mp heffect
      trivial
    · obtain ⟨u, -, rfl⟩ := List.mem_map.mp heffect
      trivial
    · exact validateEffects_ofValidation htags effect heffect
    · obtain ⟨u, -, rfl⟩ := List.mem_map.mp heffect
      trivial
  · have hnone : ∀ payload, (Master.broadcast exec.workers payload).filterMap
        Master.Effect.pushed? = [] := by
      intro payload
      refine List.filterMap_eq_nil_iff.mpr fun effect heffect => ?_
      obtain ⟨u, -, rfl⟩ := List.mem_map.mp heffect
      rfl
    have hunpark : (Master.unparkAll exec.workers).filterMap Master.Effect.pushed? = [] := by
      refine List.filterMap_eq_nil_iff.mpr fun effect heffect => ?_
      obtain ⟨u, -, rfl⟩ := List.mem_map.mp heffect
      rfl
    simp [System.begin, List.filterMap_append, hnone, hunpark, validateEffects_pushed htags]

/-- The orphans that the master executes in the end are tagged as such. -/
theorem ValidateCall.tagged_orphans (h : ValidateCall exec s₀ block s) :
    ∀ tx ∈ s₀.master.orphanPool ++ Pool.orphans block, tx.tag = .orphan := by
  intro tx htx
  rcases List.mem_append.mp htx with htx | htx
  · exact h.orphanPool tx htx
  · exact of_decide_eq_true (List.mem_filter.mp htx).2

/-- Where a run of `validate_block` is, with what is kept as long as the workers execute. -/
def ValidationPhase (exec : Executor) (block orphans : List Transaction) (K : System → Prop)
    (s : System) : Prop :=
  (Validation exec block orphans s ∧ K s) ∨
    ∃ s₁, (AllReported exec block orphans s₁ ∧ K s₁) ∧ Closing exec .validate s₁ s

theorem ValidationPhase.step {K : System → Prop} (h : ValidationPhase exec block orphans K s)
    (horphans : ∀ tx ∈ orphans, tx.tag = .orphan)
    (hstep : ∀ s s', Validation exec block orphans s → K s → s.Threads exec s' → K s')
    (hs : s.Threads exec s') :
    ValidationPhase exec block orphans K s' ∨ s'.MasterPanicked := by
  rcases h with ⟨hvalidation, hk⟩ | ⟨s₁, ⟨hreported, hk⟩, hclosing⟩
  · rcases hvalidation.step hs with hnext | ⟨hreported, rfl⟩
    · exact .inl (.inl ⟨hnext, hstep s s' hvalidation hk hs⟩)
    · exact .inl (.inr ⟨s, ⟨hreported, hk⟩, hreported.closing⟩)
  · rw [← hreported.orphanPool] at horphans
    exact (hclosing.step horphans hs).imp_left fun hnext => .inr ⟨s₁, ⟨hreported, hk⟩, hnext⟩

/-- **The phases of a run of `validate_block`.** -/
theorem ValidateCall.phase_of (h : ValidateCall exec s₀ block s) (htagged : Tagged exec block)
    {K : System → Prop}
    (hbegin : K (s₀.begin exec (.validateBlock block)))
    (hstep : ∀ s s', Validation exec block (s₀.master.orphanPool ++ Pool.orphans block) s → K s →
      s.Threads exec s' → K s') :
    ValidationPhase exec block (s₀.master.orphanPool ++ Pool.orphans block) K s ∨
      s.MasterPanicked := by
  obtain ⟨as, has, hexec⟩ := h.run
  exact Transition.exec_invariant_unless
    (fun s a s' ha hi hs => hi.step h.tagged_orphans hstep (System.threads_of_step ha hs))
    (fun s a s' ha hb hs => hb.step (System.threads_of_step ha hs)) has hexec
    (.inl ⟨.begin h.ready htagged, hbegin⟩)

end
end
end SonicChain
