import SonicChain.WorkerProgress

/-! # What a worker finds when it starts a task

A worker takes its task from the master's queue, and behind it there is nothing but what
the master has to say of this very task (`Stage.starts`).  In the queues of the other
workers it may find transactions of the task already: another worker that has started
before may have been refused a key which is tainted with this one in the state that the
call has found.  Where there is no such key the queues are empty.  For a worker that has
not begun then owns nothing, and only the owner of a key is forwarded to (`Unclaimed`).
-/

namespace SonicChain
open Worker ConcurrentRuntime

section
variable [Ed25519]

/-! ## Behind the task -/

/-- The message is about the transactions of a task, or their end. -/
def MessagePayload.OfTask (current : List Transaction) (payload : MessagePayload) : Prop :=
  payload = .transactionDistributionDone ∨
    ∃ tx, payload = .transaction tx ∧ ∃ t ∈ current, tx.content = t.content

theorem MessagePayload.ofTask_of_mem_orders {current : List Transaction}
    {payload : MessagePayload} (txs : List Transaction) (htxs : ∀ tx ∈ txs, ∃ t ∈ current, tx.content = t.content)
    (h : payload ∈ orders txs) : payload.OfTask current := by
  rcases List.mem_append.mp h with h | h
  · obtain ⟨tx, htx, rfl⟩ := List.mem_map.mp h
    exact .inr ⟨tx, rfl, htxs tx htx⟩
  · exact .inl (List.mem_singleton.mp h)

/-- The worker is about to start a task: it only has to take it out of its queue. -/
def Worker.Starts (wk : Worker) (task : TaskType) (rest : List MessagePayload) : Prop :=
  wk.pc = .recvTask ∧ wk.fromMaster = .task task :: rest

theorem Worker.Ready.not_task {workers toOthers : List ThreadId} {pc : Pc}
    {inbox : List MessagePayload} {task : TaskType} (h : Ready workers pc toOthers inbox) :
    .task task ∉ inbox := by
  intro htask
  cases h with
  | setup | draining => cases List.mem_singleton.mp htask
  | park => cases htask
  | recvTask => cases htask

/-- A worker that is to validate begins with its share of the block. -/
theorem Validator.of_task {workers toOthers : List ThreadId} {share executed : List Transaction}
    {inbox reports : List MessagePayload} {task : TaskType}
    (h : Validator workers share .recvTask toOthers (.task task :: inbox) executed reports) :
    inbox = orders share := by
  generalize hpc : Pc.recvTask = pc at h
  generalize hqueue : MessagePayload.task task :: inbox = queue at h
  cases h with
  | ready hready =>
    subst hpc
    cases hready with
    | recvTask => exact (List.cons.inj hqueue).2
    | draining hpc => simp at hpc
  | reported => cases hqueue
  | _ => cases hpc

section
variable {exec : Executor} {s₀ s s' : System} {current : List Transaction} {terminates : Bool}
  {task : TaskType} {rest : List MessagePayload} {w : ThreadId}

theorem Worker.Starts.mem {queue : List MessagePayload} {wk : Worker} (h : wk.Starts task rest) :
    .task task ∈ wk.fromMaster ++ queue := by
  rw [h.2]
  exact List.mem_append_left _ (List.mem_cons_self ..)

theorem Worker.Leaving.not_task {workers toOthers : List ThreadId} {pc : Pc}
    {inbox : List MessagePayload} (h : Worker.Leaving workers pc toOthers inbox) :
    .task task ∉ inbox := by
  cases h <;> simp

/-- **Nothing of an earlier task is behind the task.** -/
theorem Stage.starts (h : Stage exec terminates current s) (hw : w ∈ exec.workers)
    (hstarts : (s.worker w).Starts task rest) : ∀ payload ∈ rest, payload.OfTask current := by
  obtain ⟨hpc, hq⟩ := hstarts
  intro payload hpayload
  cases h with
  | resting h =>
    have hready := h.workers w hw
    rw [hq] at hready
    exact absurd (List.mem_cons_self ..) hready.not_task
  | @authoring s₀ _ _ pool h =>
    rcases h.phase with hauthoring | ⟨s₁, -, hclosing⟩
    · have hstand := (hauthoring.workers w hw).stand
      rw [hpc, hq] at hstand
      have hrest := (queue_eq_cons hstand.of_recvTask.2.1).2
      refine MessagePayload.ofTask_of_mem_orders (pool.share w) (fun tx htx => ?_) ?_
      · obtain ⟨t, ht, v, -, rfl⟩ := h.distributes.of_mem (List.mem_filter.mp htx).1
        exact ⟨t, ht, rfl⟩
      · rw [← hrest]
        exact List.mem_append_left _ hpayload
    · exact absurd (Starts.mem ⟨hpc, hq⟩) (hclosing.workers w hw).retired.ready.not_task
  | validating h htagged hsound =>
    have hphase := h.phase_of htagged (K := fun _ => True) trivial fun _ _ _ _ _ => trivial
    rcases hphase.resolve_right fun hpanic => hsound (.inr hpanic) with
      ⟨hvalidation, -⟩ | ⟨s₁, -, hclosing⟩
    · have hvalidator := hvalidation.workers w hw
      rw [hpc, hq] at hvalidator
      have hrest : rest ++ _ = _ := hvalidator.of_task
      refine MessagePayload.ofTask_of_mem_orders (Pool.share current w)
        (fun tx htx => ⟨tx, (List.mem_filter.mp htx).1, rfl⟩) ?_
      rw [← hrest]
      exact List.mem_append_left _ hpayload
    · exact absurd (Starts.mem ⟨hpc, hq⟩) (hclosing.workers w hw).retired.ready.not_task
  | leaving h => exact absurd (Starts.mem ⟨hpc, hq⟩) (h.workers w hw).not_task

/-! ## A worker that owns nothing -/

/-- The worker has yet to take its task, in authoring. -/
def System.Unbegun (s : System) (w : ThreadId) : Prop :=
  .task .authoring ∈ (s.worker w).fromMaster ++ s.master.todo.filterMap (Master.Effect.messageTo w)

/-- The worker owns nothing, and nothing has been forwarded to it. -/
structure System.Unclaimed (s : System) (w : ThreadId) : Prop where
  job : (s.worker w).pc.job = none
  fromOthers : ∀ v, (s.worker w).fromOthers v = []
  owns : ∀ k, ¬ Owns w s.state k

/-- The control points at which a worker has nothing to do but look into its queues. -/
def Worker.Pc.Idles (pc : Pc) : Prop :=
  pc ∈ [.waitFinalizeSetup, .park, .recvTask, .pollMaster, .pollOthers]

/-- A worker that has yet to take its task idles, unless it is inside a dispatch. -/
theorem Stand.idles {workers : List ThreadId} {pool : Pool} {fresh : Prop} {pc : Pc}
    {toOthers : List ThreadId} {inbox : List MessagePayload} {ran : List Transaction}
    {reports : List (Nat × Nat)} (h : Stand workers pool w fresh pc toOthers inbox ran reports)
    (htask : .task .authoring ∈ inbox) (hjob : pc.job = none) : pc.Idles := by
  have not_orders : ∀ txs, MessagePayload.task .authoring ∉ orders txs := fun txs => by simp [orders]
  cases h with
  | setup | park | recvTask => simp [Pc.Idles]
  | draining hpc => rcases hpc with rfl | rfl <;> simp [Pc.Idles]
  | depleting => exact absurd htask (not_orders _)
  | reporting | polling => cases htask
  | zeroth hpc | first hpc | second hpc => rw [hpc.job_eq] at hjob; cases hjob

/-- A worker that idles, and to which nothing has been forwarded, touches nothing. -/
theorem Worker.Step.idles {wk : Worker} {state : StateMap} {m : Move} (h : Step w wk state m)
    (hpc : wk.pc.Idles) (hothers : ∀ v, wk.fromOthers v = []) :
    m.state = state ∧ m.forward = none ∧ m.worker.fromOthers = wk.fromOthers ∧
      m.worker.pc.job = none := by
  cases h with
  | setup | park | takeAuthoring | takeValidating | takeTerminate | taskDone | pollMaster
  | pollOthers | unexpected => exact ⟨rfl, rfl, rfl, rfl⟩
  | takeForwarded hpc' hq | unexpectedFromOthers hpc' hq =>
    rw [hothers] at hq
    cases hq
  | settle hres =>
    have hjob := hres.executes.job_eq
    generalize wk.pc = pc at hjob hpc
    simp only [Pc.Idles, List.mem_cons, List.not_mem_nil, or_false] at hpc
    rcases hpc with rfl | rfl | rfl | rfl | rfl <;> cases hjob
  | _ hpc' =>
    rw [hpc'] at hpc
    simp [Pc.Idles] at hpc

/-- A worker takes messages out of its queue, and puts none in. -/
theorem Worker.Step.fromMaster_suffix {wk : Worker} {state : StateMap} {m : Move}
    (h : Step w wk state m) : m.worker.fromMaster <:+ wk.fromMaster := by
  cases h.rests with
  | park _ _ hqueue => rw [hqueue]
  | command _ hqueue => exact ⟨[_], hqueue.symm⟩
  | panicked _ hqueue => rw [hqueue]
  | works _ _ hqueue => exact hqueue

/-- **A transaction is forwarded to the owner of a key.** -/
theorem Authoring.forwards_to_owner {pool : Pool} {data₀ : Key → Value} {fresh : ThreadId → Prop}
    (h : Authoring exec pool data₀ fresh s) (hw : w ∈ exec.workers) {m : Move}
    (hstep : Step w (s.worker w) s.state m) {target : ThreadId} {payload : MessagePayload}
    (hforward : m.forward = some (target, payload)) : ∃ k, Owns target s.state k := by
  have hinv := h.workers w hw
  by_cases hexec : ∃ job, (s.worker w).pc.Executes job
  · obtain ⟨job, hexec⟩ := hexec
    rcases hinv.faithful.inside h.untouched hstep hexec with hm | ⟨why, rfl⟩ | ⟨result, hres, rfl⟩
    · cases hm.forward.symm.trans hforward
    · cases hforward
    · rcases hinv.faithful.settle hres with ⟨success, hr, -⟩ | ⟨owner, howner, -, howns, corrupt, hr, -⟩
      · rw [hr, executeOrForward_ok] at hforward
        cases hforward
      · by_cases horphan : job.tx.execStatus = .forwarded ∨ corrupt = true
        · rw [hr, executeOrForward_orphan horphan] at hforward
          cases hforward
        · obtain ⟨hst, rfl⟩ : job.tx.execStatus = .initial ∧ corrupt = false := by
            cases hst : job.tx.execStatus <;> cases corrupt <;> simp_all
          rw [hr, executeOrForward_forward hst ((hinv.stand.of_executes hexec).1 ▸ howner)] at hforward
          cases hforward
          exact howns
  · cases hstep with
    | access hpc => exact absurd ⟨_, by rw [hpc]; exact .executing ..⟩ hexec
    | accessRecheck hpc => exact absurd ⟨_, by rw [hpc]; exact .recheck ..⟩ hexec
    | settle hres => exact absurd ⟨_, hres.executes⟩ hexec
    | _ => cases hforward

/-- What the master does puts no task in anybody's queue that was not on its way. -/
theorem System.Unbegun.of_masterStep (h : s'.Unbegun w) (hstep : s.masterStep exec = some s') :
    s.Unbegun w := by
  cases htodo : s.master.todo with
  | nil =>
    obtain ⟨hworker, hnone⟩ := masterStep_noCommand htodo hstep w
    rw [Unbegun, hworker, List.mem_append] at h
    exact List.mem_append_left _ (h.resolve_right fun hmem => by cases hnone _ hmem)
  | cons effect todo =>
    rw [masterStep, htodo] at hstep
    obtain rfl := Option.some.inj hstep
    rw [Unbegun, htodo]
    cases effect with
    | unpark u =>
      have hqueue : ((s.perform (.unpark u) todo).worker w).fromMaster = (s.worker w).fromMaster := by
        by_cases hu : w = u
        · subst hu; simp [perform, setWorker]
        · simp [perform, setWorker, hu]
      rw [Unbegun, hqueue] at h
      exact h
    | send u payload =>
      by_cases hu : w = u
      · subst hu
        simpa [Unbegun, perform, setWorker, Master.Effect.messageTo] using h
      · simpa [Unbegun, perform, setWorker, Master.Effect.messageTo, hu, Ne.symm hu] using h
    | pushOrphan tx => exact h
    | panic why => exact List.mem_append_left _ (by simpa [Unbegun, perform] using h)

/-- **A worker that owns nothing is left alone until it has begun**: every step keeps it so. -/
theorem Authoring.unclaimed_step {pool : Pool} {data₀ : Key → Value} {fresh : ThreadId → Prop}
    (h : Authoring exec pool data₀ fresh s) (hw : w ∈ exec.workers)
    (hclaim : s.Unbegun w → s.Unclaimed w) (hs : s.Threads exec s') (hunbegun : s'.Unbegun w) :
    s'.Unclaimed w := by
  cases hs with
  | @worker v m hv hstep =>
    by_cases hwv : w = v
    · subst hwv
      obtain ⟨queues, hworker⟩ := s.applyMove_self w m
      rw [System.Unbegun, hworker] at hunbegun
      have hbefore : s.Unbegun w :=
        (List.Sublist.append_right hstep.fromMaster_suffix.sublist _).subset hunbegun
      obtain ⟨hjob, hothers, howns⟩ := hclaim hbefore
      have hidles : (s.worker w).pc.Idles := by
        refine (h.workers w hw).stand.idles ?_ hjob
        rw [Master.pending, ← List.append_assoc]
        exact List.mem_append_left _ hbefore
      obtain ⟨hstate, hforward, hfrom, hjob'⟩ := hstep.idles hidles hothers
      refine ⟨?_, fun u => ?_, fun k => ?_⟩
      · rw [System.applyMove_pc_self]
        exact hjob'
      · rw [Authoring.applyMove_worker_self hforward, hfrom]
        exact hothers u
      · exact fun hk => howns k (hstate ▸ hk)
    · obtain ⟨queues, hworker⟩ := s.applyMove_other m hwv
      rw [System.Unbegun, hworker] at hunbegun
      obtain ⟨hjob, hothers, howns⟩ := hclaim hunbegun
      refine ⟨?_, fun u => ?_, fun k hk => howns k (((h.touch hv hstep).owns_iff hwv).mp hk)⟩
      · rw [hworker]
        exact hjob
      · cases hforward : m.forward with
        | none =>
          rw [Authoring.applyMove_worker_other hforward hwv]
          exact hothers u
        | some message =>
          obtain ⟨target, payload⟩ := message
          have hne : w ≠ target := by
            rintro rfl
            obtain ⟨k, hk⟩ := h.forwards_to_owner hv hstep hforward
            exact howns k hk
          simpa [System.applyMove, System.deliver, hforward, hne, hwv] using hothers u
  | master hstep =>
    obtain ⟨hjob, hothers, howns⟩ := hclaim (hunbegun.of_masterStep hstep)
    refine ⟨?_, fun u => ?_, ?_⟩
    · rw [System.masterStep_pc hstep]
      exact hjob
    · rw [System.masterStep_fromOthers hstep]
      exact hothers u
    · rw [(System.masterStep_state hstep h.master_ne).1]
      exact howns
  | collect hv hstep =>
    obtain ⟨-, -, hqueue, htodo⟩ := System.collect_rests hstep w
    rw [System.Unbegun, hqueue, htodo] at hunbegun
    obtain ⟨hjob, hothers, howns⟩ := hclaim hunbegun
    obtain ⟨hstate, hfrom, -⟩ := System.collect_eq hstep
    refine ⟨?_, fun u => ?_, ?_⟩
    · rw [System.collect_pc hstep]
      exact hjob
    · rw [hfrom]
      exact hothers u
    · rw [hstate]
      exact howns

/-- A worker that owns no key of the state that it is to author on finds nothing forwarded to
it when it starts. -/
theorem AuthorRun.starts {txs : List Transaction} {pool : Pool} (h : AuthorRun exec s₀ txs pool s)
    (hw : w ∈ exec.workers) (howns : ∀ k, ¬ Owns w s₀.state k)
    (hstarts : (s.worker w).Starts task rest) (v : ThreadId) : (s.worker w).fromOthers v = [] := by
  have hbegin : (s₀.begin exec (.authorBlock txs)).Unclaimed w := by
    rw [System.begin_eq h.submitted h.txPool]
    exact ⟨(h.ready.workers w hw).job, h.ready.fromOthers w hw, howns⟩
  rcases h.phase_of (K := fun s => s.Unbegun w → s.Unclaimed w) (fun _ => hbegin)
    (fun _ _ hauthoring hk hs => hauthoring.unclaimed_step hw hk hs) with
    ⟨hauthoring, hk⟩ | ⟨s₁, -, hclosing⟩
  · have hstand := (hauthoring.workers w hw).stand
    rw [hstarts.1, hstarts.2] at hstand
    have htask := (queue_eq_cons hstand.of_recvTask.2.1).1
    refine (hk ?_).fromOthers v
    rw [System.Unbegun, hstarts.2, htask]
    simp
  · exact (hclosing.workers w hw).fromOthers v

end

/-! ## The discipline of messages -/

section
variable {exec : Executor} {s₀ s s₁ : System} {current before : List Transaction}
  {terminates : Bool} {c : Call} {task : TaskType} {rest : List MessagePayload} {w : ThreadId}

/-- The call is made in `s₁`, and the threads have taken steps since. -/
def System.Makes (exec : Executor) (s₁ : System) (c : Call) (s : System) : Prop :=
  System.Callable s₁.master.pc = true ∧ s₁.master.todo = [] ∧ s₁.Called exec c s

/-- Who has panicked before a call has panicked after it. -/
theorem System.Makes.sound (h : s₁.Makes exec c s) (hsound : ¬ s.DispatchPanicked exec) :
    ¬ s₁.DispatchPanicked exec := by
  obtain ⟨hcallable, htodo, as, has, hexec⟩ := h
  intro hpanic
  exact hsound (Transition.exec_invariant_of (I := System.DispatchPanicked exec)
    (fun _ _ _ ha hi hs => hi.step (System.threads_of_step ha hs)) has hexec
    (hpanic.call (System.step_call hcallable htodo)))

/-- **A worker finds nothing forwarded to it when it starts**, if it owns no key of the
state that the call has found. -/
theorem Stage.unclaimed_starts (h : Stage exec false before s₁) (hc : c.Allowed exec s₁)
    (hmakes : s₁.Makes exec c s) (hsound : ¬ s.DispatchPanicked exec) (hw : w ∈ exec.workers)
    (howns : ∀ k, ¬ Owns w s₁.state k) (hstarts : (s.worker w).Starts task rest) (v : ThreadId) :
    (s.worker w).fromOthers v = [] := by
  obtain ⟨hcallable, -, hcalled⟩ := hmakes
  obtain ⟨hready, horphans⟩ := h.ready hcallable
  cases hc with
  | authorBlock htxPool horphanPool htxs hdist =>
    have hrun : AuthorRun exec s₁ _ _ s := ⟨hready, htxPool, horphanPool, htxs, hdist, hcalled, hsound⟩
    exact hrun.starts hw howns hstarts v
  | validateBlock htagged =>
    have hcall : ValidateCall exec s₁ _ s := ⟨hready, horphans, hcalled⟩
    have hphase := hcall.phase_of htagged (K := fun _ => True) trivial fun _ _ _ _ _ => trivial
    rcases hphase.resolve_right fun hpanic => hsound (.inr hpanic) with
      ⟨hvalidation, -⟩ | ⟨s₂, -, hclosing⟩
    · exact hvalidation.fromOthers w hw v
    · exact (hclosing.workers w hw).fromOthers v
  | clean => exact (hready.clean hcalled).ready.fromOthers w hw v
  | applyState htaints =>
    obtain ⟨as, has, hexec⟩ := hcalled
    exact ((hready.begin_applyState htaints).of_run has hexec).1.fromOthers w hw v

/-- **Messages keep their order over the whole life of a node.**  In any schedule of calls
and threads in which no body of a call panics: no thread panics over a message; a worker
that starts a task finds behind it messages of this task only, and in the queues of the
other workers transactions of this task only, none if it owns no key of the state that the
call has found; and no worker is parked without its token while it has been given a task,
or told to terminate. -/
theorem messages_in_order (h : Life exec s₀ terminates current s) (hready : s₀.Ready exec)
    (horphans : ∀ tx ∈ s₀.master.orphanPool, tx.tag = .orphan) (hsound : ¬ s.DispatchPanicked exec) :
    s.Orderly exec ∧
    (∀ w ∈ exec.workers, ∀ task rest, (s.worker w).Starts task rest →
      (∀ payload ∈ rest, payload.OfTask current) ∧
      (∀ v, ∀ payload ∈ (s.worker w).fromOthers v,
        ∃ tx, payload = .transaction tx ∧ ∃ t ∈ current, tx.content = t.content) ∧
      ∀ before c s₁, Life exec s₀ false before s₁ → c.Allowed exec s₁ → s₁.Makes exec c s →
        (∀ k, s₁.state.taint k ≠ some w) → ∀ v, (s.worker w).fromOthers v = []) ∧
    ∀ w ∈ exec.workers, (s.worker w).pc = .park → (s.worker w).token = false →
      (∀ task, .task task ∉ (s.worker w).fromMaster) ∧ .terminate ∉ (s.worker w).fromMaster := by
  obtain ⟨hstage, hawake⟩ := h.stage hready horphans hsound
  have hdisciplined := hstage.disciplined hawake
  refine ⟨hdisciplined.orderly, fun w hw task rest hstarts => ⟨hstage.starts hw hstarts,
    hdisciplined.fromOthers w hw, fun before c s₁ hlife hc hmakes huntainted v => ?_⟩,
    fun w hw hpc htoken => ⟨fun task htask => ?_, fun hterminate => ?_⟩⟩
  · have hstage₁ := (hlife.stage hready horphans (hmakes.sound hsound)).1
    exact hstage₁.unclaimed_starts hc hmakes hsound hw huntainted hstarts v
  · cases hdisciplined.awake w hw hpc htoken _ htask
  · cases hdisciplined.awake w hw hpc htoken _ hterminate

end
end

section
open Testing

namespace Testing

/-- Worker 2 has forwarded its transaction to worker 1, which is about to start. -/
def forestalled : System :=
  (Transition.exec (System.step twoWorkers)
    (List.replicate 11 Action.master ++ List.replicate 8 (Action.worker 2) ++
      List.replicate 3 (Action.worker 1))
    (lingering.begin twoWorkers (.authorBlock eitherPayment))).get (by decide +kernel)

/-- Worker 1 is about to start, and owns nothing. -/
def opening : System :=
  (Transition.exec (System.step twoWorkers)
    (List.replicate 11 Action.master ++ List.replicate 2 (Action.worker 1))
    (spawned.begin twoWorkers (.authorBlock backAndForth))).get (by decide +kernel)

/-- What is behind the task that the worker is about to start. -/
def behindTask (wk : Worker) : Option (List MessagePayload) :=
  match wk.pc, wk.fromMaster with
  | .recvTask, .task .authoring :: rest => some rest
  | _, _ => none

theorem starts_of_behindTask {wk : Worker} {rest : List MessagePayload}
    (h : behindTask wk = some rest) : wk.Starts .authoring rest := by
  unfold behindTask at h
  split at h
  · rename_i hpc hq
    rw [← Option.some.inj h]
    exact ⟨hpc, hq⟩
  · cases h

theorem lingering_life : Life twoWorkers spawned false [] lingering := by
  have hcleaned : Life twoWorkers spawned false [] (idled.begin twoWorkers .clean) :=
    idled_run.life.call .clean (System.step_call idled_ready.callable idled_ready.todo)
  exact hcleaned.call (.applyState tainted_workers) (System.step_call rfl idled_ready.todo)

theorem eitherPayment_allowed : (Call.authorBlock eitherPayment).Allowed twoWorkers lingering :=
  .authorBlock overtaken_run.txPool overtaken_run.orphanPool overtaken_run.submitted
    overtaken_run.distributes

theorem forestalled_life : Life twoWorkers spawned false eitherPayment forestalled := by
  have hexec : Transition.exec (System.step twoWorkers)
      (List.replicate 11 Action.master ++ List.replicate 8 (Action.worker 2) ++
        List.replicate 3 (Action.worker 1))
      (lingering.begin twoWorkers (.authorBlock eitherPayment)) = some forestalled :=
    (Option.some_get _).symm
  exact (lingering_life.call eitherPayment_allowed
    (System.step_call lingering_ready.callable lingering_ready.todo)).threads (by decide) hexec

theorem forestalled_starts : sound twoWorkers forestalled = true ∧
    (behindTask (forestalled.worker 1)).isSome = true ∧
    ((forestalled.worker 1).fromOthers 2).length = 1 := by
  decide +kernel

theorem opening_makes : spawned.Makes twoWorkers (.authorBlock backAndForth) opening :=
  ⟨rfl, rfl, List.replicate 11 Action.master ++ List.replicate 2 (Action.worker 1), by decide,
    (Option.some_get _).symm⟩

theorem opening_life : Life twoWorkers spawned false backAndForth opening := by
  obtain ⟨hcallable, htodo, as, has, hexec⟩ := opening_makes
  exact (Life.spawned.call (.authorBlock rfl rfl settled_run.submitted settled_run.distributes)
    (System.step_call hcallable htodo)).threads has hexec

theorem opening_starts : sound twoWorkers opening = true ∧
    (behindTask (opening.worker 1)).isSome = true := by
  decide +kernel

end Testing

/-- Worker 1 finds a transaction of its task forwarded to it in the one run, and nothing in
the other. -/
theorem messages_in_order_starting :
    (∃ rest, (forestalled.worker 1).Starts .authoring rest ∧
      (∀ payload ∈ rest, payload.OfTask eitherPayment) ∧
      ((forestalled.worker 1).fromOthers 2).length = 1 ∧
      ∀ payload ∈ (forestalled.worker 1).fromOthers 2,
        ∃ tx, payload = .transaction tx ∧ ∃ t ∈ eitherPayment, tx.content = t.content) ∧
    ∃ rest, (opening.worker 1).Starts .authoring rest ∧
      (∀ payload ∈ rest, payload.OfTask backAndForth) ∧ ∀ v, (opening.worker 1).fromOthers v = [] := by
  have hnone : ∀ tx ∈ spawned.master.orphanPool, tx.tag = .orphan := System.onlyOrphans rfl
  have hmem : (1 : ThreadId) ∈ twoWorkers.workers := by decide
  obtain ⟨hsound, hbehind, hforwarded⟩ := forestalled_starts
  obtain ⟨hsound', hbehind'⟩ := opening_starts
  obtain ⟨rest, hrest⟩ := Option.isSome_iff_exists.mp hbehind
  obtain ⟨rest', hrest'⟩ := Option.isSome_iff_exists.mp hbehind'
  have hstarts := starts_of_behindTask hrest
  have hstarts' := starts_of_behindTask hrest'
  obtain ⟨-, hstart, -⟩ := messages_in_order forestalled_life spawned_ready hnone
    (not_panicked_of_sound hsound)
  obtain ⟨-, hstart', -⟩ := messages_in_order opening_life spawned_ready hnone
    (not_panicked_of_sound hsound')
  obtain ⟨htask, hothers, -⟩ := hstart 1 hmem _ _ hstarts
  obtain ⟨htask', -, hnothing⟩ := hstart' 1 hmem _ _ hstarts'
  refine ⟨⟨rest, hstarts, htask, hforwarded, hothers 2⟩, rest', hstarts', htask', ?_⟩
  refine hnothing [] _ spawned .spawned (.authorBlock rfl rfl settled_run.submitted
    settled_run.distributes) opening_makes fun k hk => ?_
  rw [spawned_untainted k] at hk
  cases hk

/-- Worker 1 owns alice's key when the state has been applied, and worker 2 forwards its
transaction before worker 1 has started. -/
theorem starts_with_forwarded : Life twoWorkers spawned false eitherPayment forestalled ∧
    ¬ forestalled.DispatchPanicked twoWorkers ∧
    ∃ rest, (forestalled.worker 1).Starts .authoring rest ∧ (forestalled.worker 1).fromOthers 2 ≠ [] := by
  obtain ⟨hsound, hbehind, hforwarded⟩ := forestalled_starts
  obtain ⟨rest, hrest⟩ := Option.isSome_iff_exists.mp hbehind
  refine ⟨forestalled_life, not_panicked_of_sound hsound, rest, starts_of_behindTask hrest, fun hnil => ?_⟩
  rw [hnil] at hforwarded
  cases hforwarded

end
end SonicChain
